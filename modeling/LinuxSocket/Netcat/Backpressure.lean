import LinuxSocket.Netcat.Nonblock

/-! # The relay keeps order and drops nothing

The relay reads the standard input, flushes what the socket did not take, or has sent `SHUT_WR`. An event of a
batch is still registered when its turn comes, because only the event itself takes its registration back.
-/
namespace LinuxSocket.Netcat.Relay

inductive Phase (s : Relay) : Prop
  | reading : s.poll .stdin = some ⟨true, false⟩ → s.poll .sock = some ⟨true, false⟩ →
      s.socketEvents = ⟨true, false⟩ → s.socketOutputBuffer = [] → s.shutWr = false → Phase s
  | flushing : s.poll .stdin = none → s.poll .sock = some ⟨true, true⟩ → s.socketEvents = ⟨true, true⟩ →
      s.socketOutputBuffer ≠ [] → s.shutWr = false → Phase s
  | ended : s.poll .stdin = none → s.poll .sock = some ⟨true, false⟩ → s.socketEvents = ⟨true, false⟩ →
      s.socketOutputBuffer = [] → s.shutWr = true → Phase s

def Expects (s : Relay) (e : Event) : Prop :=
  ∃ m, s.poll e.fd = some m ∧ (e.events.pollin = true → m.pollin = true) ∧
    (e.events.pollout = true → m.pollout = true)

/-- Nothing is lost, and the registrations fit the buffer. -/
structure Sound (s : Relay) : Prop where
  phase : s.Phase
  order : s.written ++ s.socketOutputBuffer = s.readBytes

structure Inv (s : Relay) (batch : List Event) : Prop where
  sound : s.Sound
  nodup : (batch.map Event.fd).Nodup
  expects : ∀ e ∈ batch, s.Expects e

section Handlers
variable {s : Relay} {data : Bytes} {w : Write}

theorem unregister_ok {fd : Fd} {m : Events} (h : s.poll fd = some m) :
    s.unregister fd = .ok { s with poll := Function.update s.poll fd none } := by
  rw [unregister, h]

/-- `os.write` has taken less than all of the data, and this is what `nonBlockingWrite` returns. -/
theorem exists_rest (hw : w = .wouldBlock ∨ ∃ n ≤ data.length, w = .wrote n) :
    ∃ nw, nonBlockingWrite w = some nw ∧
      w.part data ++ data.drop (if nw < 0 then 0 else nw).toNat = data ∧
      (nw < data.length → data ≠ [] → data.drop (if nw < 0 then 0 else nw).toNat ≠ []) ∧
      (¬nw < data.length → w.part data = data) := by
  rcases hw with rfl | ⟨n, hn, rfl⟩
  · exact ⟨-1, rfl, rfl, fun _ hne => hne, fun hlt => absurd hlt (by omega)⟩
  · refine ⟨n, rfl, ?_, fun hlt _ => ?_, fun hge => ?_⟩
    · rw [if_neg (by omega), Int.toNat_natCast]
      exact List.take_append_drop n data
    · rw [if_neg (by omega), Int.toNat_natCast]
      exact mt List.drop_eq_nil_iff.mp (by omega)
    · exact List.take_of_length_le (by omega)

/-- Data from the standard input goes to the socket, and the rest of it to the buffer. -/
theorem stdinReadable_spec (h : s.Sound) (hreg : s.poll .stdin ≠ none)
    (hw : w = .wouldBlock ∨ ∃ n ≤ data.length, w = .wrote n) :
    ∃ s', s.stdinReadable data w = .ok s' ∧ s'.Sound ∧
      ∀ e : Event, e.fd ≠ .stdin → s.Expects e → s'.Expects e := by
  have horder := h.order
  cases h.phase with
  | flushing hstdin => exact absurd hstdin hreg
  | ended hstdin => exact absurd hstdin hreg
  | reading hstdin hsock hevents hbuffer hshut =>
    by_cases hne : data ≠ []
    · obtain ⟨nw, hnw, hall, hrest, hfull⟩ := exists_rest hw
      rw [stdinReadable, if_pos hne, if_neg (by simp [hbuffer]), hnw]
      dsimp only
      by_cases hlt : nw < data.length
      · rw [if_pos hlt]
        refine ⟨_, unregister_ok (m := ⟨true, false⟩) (by simp [register, hstdin]), ⟨?_, ?_⟩, ?_⟩
        · exact .flushing (by simp) (by simp [register, hevents]) (by simp [register, hevents]) (hrest hlt hne) hshut
        · rw [hbuffer, List.append_nil] at horder
          dsimp only [register]
          rw [← horder, List.append_assoc, hall]
        · rintro ⟨_ | _, events⟩ hne ⟨m, hm, hin, hout⟩
          · obtain rfl := Option.some.inj (hsock.symm.trans hm)
            exact ⟨⟨true, true⟩, by simp [register, hevents], hin, fun _ => rfl⟩
          · exact absurd rfl hne
      · rw [if_neg hlt]
        refine ⟨_, rfl, ⟨.reading hstdin hsock hevents hbuffer hshut, ?_⟩, fun _ _ he => he⟩
        dsimp only
        rw [hfull hlt, hbuffer, List.append_nil, ← horder, hbuffer, List.append_nil]
    · rw [stdinReadable, if_neg hne]
      refine ⟨_, unregister_ok (m := ⟨true, false⟩) hstdin, ⟨.ended (by simp) ?_ hevents hbuffer rfl, horder⟩, ?_⟩
      · simpa using hsock
      · rintro e hne ⟨m, hm, hin, hout⟩
        exact ⟨m, (Function.update_of_ne hne _ _).trans hm, hin, hout⟩

/-- A positive part of the buffer goes to the socket. -/
theorem socketWritable_spec (h : s.Sound) (hreg : ∃ m, s.poll .sock = some m ∧ m.pollout = true)
    (hw : ∃ n, 0 < n ∧ n ≤ s.socketOutputBuffer.length ∧ w = .wrote n) :
    ∃ s', s.socketWritable w = .ok s' ∧ s'.Sound ∧
      ∀ e : Event, e.fd ≠ .sock → s.Expects e → s'.Expects e := by
  obtain ⟨m, hm, hout⟩ := hreg
  obtain ⟨n, hpos, hn, rfl⟩ := hw
  have horder := h.order
  cases h.phase with
  | reading _ hsock =>
    obtain rfl := Option.some.inj (hsock.symm.trans hm)
    cases hout
  | ended _ hsock =>
    obtain rfl := Option.some.inj (hsock.symm.trans hm)
    cases hout
  | flushing hstdin hsock hevents hbuffer hshut =>
    have hnone : ∀ (s' : Relay) (e : Event), e.fd ≠ .sock → s.Expects e → s'.Expects e := by
      rintro s' ⟨_ | _, events⟩ hne ⟨m, hm, -⟩
      · exact absurd rfl hne
      · cases hstdin.symm.trans hm
    rw [socketWritable, if_neg (by omega), nonBlockingWrite]
    dsimp only [Write.part]
    by_cases hlt : (n : ℤ) < s.socketOutputBuffer.length
    · rw [if_pos hlt, if_neg (by omega), Int.toNat_natCast]
      refine ⟨_, rfl, ⟨.flushing hstdin hsock hevents (mt List.drop_eq_nil_iff.mp ?_) hshut, ?_⟩, hnone _⟩
      · omega
      · dsimp only
        rw [List.append_assoc, List.take_append_drop, horder]
    · rw [if_neg hlt]
      refine ⟨_, rfl, ⟨?_, ?_⟩, hnone _⟩
      · exact .reading (by simp [register]) (by simp [register, hevents]) (by simp [register, hevents]) rfl hshut
      · dsimp only [register]
        rw [List.append_nil, List.take_of_length_le (by omega), horder]

/-- The end of the data from the socket is all that a readable socket changes. -/
theorem Sound.socketReadable (h : s.Sound) : (s.socketReadable data).Sound := by
  unfold Relay.socketReadable
  split
  · exact h
  · refine ⟨?_, h.order⟩
    cases h.phase with
    | reading hstdin hsock hevents hbuffer hshut => exact .reading hstdin hsock hevents hbuffer hshut
    | flushing hstdin hsock hevents hbuffer hshut => exact .flushing hstdin hsock hevents hbuffer hshut
    | ended hstdin hsock hevents hbuffer hshut => exact .ended hstdin hsock hevents hbuffer hshut

@[simp] theorem socketReadable_poll : (s.socketReadable data).poll = s.poll := by
  unfold socketReadable
  split <;> rfl

@[simp] theorem socketReadable_socketOutputBuffer :
    (s.socketReadable data).socketOutputBuffer = s.socketOutputBuffer := by
  unfold socketReadable
  split <;> rfl

end Handlers

section Runs
variable {s s' : Relay} {e : Event} {batch : List Event} {a : Answers}

/-- `POLLOUT` is handled in the state that `POLLIN` leaves. -/
theorem handle_of_onPollin {s₁ : Relay}
    (h : (if e.events.pollin = true then s.onPollin e.fd a else .ok s) = .ok s₁) :
    s.handle e a = if e.events.pollout = true then s₁.onPollout e.fd a else .ok s₁ := by
  unfold Relay.handle
  split at h
  · rw [if_pos ‹_›, h]
    rfl
  · rw [if_neg ‹_›]
    cases h
    rfl

theorem Sound.handle_sock (h : s.Sound) {events : Events} (he : s.Expects ⟨.sock, events⟩)
    (ha : s.Allowed ⟨.sock, events⟩ a) : ∃ s', s.handle ⟨.sock, events⟩ a = .ok s' ∧ s'.Sound ∧
      ∀ e : Event, e.fd ≠ .sock → s.Expects e → s'.Expects e := by
  obtain ⟨m, hm, -, hout⟩ := he
  obtain ⟨s₁, hs₁, h₁, hpoll, hbuffer⟩ : ∃ s₁,
      (if events.pollin = true then s.onPollin .sock a else .ok s) = .ok s₁ ∧ s₁.Sound ∧
        s₁.poll = s.poll ∧ s₁.socketOutputBuffer = s.socketOutputBuffer := by
    split
    · exact ⟨_, rfl, h.socketReadable, socketReadable_poll, socketReadable_socketOutputBuffer⟩
    · exact ⟨s, rfl, h, rfl, rfl⟩
  have hkept : ∀ e : Event, s.Expects e → s₁.Expects e := by
    intro e he
    rw [Expects, hpoll]
    exact he
  rw [handle_of_onPollin hs₁]
  by_cases hp : events.pollout = true
  · obtain ⟨s₂, hs₂, h₂, hother⟩ := socketWritable_spec h₁ ⟨m, hpoll ▸ hm, hout hp⟩ (hbuffer ▸ ha.2 hp)
    exact ⟨s₂, (if_pos hp).trans hs₂, h₂, fun e hne he => hother e hne (hkept e he)⟩
  · exact ⟨s₁, if_neg hp, h₁, fun e _ he => hkept e he⟩

theorem Sound.handle_stdin (h : s.Sound) {events : Events} (he : s.Expects ⟨.stdin, events⟩)
    (ha : s.Allowed ⟨.stdin, events⟩ a) : ∃ s', s.handle ⟨.stdin, events⟩ a = .ok s' ∧ s'.Sound ∧
      ∀ e : Event, e.fd ≠ .stdin → s.Expects e → s'.Expects e := by
  obtain ⟨m, hm, -⟩ := he
  obtain ⟨s₁, hs₁, hspec⟩ : ∃ s₁,
      (if events.pollin = true then s.onPollin .stdin a else .ok s) = .ok s₁ ∧ s₁.Sound ∧
        ∀ e : Event, e.fd ≠ .stdin → s.Expects e → s₁.Expects e := by
    split
    · exact stdinReadable_spec h (Option.ne_none_iff_exists'.mpr ⟨m, hm⟩) ha.2
    · exact ⟨s, rfl, h, fun _ _ he => he⟩
  refine ⟨s₁, ?_, hspec⟩
  rw [handle_of_onPollin hs₁]
  exact ite_self _

/-- What an event needs and gives, for either descriptor. -/
theorem Sound.handle (h : s.Sound) (he : s.Expects e) (ha : s.Allowed e a) :
    ∃ s', s.handle e a = .ok s' ∧ s'.Sound ∧
      ∀ e' : Event, e'.fd ≠ e.fd → s.Expects e' → s'.Expects e' := by
  obtain ⟨fd, events⟩ := e
  cases fd with
  | sock => exact h.handle_sock he ha
  | stdin => exact h.handle_stdin he ha

/-- An event is handled without an exception, and the others of the batch stay registered. -/
theorem Inv.handle (h : s.Inv (e :: batch)) (ha : s.Allowed e a) :
    ∃ s', s.handle e a = .ok s' ∧ s'.Inv batch := by
  obtain ⟨hnot, hnodup⟩ := List.nodup_cons.mp h.nodup
  obtain ⟨s', hs', hsound, hother⟩ := h.sound.handle (h.expects e List.mem_cons_self) ha
  refine ⟨s', hs', hsound, hnodup, fun e' he' => hother e' ?_ (h.expects e' (List.mem_cons_of_mem _ he'))⟩
  intro heq
  exact hnot (heq ▸ List.mem_map_of_mem he')

theorem Inv.start : Inv .start [] where
  sound := ⟨.reading rfl rfl rfl rfl rfl, rfl⟩
  nodup := List.nodup_nil
  expects _ he := absurd he List.not_mem_nil

theorem Inv.poll (h : s.Inv []) (hp : s.Polled batch) : s.Inv batch where
  sound := h.sound
  nodup := hp.nodup
  expects := hp.registered

theorem Reachable.inv (h : Reachable s batch) : s.Inv batch := by
  induction h with
  | start => exact .start
  | poll _ _ hp ih => exact ih.poll hp
  | handle a _ ha hs ih =>
    obtain ⟨s', hs', hinv⟩ := ih.handle ha
    cases hs.symm.trans hs'
    exact hinv

end Runs

def Reads (s : Relay) : Prop :=
  s.poll .stdin ≠ none ∧ (∀ m, s.poll .sock = some m → m.pollout = false) ∧ s.socketOutputBuffer = []

def Flushes (s : Relay) : Prop :=
  s.poll .stdin = none ∧ (∃ m, s.poll .sock = some m ∧ m.pollout = true) ∧ s.socketOutputBuffer ≠ []

theorem Phase.reads_xor_flushes {s : Relay} (h : s.Phase) (hend : s.shutWr = false) : Xor s.Reads s.Flushes := by
  cases h with
  | reading hstdin hsock _ hbuffer =>
    refine .inl ⟨⟨by simp [hstdin], ?_, hbuffer⟩, fun hf => hf.2.2 hbuffer⟩
    intro m hm
    cases hsock.symm.trans hm
    rfl
  | flushing hstdin hsock _ hbuffer =>
    exact .inr ⟨⟨hstdin, ⟨_, hsock, rfl⟩, hbuffer⟩, fun hr => hbuffer hr.2.2⟩
  | ended _ _ _ _ hshut => cases hend.symm.trans hshut

theorem Sound.written_of_shutWr {s : Relay} (h : s.Sound) (hend : s.shutWr = true) : s.written = s.readBytes := by
  have horder := h.order
  cases h.phase with
  | reading _ _ _ _ hshut => cases hend.symm.trans hshut
  | flushing _ _ _ _ hshut => cases hend.symm.trans hshut
  | ended _ _ _ hbuffer => rwa [hbuffer, List.append_nil] at horder

/-- Between any two events the relay either reads or flushes until the standard input ends, it has written what it
read but for its buffer, `SHUT_WR` follows all of it, and the next event raises nothing. -/
theorem relay_keeps_order {s : Relay} {batch : List Event} (h : Reachable s batch) :
    (s.shutWr = false → Xor s.Reads s.Flushes) ∧
    s.written ++ s.socketOutputBuffer = s.readBytes ∧
    (s.shutWr = true → s.written = s.readBytes) ∧
    ∀ e rest a, batch = e :: rest → s.Allowed e a → ∃ s', s.handle e a = .ok s' := by
  have hinv := h.inv
  refine ⟨hinv.sound.phase.reads_xor_flushes, hinv.sound.order, hinv.sound.written_of_shutWr, ?_⟩
  rintro e rest a rfl ha
  obtain ⟨s', hs', -⟩ := hinv.handle ha
  exact ⟨s', hs'⟩

def partlyWritten : Relay where
  poll := Function.update (Function.update start.poll .sock (some ⟨true, true⟩)) .stdin none
  socketEvents := ⟨true, true⟩
  done := false
  socketOutputBuffer := [2, 3]
  readBytes := [1, 2, 3]
  written := [1]
  shutWr := false

theorem reachable_partlyWritten : Reachable partlyWritten [⟨.sock, ⟨false, true⟩⟩] := by
  have hread : Reachable start [⟨.stdin, ⟨true, false⟩⟩] := by
    refine .poll .start rfl ⟨by decide, ?_⟩
    intro e he
    rw [List.mem_singleton] at he
    subst he
    exact ⟨⟨true, false⟩, rfl, fun _ => rfl, fun hout => hout⟩
  have hpart : Reachable partlyWritten [] :=
    .handle ⟨[1, 2, 3], .wrote 1⟩ hread ⟨by decide, .inr ⟨1, by decide, rfl⟩⟩ rfl
  refine .poll hpart rfl ⟨by decide, ?_⟩
  intro e he
  rw [List.mem_singleton] at he
  subst he
  exact ⟨⟨true, true⟩, rfl, fun _ => rfl, fun _ => rfl⟩

theorem relay_keeps_order_partlyWritten :
    (partlyWritten.shutWr = false → Xor partlyWritten.Reads partlyWritten.Flushes) ∧
    partlyWritten.written ++ partlyWritten.socketOutputBuffer = partlyWritten.readBytes ∧
    (partlyWritten.shutWr = true → partlyWritten.written = partlyWritten.readBytes) ∧
    ∀ e rest a, [⟨.sock, ⟨false, true⟩⟩] = e :: rest → partlyWritten.Allowed e a →
      ∃ s', partlyWritten.handle e a = .ok s' :=
  relay_keeps_order reachable_partlyWritten

end LinuxSocket.Netcat.Relay
