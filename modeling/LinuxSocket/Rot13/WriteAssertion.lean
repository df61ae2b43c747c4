import LinuxSocket.Rot13.LowLevelServer

/-! # The assertion behind the sending loop

`buffer_used` counts all characters that are stored and `write_upto` those up to a line end. The two agree when
the last character received ends a line, and also when the line end has found the buffer full.
-/
namespace LinuxSocket.Rot13

structure Ordered (s : FdState) : Prop where
  written_le : s.nWritten ≤ s.writeUpto
  upto_le : s.writeUpto ≤ s.bufferUsed
  used_le : s.bufferUsed ≤ maxLine

/-- The last character received ends a line, or the line end that has set `write_upto` has found the buffer full. -/
def EndsLine (received : Bytes) (s : FdState) : Prop := received.getLast? = some LF ∨ s.writeUpto = maxLine

def SendsAll (results : List SendResult) : Prop := ∀ r ∈ results, ∃ k, 0 < k ∧ r = .sent k

/-- The indices are in order, and while the event is added all that is stored is to be sent exactly when
`EndsLine` says so. -/
structure Marked (received : Bytes) (s : FdState) : Prop where
  ordered : Ordered s
  upto_eq : s.writeEvent = true → (s.writeUpto = s.bufferUsed ↔ EndsLine received s)

section Callbacks
variable {s s' : FdState} {received bytes : Bytes} {results : List SendResult} {r : Conn × Bytes}

theorem Ordered.put (h : Ordered s) (c : UInt8) : Ordered (s.put c) := by
  have hw := h.written_le
  have hu := h.upto_le
  have hm := h.used_le
  unfold FdState.put
  split
  · next hroom => exact ⟨hw, Nat.le_succ_of_le hu, hroom⟩
  · exact h

theorem Marked.readChar (h : Ordered s) (received : Bytes) (c : UInt8) : Marked (received ++ [c]) (s.readChar c) := by
  have hput := h.put c
  have hlast : (received ++ [c]).getLast? = some c := List.getLast?_concat
  unfold FdState.readChar
  dsimp only
  split
  · next hc =>
    exact ⟨⟨hput.written_le.trans hput.upto_le, Nat.le_refl _, hput.used_le⟩,
      fun _ => iff_of_true rfl (Or.inl (hlast.trans (congrArg some hc)))⟩
  · next hc =>
    refine ⟨hput, fun _ => ?_⟩
    have hw := h.upto_le
    have hm := h.used_le
    simp only [EndsLine, hlast, Option.some.injEq, hc, false_or]
    unfold FdState.put
    -- without room nothing changes; with room one more is stored than is to be sent
    split
    · dsimp only
      omega
    · omega

theorem Marked.readChars (h : Marked received s) (bytes : Bytes) :
    Marked (received ++ bytes) (bytes.foldl FdState.readChar s) := by
  induction bytes generalizing s received with
  | nil => rwa [List.append_nil]
  | cons c bytes ih =>
    rw [List.foldl_cons, ← List.singleton_append, ← List.append_assoc]
    exact ih (.readChar h.ordered received c)

theorem Ordered.cells (h : Ordered s) {k : ℕ} (hk : k ≤ s.writeUpto - s.nWritten) :
    ∃ bytes, cells s.buffer s.nWritten (s.nWritten + k) = some bytes := by
  have hw := h.written_le
  have hu := h.upto_le
  have hm := h.used_le
  have hsize := s.size_eq
  exact ⟨_, cells_of_le (by omega)⟩

theorem Ordered.sent (h : Ordered s) {k : ℕ} (hk : k ≤ s.writeUpto - s.nWritten) :
    Ordered { s with nWritten := s.nWritten + k } := by
  have hw := h.written_le
  exact ⟨by dsimp only; omega, h.upto_le, h.used_le⟩

theorem Marked.sent (h : Marked received s) {k : ℕ} (hk : k ≤ s.writeUpto - s.nWritten) :
    Marked received { s with nWritten := s.nWritten + k } :=
  ⟨h.ordered.sent hk, h.upto_eq⟩

/-- The connection behind the loop, in which the assertion has held. -/
theorem marked_rewound (received : Bytes) (s : FdState) :
    Marked received { s with nWritten := 0, writeUpto := 0, bufferUsed := 0, writeEvent := false } :=
  ⟨⟨Nat.le_refl _, Nat.le_refl _, Nat.zero_le _⟩, fun h => (nomatch h)⟩

/-- A `do_write` leaves the indices in order, and can fail its last assertion only when not all that is stored was to
be sent. -/
theorem Marked.writes (h : Marked received s) (hw : Writes s results r) :
    (∀ s', r.1 = .running s' → Marked received s') ∧
      (r.1 = .aborted → s.writeUpto = s.bufferUsed → SendResult.sent 0 ∈ results) := by
  induction hw with
  | @done s hge =>
    have hwritten := h.ordered.written_le
    unfold FdState.written
    dsimp only
    split
    · exact ⟨fun s' hs' => Conn.running.inj hs' ▸ marked_rewound received s, fun ha => Conn.noConfusion ha⟩
    · next hne => exact ⟨fun s' hs' => Conn.noConfusion hs', fun _ hall => absurd (by omega) hne⟩
  | again => exact ⟨fun s' hs' => Conn.running.inj hs' ▸ h, fun ha => Conn.noConfusion ha⟩
  | failed => exact ⟨fun s' hs' => Conn.noConfusion hs', fun ha => Conn.noConfusion ha⟩
  | outside => exact ⟨fun s' hs' => Conn.noConfusion hs', fun ha => Conn.noConfusion ha⟩
  | zero => exact ⟨fun s' hs' => Conn.noConfusion hs', fun _ _ => List.mem_cons_self⟩
  | sent hk _ _ ih =>
    obtain ⟨hnext, habort⟩ := ih (h.sent hk)
    exact ⟨hnext, fun ha hall => List.mem_cons_of_mem _ (habort ha hall)⟩

theorem written_aborted_iff (s : FdState) : s.written = .aborted ↔ s.nWritten ≠ s.bufferUsed := by
  unfold FdState.written
  split <;> simp [*]

/-- When all calls of `send` move something the loop sends all up to `write_upto`. -/
theorem Ordered.writes_all (h : Ordered s) (hall : SendsAll results) (hw : Writes s results r) :
    r.1 = .aborted ↔ s.writeUpto ≠ s.bufferUsed := by
  induction hw with
  | @done s hge =>
    have heq : s.nWritten = s.writeUpto := Nat.le_antisymm h.written_le hge
    rw [written_aborted_iff, heq]
  | again =>
    obtain ⟨k, -, hk⟩ := hall _ List.mem_cons_self
    cases hk
  | failed =>
    obtain ⟨k, -, hk⟩ := hall _ List.mem_cons_self
    cases hk
  | outside hk hcells =>
    obtain ⟨bytes, hsome⟩ := h.cells hk
    cases hcells.symm.trans hsome
  | zero =>
    obtain ⟨k, hpos, hk⟩ := hall _ List.mem_cons_self
    cases hk
    exact absurd hpos (Nat.lt_irrefl 0)
  | sent hk _ _ ih => exact ih (h.sent hk) fun r hr => hall r (List.mem_cons_of_mem _ hr)

/-- Where no `send` returns 0, a failed assertion is the one behind the loop. -/
theorem sendsAll_of_aborted (hw : Writes s results r) (ha : r.1 = .aborted) (hzero : SendResult.sent 0 ∉ results) :
    SendsAll results := by
  induction hw with
  | done _ => exact fun r hr => absurd hr List.not_mem_nil
  | again => cases ha
  | failed => cases ha
  | outside _ _ => cases ha
  | zero => exact absurd List.mem_cons_self hzero
  | @sent s k results bytes r _ _ _ ih =>
    obtain ⟨hk, hrest⟩ := not_or.mp (mt List.mem_cons.mpr hzero)
    refine List.forall_mem_cons.mpr ⟨⟨k, Nat.pos_of_ne_zero ?_, rfl⟩, ih ha hrest⟩
    rintro rfl
    exact hk rfl

theorem Marked.not_aborted_iff (h : Marked received s) (hevent : s.writeEvent = true) (hall : SendsAll results)
    (hw : s.doWrite results = some r) : r.1 ≠ .aborted ↔ EndsLine received s := by
  rw [← h.upto_eq hevent, ne_eq, h.ordered.writes_all hall (writes_of_doWrite hw), not_not]

theorem Ordered.exists_sendsAll (h : Ordered s) : ∃ results r, SendsAll results ∧ s.doWrite results = some r := by
  by_cases hlt : s.nWritten < s.writeUpto
  · obtain ⟨bytes, hcells⟩ := h.cells (Nat.le_refl (s.writeUpto - s.nWritten))
    rw [Nat.add_sub_cancel' (Nat.le_of_lt hlt)] at hcells
    refine ⟨[.sent (s.writeUpto - s.nWritten)], _, ?_, doWrite_once hlt hcells⟩
    intro r hr
    exact ⟨_, Nat.sub_pos_of_lt hlt, List.mem_singleton.mp hr⟩
  · exact ⟨[], _, fun r hr => absurd hr List.not_mem_nil, if_neg hlt⟩

end Callbacks

section Runs
variable {P : Session → Callback → Prop} {s s' : Session} {c : Callback}

theorem Marked.step {st : FdState} (hst : s.conn = .running st) (h : Marked s.received st)
    (hs : s.step c = some s') : ∀ st', s'.conn = .running st' → Marked s'.received st' := by
  obtain ⟨conn, received, sent⟩ := s
  obtain rfl : conn = .running st := hst
  intro st' hst'
  cases c with
  | read chunks last =>
    obtain ⟨-, hs⟩ := Option.ite_none_right_eq_some.mp hs
    obtain rfl := Option.some.inj hs
    cases last with
    | again =>
      obtain rfl := Conn.running.inj hst'
      exact h.readChars _
    | closed => cases hst'
    | failed => cases hst'
  | write results =>
    obtain ⟨-, hs⟩ := Option.ite_none_right_eq_some.mp hs
    obtain ⟨r, hr, rfl⟩ := Option.map_eq_some_iff.mp hs
    exact (h.writes (writes_of_doWrite hr)).1 st' hst'

theorem Run.marked (h : Run P s) : ∀ st, s.conn = .running st → Marked s.received st := by
  induction h with
  | start h =>
    intro st hst
    obtain rfl := Conn.running.inj hst
    exact ⟨⟨Nat.le_refl _, Nat.le_refl _, Nat.zero_le _⟩, fun h => (nomatch h)⟩
  | step _ _ hs ih =>
    obtain ⟨st, hst⟩ := Session.step_running hs
    exact (ih st hst).step hst hs

/-- A `do_write` that sends everything up to `write_upto` is called behind a line end. -/
def KeepsAssertion (s : Session) : Callback → Prop
  | .read _ _ => True
  | .write results => SendsAll results → ∀ st, s.conn = .running st → EndsLine s.received st

theorem Run.aborted_by_zero (h : Run KeepsAssertion s) (ha : s.conn = .aborted) :
    ∃ (t : Session) (results : List SendResult), t.step (.write results) = some s ∧ SendResult.sent 0 ∈ results := by
  cases h with
  | start h => cases ha
  | @step t _ c hrun hc hs =>
    obtain ⟨st, hst⟩ := Session.step_running hs
    have hmarked := hrun.marked st hst
    obtain ⟨conn, received, sent⟩ := t
    obtain rfl : conn = .running st := hst
    cases c with
    | read chunks last =>
      obtain ⟨-, hs⟩ := Option.ite_none_right_eq_some.mp hs
      obtain rfl := Option.some.inj hs
      cases last <;> cases ha
    | write results =>
      refine ⟨_, results, hs, ?_⟩
      obtain ⟨hevent, hs⟩ := Option.ite_none_right_eq_some.mp hs
      obtain ⟨r, hr, rfl⟩ := Option.map_eq_some_iff.mp hs
      by_contra hzero
      have hends := hc (sendsAll_of_aborted (writes_of_doWrite hr) ha hzero) st rfl
      exact hzero ((hmarked.writes (writes_of_doWrite hr)).2 ha ((hmarked.upto_eq hevent).mpr hends))

/-- In every state that callbacks lead to the indices are in order, and a `do_write` that sends everything up to
`write_upto` passes its assertion exactly when `EndsLine` holds. In a run in which it holds before every such
`do_write` the assertion never fails: what aborts the server is a `send` that returns 0. -/
theorem write_assertion_iff (s : Session) :
    (Run (fun _ _ => True) s → ∀ st, s.conn = .running st → Ordered st ∧
      ∀ results r, st.writeEvent = true → SendsAll results → st.doWrite results = some r →
        (r.1 ≠ .aborted ↔ EndsLine s.received st)) ∧
    (Run KeepsAssertion s → s.conn = .aborted →
      ∃ (t : Session) (results : List SendResult), t.step (.write results) = some s ∧ SendResult.sent 0 ∈ results) := by
  refine ⟨fun h st hst => ?_, Run.aborted_by_zero⟩
  have hmarked := h.marked st hst
  exact ⟨hmarked.ordered, fun results r hevent hall hw => hmarked.not_aborted_iff hevent hall hw⟩

/-- A line and the first character of the next one, which `EAGAIN` keeps from being sent, and the end of that line. -/
theorem write_assertion_resumed : ∃ s st r, Run KeepsAssertion s ∧ s.conn = .running st ∧
    s.received = [97, LF, 98, LF] ∧ Ordered st ∧ st.doWrite [.sent 4] = some r ∧ r.1 ≠ .aborted := by
  have hbuffer : (List.replicate maxLine (0 : UInt8)).length = maxLine := List.length_replicate
  have hfirst : ProperChunks [[97, LF, 98]] := by decide
  have hsecond : ProperChunks [[LF]] := by decide
  have hread := Run.step (P := KeepsAssertion) (c := .read [[97, LF, 98]] .again) (.start hbuffer) trivial (Session.step_read hfirst [] [])
  have hagain := hread.step (c := .write [.again])
    (fun hall => by obtain ⟨k, -, hk⟩ := hall _ List.mem_cons_self; cases hk) rfl
  have hrun := hagain.step (c := .read [[LF]] .again) trivial (Session.step_read hsecond _ _)
  have hiff := (write_assertion_iff _).1 (Run.mono (fun _ _ _ => trivial) hrun) _ rfl
  obtain ⟨bytes, hcells⟩ := hiff.1.cells (Nat.le_refl _)
  have hall : SendsAll [.sent 4] := fun r hr => ⟨4, by decide, List.mem_singleton.mp hr⟩
  have hwrite := doWrite_once (by exact (by decide : 0 < 4)) hcells
  exact ⟨_, _, _, hrun, rfl, rfl, hiff.1, hwrite, (hiff.2 _ _ rfl hall hwrite).mpr (Or.inl rfl)⟩

/-- A line and the first character of the next one. -/
theorem partial_line_aborts : ¬∀ s, Run (fun _ _ => True) s → ∀ st, s.conn = .running st → st.writeEvent = true →
    ∀ results r, SendsAll results → st.doWrite results = some r → r.1 ≠ .aborted := by
  intro h
  have hbuffer : (List.replicate maxLine (0 : UInt8)).length = maxLine := List.length_replicate
  have hproper : ProperChunks [[97, LF, 98]] := by decide
  have hrun := Run.step (P := fun _ _ => True) (.start hbuffer) trivial (Session.step_read hproper [] [])
  have hmarked := hrun.marked _ rfl
  obtain ⟨results, r, hall, hw⟩ := hmarked.ordered.exists_sendsAll
  rcases (hmarked.not_aborted_iff rfl hall hw).mp (h _ hrun _ rfl rfl results r hall hw) with hlast | hfull
  · have hlast : ([97, LF, 98] : Bytes).getLast? = some LF := hlast
    exact absurd hlast (by decide)
  · have hfull : (2 : ℕ) = maxLine := hfull
    exact absurd hfull (by decide)

end Runs

end LinuxSocket.Rot13
