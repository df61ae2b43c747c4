import LinuxSocket.Rot13.LowLevelServer

/-! # What the rot13 server sends back

The part of the buffer behind what was sent is the rot13 image of what was received behind it, for as long as
every character finds room. The buffer is only rewound when all of it has been sent, so that many short lines
fill it as well as a long one.
-/
namespace LinuxSocket.Rot13

/-- The indices are in order, and `q` is stored and not sent yet. -/
structure Holds (s : FdState) (q : Bytes) : Prop where
  written_le : s.nWritten ≤ s.writeUpto
  upto_le : s.writeUpto ≤ s.bufferUsed
  used_le : s.bufferUsed ≤ maxLine
  content : (s.buffer.drop s.nWritten).take (s.bufferUsed - s.nWritten) = q

section Buffer
variable {s s' : FdState} {q bytes : Bytes} {c : UInt8}

theorem set_eq_copyTo {xs : Bytes} {i : ℕ} (h : i < xs.length) : xs.set i c = copyTo xs i [c] := by
  rw [List.set_eq_take_append_cons_drop, if_pos h, copyTo, List.append_assoc]
  rfl

theorem Holds.length_eq (h : Holds s q) : q.length = s.bufferUsed - s.nWritten := by
  have hsize := s.size_eq
  have hused := h.used_le
  rw [← h.content, List.length_take, List.length_drop]
  omega

theorem FdState.bufferUsed_put (s : FdState) (c : UInt8) :
    (s.put c).bufferUsed = if s.bufferUsed < maxLine then s.bufferUsed + 1 else s.bufferUsed := by
  unfold put
  split <;> rfl

theorem Holds.put (h : Holds s q) (hroom : s.bufferUsed < maxLine) (c : UInt8) :
    Holds (s.put c) (q ++ [rot13Char c]) := by
  have hle := h.written_le.trans h.upto_le
  have hsize := s.size_eq
  rw [FdState.put, if_pos hroom]
  refine ⟨h.written_le, h.upto_le.trans (Nat.le_succ _), hroom, ?_⟩
  dsimp only
  rw [set_eq_copyTo (by omega), ← h.content]
  have hfits : s.bufferUsed + [rot13Char c].length ≤ s.buffer.length := by
    rw [hsize]
    exact hroom
  exact range_copyTo hle hfits

theorem Holds.upto {n : ℕ} (h : Holds s q) (hn : s.nWritten ≤ n) (hu : n ≤ s.bufferUsed) :
    Holds { s with writeEvent := true, writeUpto := n } q :=
  ⟨hn, hu, h.used_le, h.content⟩

theorem Holds.readChar (h : Holds s q) (hroom : s.bufferUsed < maxLine) (c : UInt8) :
    Holds (s.readChar c) (q ++ [rot13Char c]) ∧ (s.readChar c).bufferUsed = s.bufferUsed + 1 := by
  have hput := h.put hroom c
  have hused := s.bufferUsed_put c
  rw [if_pos hroom] at hused
  unfold FdState.readChar
  dsimp only
  split
  · exact ⟨hput.upto (hput.written_le.trans hput.upto_le) (Nat.le_refl _), hused⟩
  · exact ⟨hput, hused⟩

/-- Characters for which there is room are stored. -/
theorem Holds.readChars (h : Holds s q) (hroom : s.bufferUsed + bytes.length ≤ maxLine) :
    Holds (bytes.foldl FdState.readChar s) (q ++ bytes.map rot13Char) := by
  induction bytes generalizing s q with
  | nil => rwa [List.map_nil, List.append_nil]
  | cons c bytes ih =>
    rw [List.length_cons] at hroom
    obtain ⟨hnext, hused⟩ := h.readChar (by omega) c
    rw [List.foldl_cons, List.map_cons, ← List.singleton_append, ← List.append_assoc]
    exact ih hnext (by omega)

/-- The front of what is stored is handed to `send`. -/
theorem Holds.sent (h : Holds s q) {k : ℕ} (hk : k ≤ s.writeUpto - s.nWritten) :
    cells s.buffer s.nWritten (s.nWritten + k) = some (q.take k) ∧
      Holds { s with nWritten := s.nWritten + k } (q.drop k) := by
  have hw := h.written_le
  have hu := h.upto_le
  have hm := h.used_le
  have hsize := s.size_eq
  refine ⟨?_, by dsimp only; omega, hu, hm, ?_⟩
  · rw [cells_of_le (by omega), ← h.content, List.take_take, Nat.add_sub_cancel_left, Nat.min_eq_left (by omega)]
  · dsimp only
    rw [← h.content, List.drop_take, List.drop_drop, Nat.sub_sub]

/-- What is sent is taken from the front of what is stored. -/
theorem Holds.writes (h : Holds s q) {results : List SendResult} {r : Conn × Bytes} (hw : Writes s results r) :
    ∃ rest, q = r.2 ++ rest ∧ ∀ s', r.1 = .running s' → Holds s' rest := by
  induction hw generalizing q with
  | done =>
    refine ⟨q, rfl, fun s' hs' => ?_⟩
    unfold FdState.written at hs'
    split at hs'
    · next heq =>
      obtain rfl := Conn.running.inj hs'
      have hq := h.content
      rw [heq, Nat.sub_self, List.take_zero] at hq
      exact ⟨Nat.le_refl _, Nat.le_refl _, Nat.zero_le _, hq⟩
    · cases hs'
  | again => exact ⟨q, rfl, fun s' hs' => Conn.running.inj hs' ▸ h⟩
  | failed => exact ⟨q, rfl, fun s' hs' => Conn.noConfusion hs'⟩
  | outside => exact ⟨q, rfl, fun s' hs' => Conn.noConfusion hs'⟩
  | zero => exact ⟨q, rfl, fun s' hs' => Conn.noConfusion hs'⟩
  | sent hk hcells _ ih =>
    obtain ⟨hfront, hrest⟩ := h.sent hk
    obtain rfl := Option.some.inj (hcells.symm.trans hfront)
    obtain ⟨rest, hq, hs'⟩ := ih hrest
    refine ⟨rest, ?_, hs'⟩
    dsimp only
    rw [List.append_assoc, ← hq, List.take_append_drop]

end Buffer

def FitsBuffer (s : Session) : Callback → Prop
  | .read chunks _ => ∀ st, s.conn = .running st → st.bufferUsed + chunks.flatten.length ≤ maxLine
  | .write _ => True

/-- What has been sent and what is stored are the image of what has been received. -/
structure Relays (s : Session) : Prop where
  sent : s.sent <+: s.received.map rot13Char
  stored : ∀ st, s.conn = .running st → ∃ q, Holds st q ∧ s.sent ++ q = s.received.map rot13Char

section Runs
variable {s s' : Session} {c : Callback}

theorem relays_start {buffer : Bytes} (h : buffer.length = maxLine) : Relays (.start buffer h) where
  sent := List.nil_prefix
  stored st hst := by
    obtain rfl := Conn.running.inj hst
    exact ⟨[], ⟨Nat.le_refl _, Nat.le_refl _, Nat.zero_le _, rfl⟩, rfl⟩

theorem Relays.step (h : Relays s) (hc : FitsBuffer s c) (hs : s.step c = some s') : Relays s' := by
  obtain ⟨st, hst⟩ := Session.step_running hs
  obtain ⟨conn, received, sent⟩ := s
  obtain rfl : conn = .running st := hst
  obtain ⟨q, hq, hall⟩ := h.stored st rfl
  cases c with
  | read chunks last =>
    obtain ⟨-, hs⟩ := Option.ite_none_right_eq_some.mp hs
    obtain rfl := Option.some.inj hs
    constructor
    · rw [List.map_append]
      exact h.sent.trans (List.prefix_append _ _)
    · intro st' hst'
      cases last with
      | again =>
        obtain rfl := Conn.running.inj hst'
        refine ⟨_, hq.readChars (hc st rfl), ?_⟩
        dsimp only at hall ⊢
        rw [List.map_append, ← hall, List.append_assoc]
      | closed => cases hst'
      | failed => cases hst'
  | write results =>
    obtain ⟨-, hs⟩ := Option.ite_none_right_eq_some.mp hs
    obtain ⟨r, hr, rfl⟩ := Option.map_eq_some_iff.mp hs
    obtain ⟨rest, rfl, hrest⟩ := hq.writes (writes_of_doWrite hr)
    dsimp only at hall
    rw [← List.append_assoc] at hall
    exact ⟨hall ▸ List.prefix_append _ _, fun st' hst' => ⟨rest, hrest st' hst', hall⟩⟩

theorem Run.relays (h : Run FitsBuffer s) : Relays s := by
  induction h with
  | start h => exact relays_start h
  | step _ hc hs ih => exact ih.step hc hs

end Runs

section Overflow
variable {s : FdState} {q bytes received sent : Bytes}

theorem Holds.readChar_full (h : Holds s q) (hfull : s.bufferUsed = maxLine) (c : UInt8) :
    Holds (s.readChar c) q ∧ (s.readChar c).bufferUsed = maxLine := by
  have hput : s.put c = s := if_neg (by omega)
  unfold FdState.readChar
  rw [hput]
  dsimp only
  split
  · exact ⟨h.upto (h.written_le.trans h.upto_le) (Nat.le_refl _), hfull⟩
  · exact ⟨h, hfull⟩

theorem Holds.readChars_full (h : Holds s q) (hfull : s.bufferUsed = maxLine) (bytes : Bytes) :
    Holds (bytes.foldl FdState.readChar s) q ∧ (bytes.foldl FdState.readChar s).bufferUsed = maxLine := by
  induction bytes generalizing s with
  | nil => exact ⟨h, hfull⟩
  | cons c bytes ih =>
    obtain ⟨hnext, hused⟩ := h.readChar_full hfull c
    exact ih hnext hused

theorem bufferUsed_readChars (h : Holds s q) (hroom : s.bufferUsed + bytes.length ≤ maxLine) :
    (bytes.foldl FdState.readChar s).bufferUsed = s.bufferUsed + bytes.length := by
  induction bytes generalizing s q with
  | nil => rfl
  | cons c bytes ih =>
    rw [List.length_cons] at hroom
    obtain ⟨hnext, hused⟩ := h.readChar (by omega) c
    rw [List.foldl_cons, ih hnext (by omega), hused, List.length_cons]
    omega

/-- What finds no room is dropped. -/
theorem Holds.readChars_over (h : Holds s q) (hover : maxLine ≤ s.bufferUsed + bytes.length) :
    Holds (bytes.foldl FdState.readChar s) (q ++ (bytes.take (maxLine - s.bufferUsed)).map rot13Char) ∧
      (bytes.foldl FdState.readChar s).bufferUsed = maxLine := by
  have hm := h.used_le
  have hlen : (bytes.take (maxLine - s.bufferUsed)).length = maxLine - s.bufferUsed := by
    rw [List.length_take]
    omega
  have hroom : s.bufferUsed + (bytes.take (maxLine - s.bufferUsed)).length ≤ maxLine := by omega
  have hused := bufferUsed_readChars h hroom
  have hfull := (h.readChars hroom).readChars_full (by omega) (bytes.drop (maxLine - s.bufferUsed))
  rwa [← List.foldl_append, List.take_append_drop] at hfull

/-- Behind a line end all of the buffer is to be sent. -/
theorem readChars_line (s : FdState) (bytes : Bytes) :
    let t := (bytes ++ [LF]).foldl FdState.readChar s
    t.writeUpto = t.bufferUsed ∧ t.writeEvent = true := by
  rw [List.foldl_append]
  exact ⟨rfl, rfl⟩

/-- A `do_write` that sends all of the buffer. -/
theorem Holds.doWrite_all (h : Holds s q) (hall : s.writeUpto = s.bufferUsed) : ∃ results,
    s.doWrite results =
      some (.running { s with nWritten := 0, writeUpto := 0, bufferUsed := 0, writeEvent := false }, q) := by
  have hlen := h.length_eq
  have hw := h.written_le
  by_cases hlt : s.nWritten < s.writeUpto
  · obtain ⟨hcells, -⟩ := h.sent (k := q.length) (by omega)
    have hsum : s.nWritten + q.length = s.writeUpto := by omega
    rw [List.take_length, hsum] at hcells
    refine ⟨_, (doWrite_once hlt hcells).trans ?_⟩
    rw [FdState.written, if_pos hall]
  · have hq : q = [] := List.eq_nil_of_length_eq_zero (by omega)
    refine ⟨[], ?_⟩
    rw [FdState.doWrite, if_neg hlt, FdState.written, if_pos (by omega), hq]

variable {st : FdState} {chunks : List Bytes}

/-- A client sends something up to a line end, and receives all that is stored. -/
theorem relay_line {P : Session → Callback → Prop} (h : Run P ⟨.running st, received, sent⟩)
    (hr : P ⟨.running st, received, sent⟩ (.read chunks .again)) (hw : ∀ s results, P s (.write results))
    (hproper : ProperChunks chunks) (hline : chunks.flatten = bytes ++ [LF])
    (hq : Holds (chunks.flatten.foldl FdState.readChar st) q) :
    ∃ st', Run P ⟨.running st', received ++ chunks.flatten, sent ++ q⟩ ∧ Holds st' [] ∧ st'.bufferUsed = 0 := by
  have hread : Session.step ⟨.running st, received, sent⟩ _ = _ := Session.step_read hproper received sent
  have hlast := readChars_line st bytes
  rw [← hline] at hlast
  obtain ⟨results, hall⟩ := hq.doWrite_all hlast.1
  have hwrite : Session.step ⟨.running (chunks.flatten.foldl FdState.readChar st), received ++ chunks.flatten, sent⟩
      (.write results) = some _ := (if_pos hlast.2).trans (congrArg (Option.map _) hall)
  exact ⟨_, (h.step hr hread).step (hw _ _) hwrite,
    ⟨Nat.le_refl _, Nat.le_refl _, Nat.zero_le _, rfl⟩, rfl⟩

/-- Every byte is the image of another one than some letter is. -/
theorem exists_rot13Char_ne (b : UInt8) : ∃ x, rot13Char x ≠ b := by
  by_cases hb : b = 110
  · exact ⟨98, by rw [hb]; decide⟩
  · exact ⟨97, fun h => hb (h.symm.trans (by decide))⟩

/-- When a character has found no room, the next lines are sent in its place. -/
theorem overflow_breaks (h : Run (fun _ _ => True) ⟨.running st, received, sent⟩) (hq : Holds st q)
    (hall : sent ++ q = received.map rot13Char) (hproper : ProperChunks chunks)
    (hover : maxLine < st.bufferUsed + chunks.flatten.length) :
    ∃ x s', Run (fun _ _ => True) s' ∧ s'.received = received ++ chunks.flatten ++ [97, LF] ++ [x, LF] ∧
      ¬s'.sent <+: s'.received.map rot13Char := by
  have hm := hq.used_le
  obtain ⟨hq₁, hused⟩ := hq.readChars_over hover.le
  have hread : Session.step ⟨.running st, received, sent⟩ _ = _ := Session.step_read hproper received sent
  obtain ⟨st₂, hrun₂, hq₂, hzero⟩ := relay_line (h.step trivial hread) trivial (fun _ _ => trivial) (by decide)
    (show [[97, LF]].flatten = [97] ++ [LF] from rfl) (hq₁.readChars_full hused _).1
  obtain ⟨d, ds, hdropped⟩ : ∃ d ds, chunks.flatten.drop (maxLine - st.bufferUsed) = d :: ds := by
    refine List.exists_cons_of_length_pos ?_
    rw [List.length_drop]
    omega
  obtain ⟨x, hx⟩ := exists_rot13Char_ne (rot13Char d)
  have hroom : st₂.bufferUsed + [x, LF].length ≤ maxLine := by
    rw [hzero]
    exact (by decide : 2 ≤ maxLine)
  obtain ⟨st₃, hrun₃, -⟩ := relay_line hrun₂ trivial (fun _ _ => trivial) (by simp [ProperChunks, recvSize])
    (show [[x, LF]].flatten = [x] ++ [LF] from rfl) (hq₂.readChars hroom)
  refine ⟨x, _, hrun₃, rfl, fun hpre => hx ?_⟩
  have hsplit : chunks.flatten.map rot13Char = (chunks.flatten.take (maxLine - st.bufferUsed)).map rot13Char ++
      rot13Char d :: ds.map rot13Char := by
    rw [← List.map_cons, ← hdropped, ← List.map_append, List.take_append_drop]
  dsimp only at hpre
  rw [List.map_append, List.map_append, List.map_append, ← hall, hsplit] at hpre
  simp only [List.append_assoc, List.prefix_append_right_inj, List.nil_append, List.cons_append] at hpre
  exact (List.cons_prefix_cons.mp hpre).1

end Overflow

/-- In every run in which all characters find room, what has been sent is the image of the first characters
received. When a callback then receives more, the run goes on to one where it is not. -/
theorem sent_prefix_while_fits {s : Session} (h : Run FitsBuffer s) : s.sent <+: s.received.map rot13Char ∧
    ∀ st chunks, s.conn = .running st → ProperChunks chunks → ¬FitsBuffer s (.read chunks .again) →
      ∃ s', Run (fun _ _ => True) s' ∧ s.received ++ chunks.flatten <+: s'.received ∧
        ¬s'.sent <+: s'.received.map rot13Char := by
  refine ⟨h.relays.sent, ?_⟩
  obtain ⟨conn, received, sent⟩ := s
  rintro st chunks rfl hproper hnot
  obtain ⟨q, hq, hall⟩ := h.relays.stored st rfl
  have hover : maxLine < st.bufferUsed + chunks.flatten.length := by
    refine Nat.lt_of_not_le fun hle => hnot fun st' hst' => ?_
    rwa [← Conn.running.inj hst']
  obtain ⟨x, s', hrun, hreceived, hlost⟩ :=
    overflow_breaks (h.mono fun _ _ _ => trivial) hq hall hproper hover
  refine ⟨s', hrun, ?_, hlost⟩
  rw [hreceived, List.append_assoc _ [97, LF]]
  exact List.prefix_append _ _

/-- Two lines, of one character and of two. -/
theorem sent_prefix_while_fits_lines : ∃ s : Session, s.received = [97, LF, 98, 99, LF] ∧
    s.sent = [110, LF, 111, 112, LF] ∧ s.sent <+: s.received.map rot13Char := by
  have hbuffer : (List.replicate maxLine (0 : UInt8)).length = maxLine := List.length_replicate
  obtain ⟨q, hq, hall⟩ := (relays_start hbuffer).stored _ rfl
  have hroom : 0 + [97, LF].length ≤ maxLine := by decide
  have hfits : FitsBuffer (.start _ hbuffer) (.read [[97, LF]] .again) := by
    intro st hst
    obtain rfl := Conn.running.inj hst
    exact hroom
  obtain ⟨st, hrun, hq', hzero⟩ := relay_line (.start hbuffer) hfits (fun _ _ => trivial) (by decide)
    (show [[97, LF]].flatten = [97] ++ [LF] from rfl) (hq.readChars hroom)
  have hroom' : st.bufferUsed + [98, 99, LF].length ≤ maxLine := by
    rw [hzero]
    decide
  have hfits' (received sent : Bytes) : FitsBuffer ⟨.running st, received, sent⟩ (.read [[98, 99, LF]] .again) := by
    intro st' hst
    obtain rfl := Conn.running.inj hst
    exact hroom'
  obtain ⟨st', hrun', -⟩ := relay_line hrun (hfits' _ _) (fun _ _ => trivial) (by decide)
    (show [[98, 99, LF]].flatten = [98, 99] ++ [LF] from rfl) (hq'.readChars hroom')
  have hq : q = [] := hall
  subst hq
  exact ⟨_, rfl, rfl, (sent_prefix_while_fits hrun').1⟩

def ShortLines (received : Bytes) : Prop := ∀ line ∈ received.splitOn LF, line.length < maxLine

/-- Lines of one character. -/
theorem splitOn_letters (xs : Bytes) : ∀ line ∈ (xs.flatMap fun x => [x, LF]).splitOn LF, line.length ≤ 1 := by
  induction xs with
  | nil => simp
  | cons x xs ih =>
    have hcons : ((x :: xs).flatMap fun x => [x, LF]).splitOn LF =
        (if x = LF then [[], []] else [[x]]) ++ (xs.flatMap fun x => [x, LF]).splitOn LF := by
      rw [List.flatMap_cons, List.splitOn, List.splitOn, List.cons_append, List.cons_append, List.nil_append,
        List.splitOnP_cons_eq_if_modifyHead, List.splitOnP_cons_eq_if_modifyHead]
      by_cases hx : x = LF <;> simp [hx]
    intro line hline
    rw [hcons] at hline
    rcases List.mem_append.mp hline with hline | hline
    · by_cases hx : x = LF
      · rw [if_pos hx] at hline
        simp at hline
        simp [hline]
      · rw [if_neg hx] at hline
        simp [List.mem_singleton.mp hline]
    · exact ih line hline

/-- A client sends `n` lines of one character and reads nothing, then one line more at a time. -/
theorem lines_lost {n : ℕ} (hn : maxLine < 2 * n) : ∃ s, Run (fun _ _ => True) s ∧ ShortLines s.received ∧
    ¬s.sent <+: s.received.map rot13Char := by
  have hbuffer : (List.replicate maxLine (0 : UInt8)).length = maxLine := List.length_replicate
  have hletters : (List.replicate n [97, LF]).flatten = (List.replicate n 97).flatMap fun x => [x, LF] := by
    rw [List.flatMap_def, List.map_replicate]
  have hproper : ProperChunks (List.replicate n [97, LF]) := by
    intro c hc
    rw [List.eq_of_mem_replicate hc]
    decide
  have hover : maxLine < 0 + (List.replicate n [97, LF]).flatten.length := by
    simp
    omega
  obtain ⟨q, hq, hall⟩ := (relays_start hbuffer).stored _ rfl
  obtain ⟨x, s', hrun, hreceived, hnot⟩ := overflow_breaks (.start hbuffer) hq hall hproper hover
  refine ⟨s', hrun, fun line hline => ?_, hnot⟩
  rw [hreceived, hletters] at hline
  have hle := splitOn_letters (List.replicate n 97 ++ [97, x]) line
  rw [List.flatMap_append] at hle
  rw [List.append_assoc] at hline
  exact Nat.lt_of_le_of_lt (hle hline) (by decide)

theorem short_lines_lost :
    ¬∀ s, Run (fun _ _ => True) s → ShortLines s.received → s.sent <+: s.received.map rot13Char := by
  intro h
  obtain ⟨s, hrun, hshort, hnot⟩ := lines_lost (n := 8193) (by decide)
  exact hnot (h s hrun hshort)

end LinuxSocket.Rot13
