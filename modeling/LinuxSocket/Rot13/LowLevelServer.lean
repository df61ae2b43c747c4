import LinuxSocket.Lib.Memory

/-! # The low-level rot13 server

One connection with its fixed buffer. A callback runs to its end before the event loop calls the next one; the
results of its calls of `recv` and `send` are free.
-/
namespace LinuxSocket.Rot13

def maxLine : ℕ := 16384

def recvSize : ℕ := 1024

def rot13Char (c : UInt8) : UInt8 :=
  if (97 ≤ c ∧ c ≤ 109) ∨ (65 ≤ c ∧ c ≤ 77) then c + 13
  else if (110 ≤ c ∧ c ≤ 122) ∨ (78 ≤ c ∧ c ≤ 90) then c - 13
  else c

structure FdState where
  buffer : Bytes
  bufferUsed : ℕ
  nWritten : ℕ
  writeUpto : ℕ
  /-- `write_event` is added -/
  writeEvent : Bool
  size_eq : buffer.length = maxLine

/-- A connection, or how it has ended: its state was freed, an assertion failed, or bytes outside of the buffer
were accessed. -/
inductive Conn
  | running (s : FdState)
  | freed
  | aborted
  | faulted

/-- `alloc_fd_state`, for a buffer with any contents. -/
def FdState.alloc (buffer : Bytes) (h : buffer.length = maxLine) : FdState := ⟨buffer, 0, 0, 0, false, h⟩

section DoRead

/-- The character is stored as long as there is room for it. -/
def FdState.put (s : FdState) (c : UInt8) : FdState :=
  if s.bufferUsed < maxLine then
    { s with
      buffer := s.buffer.set s.bufferUsed (rot13Char c)
      bufferUsed := s.bufferUsed + 1
      size_eq := by rw [List.length_set, s.size_eq] }
  else s

/-- The body of the loop over the characters received. -/
def FdState.readChar (s : FdState) (c : UInt8) : FdState :=
  let s := s.put c
  if c = LF then { s with writeEvent := true, writeUpto := s.bufferUsed } else s

/-- How the last `recv` of `do_read` returns: with `EAGAIN`, with 0, or with another error. -/
inductive RecvEnd
  | again
  | closed
  | failed
  deriving DecidableEq

def FdState.doRead (s : FdState) (chunks : List Bytes) : RecvEnd → Conn
  | .again => .running (chunks.flatten.foldl readChar s)
  | .closed => .freed
  | .failed => .freed

end DoRead

section DoWrite

/-- What `send` returns: a count, `EAGAIN`, or another error. -/
inductive SendResult
  | sent (k : ℕ)
  | again
  | failed
  deriving DecidableEq

/-- `do_write` behind its loop. -/
def FdState.written (s : FdState) : Conn :=
  if s.nWritten = s.bufferUsed then
    .running { s with nWritten := 0, writeUpto := 0, bufferUsed := 0, writeEvent := false }
  else .aborted

/-- `do_write` with the results of its calls of `send`, and the bytes sent. `none` when the calls cannot return
these results: there are more or fewer calls, or one sends more than it is asked to. -/
def FdState.doWrite (s : FdState) : List SendResult → Option (Conn × Bytes)
  | [] => if s.nWritten < s.writeUpto then none else some (s.written, [])
  | r :: results =>
    if s.nWritten < s.writeUpto then
      match r with
      | .sent k =>
        if k ≤ s.writeUpto - s.nWritten then
          match cells s.buffer s.nWritten (s.nWritten + k) with
          | none => some (.faulted, [])
          | some bytes =>
            if k = 0 then some (.aborted, [])
            else (doWrite { s with nWritten := s.nWritten + k } results).map fun r => (r.1, bytes ++ r.2)
        else none
      | .again => if results = [] then some (.running s, []) else none
      | .failed => if results = [] then some (.freed, []) else none
    else none

inductive Writes : FdState → List SendResult → Conn × Bytes → Prop
  | done {s} : s.writeUpto ≤ s.nWritten → Writes s [] (s.written, [])
  | again {s} : Writes s [.again] (.running s, [])
  | failed {s} : Writes s [.failed] (.freed, [])
  | outside {s k results} : k ≤ s.writeUpto - s.nWritten → cells s.buffer s.nWritten (s.nWritten + k) = none →
      Writes s (.sent k :: results) (.faulted, [])
  | zero {s results} : Writes s (.sent 0 :: results) (.aborted, [])
  | sent {s k results bytes r} : k ≤ s.writeUpto - s.nWritten →
      cells s.buffer s.nWritten (s.nWritten + k) = some bytes → Writes { s with nWritten := s.nWritten + k } results r →
      Writes s (.sent k :: results) (r.1, bytes ++ r.2)

theorem writes_of_doWrite {s : FdState} {results : List SendResult} {r : Conn × Bytes}
    (h : s.doWrite results = some r) : Writes s results r := by
  induction results generalizing s r with
  | nil =>
    rw [FdState.doWrite] at h
    split at h
    · cases h
    · next hge =>
      obtain rfl := Option.some.inj h
      exact .done (Nat.not_lt.mp hge)
  | cons result results ih =>
    unfold FdState.doWrite at h
    split at h
    · cases result with
      | again =>
        obtain ⟨rfl, h⟩ := Option.ite_none_right_eq_some.mp h
        obtain rfl := Option.some.inj h
        exact .again
      | failed =>
        obtain ⟨rfl, h⟩ := Option.ite_none_right_eq_some.mp h
        obtain rfl := Option.some.inj h
        exact .failed
      | sent k =>
        obtain ⟨hk, h⟩ := Option.ite_none_right_eq_some.mp h
        cases hcells : cells s.buffer s.nWritten (s.nWritten + k) with
        | none =>
          rw [hcells] at h
          obtain rfl := Option.some.inj h
          exact .outside hk hcells
        | some bytes =>
          rw [hcells] at h
          dsimp only at h
          split at h
          · next hzero =>
            obtain rfl := Option.some.inj h
            exact hzero ▸ .zero
          · obtain ⟨r', hr', rfl⟩ := Option.map_eq_some_iff.mp h
            exact .sent hk hcells (ih hr')
    · cases h

/-- A `do_write` whose first `send` takes everything. -/
theorem doWrite_once {s : FdState} {bytes : Bytes} (hlt : s.nWritten < s.writeUpto)
    (hcells : cells s.buffer s.nWritten s.writeUpto = some bytes) :
    s.doWrite [.sent (s.writeUpto - s.nWritten)] =
      some (({ s with nWritten := s.writeUpto } : FdState).written, bytes) := by
  have hsum : s.nWritten + (s.writeUpto - s.nWritten) = s.writeUpto := Nat.add_sub_cancel' (Nat.le_of_lt hlt)
  have hpos : s.writeUpto - s.nWritten ≠ 0 := Nat.ne_of_gt (Nat.sub_pos_of_lt hlt)
  unfold FdState.doWrite
  simp only [if_pos hlt, if_pos (Nat.le_refl _), hsum, hcells, if_neg hpos, FdState.doWrite,
    if_neg (Nat.lt_irrefl s.writeUpto), Option.map_some, List.append_nil]

end DoWrite

structure Session where
  conn : Conn
  received : Bytes
  sent : Bytes

inductive Callback
  | read (chunks : List Bytes) (last : RecvEnd)
  | write (results : List SendResult)
  deriving DecidableEq

/-- `recv` delivers nonempty chunks that fit into `buf`. -/
def ProperChunks (chunks : List Bytes) : Prop := ∀ c ∈ chunks, c ≠ [] ∧ c.length ≤ recvSize

instance (chunks : List Bytes) : Decidable (ProperChunks chunks) := inferInstanceAs (Decidable (∀ c ∈ chunks, _))

namespace Session

def start (buffer : Bytes) (h : buffer.length = maxLine) : Session := ⟨.running (.alloc buffer h), [], []⟩

/-- One callback; `none` when the event loop does not make it. -/
def step (s : Session) : Callback → Option Session
  | .read chunks last =>
    match s.conn with
    | .running st =>
      if ProperChunks chunks then some ⟨st.doRead chunks last, s.received ++ chunks.flatten, s.sent⟩ else none
    | _ => none
  | .write results =>
    match s.conn with
    | .running st =>
      if st.writeEvent = true then
        (st.doWrite results).map fun r => ⟨r.1, s.received, s.sent ++ r.2⟩
      else none
    | _ => none

theorem step_read {st : FdState} {chunks : List Bytes} (h : ProperChunks chunks) (received sent : Bytes) :
    (⟨.running st, received, sent⟩ : Session).step (.read chunks .again) =
      some ⟨.running (chunks.flatten.foldl FdState.readChar st), received ++ chunks.flatten, sent⟩ :=
  if_pos h

/-- Callbacks are made for a connection that has not ended. -/
theorem step_running {s s' : Session} {c : Callback} (hs : s.step c = some s') : ∃ st, s.conn = .running st := by
  obtain ⟨conn, received, sent⟩ := s
  cases conn with
  | running st => exact ⟨st, rfl⟩
  | freed => cases c <;> cases hs
  | aborted => cases c <;> cases hs
  | faulted => cases c <;> cases hs

end Session

inductive Run (P : Session → Callback → Prop) : Session → Prop
  | start {buffer : Bytes} (h : buffer.length = maxLine) : Run P (.start buffer h)
  | step {s s' c} : Run P s → P s c → s.step c = some s' → Run P s'

theorem Run.mono {P Q : Session → Callback → Prop} (hPQ : ∀ s c, P s c → Q s c) {s : Session} (h : Run P s) :
    Run Q s := by
  induction h with
  | start h => exact .start h
  | step _ hc hs ih => exact ih.step (hPQ _ _ hc) hs

end LinuxSocket.Rot13
