import LinuxSocket.Lib.Except
import LinuxSocket.Tbuf.Fifo

/-! # The buffer compiled with assertions

The calls are those of the buffer with the assertions of the source evaluated where they stand. A string that is
not empty always finds a free byte behind `cur_write_p()`; for the empty string nothing makes room.
-/
namespace LinuxSocket.Tbuf

inductive Violation
  | assertion
  /-- a byte copied from or to a place outside of the vector -/
  | access
  deriving DecidableEq

/-- `assert(c)`. -/
def check (c : Prop) [Decidable c] : Except Violation Unit := if c then .ok () else .error .assertion

def access {β : Type} : Option β → Except Violation β
  | some x => .ok x
  | none => .error .access

/-- The assertion stands behind the branches that make room. -/
def makeRoomAsserted (b : Tbuf) (size : ℕ) : Except Violation Tbuf := do
  let room ← access (b.makeRoom size)
  if b.writeableBytes < size then do
    check (size ≤ room.writeableBytes)
    return room
  else return room

def appendAsserted (b : Tbuf) (str : Bytes) : Except Violation Tbuf := do
  let b ← b.makeRoomAsserted str.length
  -- `end_write_p()` is the end of the vector by definition
  check (b.widx < b.buf.length)
  let buf ← access (copyInto b.buf b.widx str)
  return { b with buf := buf, widx := b.widx + str.length }

def retrieveAsserted (b : Tbuf) (len : ℕ) : Except Violation Tbuf := do
  check (len ≤ b.readableBytes)
  return b.retrieve len

def readInt32Asserted (host : Endian) (b : Tbuf) : Except Violation (ℤ × Tbuf) := do
  let rtn ← access (b.peekInt32 host)
  return (rtn, ← b.retrieveAsserted 4)

def readfdAsserted (b : Tbuf) (bytes : Bytes) : Except Violation (ℤ × Tbuf) := do
  let writeable := b.writeableBytes
  let n := bytes.length
  let buf ← access (copyInto b.buf b.widx (bytes.take writeable))
  let extrabuf := bytes.drop writeable
  let b := { b with buf := buf }
  if n ≤ writeable then return (n, { b with widx := b.widx + n })
  else
    let b := { b with widx := b.buf.length }
    return (n, ← b.appendAsserted (extrabuf.take (n - writeable)))

def execAsserted (host : Endian) (b : Tbuf) : Op → Except Violation Tbuf
  | .append str => b.appendAsserted str
  | .retrieve len => b.retrieveAsserted len
  | .readInt32 => Prod.snd <$> b.readInt32Asserted host
  | .readfd bytes => Prod.snd <$> b.readfdAsserted bytes

/-- The buffers that calls lead to in which no assertion fails. -/
inductive AssertedRun (host : Endian) : Tbuf → Prop
  | init : AssertedRun host init
  | call {b b'} (op : Op) : AssertedRun host b → op.Allowed b → b.execAsserted host op = .ok b' →
      AssertedRun host b'

theorem check_of {c : Prop} [Decidable c] (h : c) : check c = .ok () := if_pos h

section Calls
variable {b : Tbuf} {str bytes : Bytes}

theorem makeRoom_of_le {size : ℕ} (h : size ≤ b.writeableBytes) : b.makeRoom size = some b :=
  if_neg (Nat.not_lt.mpr h)

/-- The first assertion holds: there is room. -/
theorem Inv.makeRoomAsserted (h : b.Inv) (size : ℕ) : ∃ room, b.makeRoom size = some room ∧
    b.makeRoomAsserted size = .ok room ∧ room.widx + size ≤ room.buf.length := by
  obtain ⟨room, hroom, hinv, -, hfit⟩ := h.makeRoom size
  refine ⟨room, hroom, ?_, ?_⟩
  · rw [Tbuf.makeRoomAsserted, hroom, access, ok_bind]
    split
    · rw [check_of hfit]
      rfl
    · rfl
  · have := hinv.widx_le
    unfold writeableBytes at hfit
    omega

theorem append_of_room {room : Tbuf} (hroom : b.makeRoom str.length = some room)
    (hfit : room.widx + str.length ≤ room.buf.length) : b.append str =
      some { room with buf := copyTo room.buf room.widx str, widx := room.widx + str.length } := by
  rw [Tbuf.append, hroom]
  change (do let buf ← copyInto room.buf room.widx str; _) = _
  rw [copyInto_of_le hfit]
  rfl

/-- A call of `append` without a failing assertion. -/
theorem Inv.appendAsserted_ok (h : b.Inv) (hroom : str = [] → b.widx < b.buf.length) :
    ∃ b', b.append str = some b' ∧ b.appendAsserted str = .ok b' := by
  obtain ⟨room, hmake, hasserted, hfit⟩ := h.makeRoomAsserted str.length
  have hfree : room.widx < room.buf.length := by
    by_cases hstr : str = []
    · subst hstr
      obtain rfl := Option.some.inj ((makeRoom_of_le (Nat.zero_le _)).symm.trans hmake)
      exact hroom rfl
    · have := List.length_pos_of_ne_nil hstr
      omega
  refine ⟨_, append_of_room hmake hfit, ?_⟩
  rw [Tbuf.appendAsserted, hasserted, ok_bind, check_of hfree, ok_bind, copyInto_of_le hfit]
  rfl

/-- The empty string fails the second assertion when no byte is free. -/
theorem Inv.appendAsserted_nil (h : b.Inv) (hfull : b.buf.length ≤ b.widx) :
    b.appendAsserted [] = .error .assertion := by
  obtain ⟨room, hmake, hasserted, -⟩ := h.makeRoomAsserted ([] : Bytes).length
  obtain rfl := Option.some.inj ((makeRoom_of_le (Nat.zero_le _)).symm.trans hmake)
  have hcheck : check (b.widx < b.buf.length) = .error .assertion := if_neg (Nat.not_lt.mpr hfull)
  rw [Tbuf.appendAsserted, hasserted, ok_bind, hcheck]
  rfl

theorem Inv.appendAsserted_iff (h : b.Inv) (str : Bytes) :
    (∃ b', b.appendAsserted str = .ok b') ↔ (str = [] → b.widx < b.buf.length) := by
  constructor
  · rintro ⟨b', hb'⟩ rfl
    by_contra hfull
    rw [h.appendAsserted_nil (Nat.le_of_not_lt hfull)] at hb'
    cases hb'
  · intro hroom
    obtain ⟨b', -, hb'⟩ := h.appendAsserted_ok hroom
    exact ⟨b', hb'⟩

theorem Inv.append_of_asserted (h : b.Inv) {b' : Tbuf} (hb : b.appendAsserted str = .ok b') :
    b.append str = some b' := by
  obtain ⟨b'', happend, hasserted⟩ := h.appendAsserted_ok ((h.appendAsserted_iff str).mp ⟨b', hb⟩)
  rw [happend, Except.ok.inj (hasserted.symm.trans hb)]

theorem Inv.readfd_of_asserted (h : b.Inv) {n : ℤ} {b' : Tbuf} (hb : b.readfdAsserted bytes = .ok (n, b')) :
    b.readfd (some bytes) = some (n, b') := by
  obtain ⟨hcopy, h₁, -⟩ := h.written (List.length_take_le b.writeableBytes bytes)
  rw [Tbuf.readfdAsserted, hcopy, access, ok_bind] at hb
  unfold Tbuf.readfd
  dsimp only
  rw [hcopy]
  by_cases hn : bytes.length ≤ b.writeableBytes
  · rw [if_pos hn] at hb
    exact (if_pos hn).trans (congrArg some (Except.ok.inj hb))
  · have hend : (copyTo b.buf b.widx (bytes.take b.writeableBytes)).length =
        b.widx + (bytes.take b.writeableBytes).length := by
      have := h.widx_le
      rw [length_copyTo] <;> rw [List.length_take, writeableBytes] at * <;> omega
    rw [← hend] at h₁
    rw [if_neg hn] at hb
    obtain ⟨b₂, happend, hb⟩ : ∃ b₂, Tbuf.appendAsserted _ _ = .ok b₂ ∧ _ := bind_eq_ok hb
    change (if bytes.length ≤ b.writeableBytes then _ else _) = _
    rw [if_neg hn]
    change (do let b' ← Tbuf.append _ _; some ((bytes.length : ℤ), b')) = _
    rw [h₁.append_of_asserted happend]
    exact congrArg some (Except.ok.inj hb)

/-- A call in which no assertion fails does what the call without assertions does. -/
theorem Inv.exec_of_asserted (h : b.Inv) {host : Endian} {op : Op} (ha : op.Allowed b) {b' : Tbuf}
    (he : b.execAsserted host op = .ok b') : b.exec host op = some b' := by
  cases op with
  | append str => exact h.append_of_asserted he
  | retrieve len =>
    have hlen : len ≤ b.readableBytes := ha
    rw [execAsserted, retrieveAsserted, check_of hlen, ok_bind] at he
    exact congrArg some (Except.ok.inj he)
  | readInt32 =>
    have hlen : 4 ≤ b.readableBytes := ha
    rw [execAsserted, readInt32Asserted, h.peekInt32 host ha, access, ok_bind, retrieveAsserted,
      check_of hlen, ok_bind] at he
    rw [Tbuf.exec, Tbuf.readInt32, h.peekInt32 host ha]
    exact congrArg some (Except.ok.inj he)
  | readfd bytes =>
    rw [execAsserted] at he
    cases hb : b.readfdAsserted bytes with
    | error e =>
      rw [hb] at he
      cases he
    | ok r =>
      rw [hb] at he
      rw [Tbuf.exec, h.readfd_of_asserted hb]
      exact congrArg some (Except.ok.inj he)

end Calls

section Runs
variable {host : Endian} {b : Tbuf}

theorem AssertedRun.inv (h : AssertedRun host b) : b.Inv := by
  induction h with
  | init => exact inv_init
  | call op _ ha he ih =>
    obtain ⟨b'', he', hb', -⟩ := ih.exec host ha
    obtain rfl := Option.some.inj ((ih.exec_of_asserted ha he).symm.trans he')
    exact hb'

/-- In every state of a run, `append` passes both of its assertions exactly when it has a byte to append or the
vector has a free byte. -/
theorem run_append_asserts_iff (h : AssertedRun host b) (str : Bytes) :
    (∃ b', b.appendAsserted str = .ok b') ↔ (str ≠ [] ∨ b.widx < b.buf.length) := by
  rw [h.inv.appendAsserted_iff]
  exact ⟨fun hstr => (em (str = [])).elim (fun he => Or.inr (hstr he)) Or.inl,
    fun hstr he => hstr.resolve_left (not_not.mpr he)⟩

/-- A buffer that has been appended to, retrieved from and read into. -/
theorem run_append_asserts_read : ∃ b, AssertedRun .little b ∧ b.ridx = 1 ∧ b.widx = 3 ∧
    ((∃ b', b.appendAsserted [] = .ok b') ↔ (([] : Bytes) ≠ [] ∨ b.widx < b.buf.length)) := by
  let appended : Tbuf := ⟨0, 2, 1 :: 2 :: List.replicate 1022 0⟩
  let retrieved : Tbuf := ⟨1, 2, 1 :: 2 :: List.replicate 1022 0⟩
  let read : Tbuf := ⟨1, 3, 1 :: 2 :: 3 :: List.replicate 1021 0⟩
  have happend : init.execAsserted .little (.append [1, 2]) = .ok appended := by decide +kernel
  have hretrieve : appended.execAsserted .little (.retrieve 1) = .ok retrieved := rfl
  have hreadfd : retrieved.execAsserted .little (.readfd [3]) = .ok read := by decide +kernel
  have hlen : 1 ≤ appended.readableBytes := Nat.le_succ 1
  have hoffered : 1 ≤ retrieved.offered := by decide +kernel
  have hrun := (AssertedRun.init.call (.append [1, 2]) trivial happend).call (.retrieve 1) hlen hretrieve
  have hread := hrun.call (.readfd [3]) hoffered hreadfd
  exact ⟨_, hread, rfl, rfl, run_append_asserts_iff hread []⟩

/-- A string of 1024 bytes fills the initial vector, and the empty string behind it fails the second assertion. -/
theorem full_append_aborts : ¬∀ (host : Endian) (b : Tbuf), AssertedRun host b →
    ∀ str, ∃ b', b.appendAsserted str = .ok b' := by
  intro h
  let str : Bytes := List.replicate kInitSize 1
  have hlen : str.length = kInitSize := List.length_replicate
  have hsize : init.buf.length = kInitSize := List.length_replicate
  have hfit : init.widx + str.length ≤ init.buf.length := by
    rw [hlen, hsize]
    exact Nat.le_of_eq (Nat.zero_add _)
  have hne : str = [] → init.widx < init.buf.length := by
    intro he
    rw [he] at hlen
    cases hlen
  obtain ⟨b, happend, hasserted⟩ := inv_init.appendAsserted_ok hne
  have hroom : str.length ≤ init.writeableBytes := by
    rw [hlen, writeableBytes, hsize]
    exact Nat.le_refl _
  obtain rfl := Option.some.inj (happend.symm.trans (append_of_room (makeRoom_of_le hroom) hfit))
  have hrun : AssertedRun .little _ := .call (.append str) .init trivial hasserted
  obtain ⟨b', hb'⟩ := h .little _ hrun []
  rw [hrun.inv.appendAsserted_nil] at hb'
  · cases hb'
  · dsimp only
    rw [length_copyTo hfit, hsize, hlen]
    exact Nat.le_add_left _ _

end Runs

end LinuxSocket.Tbuf
