import LinuxSocket.CircularBuffer.CircularBuffer

/-! # The circular buffer is a queue

`Inv` ties the counter of readable bytes to the two indices. Every operation keeps it and acts on
the bytes in the window as the operation of a queue.
-/
namespace LinuxSocket.CircularBuffer
open Cyclic

structure Inv (b : CircularBuffer) : Prop where
  readIdx_lt : b.readIdx < b.buffer.length
  readable_lt : b.readableBytes < b.buffer.length
  writeIdx_eq : b.writeIdx = (b.readIdx + b.readableBytes) % b.buffer.length

def contents (b : CircularBuffer) : Bytes := window b.buffer b.readIdx b.readableBytes

section Invariant
variable {b : CircularBuffer}

theorem inv_init : init.Inv := by
  have hpos : 0 < init.buffer.length := by
    rw [init, List.length_replicate]
    exact Nat.zero_lt_succ _
  refine ⟨hpos, hpos, ?_⟩
  simp only [init, Nat.add_zero, Nat.zero_mod]

theorem Inv.length_contents (h : b.Inv) : b.contents.length = b.readableBytes :=
  length_window _ (Nat.le_of_lt h.readable_lt)

theorem Inv.writeIdx_lt (h : b.Inv) : b.writeIdx < b.buffer.length := by
  rw [h.writeIdx_eq]
  exact Nat.mod_lt _ (Nat.zero_lt_of_lt h.readIdx_lt)

theorem Inv.readable_eq (h : b.Inv) :
    (b.readableBytes : ℤ) = ((b.writeIdx : ℤ) - b.readIdx) % b.buffer.length := by
  have hlt : (b.readableBytes : ℤ) < b.buffer.length := by exact_mod_cast h.readable_lt
  rw [h.writeIdx_eq, Int.natCast_emod, Int.emod_sub_emod]
  push_cast
  rw [add_sub_cancel_left, Int.emod_eq_of_lt (Int.natCast_nonneg _) hlt]

theorem Inv.wrapped (h : b.Inv) (hw : b.writeIdx < b.readIdx) :
    b.readableBytes = b.buffer.length - b.readIdx + b.writeIdx := by
  have heq := h.writeIdx_eq
  have hr := h.readIdx_lt
  have hk := h.readable_lt
  rcases Nat.lt_or_ge (b.readIdx + b.readableBytes) b.buffer.length with hlt | hge
  · rw [Nat.mod_eq_of_lt hlt] at heq
    omega
  · rw [Nat.mod_eq_sub_mod hge, Nat.mod_eq_of_lt (by omega)] at heq
    omega

theorem Inv.straight (h : b.Inv) (hw : ¬b.writeIdx < b.readIdx) :
    b.readIdx + b.readableBytes < b.buffer.length ∧ b.writeIdx = b.readIdx + b.readableBytes := by
  have heq := h.writeIdx_eq
  have hr := h.readIdx_lt
  have hk := h.readable_lt
  rcases Nat.lt_or_ge (b.readIdx + b.readableBytes) b.buffer.length with hlt | hge
  · rw [Nat.mod_eq_of_lt hlt] at heq
    exact ⟨hlt, heq⟩
  · rw [Nat.mod_eq_sub_mod hge, Nat.mod_eq_of_lt (by omega)] at heq
    omega

end Invariant

section Operations
variable {b : CircularBuffer}

/-- A full buffer is left alone; else the byte is appended to the queue. -/
theorem Inv.push (h : b.Inv) (c : UInt8) :
    (b.writeableBytes = 0 ∧ b.push c = (0, b)) ∨
    (0 < b.writeableBytes ∧ ∃ b', b.push c = (1, b') ∧ b'.Inv ∧ b'.contents = b.contents ++ [c] ∧
      b'.writeableBytes + 1 = b.writeableBytes) := by
  have hk := h.readable_lt
  have hw := h.writeIdx_lt
  have hnext : next b.buffer.length b.writeIdx = (b.readIdx + (b.readableBytes + 1)) % b.buffer.length := by
    rw [next_eq_mod hw, h.writeIdx_eq, Nat.mod_add_mod, Nat.add_assoc]
  have hiff := add_mod_eq_iff h.readIdx_lt hk
  rw [← hnext] at hiff
  unfold CircularBuffer.push writeableBytes
  by_cases hfull : next b.buffer.length b.writeIdx = b.readIdx
  · have := hiff.mp hfull
    exact Or.inl ⟨by omega, if_pos hfull⟩
  · have := mt hiff.mpr hfull
    refine Or.inr ⟨by omega, _, if_neg hfull, ⟨?_, ?_, ?_⟩, ?_, ?_⟩
    · simpa using h.readIdx_lt
    · simp only [List.length_set]
      omega
    · simp only [List.length_set]
      exact hnext
    · dsimp only [contents]
      rw [h.writeIdx_eq, window_push _ _ hk]
    · simp only [List.length_set]
      omega

/-- The head of the queue is removed; an empty buffer is left alone. -/
theorem Inv.pop (h : b.Inv) :
    (b.readableBytes = 0 ∧ b.pop = (0, none, b)) ∨
    (∃ c b', b.pop = (1, some c, b') ∧ b'.Inv ∧ b.contents = c :: b'.contents ∧
      b'.readableBytes + 1 = b.readableBytes) := by
  have hr := h.readIdx_lt
  have hk := h.readable_lt
  have hiff := add_mod_eq_iff hr (Nat.le_of_lt hk)
  rw [← h.writeIdx_eq] at hiff
  unfold CircularBuffer.pop
  by_cases hempty : b.readIdx = b.writeIdx
  · have := hiff.mp hempty.symm
    exact Or.inl ⟨by omega, if_pos hempty⟩
  · have hne := mt hiff.mpr (Ne.symm hempty)
    obtain ⟨k, hk'⟩ : ∃ k, b.readableBytes = k + 1 := Nat.exists_eq_succ_of_ne_zero (by tauto)
    have hnext := next_eq_mod hr
    refine Or.inr ⟨_, _, if_neg hempty, ⟨next_lt hr, ?_, ?_⟩, ?_, ?_⟩
    · dsimp only
      omega
    · change b.writeIdx = (next b.buffer.length b.readIdx + (b.readableBytes - 1)) % b.buffer.length
      rw [hnext, Nat.mod_add_mod, h.writeIdx_eq]
      congr 1
      omega
    · change window b.buffer b.readIdx b.readableBytes =
        _ :: window b.buffer (next b.buffer.length b.readIdx) (b.readableBytes - 1)
      rw [hnext, window_mod, hk', window_pop 0 hr (by omega)]
      rfl
    · dsimp only
      omega

/-- Both ways of growing keep the queue and make room for exactly `len` bytes. -/
theorem Inv.grow (h : b.Inv) {len : ℕ} (hlen : b.writeableBytes < len) :
    ∃ b', b.grow len = some b' ∧ b'.Inv ∧ b'.contents = b.contents ∧ b'.writeableBytes = len := by
  have hr := h.readIdx_lt
  have hk := h.readable_lt
  unfold writeableBytes at hlen
  unfold CircularBuffer.grow
  by_cases hw : b.writeIdx < b.readIdx
  · have hread := h.wrapped hw
    let xs := b.buffer.drop b.readIdx ++ b.buffer.take b.writeIdx
    have hxs : xs.length = b.readableBytes := by
      simp only [xs, List.length_append, List.length_drop, List.length_take]
      omega
    have hbuf : copyTo (copyTo (List.replicate (len - b.writeableBytes + b.buffer.length) 0) 0
        (b.buffer.drop b.readIdx)) (b.buffer.length - b.readIdx) (b.buffer.take b.writeIdx) =
          xs ++ List.replicate (len + 1) 0 := by
      rw [copyTo_zero, List.drop_replicate, ← List.length_drop, copyTo_append, List.drop_replicate]
      congr 2
      simp only [writeableBytes, List.length_drop, List.length_take]
      omega
    simp only [if_pos hw, hbuf]
    refine ⟨_, rfl, ⟨?_, ?_, ?_⟩, ?_, ?_⟩
    · simp only [List.length_append, List.length_replicate]
      omega
    · simp only [List.length_append, hxs, List.length_replicate]
      omega
    · simp only [List.length_append, hxs, List.length_replicate]
      rw [Nat.mod_eq_of_lt (by omega)]
      omega
    · change window (xs ++ List.replicate (len + 1) 0) 0 b.readableBytes =
        window b.buffer b.readIdx b.readableBytes
      rw [← hxs, window_prefix, hxs, hread, window_wrapped (Nat.le_of_lt hr) (Nat.le_of_lt hw)]
    · simp only [writeableBytes, List.length_append, hxs, List.length_replicate]
      omega
  · obtain ⟨hlt, heq⟩ := h.straight hw
    have hsize : b.buffer.length ≤ len - b.writeableBytes + b.buffer.length := Nat.le_add_left _ _
    have hbuf : resize b.buffer (len - b.writeableBytes + b.buffer.length) =
        b.buffer ++ List.replicate (len - b.writeableBytes) 0 := by
      rw [resize, List.take_of_length_le hsize, Nat.add_sub_cancel]
    have hlength : (b.buffer ++ List.replicate (len - b.writeableBytes) 0).length =
        len - b.writeableBytes + b.buffer.length := by
      rw [List.length_append, List.length_replicate, Nat.add_comm]
    simp only [if_neg hw, hbuf, if_pos hlength]
    refine ⟨_, rfl, ⟨?_, ?_, ?_⟩, ?_, ?_⟩
    · exact hlength ▸ Nat.lt_of_lt_of_le hr hsize
    · exact hlength ▸ Nat.lt_of_lt_of_le hk hsize
    · dsimp only
      rw [hlength, Nat.mod_eq_of_lt (Nat.lt_of_lt_of_le hlt hsize)]
      exact heq
    · exact window_append _ (Nat.le_of_lt hlt)
    · simp only [writeableBytes, List.length_append, List.length_replicate]
      omega

/-- A string that fits is appended to the queue: no push of the loop fails. -/
theorem Inv.pushAll (h : b.Inv) {s : Bytes} (hs : s.length ≤ b.writeableBytes) :
    ∃ b', b.pushAll s = some b' ∧ b'.Inv ∧ b'.contents = b.contents ++ s := by
  induction s generalizing b with
  | nil => exact ⟨b, rfl, h, (List.append_nil _).symm⟩
  | cons c s ih =>
    rw [List.length_cons] at hs
    rcases h.push c with ⟨hfull, -⟩ | ⟨-, b₁, hpush, h₁, hc, hroom⟩
    · omega
    · obtain ⟨b₂, hrun, h₂, hc₂⟩ := ih h₁ (by omega)
      refine ⟨b₂, ?_, h₂, ?_⟩
      · simp only [CircularBuffer.pushAll, hpush]
        exact hrun
      · rw [hc₂, hc, List.append_assoc]
        rfl

theorem Inv.pushStr (h : b.Inv) (s : Bytes) :
    ∃ b', b.pushStr s = some (s.length, b') ∧ b'.Inv ∧ b'.contents = b.contents ++ s := by
  unfold CircularBuffer.pushStr
  by_cases hfit : b.writeableBytes < s.length
  · obtain ⟨b₁, hgrow, h₁, hc₁, hroom⟩ := h.grow hfit
    obtain ⟨b₂, hrun, h₂, hc₂⟩ := h₁.pushAll (s := s) (by omega)
    refine ⟨b₂, ?_, h₂, by rw [hc₂, hc₁]⟩
    simp [hfit, hgrow, hroom, hrun]
  · obtain ⟨b₂, hrun, h₂, hc₂⟩ := h.pushAll (s := s) (by omega)
    refine ⟨b₂, ?_, h₂, hc₂⟩
    simp [hfit, hrun]

/-- Popping no more bytes than there are yields the front of the queue: no pop of the loop fails. -/
theorem Inv.popAll (h : b.Inv) {n : ℕ} (hn : n ≤ b.readableBytes) :
    ∃ b', b.popAll n = some (b.contents.take n, b') ∧ b'.Inv ∧ b'.contents = b.contents.drop n := by
  induction n generalizing b with
  | zero => exact ⟨b, rfl, h, rfl⟩
  | succ n ih =>
    rcases h.pop with ⟨hempty, -⟩ | ⟨c, b₁, hpop, h₁, hc, hcount⟩
    · omega
    · obtain ⟨b₂, hrun, h₂, hc₂⟩ := ih h₁ (by omega)
      refine ⟨b₂, ?_, h₂, ?_⟩
      · simp [CircularBuffer.popAll, hpop, hrun, hc]
      · rw [hc₂, hc, List.drop_succ_cons]

end Operations

section Words

variable {b : CircularBuffer}

/-- The word in front of the queue, wherever it wraps, is read and removed. -/
theorem Inv.readInt32 (h : b.Inv) (host : Endian) (hn : 4 ≤ b.readableBytes) : ∃ b',
    b.readInt32 host = some (Int.bmod (bigEndian (b.contents.take 4)) (2 ^ 32), b') ∧ b'.Inv ∧
      b'.contents = b.contents.drop 4 := by
  obtain ⟨b', hrun, h', hc⟩ := h.popAll hn
  have hlen : (b.contents.take 4).length = 4 := by
    rw [List.length_take, h.length_contents]
    omega
  refine ⟨b', ?_, h', hc⟩
  simp [CircularBuffer.readInt32, Nat.not_lt.mpr hn, hrun, ntohl_load host hlen]

theorem Inv.retrieve (h : b.Inv) {len : ℕ} (hn : len ≤ b.readableBytes) :
    ∃ b', b.retrieve len = some b' ∧ b'.Inv ∧ b'.contents = b.contents.drop len := by
  obtain ⟨b', hrun, h', hc⟩ := h.popAll hn
  exact ⟨b', by simp [CircularBuffer.retrieve, hn, hrun], h', hc⟩

end Words

section Runs

inductive Op
  | push (ele : UInt8)
  | pop
  | pushStr (ele : Bytes)
  | retrieve (len : ℕ)
  | readInt32

/-- The callers' part: `retrieve` and `read_int32` ask for no more bytes than there are. -/
def Op.Allowed (b : CircularBuffer) : Op → Prop
  | .push _ => True
  | .pop => True
  | .pushStr _ => True
  | .retrieve len => len ≤ b.readableBytes
  | .readInt32 => 4 ≤ b.readableBytes

/-- What a call does to the bytes accepted so far and to the number of bytes removed. -/
structure Effect where
  accepted : Bytes := []
  removed : ℕ := 0

/-- A call with its effect as its results report it: `push` and `pop` return how many bytes they
have moved. -/
def exec (host : Endian) (b : CircularBuffer) : Op → Option (Effect × CircularBuffer)
  | .push ele =>
    let r := b.push ele
    some (if r.1 = 0 then {} else { accepted := [ele] }, r.2)
  | .pop =>
    let r := b.pop
    some ({ removed := r.1 }, r.2.2)
  | .pushStr ele => (b.pushStr ele).map fun r => ({ accepted := ele.take r.1 }, r.2)
  | .retrieve len => (b.retrieve len).map fun b => ({ removed := len }, b)
  | .readInt32 => (b.readInt32 host).map fun r => ({ removed := 4 }, r.2)

/-- The buffers that calls lead to from the empty one, with all bytes accepted on the way and the
number of bytes removed. -/
inductive Run (host : Endian) : CircularBuffer → Bytes → ℕ → Prop
  | init : Run host init [] 0
  | call {b b' accepted removed e} (op : Op) : Run host b accepted removed → op.Allowed b →
      b.exec host op = some (e, b') → Run host b' (accepted ++ e.accepted) (removed + e.removed)

variable {host : Endian} {b : CircularBuffer}

variable (host) in
/-- An allowed call fails no assertion and acts on the queue as it reports. -/
theorem Inv.exec (h : b.Inv) {op : Op} (ha : op.Allowed b) : ∃ e b', b.exec host op = some (e, b') ∧
    b'.Inv ∧ e.removed ≤ b.contents.length ∧ b'.contents = (b.contents ++ e.accepted).drop e.removed := by
  have hlen := h.length_contents
  cases op with
  | push ele =>
    rcases h.push ele with ⟨-, hp⟩ | ⟨-, b', hp, h', hc, -⟩
    · exact ⟨_, _, rfl, by rw [hp]; exact h, by simp [hp], by simp [hp]⟩
    · exact ⟨_, _, rfl, by rw [hp]; exact h', by simp [hp], by simp [hp, hc]⟩
  | pop =>
    rcases h.pop with ⟨-, hp⟩ | ⟨c, b', hp, h', hc, -⟩
    · exact ⟨_, _, rfl, by rw [hp]; exact h, by simp [hp], by simp [hp]⟩
    · exact ⟨_, _, rfl, by rw [hp]; exact h', by simp [hp, hc], by simp [hp, hc]⟩
  | pushStr ele =>
    obtain ⟨b', hp, h', hc⟩ := h.pushStr ele
    exact ⟨_, _, by rw [CircularBuffer.exec, hp]; rfl, h', Nat.zero_le _, by simp [hc]⟩
  | retrieve len =>
    obtain ⟨b', hp, h', hc⟩ := h.retrieve ha
    exact ⟨_, _, by rw [CircularBuffer.exec, hp]; rfl, h', by rw [hlen]; exact ha, by simp [hc]⟩
  | readInt32 =>
    obtain ⟨b', hp, h', hc⟩ := h.readInt32 host ha
    exact ⟨_, _, by rw [CircularBuffer.exec, hp]; rfl, h', by rw [hlen]; exact ha, by simp [hc]⟩

/-- The invariant of a run: the window holds the bytes accepted and not yet removed. -/
theorem Run.inv {accepted : Bytes} {removed : ℕ} (h : Run host b accepted removed) :
    b.Inv ∧ removed ≤ accepted.length ∧ b.contents = accepted.drop removed := by
  induction h with
  | init => exact ⟨inv_init, Nat.le_refl _, rfl⟩
  | @call b b' accepted removed e op _ ha he ih =>
    obtain ⟨hb, hle, hc⟩ := ih
    obtain ⟨e', b'', he', hb', hle', hc'⟩ := hb.exec host ha
    obtain ⟨rfl, rfl⟩ := Prod.mk.inj (Option.some.inj (he.symm.trans he'))
    rw [hc, List.length_drop] at hle'
    refine ⟨hb', by rw [List.length_append]; omega, ?_⟩
    rw [hc', hc, ← List.drop_append_of_le_length hle, List.drop_drop]

/-- What holds of the buffer in every state of a run, for the queue `q` of bytes it holds. -/
structure IsFifo (host : Endian) (b : CircularBuffer) (q : Bytes) : Prop where
  readIdx_lt : b.readIdx < b.buffer.length
  writeIdx_lt : b.writeIdx < b.buffer.length
  readable_eq : (b.readableBytes : ℤ) = ((b.writeIdx : ℤ) - b.readIdx) % b.buffer.length
  contents_eq : b.contents = q
  push_full : ∀ c, (b.push c).1 = 0 ↔ b.writeableBytes = 0
  push_unchanged : ∀ c, (b.push c).1 = 0 → (b.push c).2 = b
  push_accepts : ∀ c, (b.push c).1 ≠ 0 → (b.push c).1 = 1 ∧ (b.push c).2.contents = q ++ [c]
  pop_empty : q = [] → b.pop = (0, none, b)
  pop_head : ∀ c q', q = c :: q' → ∃ b', b.pop = (1, some c, b') ∧ b'.contents = q'
  pushStr_appends : ∀ s, ∃ b', b.pushStr s = some (s.length, b') ∧ b'.contents = q ++ s
  retrieve_drops : ∀ len ≤ b.readableBytes, ∃ b', b.retrieve len = some b' ∧ b'.contents = q.drop len
  readInt32_value : 4 ≤ b.readableBytes → ∃ b',
    b.readInt32 host = some (Int.bmod (bigEndian (q.take 4)) (2 ^ 32), b') ∧ b'.contents = q.drop 4

variable (host) in
theorem Inv.isFifo (h : b.Inv) : IsFifo host b b.contents where
  readIdx_lt := h.readIdx_lt
  writeIdx_lt := h.writeIdx_lt
  readable_eq := h.readable_eq
  contents_eq := rfl
  push_full c := by
    rcases h.push c with ⟨h0, hp⟩ | ⟨hpos, _, hp, -⟩
    · simp [hp, h0]
    · simp [hp, Nat.pos_iff_ne_zero.mp hpos]
  push_unchanged c hc := by
    rcases h.push c with ⟨-, hp⟩ | ⟨-, _, hp, -⟩
    · rw [hp]
    · simp [hp] at hc
  push_accepts c hc := by
    rcases h.push c with ⟨-, hp⟩ | ⟨-, _, hp, -, happ, -⟩
    · simp [hp] at hc
    · exact ⟨by rw [hp], by rw [hp]; exact happ⟩
  pop_empty hq := by
    rcases h.pop with ⟨-, hp⟩ | ⟨c, b', -, -, hc, -⟩
    · exact hp
    · rw [hc] at hq
      cases hq
  pop_head c q' hq := by
    rcases h.pop with ⟨h0, -⟩ | ⟨c', b', hp, -, hc, -⟩
    · have := h.length_contents
      rw [hq, h0] at this
      cases this
    · obtain ⟨rfl, rfl⟩ := List.cons.inj (hq.symm.trans hc)
      exact ⟨b', hp, rfl⟩
  pushStr_appends s := by
    obtain ⟨b', hp, -, hc⟩ := h.pushStr s
    exact ⟨b', hp, hc⟩
  retrieve_drops len hn := by
    obtain ⟨b', hp, -, hc⟩ := h.retrieve hn
    exact ⟨b', hp, hc⟩
  readInt32_value hn := by
    obtain ⟨b', hp, -, hc⟩ := h.readInt32 host hn
    exact ⟨b', hp, hc⟩

/-- In every run the buffer is a queue of the bytes accepted and not yet removed, and every allowed
call succeeds. -/
theorem run_isFifo {accepted : Bytes} {removed : ℕ} (h : Run host b accepted removed) :
    IsFifo host b (accepted.drop removed) ∧ ∀ op : Op, op.Allowed b → (b.exec host op).isSome := by
  obtain ⟨hb, -, hc⟩ := h.inv
  refine ⟨hc ▸ hb.isFifo host, fun op ha => ?_⟩
  obtain ⟨e, b', he, -⟩ := hb.exec host ha
  rw [he]
  rfl

theorem run_isFifo_push_pop : ∃ b, IsFifo .little b [2, 3] ∧
    ∀ op : Op, op.Allowed b → (b.exec .little op).isSome := by
  obtain ⟨b₁, hp₁, h₁, hc₁⟩ := inv_init.pushStr [1, 2, 3]
  have he₁ : init.exec .little (.pushStr [1, 2, 3]) = some ({ accepted := [1, 2, 3] }, b₁) := by
    rw [exec, hp₁]
    rfl
  obtain ⟨b₂, hp₂, -⟩ := (h₁.isFifo .little).pop_head 1 [2, 3] hc₁
  have he₂ : b₁.exec .little .pop = some ({ removed := 1 }, b₂) := by
    rw [exec, hp₂]
  have hrun := Run.call .pop (Run.call (.pushStr [1, 2, 3]) .init trivial he₁) trivial he₂
  exact ⟨b₂, run_isFifo hrun⟩

end Runs

end LinuxSocket.CircularBuffer
