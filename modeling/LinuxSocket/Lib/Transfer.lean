import Mathlib.Data.List.Induction
import LinuxSocket.Lib.Memory

/-! # Loops that move a block piecewise

Each call of the system is asked for what is left of the block and moves a part of it. The loop goes on behind an
interrupt and gives up at the end of the stream and at an error.
-/
namespace LinuxSocket.Transfer

def eintr : ℤ := 4

/-- How a call returns: with a count, or with -1 and this `errno`. -/
inductive CallResult
  | count (n : ℕ)
  | error (errno : ℤ)
  deriving DecidableEq

/-- The loop gives up. -/
def CallResult.Stops : CallResult → Prop
  | .count n => n = 0
  | .error errno => errno ≠ eintr

def CallResult.interrupted (result : CallResult) : Bool := result == .error eintr

@[simp] theorem interrupted_count (n : ℕ) : (CallResult.count n).interrupted = false := rfl

@[simp] theorem interrupted_eintr : (CallResult.error eintr).interrupted = true := rfl

/-- A block of memory and a descriptor, as the calls see them. -/
structure Device (σ : Type*) where
  /-- the `count` bytes from index `i` on are in the block -/
  inside : σ → (i count : ℕ) → Bool
  /-- the descriptor can move `n` bytes -/
  ready : σ → (n : ℕ) → Bool
  /-- a call moves `n` bytes at index `i` -/
  move : σ → (i n : ℕ) → σ

/-- The loop waits in a call behind `done` bytes, it has returned, or the call got memory outside of the block. -/
inductive State (σ : Type*)
  | calling (done : ℤ) (s : σ)
  | returned (r : ℤ) (s : σ)
  | faulted
  deriving DecidableEq

/-- The number of bytes that a call is asked for, an `int` converted to `size_t`. -/
def asked (length done : ℤ) : ℕ := ((length - done) % 2 ^ 64).toNat

section Loop
variable {σ : Type*} (D : Device σ) (length : ℤ)

/-- The condition of the loop. -/
def head (done : ℤ) (s : σ) : State σ := if done < length then .calling done s else .returned done s

/-- The call returns; `none` when it cannot return this, or when the loop is in no call. -/
def Device.step : State σ → CallResult → Option (State σ)
  | .calling done s, .count n =>
    if n ≤ asked length done ∧ D.ready s n then
      if 0 ≤ done ∧ D.inside s done.toNat (asked length done) then
        -- a count of 0 is the end of the stream
        some (if 0 < n then head length (done + toInt32 n) (D.move s done.toNat n) else .returned done s)
      else some .faulted
    else none
  | .calling done s, .error errno => some (if errno ≠ eintr then .returned done s else head length done s)
  | .returned _ _, _ => none
  | .faulted, _ => none

/-- The loop with the results of its calls so far; `none` when these are not what its calls return. -/
def Device.run (s : σ) (results : List CallResult) : Option (State σ) :=
  results.foldlM (D.step length) (head length 0 s)

end Loop

/-- What holds of the device when the first `i` bytes have been moved, and what makes it so. -/
structure Device.Keeps {σ : Type*} (D : Device σ) (length : ℕ) (I : ℕ → σ → Prop) : Prop where
  inside : ∀ {i s}, I i s → i ≤ length → D.inside s i (length - i) = true
  move : ∀ {i n s}, I i s → i + n ≤ length → D.ready s n = true → I (i + n) (D.move s i n)

/-- The states of the loop behind calls with these results. -/
inductive Moved {σ : Type*} (length : ℕ) (I : ℕ → σ → Prop) (results : List CallResult) : State σ → Prop
  | calling {i : ℕ} {s} : i < length → I i s → results.countP (!·.interrupted) ≤ i → Moved length I results (.calling i s)
  | returned {i : ℕ} {s} : i ≤ length → I i s → (i < length → ∃ result ∈ results, result.Stops) →
      Moved length I results (.returned i s)

/-- The value that the loop returns behind calls with these results. -/
structure Transferred (length r : ℤ) (results : List CallResult) : Prop where
  nonneg : 0 ≤ r
  le : r ≤ length
  stopped : r < length → ∃ result ∈ results, result.Stops

/-- The results of calls on which a loop that has moved `done` bytes of `length` ends, with the value it returns. -/
inductive Ends (length : ℕ) : (done : ℕ) → List CallResult → (r : ℕ) → Prop
  | full : Ends length length [] length
  | moved {done n results r} : done < length → 0 < n → n ≤ length - done → Ends length (done + n) results r →
      Ends length done (.count n :: results) r
  | endOfFile {done} : done < length → Ends length done [.count 0] done
  | interrupted {done results r} : done < length → Ends length done results r →
      Ends length done (.error eintr :: results) r
  | failed {done errno} : done < length → errno ≠ eintr → Ends length done [.error errno] done

section Rule
variable {σ : Type*} {D : Device σ} {length i n : ℕ} {I : ℕ → σ → Prop} {s : σ} {x y : State σ}
  {results : List CallResult} {result : CallResult}

theorem asked_eq (hi : i ≤ length) (hlen : length < 2 ^ 31) : asked length i = length - i := by
  unfold asked
  omega

/-- A call that moves something inside of the block. -/
theorem step_count (hi : i ≤ length) (hlen : length < 2 ^ 31) (hn : n ≤ length - i) (hready : D.ready s n = true)
    (hinside : D.inside s i (length - i) = true) : D.step length (.calling i s) (.count n) =
      some (if 0 < n then head length (i + n : ℕ) (D.move s i n) else .returned i s) := by
  rw [Device.step, asked_eq hi hlen, if_pos ⟨hn, hready⟩, Int.toNat_natCast, if_pos ⟨Int.natCast_nonneg i, hinside⟩,
    toInt32_natCast (by omega), Nat.cast_add]

/-- A negative length is no more than none. -/
theorem head_toNat (length : ℤ) (s : σ) : head length 0 s = head (length.toNat : ℤ) 0 s := by
  have hiff : 0 < (length.toNat : ℤ) ↔ 0 < length := by omega
  simp only [head, hiff]

theorem step_interrupted {done : ℤ} {length : ℤ} (h : done < length) :
    D.step length (.calling done s) (.error eintr) = some (.calling done s) := by
  rw [Device.step, if_neg (not_not.mpr rfl), head, if_pos h]

theorem Moved.head (hi : i ≤ length) (hI : I i s) (hc : results.countP (!·.interrupted) ≤ i) :
    Moved length I results (head length i s) := by
  unfold Transfer.head
  split
  · next hlt => exact .calling (Int.ofNat_lt.mp hlt) hI hc
  · next hge => exact .returned hi hI fun hlt => absurd (Int.ofNat_lt.mpr hlt) hge

theorem Moved.step (hD : D.Keeps length I) (hlen : length < 2 ^ 31) (h : Moved length I results x)
    (hs : D.step length x result = some y) : Moved length I (results ++ [result]) y := by
  cases h with
  | returned => cases hs
  | @calling i s hi hI hc =>
    have hstop (hr : result.Stops) : Moved length I (results ++ [result]) (.returned i s) :=
      .returned (Nat.le_of_lt hi) hI fun _ => ⟨result, List.mem_append_right _ (List.mem_singleton_self _), hr⟩
    cases result with
    | error errno =>
      by_cases he : errno = eintr
      · subst he
        rw [step_interrupted (Int.ofNat_lt.mpr hi)] at hs
        obtain rfl := Option.some.inj hs
        apply Moved.calling hi hI
        simpa using hc
      · obtain rfl := Option.some.inj hs
        rw [if_pos he]
        exact hstop he
    | count n =>
      have hcan : n ≤ length - i ∧ D.ready s n = true := by
        by_contra hno
        rw [Device.step, asked_eq (Nat.le_of_lt hi) hlen, if_neg hno] at hs
        cases hs
      rw [step_count (Nat.le_of_lt hi) hlen hcan.1 hcan.2 (hD.inside hI (Nat.le_of_lt hi))] at hs
      obtain rfl := Option.some.inj hs
      by_cases hpos : 0 < n
      · rw [if_pos hpos]
        apply Moved.head (by omega) (hD.move hI (by omega) hcan.2)
        simp only [List.countP_append, List.countP_singleton, interrupted_count, Bool.not_false, if_true]
        omega
      · rw [if_neg hpos]
        exact hstop (Nat.eq_zero_of_not_pos hpos)

/-- The rule of the loop: in whatever pieces, with whatever interrupts. -/
theorem run_moved (hD : D.Keeps length I) (hlen : length < 2 ^ 31) (h₀ : I 0 s)
    (h : D.run length s results = some x) : Moved length I results x := by
  induction results using List.reverseRecOn generalizing x with
  | nil =>
    obtain rfl := Option.some.inj h
    exact Moved.head (i := 0) (Nat.zero_le _) h₀ (Nat.le_refl 0)
  | append_singleton results result ih =>
    rw [Device.run, List.foldlM_append] at h
    obtain ⟨y, hy, hs⟩ := Option.bind_eq_some_iff.mp h
    obtain ⟨z, hz, hend⟩ := Option.bind_eq_some_iff.mp (List.foldlM_cons.symm.trans hs)
    obtain rfl := Option.some.inj hend
    exact (ih hy).step hD hlen hz

theorem run_not_faulted (hD : D.Keeps length I) (hlen : length < 2 ^ 31) (h₀ : I 0 s) :
    D.run length s results ≠ some .faulted := by
  intro h
  cases run_moved hD hlen h₀ h

theorem run_transferred {r : ℤ} {t : σ} (hD : D.Keeps length I) (hlen : length < 2 ^ 31) (h₀ : I 0 s)
    (h : D.run length s results = some (.returned r t)) : Transferred length r results ∧ I r.toNat t := by
  cases run_moved hD hlen h₀ h with
  | @returned i _ hi hI hstop =>
    exact ⟨⟨Int.natCast_nonneg i, Int.ofNat_le.mpr hi, fun hlt => hstop (Int.ofNat_lt.mp hlt)⟩, hI⟩

theorem Ends.le {r : ℕ} (h : Ends length i results r) : i ≤ r := by
  induction h with
  | full => exact Nat.le_refl _
  | moved _ _ _ _ ih => omega
  | endOfFile _ => exact Nat.le_refl _
  | interrupted _ _ ih => exact ih
  | failed _ _ => exact Nat.le_refl _

/-- The loop follows results on which it ends to their end. -/
theorem foldlM_of_ends {r : ℕ} (hD : D.Keeps length I) (hlen : length < 2 ^ 31) (he : Ends length i results r)
    (hready : ∀ {j n t}, I j t → j + n ≤ r → D.ready t n = true) (hI : I i s) :
    ∃ t, results.foldlM (D.step length) (head length i s) = some (.returned r t) ∧ I r t := by
  have hhead {i : ℕ} (s : σ) (hi : i < length) : head length i s = .calling (i : ℤ) s := if_pos (Int.ofNat_lt.mpr hi)
  induction he generalizing s with
  | full => exact ⟨s, congrArg some (if_neg (lt_irrefl _)), hI⟩
  | @moved i n results r hi hpos hn he ih =>
    have hn' := hready hI he.le
    obtain ⟨t, ht, hIt⟩ := ih hready (hD.move hI (by omega) hn')
    refine ⟨t, ?_, hIt⟩
    rw [hhead s hi, List.foldlM_cons, step_count (Nat.le_of_lt hi) hlen hn hn' (hD.inside hI (Nat.le_of_lt hi)),
      if_pos hpos]
    exact ht
  | @endOfFile i hi =>
    refine ⟨s, ?_, hI⟩
    rw [hhead s hi, List.foldlM_cons, step_count (Nat.le_of_lt hi) hlen (Nat.zero_le _) (hready hI (Nat.le_refl i))
      (hD.inside hI (Nat.le_of_lt hi))]
    rfl
  | @interrupted i results r hi _ ih =>
    obtain ⟨t, ht, hIt⟩ := ih hready hI
    refine ⟨t, ?_, hIt⟩
    rw [hhead s hi, List.foldlM_cons, step_interrupted (Int.ofNat_lt.mpr hi), ← hhead s hi]
    exact ht
  | @failed i errno hi herrno =>
    refine ⟨s, ?_, hI⟩
    rw [hhead s hi, List.foldlM_cons, Device.step, if_pos herrno]
    rfl

theorem run_of_ends {r : ℕ} (hD : D.Keeps length I) (hlen : length < 2 ^ 31) (he : Ends length 0 results r)
    (hready : ∀ {j n t}, I j t → j + n ≤ r → D.ready t n = true) (h₀ : I 0 s) :
    ∃ t, D.run length s results = some (.returned r t) ∧ I r t := foldlM_of_ends hD hlen he hready h₀

/-- The loop does not wait any more when as many calls as there are bytes have returned otherwise than interrupted. -/
theorem run_returned (hD : D.Keeps length I) (hlen : length < 2 ^ 31) (h₀ : I 0 s)
    (h : D.run length s results = some x) (hcalls : length ≤ results.countP (!·.interrupted)) :
    ∃ r t, x = .returned r t := by
  cases run_moved hD hlen h₀ h with
  | calling hi _ hc => omega
  | returned => exact ⟨_, _, rfl⟩

end Rule

section Devices

/-- `write` of a part of `buf` to a descriptor, which keeps all that it got. -/
def writer (buf : Bytes) : Device Bytes where
  inside _ i count := i + count ≤ buf.length
  ready _ _ := true
  move passed i n := passed ++ (buf.drop i).take n

/-- `read` into a block of the next part of a stream, of which the rest is kept. -/
def reader : Device (Bytes × Bytes) where
  inside s i count := i + count ≤ s.1.length
  ready s n := n ≤ s.2.length
  move s i n := (copyTo s.1 i (s.2.take n), s.2.drop n)

@[simp] theorem writer_move (buf passed : Bytes) (i n : ℕ) :
    (writer buf).move passed i n = passed ++ (buf.drop i).take n := rfl

@[simp] theorem reader_move (s : Bytes × Bytes) (i n : ℕ) :
    reader.move s i n = (copyTo s.1 i (s.2.take n), s.2.drop n) := rfl

/-- The descriptor has got the first `i` bytes of `buf`. -/
def Wrote (passed buf : Bytes) (i : ℕ) (passed' : Bytes) : Prop := passed' = passed ++ buf.take i

/-- The first `i` bytes of the stream are at the start of the block, which is otherwise as before. -/
structure Stored (stream buf : Bytes) (i : ℕ) (s : Bytes × Bytes) : Prop where
  le : i ≤ stream.length
  buf_eq : s.1 = stream.take i ++ buf.drop i
  rest_eq : s.2 = stream.drop i

variable {passed stream buf : Bytes} {length i n : ℕ}

theorem wrote_zero (passed buf : Bytes) : Wrote passed buf 0 passed := (List.append_nil passed).symm

theorem writer_keeps (h : length ≤ buf.length) : (writer buf).Keeps length (Wrote passed buf) where
  inside _ hi := decide_eq_true (by omega)
  move hI _ _ := by
    rw [Wrote] at hI ⊢
    rw [writer_move, hI, List.append_assoc, List.take_add]

theorem stored_zero (stream buf : Bytes) : Stored stream buf 0 (buf, stream) := ⟨Nat.zero_le _, rfl, rfl⟩

/-- The next part of the stream is copied behind the part that is there. -/
theorem copyTo_next (h : i + n ≤ stream.length) :
    copyTo (stream.take i ++ buf.drop i) i ((stream.drop i).take n) = stream.take (i + n) ++ buf.drop (i + n) := by
  have hi : (stream.take i).length = i := List.length_take_of_le (by omega)
  have hn : ((stream.drop i).take n).length = n := by
    rw [List.length_take, List.length_drop]
    omega
  have hcopy := copyTo_append (stream.take i) (buf.drop i) ((stream.drop i).take n)
  rwa [hi, hn, ← List.take_add, List.drop_drop] at hcopy

theorem reader_keeps (h : length ≤ buf.length) : reader.Keeps length (Stored stream buf) where
  inside hI hi := by
    have hlen := congrArg List.length hI.buf_eq
    rw [List.length_append, List.length_take_of_le hI.le, List.length_drop] at hlen
    exact decide_eq_true (by omega)
  move {i n s} hI _ hready := by
    obtain ⟨hle, hbuf, hrest⟩ := hI
    have hn : n ≤ s.2.length := of_decide_eq_true hready
    rw [hrest, List.length_drop] at hn
    have hsum : i + n ≤ stream.length := by omega
    refine ⟨hsum, ?_, ?_⟩
    · rw [reader_move, hbuf, hrest]
      exact copyTo_next hsum
    · rw [reader_move, hrest, List.drop_drop]

end Devices

end LinuxSocket.Transfer
