import Mathlib.Data.List.Rotate
import Mathlib.Data.Nat.ModEq
import Mathlib.Tactic.Common

/-! # Cyclic windows of a list

A ring buffer holds its elements in a window that may wrap around the end of its storage. The
lemmas say what writing behind the window, dropping its head and moving it to a larger storage
do to the elements seen through it. Indices that take turns go round in the same way.
-/
namespace LinuxSocket.Cyclic
variable {α : Type*}

/-- The `k` elements read cyclically from index `r` on. -/
def window (xs : List α) (r k : ℕ) : List α := (xs.rotate r).take k

def next (n i : ℕ) : ℕ := if n ≤ i + 1 then 0 else i + 1

theorem next_eq_mod {n i : ℕ} (h : i < n) : next n i = (i + 1) % n := by
  unfold next
  split
  · next hle => rw [show i + 1 = n by omega, Nat.mod_self]
  · next hlt => rw [Nat.mod_eq_of_lt (by omega)]

theorem next_lt {n i : ℕ} (h : i < n) : next n i < n := by
  rw [next_eq_mod h]
  exact Nat.mod_lt _ (by omega)

theorem add_mod_eq_iff {n r k : ℕ} (hr : r < n) (hk : k ≤ n) : (r + k) % n = r ↔ k = 0 ∨ k = n := by
  rcases Nat.lt_or_ge (r + k) n with hlt | hge
  · rw [Nat.mod_eq_of_lt hlt]
    omega
  · rw [Nat.mod_eq_sub_mod hge, Nat.mod_eq_of_lt (by omega)]
    omega

theorem length_window {xs : List α} {k : ℕ} (r : ℕ) (h : k ≤ xs.length) : (window xs r k).length = k := by
  simp [window, h]

theorem window_mod (xs : List α) (r k : ℕ) : window xs (r % xs.length) k = window xs r k := by
  rw [window, List.rotate_mod, window]

/-- Writing at distance `k` from `r` is writing the `k`-th element of the rotated list. -/
theorem rotate_set {xs : List α} {k : ℕ} (r : ℕ) (c : α) (h : k < xs.length) :
    (xs.set ((r + k) % xs.length) c).rotate r = (xs.rotate r).set k c := by
  apply List.ext_getElem
  · simp
  · intro i h₁ h₂
    have hi : i < xs.length := by simpa using h₂
    rw [List.getElem_rotate, List.getElem_set, List.getElem_set, List.getElem_rotate]
    simp only [List.length_set]
    by_cases hik : k = i
    · rw [if_pos (by rw [hik, Nat.add_comm]), if_pos hik]
    · have hne : (r + k) % xs.length ≠ (i + r) % xs.length := by
        rw [Nat.add_comm i r]
        intro he
        have hmod : k ≡ i [MOD xs.length] := Nat.ModEq.add_left_cancel' r he
        rw [Nat.ModEq, Nat.mod_eq_of_lt h, Nat.mod_eq_of_lt hi] at hmod
        exact hik hmod
      rw [if_neg hne, if_neg hik]

theorem window_push {xs : List α} {k : ℕ} (r : ℕ) (c : α) (h : k < xs.length) :
    window (xs.set ((r + k) % xs.length) c) r (k + 1) = window xs r k ++ [c] := by
  have hk : k < (xs.rotate r).length := by simpa using h
  rw [window, rotate_set r c h, window, List.take_set, List.take_succ_eq_append_getElem hk,
    List.set_append_right _ _ (by rw [List.length_take]; exact Nat.min_le_left _ _)]
  simp [Nat.min_eq_left (Nat.le_of_lt h)]

theorem window_pop {xs : List α} {r k : ℕ} (d : α) (hr : r < xs.length) (hk : k < xs.length) :
    window xs r (k + 1) = xs.getD r d :: window xs (r + 1) k := by
  cases hys : xs.rotate r with
  | nil =>
    rw [List.rotate_eq_nil_iff] at hys
    simp [hys] at hr
  | cons y ys =>
    have hlen : ys.length + 1 = xs.length := by
      have := congrArg List.length hys
      simpa using this.symm
    have hy : xs.getD r d = y := by
      have := List.head?_rotate hr
      rw [hys, List.head?_cons] at this
      rw [List.getD_eq_getElem?_getD, ← this]
      rfl
    have hrot : xs.rotate (r + 1) = ys ++ [y] := by
      rw [← List.rotate_rotate, hys, List.rotate_cons_succ, List.rotate_zero]
    rw [window, hys, List.take_succ_cons, hy, window, hrot, List.take_append_of_le_length (by omega)]

theorem window_straight {xs : List α} {r k : ℕ} (h : r + k ≤ xs.length) :
    window xs r k = (xs.drop r).take k := by
  rw [window, List.rotate_eq_drop_append_take (by omega), List.take_append_of_le_length]
  rw [List.length_drop]
  omega

/-- A window that wraps is the end of the storage and a part of its beginning. -/
theorem window_wrapped {xs : List α} {r w : ℕ} (hr : r ≤ xs.length) (hw : w ≤ r) :
    window xs r (xs.length - r + w) = xs.drop r ++ xs.take w := by
  rw [window, List.rotate_eq_drop_append_take hr, List.take_append, List.length_drop, List.take_of_length_le,
    Nat.add_sub_cancel_left, List.take_take, Nat.min_eq_left hw]
  rw [List.length_drop]
  omega

/-- More storage behind a window that does not wrap changes nothing. -/
theorem window_append {xs : List α} {r k : ℕ} (ys : List α) (h : r + k ≤ xs.length) :
    window (xs ++ ys) r k = window xs r k := by
  rw [window_straight h, window_straight (by rw [List.length_append]; omega),
    List.drop_append_of_le_length (by omega), List.take_append_of_le_length]
  rw [List.length_drop]
  omega

theorem window_prefix (xs ys : List α) : window (xs ++ ys) 0 xs.length = xs := by
  rw [window, List.rotate_zero, List.take_left]

/-- A sequence in rows of equal length. -/
theorem flatMap_rows (f : ℕ → α) (n k : ℕ) :
    ((List.range n).flatMap fun i => (List.range k).map fun j => f (k * i + j)) = (List.range (n * k)).map f := by
  induction n with
  | zero => simp
  | succ n ih =>
    rw [List.range_succ, List.flatMap_append, ih, Nat.succ_mul, List.range_add, List.map_append, List.map_map,
      List.flatMap_singleton]
    refine congrArg _ (List.map_congr_left fun j _ => ?_)
    rw [Function.comp_apply, Nat.mul_comm]

/-- The first elements of a periodic sequence, by whole periods. -/
theorem map_range_period {f : ℕ → α} {k : ℕ} (h : ∀ i, f (i + k) = f i) (n : ℕ) :
    (List.range (n * k + k)).map f = (List.range (n * k)).map f ++ (List.range k).map f := by
  have hn : ∀ i, f (n * k + i) = f i := by
    intro i
    induction n with
    | zero => rw [Nat.zero_mul, Nat.zero_add]
    | succ n ih => rw [Nat.succ_mul, Nat.add_right_comm, h, ih]
  rw [List.range_add, List.map_append, List.map_map]
  exact congrArg _ (List.map_congr_left fun i _ => hn i)

section Turns
variable {p q : ℕ → Bool} {n r t i : ℕ} {rest : List ℕ}

/-- The indices below `n` that have the property, in cyclic order from `r` on. -/
def turns (p : ℕ → Bool) (n r : ℕ) : List ℕ := ((List.range n).rotate r).filter p

theorem mem_turns : i ∈ turns p n r ↔ i < n ∧ p i = true := by
  rw [turns, List.mem_filter, List.mem_rotate, List.mem_range]

theorem nodup_turns (p : ℕ → Bool) (n r : ℕ) : (turns p n r).Nodup :=
  (List.nodup_rotate.mpr List.nodup_range).filter p

theorem length_turns (p : ℕ → Bool) (n r : ℕ) : (turns p n r).length = (List.range n).countP p := by
  rw [turns, ← List.countP_eq_length_filter, (List.rotate_perm _ r).countP_eq]

theorem turns_congr (r : ℕ) (h : ∀ i < n, p i = q i) : turns p n r = turns q n r := by
  refine List.filter_congr fun i hi => h i ?_
  rwa [List.mem_rotate, List.mem_range] at hi

theorem getElem_rotate_range {k : ℕ} (hk : k < ((List.range n).rotate r).length) :
    ((List.range n).rotate r)[k] = (r + k) % n := by
  rw [List.getElem_rotate, List.getElem_range, List.length_range, Nat.add_comm]

theorem rotate_range_mod (n r : ℕ) : (List.range n).rotate (r % n) = (List.range n).rotate r := by
  have h := List.rotate_mod (List.range n) r
  rwa [List.length_range] at h

/-- The first one in turn. -/
theorem head?_turns_iff : (turns p n r).head? = some t ↔
    ∃ j < n, t = (r + j) % n ∧ p t = true ∧ ∀ k < j, p ((r + k) % n) = false := by
  have hlen : ((List.range n).rotate r).length = n := by rw [List.length_rotate, List.length_range]
  rw [turns, List.head?_filter, List.find?_eq_some_iff_getElem]
  constructor
  · rintro ⟨hp, j, hj, rfl, hbefore⟩
    refine ⟨j, hlen ▸ hj, getElem_rotate_range hj, hp, fun k hk => ?_⟩
    have hnot := hbefore k hk
    rw [getElem_rotate_range] at hnot
    simpa using hnot
  · rintro ⟨j, hj, rfl, hp, hbefore⟩
    refine ⟨hp, j, hlen.symm ▸ hj, getElem_rotate_range _, fun k hk => ?_⟩
    rw [getElem_rotate_range, hbefore k hk]
    rfl

/-- Behind its turn the first one is the last in turn. -/
theorem turns_succ (h : turns p n r = t :: rest) : turns p n ((t + 1) % n) = rest ++ [t] := by
  obtain ⟨before, behind, hsplit, hnone, hp, hrest⟩ := List.filter_eq_cons_iff.mp h
  have hlt : before.length < ((List.range n).rotate r).length := by
    rw [hsplit, List.length_append, List.length_cons]
    omega
  have ht : t = (r + before.length) % n := by
    have hget := getElem_rotate_range hlt
    simp only [hsplit, List.getElem_append_right (Nat.le_refl _), Nat.sub_self, List.getElem_cons_zero] at hget
    exact hget
  have hrotate : (List.range n).rotate ((t + 1) % n) = behind ++ (before ++ [t]) := by
    have hlen : (before ++ [t]).length = before.length + 1 := List.length_append
    rw [rotate_range_mod, ← List.rotate_rotate, ht, rotate_range_mod, List.rotate_rotate, Nat.add_assoc,
      ← List.rotate_rotate, hsplit, ← List.singleton_append, ← List.append_assoc, ← hlen, List.rotate_append_length_eq,
      ← ht]
  rw [turns, hrotate, List.filter_append, List.filter_append, hrest, List.filter_eq_nil_iff.mpr hnone,
    List.nil_append, List.filter_cons_of_pos hp, List.filter_nil]

end Turns
end LinuxSocket.Cyclic
