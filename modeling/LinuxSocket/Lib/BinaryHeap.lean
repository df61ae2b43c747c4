import Mathlib.Data.List.Basic
import Mathlib.Order.Lattice
import Mathlib.Order.Nat
import Mathlib.Tactic.Common

/-! # Binary heaps with a hole

The keys at the indices of an array, with the element that a sift carries written into the hole.
One move of the hole exchanges two keys; `UpHole` and `DownHole` say which pairs stay in order
on the way up and on the way down.
-/
namespace LinuxSocket.BinaryHeap
def parent (i : ℕ) : ℕ := (i - 1) / 2

variable {K : Type*}

/-- `f` with the values at `i` and `j` exchanged. -/
def exchange (f : ℕ → K) (i j : ℕ) : ℕ → K := Function.update (Function.update f i (f j)) j (f i)

section Definitions
variable [LinearOrder K]

/-- Below every parent from `lo` on, no key is smaller than its parent's. -/
def Ordered (lo n : ℕ) (f : ℕ → K) : Prop := ∀ i, 0 < i → i < n → lo ≤ parent i → f (parent i) ≤ f i

/-- All pairs are in order except the one of the hole and its parent. -/
structure UpHole (n : ℕ) (f : ℕ → K) (hole : ℕ) : Prop where
  edges : ∀ i, 0 < i → i < n → i ≠ hole → f (parent i) ≤ f i
  across : ∀ i, 0 < i → i < n → parent i = hole → 0 < hole → f (parent hole) ≤ f i

/-- All pairs below parents from `lo` on are in order except those of the hole and its children. -/
structure DownHole (lo n : ℕ) (f : ℕ → K) (hole : ℕ) : Prop where
  lo_le : lo ≤ hole
  edges : ∀ i, 0 < i → i < n → lo ≤ parent i → parent i ≠ hole → f (parent i) ≤ f i
  across : ∀ i, 0 < i → i < n → parent i = hole → lo < hole → lo ≤ parent hole → f (parent hole) ≤ f i

end Definitions

theorem parent_lt {i : ℕ} (h : 0 < i) : parent i < i := by
  unfold parent
  omega

theorem parent_eq_iff {i j : ℕ} (h : 0 < i) : parent i = j ↔ i = 2 * j + 1 ∨ i = 2 * j + 2 := by
  unfold parent
  omega

section Exchange
variable {f : ℕ → K} {i j k : ℕ}

@[simp] theorem exchange_right (f : ℕ → K) (i j : ℕ) : exchange f i j j = f i := Function.update_self _ _ _

theorem exchange_left (h : i ≠ j) : exchange f i j i = f j := by
  rw [exchange, Function.update_of_ne h, Function.update_self]

theorem exchange_other (hi : k ≠ i) (hj : k ≠ j) : exchange f i j k = f k := by
  rw [exchange, Function.update_of_ne hj, Function.update_of_ne hi]

end Exchange

section Up
variable [LinearOrder K] {n hole : ℕ} {f : ℕ → K}

/-- A hole behind an ordered array. -/
theorem Ordered.upHole (h : Ordered 0 n f) : UpHole (n + 1) f n where
  edges i hi hn hne := h i hi (by omega) (Nat.zero_le _)
  across i hi hn hp _ := by
    have := parent_lt hi
    omega

/-- The parent moves down into the hole. -/
theorem UpHole.exchange (h : UpHole n f hole) (hpos : 0 < hole) (hlt : hole < n)
    (hsmall : f hole < f (parent hole)) : UpHole n (exchange f hole (parent hole)) (parent hole) := by
  have hne : hole ≠ parent hole := (parent_lt hpos).ne'
  constructor
  · intro i hi hn hip
    by_cases hih : i = hole
    · subst hih
      rw [exchange_right, exchange_left hne]
      exact hsmall.le
    · rw [exchange_other hih hip]
      by_cases h₁ : parent i = parent hole
      · rw [h₁, exchange_right]
        exact hsmall.le.trans (h₁ ▸ h.edges i hi hn hih)
      · by_cases h₂ : parent i = hole
        · rw [h₂, exchange_left hne]
          exact h.across i hi hn h₂ hpos
        · rw [exchange_other h₂ h₁]
          exact h.edges i hi hn hih
  · intro i hi hn hip hppos
    have hpp : f (parent (parent hole)) ≤ f (parent hole) :=
      h.edges (parent hole) hppos ((parent_lt hpos).trans hlt) hne.symm
    have hpne : parent (parent hole) ≠ hole := by
      have := parent_lt hppos
      have := parent_lt hpos
      omega
    rw [exchange_other hpne (parent_lt hppos).ne]
    by_cases hih : i = hole
    · subst hih
      rw [exchange_left hne]
      exact hpp
    · have hi' := parent_lt hi
      rw [exchange_other hih (by omega)]
      exact hpp.trans (hip ▸ h.edges i hi hn hih)

/-- A hole at the root, or below a parent that is not greater, completes the order. -/
theorem UpHole.ordered (h : UpHole n f hole) (hstop : 0 < hole → f (parent hole) ≤ f hole) : Ordered 0 n f := by
  intro i hi hn _
  by_cases hih : i = hole
  · subst hih
    exact hstop hi
  · exact h.edges i hi hn hih

end Up

section Down
variable [LinearOrder K] {lo n hole c : ℕ} {f g : ℕ → K}

/-- A hole on top of two ordered subtrees. -/
theorem Ordered.downHole (h : Ordered (lo + 1) n f) : DownHole lo n f lo where
  lo_le := le_rfl
  edges i hi hn hlo hne := h i hi hn (by omega)
  across i hi hn hp hlt := absurd hlt (lt_irrefl _)

/-- A new element in the root of an ordered array. -/
theorem Ordered.replace_root (h : Ordered 0 n f) (heq : ∀ i, 0 < i → i < n → g i = f i) : DownHole 0 n g 0 where
  lo_le := le_rfl
  edges i hi hn _ hne := by
    have := parent_lt hi
    rw [heq i hi hn, heq (parent i) (Nat.pos_of_ne_zero hne) (by omega)]
    exact h i hi hn (Nat.zero_le _)
  across i hi hn hp hlt := absurd hlt (lt_irrefl _)

/-- The smaller child moves up into the hole. -/
theorem DownHole.exchange (h : DownHole lo n f hole) (hc : 0 < c) (hcn : c < n) (hp : parent c = hole)
    (hleast : ∀ s, 0 < s → s < n → parent s = hole → f c ≤ f s) (hsmall : f c < f hole) :
    DownHole lo n (exchange f hole c) c := by
  have hlt : hole < c := hp ▸ parent_lt hc
  constructor
  · exact h.lo_le.trans hlt.le
  · intro i hi hn hlo hne
    by_cases hpi : parent i = hole
    · rw [hpi, exchange_left hlt.ne]
      by_cases hic : i = c
      · rw [hic, exchange_right]
        exact hsmall.le
      · have := parent_lt hi
        rw [exchange_other (by omega) hic]
        exact hleast i hi hn hpi
    · rw [exchange_other hpi hne]
      by_cases hih : i = hole
      · subst hih
        rw [exchange_left hlt.ne]
        exact h.across c hc hcn hp (lt_of_le_of_lt hlo (parent_lt hi)) hlo
      · by_cases hic : i = c
        · exact absurd (hic ▸ hp) hpi
        · rw [exchange_other hih hic]
          exact h.edges i hi hn hlo hpi
  · intro i hi hn hpi _ _
    have hci : c < i := hpi ▸ parent_lt hi
    rw [hp, exchange_left hlt.ne, exchange_other (by omega) hci.ne']
    have hle := h.edges i hi hn (by rw [hpi]; exact h.lo_le.trans hlt.le) (by rw [hpi]; exact hlt.ne')
    rwa [hpi] at hle

/-- A hole above children that are not smaller completes the order. -/
theorem DownHole.ordered (h : DownHole lo n f hole)
    (hstop : ∀ i, 0 < i → i < n → parent i = hole → f hole ≤ f i) : Ordered lo n f := by
  intro i hi hn hlo
  by_cases hp : parent i = hole
  · rw [hp]
    exact hstop i hi hn hp
  · exact h.edges i hi hn hlo hp

end Down

section Order
variable [LinearOrder K]

/-- No parent from the middle of the array on has a child. -/
theorem ordered_of_half_le {lo n : ℕ} (f : ℕ → K) (h : n ≤ 2 * lo + 1) : Ordered lo n f := by
  intro i hi hn hlo
  unfold parent at hlo
  omega

theorem Ordered.root_le {n : ℕ} {f : ℕ → K} (h : Ordered 0 n f) {i : ℕ} (hi : i < n) : f 0 ≤ f i := by
  induction i using Nat.strongRecOn with
  | ind i ih =>
    rcases Nat.eq_zero_or_pos i with rfl | hpos
    · exact le_rfl
    · have hp := parent_lt hpos
      exact (ih (parent i) hp (by omega)).trans (h i hpos hi (Nat.zero_le _))

end Order

section Lists
variable {α : Type*} (key : α → K) [Inhabited K]

/-- The keys of a list by index. -/
def keys (xs : List α) : ℕ → K := fun i => (xs[i]?.map key).getD default

variable {key}

theorem keys_of_get {xs : List α} {i : ℕ} {x : α} (h : xs[i]? = some x) : keys key xs i = key x := by
  rw [keys, h]
  rfl

theorem getElem?_swap {xs : List α} {i j : ℕ} (hi : i < xs.length) (hj : j < xs.length) (k : ℕ) :
    (xs.swap i j)[k]? = if k = j then xs[i]? else if k = i then xs[j]? else xs[k]? := by
  rw [List.swap_eq_of_lt hi hj, List.getElem?_set, List.getElem?_set]
  simp only [List.length_set, hi, hj, if_true, eq_comm (a := k)]
  split <;> simp_all

theorem keys_swap {xs : List α} {i j : ℕ} (hi : i < xs.length) (hj : j < xs.length) :
    keys key (xs.swap i j) = exchange (keys key xs) i j := by
  funext k
  simp only [keys, getElem?_swap hi hj, exchange, Function.update_apply]
  split
  · rfl
  · split <;> rfl

end Lists

end LinuxSocket.BinaryHeap
