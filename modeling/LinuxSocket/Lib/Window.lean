import Mathlib.Algebra.BigOperators.Group.List.Basic
import Mathlib.Data.List.DropRight

/-! # The last elements of a sequence

A buffer of fixed capacity keeps the last elements pushed. What is computed of each two neighbours of a sequence can be
kept so as it comes, and its sum over the buffer telescopes.
-/
namespace LinuxSocket.Window
variable {α β : Type*}

/-- `push_back` into a buffer that drops its first element when it is full. -/
def pushBack (capacity : ℕ) (xs : List α) (x : α) : List α := (xs ++ [x]).rtake capacity

def pairs (f : α → α → β) (xs : List α) : List β := List.zipWith f xs xs.tail

variable {xs : List α} {x y : α}

theorem pushBack_rtake (n : ℕ) (xs : List α) (x : α) : pushBack n (xs.rtake n) x = (xs ++ [x]).rtake n := by
  cases n with
  | zero => rw [pushBack, List.rtake_zero, List.rtake_zero]
  | succ n =>
    rw [pushBack, List.rtake_concat_succ, List.rtake_concat_succ]
    simp [List.rtake_eq_reverse_take_reverse, List.take_take]

theorem pairs_concat (f : α → α → β) (xs : List α) (x y : α) :
    pairs f (xs ++ [x] ++ [y]) = pairs f (xs ++ [x]) ++ [f x y] := by
  induction xs with
  | nil => rfl
  | cons z xs ih =>
    cases xs with
    | nil => rfl
    | cons w xs => exact congrArg (f z w :: ·) ih

theorem length_pairs (f : α → α → β) (xs : List α) : (pairs f xs).length = xs.length - 1 := by
  rw [pairs, List.length_zipWith, List.length_tail]
  omega

theorem pairs_rtake (f : α → α → β) (xs : List α) (n : ℕ) : (pairs f xs).rtake n = pairs f (xs.rtake (n + 1)) := by
  have hstart : (pairs f xs).length - n = xs.length - (n + 1) := by
    rw [length_pairs]
    omega
  rw [List.rtake, hstart, pairs, List.drop_zipWith, pairs, List.rtake, List.tail_drop, ← List.drop_tail]

/-- Differences add up to the difference of the ends. -/
theorem sum_pairs {G : Type*} [AddCommGroup G] (g : α → G) (x : α) (xs : List α) :
    (pairs (fun a b => g b - g a) (x :: xs)).sum = g ((x :: xs).getLast (List.cons_ne_nil x xs)) - g x := by
  induction xs generalizing x with
  | nil => exact (sub_self _).symm
  | cons y xs ih =>
    have hrest := ih y
    rw [List.getLast_cons (List.cons_ne_nil y xs)]
    change (g y - g x) + (pairs (fun a b => g b - g a) (y :: xs)).sum = _
    rw [hrest]
    exact sub_add_sub_cancel' (g y) (g x) _

/-- Neighbours that are in a relation may be computed with as the relation allows. -/
theorem pairs_congr {f g : α → α → β} {r : α → α → Prop} (h : ∀ a b, r a b → f a b = g a b) (hr : xs.IsChain r) :
    pairs f xs = pairs g xs := by
  induction xs with
  | nil => rfl
  | cons x xs ih =>
    cases xs with
    | nil => rfl
    | cons y xs =>
      obtain ⟨hxy, hrest⟩ := List.isChain_cons_cons.mp hr
      have htail := ih hrest
      change f x y :: pairs f (y :: xs) = g x y :: pairs g (y :: xs)
      rw [h x y hxy, htail]

end LinuxSocket.Window
