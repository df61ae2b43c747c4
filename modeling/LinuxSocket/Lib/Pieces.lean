import Mathlib.Data.List.Basic
import Mathlib.Tactic.Common

/-! # A list in pieces of one length

The pieces are full, and the rest is shorter than a piece.
-/
namespace LinuxSocket.Pieces
variable {α : Type*} {m : ℕ} {p xs : List α}

def pieces (m : ℕ) (xs : List α) : List (List α) :=
  (List.range (xs.length / m)).map fun k => (xs.drop (m * k)).take m

/-- What is left behind the last piece. -/
def rest (m : ℕ) (xs : List α) : List α := xs.drop (m * (xs.length / m))

theorem pieces_of_lt (h : xs.length < m) : pieces m xs = [] := by
  rw [pieces, Nat.div_eq_of_lt h]
  rfl

theorem rest_of_lt (h : xs.length < m) : rest m xs = xs := by
  rw [rest, Nat.div_eq_of_lt h]
  rfl

theorem length_append_div (hm : 0 < m) (hp : p.length = m) (xs : List α) :
    (p ++ xs).length / m = xs.length / m + 1 := by
  rw [List.length_append, hp, Nat.add_comm, Nat.add_div_right _ hm]

theorem pieces_append (hm : 0 < m) (hp : p.length = m) (xs : List α) : pieces m (p ++ xs) = p :: pieces m xs := by
  rw [pieces, length_append_div hm hp, List.range_succ_eq_map, List.map_cons, List.map_map, pieces]
  congr 1
  · rw [Nat.mul_zero, List.drop_zero, ← hp, List.take_left]
  · refine List.map_congr_left fun k _ => ?_
    have hdrop : (p ++ xs).drop (m * (k + 1)) = xs.drop (m * k) := by
      rw [Nat.mul_succ, Nat.add_comm, ← List.drop_drop, ← hp, List.drop_left]
    exact congrArg (List.take m) hdrop

theorem rest_append (hm : 0 < m) (hp : p.length = m) (xs : List α) : rest m (p ++ xs) = rest m xs := by
  rw [rest, length_append_div hm hp, Nat.mul_succ, Nat.add_comm, ← List.drop_drop]
  conv => lhs; rw [← hp]
  rw [List.drop_left, hp, rest]

end LinuxSocket.Pieces
