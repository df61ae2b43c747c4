import Mathlib.Data.List.Sort

/-! # Stable sorted lists

Elements ordered by a key, where a new element goes behind all elements of the same key. An
element whose key has grown is taken out and put in again.
-/
namespace LinuxSocket.StableList
variable {α K : Type*} [LinearOrder K]

/-- Insertion before the first element with a greater key. -/
def insertBy (key : α → K) (x : α) (xs : List α) : List α := xs.orderedInsert (fun a b => key a < key b) x

def Sorted (key : α → K) (xs : List α) : Prop := xs.Pairwise fun a b => key a ≤ key b

variable {key key' : α → K} {x y : α} {xs ys : List α}

theorem insertBy_cons_of_lt (h : key x < key y) (ys : List α) : insertBy key x (y :: ys) = x :: y :: ys :=
  List.orderedInsert_cons_of_le _ _ h

theorem insertBy_cons_of_le (h : key y ≤ key x) (ys : List α) :
    insertBy key x (y :: ys) = y :: insertBy key x ys := List.orderedInsert_of_not_le _ _ (not_lt.mpr h)

theorem insertBy_perm (key : α → K) (x : α) (xs : List α) : (insertBy key x xs).Perm (x :: xs) :=
  List.perm_orderedInsert _ x xs

theorem insertBy_append (h : ∀ y ∈ xs, key y ≤ key x) (ys : List α) :
    insertBy key x (xs ++ ys) = xs ++ insertBy key x ys := by
  induction xs with
  | nil => rfl
  | cons z xs ih =>
    rw [List.cons_append, insertBy_cons_of_le (h z (by simp)), ih fun y hy => h y (List.mem_cons_of_mem _ hy)]
    rfl

theorem map_insertBy {β : Type*} {keyB : β → K} {f : β → α} {b : β} {bs : List β}
    (hb : ∀ c ∈ b :: bs, key (f c) = keyB c) : (insertBy keyB b bs).map f = insertBy key (f b) (bs.map f) := by
  refine List.map_orderedInsert _ _ f bs b ?_ ?_
  · intro c hc
    rw [hb c (List.mem_cons_of_mem _ hc), hb b (by simp)]
  · intro c hc
    rw [hb c (List.mem_cons_of_mem _ hc), hb b (by simp)]

theorem Sorted.insertBy (h : Sorted key xs) (x : α) : Sorted key (insertBy key x xs) := by
  induction xs with
  | nil => exact List.pairwise_singleton _ _
  | cons y xs ih =>
    obtain ⟨hy, hxs⟩ := List.pairwise_cons.mp h
    rcases lt_or_ge (key x) (key y) with hlt | hle
    · rw [insertBy_cons_of_lt hlt]
      refine List.pairwise_cons.mpr ⟨?_, h⟩
      intro z hz
      rcases List.mem_cons.mp hz with rfl | hz
      · exact hlt.le
      · exact hlt.le.trans (hy z hz)
    · rw [insertBy_cons_of_le hle]
      refine List.pairwise_cons.mpr ⟨?_, ih hxs⟩
      intro z hz
      rcases List.mem_cons.mp ((insertBy_perm key x xs).mem_iff.mp hz) with rfl | hz
      · exact hle
      · exact hy z hz

theorem Sorted.congr (h : Sorted key xs) (heq : ∀ y ∈ xs, key' y = key y) : Sorted key' xs := by
  refine List.Pairwise.imp_of_mem ?_ h
  intro a b ha hb hab
  rwa [heq a ha, heq b hb]

/-- The elements up to a key are the front of a sorted list. -/
theorem Sorted.filter_of_lt {c : K} (h : Sorted key (x :: xs)) (hlt : c < key x) :
    (x :: xs).filter (fun y => key y ≤ c) = [] ∧ (x :: xs).filter (fun y => c < key y) = x :: xs := by
  have hall : ∀ y ∈ x :: xs, c < key y := by
    intro y hy
    rcases List.mem_cons.mp hy with rfl | hy
    · exact hlt
    · exact hlt.trans_le ((List.pairwise_cons.mp h).1 y hy)
  constructor
  · rw [List.filter_eq_nil_iff]
    intro y hy
    simpa using hall y hy
  · rw [List.filter_eq_self]
    intro y hy
    simpa using hall y hy

end LinuxSocket.StableList
