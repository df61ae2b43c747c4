import Mathlib.Data.List.Basic
import Mathlib.Tactic.Common

/-! # Hash sets with a custom hash and equality

The observable behaviour of `std::unordered_set`: an element is found by its hash
and by the equality, and inserting an element equal to one already present leaves
the set unchanged. Positions inside the container are not observable.
-/
namespace LinuxSocket.UnorderedSet
variable {ε : Type*} (hash : ε → ℕ) (equal : ε → ε → Bool)

def Same (x y : ε) : Prop := hash x = hash y ∧ equal x y = true

instance (x y : ε) : Decidable (Same hash equal x y) := inferInstanceAs (Decidable (_ ∧ _))

def find (s : List ε) (x : ε) : Option ε := s.find? fun y => decide (Same hash equal y x)

def insert (s : List ε) (x : ε) : List ε :=
  match find hash equal s x with
  | some _ => s
  | none => s ++ [x]

variable {hash equal}

theorem same_of_find {s : List ε} {x y : ε} (h : find hash equal s x = some y) : Same hash equal y x := by
  simpa using List.find?_some h

variable (hash equal) in
/-- The element found after an insertion: the old one first, else the inserted one. -/
theorem find_insert (htrans : ∀ {x y z}, Same hash equal x y → Same hash equal y z → Same hash equal x z)
    (s : List ε) (x y : ε) : find hash equal (insert hash equal s x) y =
      (find hash equal s y).or (if Same hash equal x y then some x else none) := by
  cases hx : find hash equal s x with
  | none =>
    simp only [insert, hx]
    simp [find, List.find?_append]
  | some z =>
    by_cases hxy : Same hash equal x y
    · have hz := htrans (same_of_find hx) hxy
      have hy : (find hash equal s y).isSome := by
        refine List.find?_isSome.mpr ⟨z, List.mem_of_find?_eq_some hx, ?_⟩
        simpa using hz
      obtain ⟨w, hw⟩ := Option.isSome_iff_exists.mp hy
      simp [insert, hx, hw]
    · simp [insert, hx, hxy]

/-- No two elements of the set are the same to it. -/
def Unique (hash : ε → ℕ) (equal : ε → ε → Bool) (s : List ε) : Prop :=
  s.Pairwise fun x y => ¬Same hash equal x y

theorem not_same_of_find {s : List ε} {x y : ε} (h : find hash equal s x = none) (hy : y ∈ s) :
    ¬Same hash equal y x := by
  simpa using List.find?_eq_none.mp h y hy

theorem mem_of_mem_insert {s : List ε} {x y : ε} (h : y ∈ insert hash equal s x) : y ∈ s ∨ y = x := by
  unfold insert at h
  split at h
  · exact Or.inl h
  · simpa using h

theorem Unique.insert {s : List ε} (h : Unique hash equal s) (x : ε) :
    Unique hash equal (insert hash equal s x) := by
  cases hx : find hash equal s x with
  | some z => simpa only [UnorderedSet.insert, hx] using h
  | none =>
    simp only [UnorderedSet.insert, hx]
    refine List.pairwise_append.mpr ⟨h, List.pairwise_singleton _ _, ?_⟩
    intro y hy z hz
    rw [List.mem_singleton.mp hz]
    exact not_same_of_find hx hy

/-! A set split by a predicate that does not separate the same elements. -/

variable {p : ε → Bool}

theorem find_filter {s : List ε} {x : ε} (hp : ∀ y, Same hash equal y x → p y = true) :
    find hash equal (s.filter p) x = find hash equal s x := by
  simp only [find, List.find?_filter]
  congr 1
  funext y
  by_cases hy : Same hash equal y x
  · simp [hy, hp y hy]
  · simp [hy]

theorem insert_filter {s : List ε} {x : ε} (hp : ∀ y, Same hash equal y x → p y = true)
    (hx : p x = true) : insert hash equal (s.filter p) x = (insert hash equal s x).filter p := by
  unfold insert
  rw [find_filter hp]
  cases find hash equal s x with
  | some z => rfl
  | none => simp [List.filter_append, hx]

theorem filter_insert {s : List ε} {x : ε} (hx : p x = false) :
    (insert hash equal s x).filter p = s.filter p := by
  unfold insert
  cases find hash equal s x with
  | some z => rfl
  | none => simp [List.filter_append, hx]

end LinuxSocket.UnorderedSet
