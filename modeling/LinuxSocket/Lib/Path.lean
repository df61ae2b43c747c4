import Mathlib.Algebra.BigOperators.Group.List.Basic
import Mathlib.Algebra.Ring.Int.Defs
import Mathlib.Data.List.Induction
import Mathlib.Tactic.Common

/-! # Relative paths and where they lead

A path is resolved lexically: a step up takes the last name away again, or leads out of the directory in which
the path starts. `within_iff_enters` says by counting, without resolving, when a path ends inside a directory.
-/
namespace LinuxSocket.Path
variable {α : Type*}

inductive Segment (α : Type*)
  | here
  | up
  | name (a : α)
  deriving DecidableEq

/-- So many directories above the start, and then down by these names, the last one first. -/
structure Location (α : Type*) where
  up : ℕ
  down : List α
  deriving DecidableEq

def Location.step : Location α → Segment α → Location α
  | l, .here => l
  | ⟨up, []⟩, .up => ⟨up + 1, []⟩
  | ⟨up, _ :: down⟩, .up => ⟨up, down⟩
  | ⟨up, down⟩, .name a => ⟨up, a :: down⟩

def resolve (path : List (Segment α)) : Location α := path.foldl Location.step ⟨0, []⟩

/-- The directory `dir` of the start, or a name below it. -/
def Location.Within (dir : α) (l : Location α) : Prop := l.up = 0 ∧ l.down.getLast? = some dir

instance [DecidableEq α] (dir : α) (l : Location α) : Decidable (l.Within dir) := inferInstanceAs (Decidable (_ ∧ _))

def Segment.height : Segment α → ℤ
  | .here => 0
  | .up => -1
  | .name _ => 1

/-- The names of a path less its steps up. -/
def height (path : List (Segment α)) : ℤ := (path.map Segment.height).sum

/-- Nowhere along the path have there been more steps up than names. -/
def Stays (path : List (Segment α)) : Prop := ∀ front, front <+: path → 0 ≤ height front

/-- The path comes back to its start without having been above it, enters `dir` and does not leave it. -/
def Enters (dir : α) (path : List (Segment α)) : Prop :=
  ∃ front back, path = front ++ .name dir :: back ∧ Stays front ∧ height front = 0 ∧ Stays back

variable {path back : List (Segment α)} {s : Segment α} {dir : α}

theorem resolve_concat : resolve (path ++ [s]) = (resolve path).step s := by
  rw [resolve, List.foldl_append]
  rfl

theorem height_append (xs ys : List (Segment α)) : height (xs ++ ys) = height xs + height ys := by
  simp [height]

theorem height_singleton (s : Segment α) : height [s] = s.height := by
  simp [height]

theorem height_enters (dir : α) (front back : List (Segment α)) :
    height (front ++ .name dir :: back) = height front + (1 + height back) := by
  rw [height_append, ← List.singleton_append, height_append, height_singleton]
  rfl

theorem height_resolve (path : List (Segment α)) :
    height path = (resolve path).down.length - (resolve path).up := by
  induction path using List.reverseRecOn with
  | nil => rfl
  | append_singleton path s ih =>
    rw [height_append, height_singleton, ih, resolve_concat]
    rcases resolve path with ⟨up, _ | ⟨x, down⟩⟩ <;> cases s <;>
      simp only [Location.step, Segment.height, List.length_cons, List.length_nil] <;> omega

theorem stays_nil : Stays ([] : List (Segment α)) := by
  intro front hfront
  rw [List.prefix_nil.mp hfront]
  exact Int.le_refl 0

theorem Stays.height_nonneg (h : Stays path) : 0 ≤ height path := h path List.prefix_rfl

theorem stays_concat : Stays (path ++ [s]) ↔ Stays path ∧ 0 ≤ height path + s.height := by
  have hlast : height (path ++ [s]) = height path + s.height := by rw [height_append, height_singleton]
  constructor
  · intro h
    exact ⟨fun front hfront => h front (hfront.trans (List.prefix_append _ _)), hlast ▸ h.height_nonneg⟩
  · rintro ⟨h, hle⟩ front hfront
    rcases List.prefix_concat_iff.mp hfront with rfl | hfront
    · exact hlast ▸ hle
    · exact h front hfront

theorem stays_iff_up : Stays path ↔ (resolve path).up = 0 := by
  induction path using List.reverseRecOn with
  | nil => exact ⟨fun _ => rfl, fun _ => stays_nil⟩
  | append_singleton path s ih =>
    rw [stays_concat, ih, resolve_concat, height_resolve]
    rcases resolve path with ⟨up, _ | ⟨x, down⟩⟩ <;> cases s <;>
      simp only [Location.step, Segment.height, List.length_cons, List.length_nil] <;> omega

/-- A segment more is one behind the entrance, or the entrance. -/
theorem enters_concat : Enters dir (path ++ [s]) ↔
    (Enters dir path ∧ 1 ≤ height path + s.height) ∨ (s = .name dir ∧ Stays path ∧ height path = 0) := by
  constructor
  · rintro ⟨front, back, hpath, hfront, hzero, hback⟩
    rcases List.eq_nil_or_concat back with rfl | ⟨back, t, rfl⟩
    · obtain ⟨rfl, hs⟩ := List.append_inj' hpath rfl
      exact Or.inr ⟨List.singleton_inj.mp hs, hfront, hzero⟩
    · rw [List.concat_eq_append] at hpath hback
      rw [← List.cons_append, ← List.append_assoc] at hpath
      obtain ⟨rfl, hs⟩ := List.append_inj' hpath rfl
      obtain rfl := List.singleton_inj.mp hs
      obtain ⟨hback, hle⟩ := stays_concat.mp hback
      have hheight := height_enters dir front back
      exact Or.inl ⟨⟨front, back, rfl, hfront, hzero, hback⟩, by omega⟩
  · rintro (⟨⟨front, back, rfl, hfront, hzero, hback⟩, hle⟩ | ⟨rfl, hstays, hzero⟩)
    · rw [height_enters] at hle
      refine ⟨front, back ++ [s], by simp, hfront, hzero, stays_concat.mpr ⟨hback, by omega⟩⟩
    · exact ⟨path, [], rfl, hstays, hzero, stays_nil⟩

theorem within_step_up {l : Location α} : (l.step .up).Within dir ↔ l.Within dir ∧ 2 ≤ l.down.length := by
  rcases l with ⟨up, _ | ⟨x, _ | ⟨y, down⟩⟩⟩ <;> simp [Location.step, Location.Within]

theorem within_step_name {l : Location α} {a : α} :
    (l.step (.name a)).Within dir ↔ l.Within dir ∨ (a = dir ∧ l.up = 0 ∧ l.down = []) := by
  rcases l with ⟨up, _ | ⟨x, down⟩⟩ <;> simp [Location.step, Location.Within, and_comm]

/-- A path ends inside `dir` when it enters it and does not leave it. -/
theorem within_iff_enters : (resolve path).Within dir ↔ Enters dir path := by
  induction path using List.reverseRecOn with
  | nil => simp [resolve, Location.Within, Enters]
  | append_singleton path s ih =>
    have hheight := height_resolve path
    have hpos : Enters dir path → 1 ≤ height path := by
      rintro ⟨front, back, rfl, -, hzero, hback⟩
      rw [height_enters]
      have := hback.height_nonneg
      omega
    rw [resolve_concat, enters_concat, ← ih, stays_iff_up]
    cases s with
    | here =>
      rw [← ih] at hpos
      simp only [Location.step, Segment.height, add_zero, reduceCtorEq, false_and, or_false]
      exact ⟨fun h => ⟨h, hpos h⟩, And.left⟩
    | up =>
      simp only [within_step_up, Segment.height, reduceCtorEq, false_and, or_false]
      refine and_congr_right fun h => ?_
      have := h.1
      omega
    | name a =>
      rw [← ih] at hpos
      simp only [within_step_name, Segment.height, Segment.name.injEq, ← List.length_eq_zero_iff]
      refine or_congr ⟨fun h => ⟨h, ?_⟩, And.left⟩ (and_congr_right fun _ => and_congr_right fun h => ?_)
      · have := hpos h
        omega
      · omega

/-- A name more than a path has does not lead into `dir`, unless it is `dir`. -/
theorem within_concat_name {a : α} (ha : a ≠ dir) :
    (resolve (path ++ [.name a])).Within dir ↔ (resolve path).Within dir := by
  rw [resolve_concat, within_step_name, or_iff_left fun h => ha h.1]

theorem within_concat_here : (resolve (path ++ [.here])).Within dir ↔ (resolve path).Within dir := by
  rw [resolve_concat]
  rfl

end LinuxSocket.Path
