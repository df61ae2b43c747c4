import Mathlib.Data.List.Basic
import Mathlib.Tactic.Common

/-! # Statements about every position of a list -/
namespace LinuxSocket

/-- `P` holds at every entry of `xs`, given the entries in front of it. -/
def AtEvery {α : Type*} (P : List α → α → Prop) (xs : List α) : Prop :=
  ∀ before x after, xs = before ++ x :: after → P before x

variable {α : Type*} {P Q : List α → α → Prop}

@[simp] theorem atEvery_nil : AtEvery P [] := by
  intro before x after h
  simp at h

theorem atEvery_cons {x : α} {xs : List α} :
    AtEvery P (x :: xs) ↔ P [] x ∧ AtEvery (fun before => P (x :: before)) xs := by
  constructor
  · intro h
    refine ⟨h [] x xs rfl, ?_⟩
    rintro before y after rfl
    exact h (x :: before) y after rfl
  · rintro ⟨hx, h⟩ before y after he
    cases before with
    | nil =>
      simp only [List.nil_append, List.cons.injEq] at he
      exact he.1 ▸ hx
    | cons z before =>
      simp only [List.cons_append, List.cons.injEq] at he
      obtain ⟨rfl, he⟩ := he
      exact h before y after he

end LinuxSocket
