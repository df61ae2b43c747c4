import Mathlib.Tactic.Common

/-! # Lists produced by a function that is called until it stops -/
namespace LinuxSocket

/-- A function that yields an element and a next state until it yields nothing. -/
structure Source (σ β : Type*) where
  next : σ → Option (β × σ)
  variant : σ → ℕ
  decreases : ∀ {s x t}, next s = some (x, t) → variant t < variant s

namespace Source
variable {σ β : Type*} (S : Source σ β)

def go : ℕ → σ → List β
  | 0, _ => []
  | n + 1, s =>
    match S.next s with
    | none => []
    | some (x, t) => x :: go n t

def toList (s : σ) : List β := S.go (S.variant s + 1) s

theorem go_bound {n k : ℕ} {s : σ} (hn : S.variant s < n) (hk : S.variant s < k) : S.go n s = S.go k s := by
  induction n generalizing k s with
  | zero => exact absurd hn (Nat.not_lt_zero _)
  | succ n ih =>
    obtain ⟨k, rfl⟩ := Nat.exists_eq_succ_of_ne_zero (Nat.ne_zero_of_lt hk)
    simp only [go]
    cases h : S.next s with
    | none => rfl
    | some p =>
      have hlt := S.decreases h
      simp only
      rw [ih (by omega) (by omega : S.variant p.2 < k)]

theorem toList_of_none {s : σ} (h : S.next s = none) : S.toList s = [] := by
  simp only [toList, go, h]

theorem toList_of_some {s t : σ} {x : β} (h : S.next s = some (x, t)) : S.toList s = x :: S.toList t := by
  have hlt := S.decreases h
  rw [toList, go, h]
  simp only
  rw [toList, S.go_bound hlt (Nat.lt_succ_self _)]

theorem toList_eq_of_next_eq {s t : σ} (h : S.next s = S.next t) : S.toList s = S.toList t := by
  cases ht : S.next t with
  | none => rw [S.toList_of_none (h.trans ht), S.toList_of_none ht]
  | some p => rw [S.toList_of_some (h.trans ht), S.toList_of_some ht]

theorem forall_mem_toList {P : β → Prop} (h : ∀ s x t, S.next s = some (x, t) → P x) (s : σ) :
    ∀ x ∈ S.toList s, P x := by
  induction hn : S.variant s using Nat.strongRecOn generalizing s with
  | ind n ih =>
    cases hs : S.next s with
    | none => simp [S.toList_of_none hs]
    | some p =>
      have hlt := S.decreases hs
      rw [S.toList_of_some hs]
      intro x hx
      rcases List.mem_cons.mp hx with rfl | hx
      · exact h s _ _ hs
      · exact ih _ (hn ▸ hlt) p.2 rfl x hx

end Source

end LinuxSocket
