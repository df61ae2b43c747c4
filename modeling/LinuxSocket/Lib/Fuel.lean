import Mathlib.Tactic.Common

/-! # Programs with a bound on their iterations

A program that walks a pointer structure takes the number of iterations it may make. It returns a
result when every bound that is large enough gives that result.
-/
namespace LinuxSocket

/-- With enough fuel, `f` returns `a`. -/
def Returns {α : Type*} (f : ℕ → Option α) (a : α) : Prop := ∃ N, ∀ fuel, N ≤ fuel → f fuel = some a

variable {α β : Type*} {f g : ℕ → Option α} {a b : α}

theorem Returns.unique (ha : Returns f a) (hb : Returns f b) : a = b := by
  obtain ⟨m, hm⟩ := ha
  obtain ⟨n, hn⟩ := hb
  have := (hm _ (Nat.le_max_left m n)).symm.trans (hn _ (Nat.le_max_right m n))
  exact Option.some.inj this

theorem Returns.of_eq (h : ∀ fuel, f fuel = some a) : Returns f a := ⟨0, fun fuel _ => h fuel⟩

theorem Returns.congr (hg : Returns g a) (h : ∀ fuel, f fuel = g fuel) : Returns f a := by
  obtain ⟨n, hn⟩ := hg
  exact ⟨n, fun fuel hf => (h fuel).trans (hn fuel hf)⟩

/-- One iteration more. -/
theorem Returns.succ (hg : Returns g a) (h : ∀ fuel, f (fuel + 1) = g fuel) : Returns f a := by
  obtain ⟨n, hn⟩ := hg
  refine ⟨n + 1, ?_⟩
  intro fuel hf
  obtain ⟨m, rfl⟩ : ∃ m, fuel = m + 1 := ⟨fuel - 1, by omega⟩
  rw [h]
  exact hn m (Nat.le_of_succ_le_succ hf)

/-- The last iteration. -/
theorem Returns.of_succ (h : ∀ fuel, f (fuel + 1) = some a) : Returns f a :=
  (Returns.of_eq fun _ => rfl : Returns (fun _ => some a) a).succ h

/-- A program around one that returns. -/
theorem Returns.imp {g : ℕ → Option β} {b : β} (hf : Returns f a) (h : ∀ fuel, f fuel = some a → g fuel = some b) :
    Returns g b := by
  obtain ⟨n, hn⟩ := hf
  exact ⟨n, fun fuel hfuel => h fuel (hn fuel hfuel)⟩

/-- One iteration more, around the rest of the iterations. -/
theorem Returns.imp_succ {g : ℕ → Option β} {b : β} (hf : Returns f a)
    (h : ∀ fuel, f fuel = some a → g (fuel + 1) = some b) : Returns g b :=
  (hf.imp h : Returns (fun fuel => g (fuel + 1)) b).succ fun _ => rfl

end LinuxSocket
