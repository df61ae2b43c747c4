import Mathlib.Tactic.Common

/-! # Computations that may fail

`Avoids bad Q x` is partial correctness with respect to some of the failures: `x` does not fail as `bad` says, and a
value that it returns meets `Q`.
-/
namespace LinuxSocket
universe u v
variable {ε : Type u} {α β : Type v}

@[simp] theorem ok_bind (a : α) (f : α → Except ε β) : ((.ok a : Except ε α) >>= f) = f a := rfl

theorem bind_eq_ok {x : Except ε α} {f : α → Except ε β} {b : β} (h : (x >>= f) = .ok b) :
    ∃ a, x = .ok a ∧ f a = .ok b := by
  cases x with
  | error e => cases h
  | ok a => exact ⟨a, rfl, h⟩

def Avoids (bad : ε → Prop) (Q : α → Prop) : Except ε α → Prop
  | .ok a => Q a
  | .error e => ¬bad e

variable {bad : ε → Prop} {Q : α → Prop} {R : β → Prop} {x : Except ε α}

theorem Avoids.bind {f : α → Except ε β} (hx : Avoids bad Q x) (hf : ∀ a, Q a → Avoids bad R (f a)) :
    Avoids bad R (x >>= f) := by
  cases x with
  | error e => exact hx
  | ok a => exact hf a hx

theorem Avoids.mono {Q' : α → Prop} (h : Avoids bad Q x) (hQ : ∀ a, Q a → Q' a) : Avoids bad Q' x := by
  cases x with
  | error e => exact h
  | ok a => exact hQ a h

theorem Avoids.of_ok {a : α} (h : Avoids bad Q x) (hx : x = .ok a) : Q a := by
  subst hx
  exact h

theorem Avoids.not_bad {e : ε} (h : Avoids bad Q x) (he : bad e) : x ≠ .error e := by
  rintro rfl
  exact h he

end LinuxSocket
