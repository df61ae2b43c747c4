import LinuxSocket.ListTimer.Agenda
import LinuxSocket.MinHeapTimer.Agenda
import LinuxSocket.WheelTimer.Agenda

/-! # The three timer containers agree

A program that drives the list and the heap side by side sees the same callbacks. The wheel, driven by the same calls
and ticked at each time in turn, makes every callback one tick after them.
-/
namespace LinuxSocket.Timers
open Agenda

variable {P Q : Type} [DecidableEq P] [DecidableEq Q] {now : ℤ} {cap : ℕ} {last : List (ℕ × ℕ)}

section Witnesses

def one : Task ℤ (ℕ × ℕ) := ⟨1, 1, 10⟩

def two : Task ℤ (ℕ × ℕ) := ⟨2, 2, 20⟩

def emptyHeap : MinHeapTimer.Memory ℕ × MinHeapTimer.TimeHeap ℕ := (fun _ => none, .ofCapacity 1)

/-- The wheel makes the two callbacks of another container one tick after it. -/
def FiresBehind {S : Type} (C₁ : Container S ℕ ℤ (ℕ × ℕ)) : Prop :=
  ∃ s w s' w' w'', Lockstep C₁ (WheelTimer.container ℕ) s w 1 {(3, 4, two)} [one.job] ∧
    (WheelTimer.container ℕ).tick 2 w [one.job] w' ∧ Lockstep C₁ (WheelTimer.container ℕ) s' w' 2 0 [two.job] ∧
    (WheelTimer.container ℕ).tick 3 w' [two.job] w''

theorem firesBehind_of_trails {S : Type} {C₁ : Container S ℕ ℤ (ℕ × ℕ)} {s : S} {w : WheelTimer.TimeWheel ℕ}
    (hfollows : ∀ now cur, C₁.follows now cur)
    (htrails : ∀ {s w now live last}, Lockstep C₁ (WheelTimer.container ℕ) s w now live last →
      Trails C₁ (WheelTimer.container ℕ) s w now live last)
    (h : Lockstep C₁ (WheelTimer.container ℕ) s w 0 ((5, 6, one) ::ₘ {(3, 4, two)}) []) : FiresBehind C₁ := by
  obtain ⟨jobs₁, s₁, hs₁⟩ := (htrails h).fst.tick 1 (hfollows 0 1)
  obtain ⟨_, w₁, hw₁⟩ := (htrails h).snd.tick 1 rfl
  obtain rfl : jobs₁ = [one.job] :=
    ((htrails h).called 1 _ _ (hfollows 0 1) hs₁).eq ⟨[one], rfl, by decide, rfl⟩ (by decide)
  have h₁ : Lockstep C₁ _ s₁ w₁ 1 {(3, 4, two)} [one.job] := h.tick (hfollows 0 1) rfl hs₁ hw₁
  obtain ⟨jobs₂, s₂, hs₂⟩ := (htrails h₁).fst.tick 2 (hfollows 1 2)
  obtain ⟨_, w₂, hw₂⟩ := (htrails h₁).snd.tick 2 rfl
  obtain rfl : jobs₂ = [two.job] :=
    ((htrails h₁).called 2 _ _ (hfollows 1 2) hs₂).eq ⟨[two], rfl, by decide, rfl⟩ (by decide)
  have h₂ : Lockstep C₁ _ s₂ w₂ 2 0 [two.job] := h₁.tick (hfollows 1 2) rfl hs₂ hw₂
  obtain ⟨_, w₃, hw₃⟩ := (htrails h₂).snd.tick 3 rfl
  obtain rfl := List.perm_singleton.mp ((htrails h₁).trailing 2 _ _ rfl hw₂)
  obtain rfl := List.perm_singleton.mp ((htrails h₂).trailing 3 _ _ rfl hw₃)
  exact ⟨s₁, w₁, s₂, w₂, w₃, h₁, hw₂, h₂, hw₃⟩

end Witnesses

end LinuxSocket.Timers
