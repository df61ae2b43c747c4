import Mathlib.Logic.Function.Basic
import Mathlib.Data.List.Basic

/-! # Components that do not see each other

The steps of some components come in any order, each with outputs, and a step may end the system. When a step depends
on the view of its own component and leaves those of the others, a component does in the system what it does alone, and
the system goes on exactly when each component goes on alone.
-/
namespace LinuxSocket.Isolation
variable {ι ε σ τ ο α : Type*}

/-- A step of a component, with its outputs; `none` ends the system. -/
abbrev System (ι ε σ ο : Type*) := ι → ε → σ → Option (σ × List ο)

/-- The events in their order, with all outputs and the components they are of. -/
def System.run (step : System ι ε σ ο) : List (ι × ε) → σ → Option (σ × List (ι × ο))
  | [], s => some (s, [])
  | (i, e) :: events, s =>
    (step i e s).bind fun p => (System.run step events p.1).map fun q => (q.1, p.2.map (i, ·) ++ q.2)

/-- What is of component `i`. -/
def own [DecidableEq ι] (i : ι) (xs : List (ι × α)) : List (ι × α) := xs.filter (·.1 = i)

/-- A step whose outputs are admissible depends on the view of its component, and leaves the views of the others. -/
structure Isolated (step : System ι ε σ ο) (view : ι → σ → τ) (Good : ι → ο → Prop) : Prop where
  depends : ∀ {i e s t s' out}, step i e s = some (s', out) → (∀ o ∈ out, Good i o) → view i s = view i t →
    ∃ t', step i e t = some (t', out) ∧ view i s' = view i t'
  leaves : ∀ {i j e s s' out}, step i e s = some (s', out) → (∀ o ∈ out, Good i o) → j ≠ i → view j s' = view j s

section Own
variable [DecidableEq ι] {i j : ι}

@[simp] theorem own_nil : own i ([] : List (ι × α)) = [] := rfl

@[simp] theorem own_cons_self (x : α) (xs : List (ι × α)) : own i ((i, x) :: xs) = (i, x) :: own i xs :=
  List.filter_cons_of_pos (decide_eq_true rfl)

theorem own_cons_of_ne (h : j ≠ i) (x : α) (xs : List (ι × α)) : own i ((j, x) :: xs) = own i xs :=
  List.filter_cons_of_neg (by simpa using h)

theorem own_append (xs ys : List (ι × α)) : own i (xs ++ ys) = own i xs ++ own i ys := List.filter_append xs ys

theorem own_map_self (xs : List α) : own i (xs.map (i, ·)) = xs.map (i, ·) := by
  apply List.filter_eq_self.mpr
  simp

theorem own_map_of_ne (h : j ≠ i) (xs : List α) : own i (xs.map (j, ·)) = [] := by
  apply List.filter_eq_nil_iff.mpr
  simpa using fun _ _ => h

theorem mem_of_mem_own {p : ι × α} {xs : List (ι × α)} (h : p ∈ own i xs) : p ∈ xs := List.mem_of_mem_filter h

end Own

section Run
variable {step : System ι ε σ ο} {view : ι → σ → τ} {Good : ι → ο → Prop} {i : ι} {e : ε} {s t s' : σ}
  {events : List (ι × ε)} {outs : List (ι × ο)} {out : List ο}

theorem run_cons : step.run ((i, e) :: events) s = some (s', outs) ↔
    ∃ t out later, step i e s = some (t, out) ∧ step.run events t = some (s', later) ∧
      outs = out.map (i, ·) ++ later := by
  simp only [System.run, Option.bind_eq_some_iff, Option.map_eq_some_iff, Prod.exists, Prod.mk.injEq]
  constructor
  · rintro ⟨t, out, hstep, _, later, hrun, rfl, rfl⟩
    exact ⟨t, out, later, hstep, hrun, rfl⟩
  · rintro ⟨t, out, later, hstep, hrun, rfl⟩
    exact ⟨t, out, hstep, s', later, hrun, rfl, rfl⟩

/-- A run that ends comes to a step that ends it. -/
theorem run_eq_none : step.run events s = none ↔ ∃ before i e behind t outs, events = before ++ (i, e) :: behind ∧
    step.run before s = some (t, outs) ∧ step i e t = none := by
  constructor
  · intro h
    induction events generalizing s with
    | nil => cases h
    | cons event events ih =>
      obtain ⟨i, e⟩ := event
      cases hstep : step i e s with
      | none => exact ⟨[], i, e, events, s, [], rfl, rfl, hstep⟩
      | some p =>
        obtain ⟨t, out⟩ := p
        have hrest : step.run events t = none := by
          cases hrest : step.run events t with
          | none => rfl
          | some q => simp [System.run, hstep, hrest] at h
        obtain ⟨before, j, e', behind, u, outs, rfl, hbefore, hend⟩ := ih hrest
        exact ⟨(i, e) :: before, j, e', behind, u, _, rfl, run_cons.mpr ⟨t, out, outs, hstep, hbefore, rfl⟩, hend⟩
  · rintro ⟨before, i, e, behind, t, outs, rfl, hbefore, hend⟩
    induction before generalizing s outs with
    | nil =>
      obtain ⟨rfl, -⟩ := Prod.mk.inj (Option.some.inj hbefore)
      rw [List.nil_append, System.run, hend, Option.bind_none]
    | cons event before ih =>
      obtain ⟨u, out, later, hstep, hlater, -⟩ := run_cons.mp hbefore
      rw [List.cons_append, System.run, hstep, Option.bind_some, ih later hlater, Option.map_none]

theorem forall_outs {later : List (ι × ο)} : (∀ p ∈ out.map (i, ·) ++ later, Good p.1 p.2) ↔
    (∀ o ∈ out, Good i o) ∧ ∀ p ∈ later, Good p.1 p.2 := by
  rw [List.forall_mem_append, List.forall_mem_map]

variable [DecidableEq ι]

/-- A component does in the system what it does alone. -/
theorem Isolated.alone (h : Isolated step view Good) (hrun : step.run events s = some (s', outs))
    (hgood : ∀ p ∈ outs, Good p.1 p.2) (i : ι) (hview : view i s = view i t) :
    ∃ t', step.run (own i events) t = some (t', own i outs) ∧ view i s' = view i t' := by
  induction events generalizing s t outs with
  | nil =>
    obtain ⟨rfl, rfl⟩ := Prod.mk.inj (Option.some.inj hrun)
    exact ⟨t, rfl, hview⟩
  | cons event events ih =>
    obtain ⟨j, e⟩ := event
    obtain ⟨u, out, later, hstep, hlater, rfl⟩ := run_cons.mp hrun
    obtain ⟨hout, hrest⟩ := forall_outs.mp hgood
    by_cases hj : j = i
    · subst hj
      obtain ⟨u', hstep', hview'⟩ := h.depends hstep hout hview
      obtain ⟨t', hrun', hend⟩ := ih hlater hrest hview'
      refine ⟨t', ?_, hend⟩
      rw [own_cons_self, own_append, own_map_self]
      exact run_cons.mpr ⟨u', out, _, hstep', hrun', rfl⟩
    · have hview' := (h.leaves hstep hout (Ne.symm hj)).trans hview
      rw [own_cons_of_ne hj, own_append, own_map_of_ne hj, List.nil_append]
      exact ih hlater hrest hview'

/-- The system goes on as long as each component goes on alone. -/
theorem Isolated.together (h : Isolated step view Good) (alone : ι → σ) (hview : ∀ i, view i (alone i) = view i s)
    (hall : ∀ i, ∃ t' outs, step.run (own i events) (alone i) = some (t', outs) ∧ ∀ p ∈ outs, Good p.1 p.2) :
    ∃ s' outs, step.run events s = some (s', outs) ∧ ∀ p ∈ outs, Good p.1 p.2 := by
  induction events generalizing s alone with
  | nil => exact ⟨s, [], rfl, List.forall_mem_nil _⟩
  | cons event events ih =>
    obtain ⟨j, e⟩ := event
    obtain ⟨t', outs, hrun, hgood⟩ := hall j
    rw [own_cons_self] at hrun
    obtain ⟨u, out, later, hstep, hlater, rfl⟩ := run_cons.mp hrun
    obtain ⟨hout, hrest⟩ := forall_outs.mp hgood
    obtain ⟨u', hstep', hview'⟩ := h.depends hstep hout (hview j)
    have hviews (i : ι) : view i (Function.update alone j u i) = view i u' := by
      by_cases hi : i = j
      · rw [hi, Function.update_self, hview']
      · rw [Function.update_of_ne hi, hview, h.leaves hstep' hout hi]
    obtain ⟨s', outs', hrun', hgood'⟩ := ih (Function.update alone j u) hviews fun i => by
      by_cases hi : i = j
      · rw [hi, Function.update_self]
        exact ⟨t', later, hlater, hrest⟩
      · rw [Function.update_of_ne hi, ← own_cons_of_ne (Ne.symm hi) e]
        exact hall i
    exact ⟨s', _, run_cons.mpr ⟨u', out, outs', hstep', hrun', rfl⟩, forall_outs.mpr ⟨hout, hgood'⟩⟩

/-- The system goes on exactly when each component goes on alone. -/
theorem Isolated.runs_iff (h : Isolated step view Good) (events : List (ι × ε)) (s : σ) :
    (∃ s' outs, step.run events s = some (s', outs) ∧ ∀ p ∈ outs, Good p.1 p.2) ↔
      ∀ i, ∃ s' outs, step.run (own i events) s = some (s', outs) ∧ ∀ p ∈ outs, Good p.1 p.2 := by
  constructor
  · rintro ⟨s', outs, hrun, hgood⟩ i
    obtain ⟨t', hrun', -⟩ := h.alone hrun hgood i rfl
    exact ⟨t', _, hrun', fun p hp => hgood p (mem_of_mem_own hp)⟩
  · exact fun hall => h.together (fun _ => s) (fun _ => rfl) hall

end Run

end LinuxSocket.Isolation
