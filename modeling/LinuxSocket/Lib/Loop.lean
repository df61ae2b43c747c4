import Mathlib.Logic.Relation
import Mathlib.Order.Lattice
import LinuxSocket.Lib.Except

/-! # Endless loops with a variant

The body of a `while (true)` loop either continues with a next state or leaves
with a result. The variant is a field of the body, so every loop built here ends;
the recursion runs on a bound of the variant and therefore evaluates.
-/
namespace LinuxSocket.Loop

/-- A loop body: `inl` continues with the next state, `inr` leaves with a result. -/
structure Body (σ ρ : Type*) where
  step : σ → σ ⊕ ρ
  variant : σ → ℕ
  decreases : ∀ {s t}, step s = .inl t → variant t < variant s

variable {σ ρ : Type*} (L : Body σ ρ)

/-- `n` bounds the variant, so its zero case cannot be reached. -/
def Body.go : (n : ℕ) → (s : σ) → L.variant s < n → ρ
  | 0, _, h => absurd h (Nat.not_lt_zero _)
  | n + 1, s, h =>
    match hs : L.step s with
    | .inr r => r
    | .inl t => go n t (by have := L.decreases hs; omega)

def Body.run (s : σ) : ρ := L.go (L.variant s + 1) s (Nat.lt_succ_self _)

theorem Body.go_bound (n k : ℕ) (s : σ) (hn : L.variant s < n) (hk : L.variant s < k) :
    L.go n s hn = L.go k s hk := by
  induction n generalizing k s with
  | zero => exact absurd hn (Nat.not_lt_zero _)
  | succ n ih =>
    cases k with
    | zero => exact absurd hk (Nat.not_lt_zero _)
    | succ k =>
      simp only [go]
      split
      · rfl
      · exact ih k _ _ _

theorem Body.run_exit {s : σ} {r : ρ} (h : L.step s = .inr r) : L.run s = r := by
  simp only [run, go]
  split
  · next heq => exact Sum.inr.inj (heq.symm.trans h)
  · next heq => rw [h] at heq; cases heq

theorem Body.run_next {s t : σ} (h : L.step s = .inl t) : L.run s = L.run t := by
  rw [run, go]
  split
  · next heq => rw [h] at heq; cases heq
  · next heq =>
    cases Sum.inl.inj (heq.symm.trans h)
    exact L.go_bound _ _ _ _ _

theorem Body.run_of_step_eq {s t : σ} (h : L.step s = L.step t) : L.run s = L.run t := by
  cases ht : L.step t with
  | inr r => rw [L.run_exit (h.trans ht), L.run_exit ht]
  | inl u => rw [L.run_next (h.trans ht), L.run_next ht]

theorem Body.induction {P : σ → Prop} (h : ∀ s, (∀ t, L.step s = .inl t → P t) → P s) (s : σ) : P s := by
  induction hn : L.variant s using Nat.strongRecOn generalizing s with
  | ind n ih =>
    apply h s
    intro t ht
    have hlt := L.decreases ht
    exact ih _ (hn ▸ hlt) t rfl

/-- The states the loop is in at the head of an iteration. -/
def Body.Visits (s t : σ) : Prop := Relation.ReflTransGen (fun a b => L.step a = .inl b) s t

theorem Body.visits_self (s : σ) : L.Visits s s := Relation.ReflTransGen.refl

variable {L} in
theorem Body.Visits.next {s t u : σ} (h : L.Visits s t) (ht : L.step t = .inl u) : L.Visits s u :=
  Relation.ReflTransGen.tail h ht

theorem Body.exists_exit (s : σ) : ∃ t, L.Visits s t ∧ L.step t = .inr (L.run s) := by
  induction s using L.induction with
  | h s ih =>
    cases hs : L.step s with
    | inr r => exact ⟨s, L.visits_self s, hs.trans (by rw [L.run_exit hs])⟩
    | inl t =>
      obtain ⟨u, hu, he⟩ := ih t hs
      exact ⟨u, Relation.ReflTransGen.head hs hu, by rw [L.run_next hs]; exact he⟩

section Invariant
variable {L} {I : σ → Prop}

/-- A property kept by every iteration holds at every loop head. -/
theorem Body.Visits.invariant (hstep : ∀ s t, I s → L.step s = .inl t → I t) {s t : σ}
    (h : L.Visits s t) (hs : I s) : I t := by
  induction h with
  | refl => exact hs
  | tail _ ht ih => exact hstep _ _ ih ht

/-- The while rule: an invariant kept by the iterations gives the postcondition of the exits. -/
theorem Body.run_post {Q : ρ → Prop} (hstep : ∀ s t, I s → L.step s = .inl t → I t)
    (hexit : ∀ s r, I s → L.step s = .inr r → Q r) {s : σ} (hs : I s) : Q (L.run s) := by
  obtain ⟨t, ht, he⟩ := L.exists_exit s
  exact hexit t _ (ht.invariant hstep hs) he

/-- The while rule with one obligation: the body goes on where the invariant holds or leaves with the
postcondition. -/
theorem Body.run_elim {Q : ρ → Prop} (hbody : ∀ s, I s → (L.step s).elim I Q) {s : σ} (hs : I s) : Q (L.run s) := by
  refine L.run_post (fun s t hI ht => ?_) (fun s r hI hr => ?_) hs
  · simpa only [ht, Sum.elim_inl] using hbody s hI
  · simpa only [hr, Sum.elim_inr] using hbody s hI

end Invariant

section Congruence
variable {L}

/-- Two loops that make the same steps wherever `I` holds, and keep it, compute the same. -/
theorem Body.run_congr {M : Body σ ρ} {I : σ → Prop} (hstep : ∀ s, I s → L.step s = M.step s)
    (hkeep : ∀ s t, I s → L.step s = .inl t → I t) {s : σ} (hs : I s) : L.run s = M.run s := by
  induction s using L.induction with
  | h s ih =>
    have heq := hstep s hs
    cases h : L.step s with
    | inr r => rw [L.run_exit h, M.run_exit (heq ▸ h)]
    | inl t => rw [L.run_next h, M.run_next (heq ▸ h), ih t h (hkeep s t hs h)]

/-- Two loops whose steps keep the relation `R`, or leave related by `Q`, compute results related by `Q`. -/
theorem Body.run_simulates {σ' ρ' : Type*} {M : Body σ' ρ'} {R : σ → σ' → Prop} {Q : ρ → ρ' → Prop}
    (hstep : ∀ s t, R s t → Sum.LiftRel R Q (L.step s) (M.step t)) {s : σ} {t : σ'} (h : R s t) :
    Q (L.run s) (M.run t) := by
  induction s using L.induction generalizing t with
  | h s ih =>
    have hrel := hstep s t h
    cases hs : L.step s with
    | inr r =>
      rw [hs] at hrel
      cases ht : M.step t with
      | inr r' =>
        rw [ht, Sum.liftRel_inr_inr] at hrel
        rwa [L.run_exit hs, M.run_exit ht]
      | inl u => exact absurd (ht ▸ hrel) Sum.not_liftRel_inr_inl
    | inl u =>
      rw [hs] at hrel
      cases ht : M.step t with
      | inr r' => exact absurd (ht ▸ hrel) Sum.not_liftRel_inl_inr
      | inl u' =>
        rw [ht, Sum.liftRel_inl_inl] at hrel
        rw [L.run_next hs, M.run_next ht]
        exact ih u hs hrel

end Congruence

/-! Loops whose body may fail. -/

section Fallible
variable {ε : Type*}

/-- A loop that goes on while `next` yields a state, and ends in the first state without one. -/
def whileSome (next : σ → Except ε (Option σ)) (variant : σ → ℕ)
    (decreases : ∀ {s t}, next s = .ok (some t) → variant t < variant s) : Body σ (Except ε σ) where
  step s := match next s with
    | .error e => .inr (.error e)
    | .ok none => .inr (.ok s)
    | .ok (some t) => .inl t
  variant := variant
  decreases {s t} h := by
    cases hn : next s with
    | error e => simp [hn] at h
    | ok r => cases r with
      | none => simp [hn] at h
      | some u =>
        simp only [hn, Sum.inl.injEq] at h
        exact h ▸ decreases hn

variable {next : σ → Except ε (Option σ)} {variant : σ → ℕ}
  {decreases : ∀ {s t}, next s = .ok (some t) → variant t < variant s} {I : σ → Prop}

/-- The while rule for total correctness: where the invariant holds the body does not fail, and the loop
ends where the invariant holds and `next` yields nothing. -/
theorem run_whileSome (hsafe : ∀ s, I s → ∃ r, next s = .ok r)
    (hkeep : ∀ s t, I s → next s = .ok (some t) → I t) {s : σ} (hs : I s) :
    ∃ t, (whileSome next variant decreases).run s = .ok t ∧ I t ∧ next t = .ok none := by
  refine Body.run_post (Q := fun r => ∃ t, r = Except.ok t ∧ I t ∧ next t = .ok none) ?_ ?_ hs
  · intro s t hI hstep
    obtain ⟨r, hr⟩ := hsafe s hI
    cases r with
    | none => simp [whileSome, hr] at hstep
    | some u =>
      simp only [whileSome, hr, Sum.inl.injEq] at hstep
      exact hstep ▸ hkeep s u hI hr
  · intro s r hI hstep
    obtain ⟨o, ho⟩ := hsafe s hI
    cases o with
    | none =>
      simp only [whileSome, ho, Sum.inr.injEq] at hstep
      exact ⟨s, hstep.symm, hI, ho⟩
    | some u => simp [whileSome, ho] at hstep

/-- The while rule for failures that are to be avoided. -/
theorem avoids_whileSome {bad : ε → Prop} (hnext : ∀ s, I s → Avoids bad (fun o => ∀ t, o = some t → I t) (next s))
    {s : σ} (hs : I s) : Avoids bad I ((whileSome next variant decreases).run s) := by
  refine Body.run_elim (fun s hI => ?_) hs
  have h := hnext s hI
  dsimp only [whileSome]
  cases hn : next s with
  | error e =>
    rw [hn] at h
    exact h
  | ok o =>
    cases o with
    | none => exact hI
    | some t => exact h.of_ok hn t rfl

end Fallible

end LinuxSocket.Loop
