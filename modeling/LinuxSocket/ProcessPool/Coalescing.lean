import LinuxSocket.ProcessPool.RoundRobin
import Mathlib.Algebra.Order.BigOperators.Group.Finset

/-! # When the pool loses connections

Every report of the listening socket leads to one notification and every report of a socketpair to one
`accept`. A client or a notification that arrives while a report is pending has no report of its own,
and is left over for good.
-/
namespace LinuxSocket.ProcessPool
open Pool

variable {s s' s₀ : Pool} {steps : List (Pool × Step)} {i n : ℕ}

section Counting

def Pool.targetReport (s : Pool) (i : ℕ) : Bool := s.search == some i && (s.children i).report

def missedConnect (e : Pool × Step) : Bool := e.2 == .connect && e.1.report

def missedNotify (i : ℕ) (e : Pool × Step) : Bool := e.2 == .dispatch && e.1.targetReport i

def Child.due (c : Child) : ℕ := c.report.toNat + (if c.phase = .woken then 1 else 0)

def Child.accepting (c : Child) : ℕ := if c.phase = .notified then 1 else 0

/-- Every client in the backlog and every notification has a report or a handler that will take it, or was
missed. -/
structure Accounted (n : ℕ) (s : Pool) (steps : List (Pool × Step)) : Prop where
  number : s.processNumber = n
  counter : s.subProcessCounter < n
  live : ∃ j < n, s.pid j ≠ -1
  going : s.stop = false
  outside : ∀ i, n ≤ i → s.children i = .start
  unread : ∀ i, (s.children i).unread = sizeofInt * (steps.countP (missedNotify i) + (s.children i).due)
  backlog : s.backlog = steps.countP missedConnect + s.report.toNat + s.dispatching.toNat +
    ∑ i ∈ Finset.range n, (steps.countP (missedNotify i) + (s.children i).due + (s.children i).accepting)

theorem countP_snoc (p : Pool × Step → Bool) (steps : List (Pool × Step)) (e : Pool × Step) :
    (steps ++ [e]).countP p = steps.countP p + (p e).toNat := by
  rw [List.countP_append, List.countP_singleton]
  cases p e <;> rfl

/-- A sum whose `i`-th term alone changes. -/
theorem sum_shift {f g : ℕ → ℕ} {a b : ℕ} (hi : i < n) (ho : ∀ j, j ≠ i → g j = f j) (h : g i + b = f i + a) :
    ∑ j ∈ Finset.range n, g j + b = ∑ j ∈ Finset.range n, f j + a := by
  have hmem := Finset.mem_range.mpr hi
  have hrest : ∑ j ∈ (Finset.range n).erase i, g j = ∑ j ∈ (Finset.range n).erase i, f j :=
    Finset.sum_congr rfl fun j hj => ho j (Finset.ne_of_mem_erase hj)
  rw [← Finset.add_sum_erase _ g hmem, ← Finset.add_sum_erase _ f hmem, hrest]
  omega

variable {e : Step}

/-- A step that changes nothing but the child `i` and the backlog. -/
theorem Accounted.child (h : Accounted n s steps) (hi : i < n) {c : Child} {backlog : ℕ}
    (hnotify : ∀ j, missedNotify j (s, e) = false) (hconnect : missedConnect (s, e) = false)
    (hunread : c.unread = sizeofInt * (steps.countP (missedNotify i) + c.due))
    (hbacklog : backlog + ((s.children i).due + (s.children i).accepting) = s.backlog + (c.due + c.accepting)) :
    Accounted n { s.setChild i c with backlog := backlog } (steps ++ [(s, e)]) := by
  have hcount : ∀ j, (steps ++ [(s, e)]).countP (missedNotify j) = steps.countP (missedNotify j) := by
    intro j
    rw [countP_snoc, hnotify j]
    rfl
  refine ⟨h.number, h.counter, h.live, h.going, ?_, ?_, ?_⟩
  · intro j hj
    exact (Function.update_of_ne (Nat.ne_of_gt (Nat.lt_of_lt_of_le hi hj)) _ _).trans (h.outside j hj)
  · intro j
    rw [hcount]
    by_cases hj : j = i
    · subst hj
      simp only [Pool.setChild, Function.update_self]
      exact hunread
    · simp only [Pool.setChild, Function.update_of_ne hj]
      exact h.unread j
  · have hsum := sum_shift hi (a := c.due + c.accepting) (b := (s.children i).due + (s.children i).accepting)
      (f := fun j => steps.countP (missedNotify j) + (s.children j).due + (s.children j).accepting)
      (g := fun j => steps.countP (missedNotify j) + (Function.update s.children i c j).due +
        (Function.update s.children i c j).accepting)
      (fun j hj => by rw [Function.update_of_ne hj]) (by rw [Function.update_self]; omega)
    have hold := h.backlog
    simp only [hcount, countP_snoc _ steps (s, e), hconnect, Bool.toNat_false, Nat.add_zero, Pool.setChild]
    omega

theorem Accounted.connect (h : Accounted n s steps) :
    Accounted n { s with backlog := s.backlog + 1, report := true } (steps ++ [(s, .connect)]) := by
  have hold := h.backlog
  have hnotify : ∀ j, missedNotify j (s, .connect) = false := fun _ => rfl
  have hconnect : missedConnect (s, .connect) = s.report := rfl
  refine ⟨h.number, h.counter, h.live, h.going, h.outside, ?_, ?_⟩
  · intro j
    rw [countP_snoc, hnotify]
    exact h.unread j
  · simp only [countP_snoc, hnotify, hconnect, Bool.toNat_false, Bool.toNat_true, Nat.add_zero]
    omega

theorem Accounted.parentWake (h : Accounted n s steps) (hreport : s.report = true) (hd : s.dispatching = false) :
    Accounted n { s with report := false, dispatching := true } (steps ++ [(s, .parentWake)]) := by
  have hold := h.backlog
  have hnotify : ∀ j, missedNotify j (s, .parentWake) = false := fun _ => rfl
  have hconnect : missedConnect (s, .parentWake) = false := rfl
  refine ⟨h.number, h.counter, h.live, h.going, h.outside, ?_, ?_⟩
  · intro j
    rw [countP_snoc, hnotify]
    exact h.unread j
  · simp only [countP_snoc, hnotify, hconnect, Bool.toNat_false, Bool.toNat_true, Nat.add_zero]
    rw [hreport, hd, Bool.toNat_true, Bool.toNat_false] at hold
    omega

theorem Accounted.dispatch (h : Accounted n s steps) (hd : s.dispatching = true)
    (hstep : s.onNewConnection = some s') : Accounted n s' (steps ++ [(s, .dispatch)]) := by
  have hn := h.number
  obtain ⟨t, ht, hsearch, hpid⟩ := search_live (hn.symm ▸ h.counter) (hn.symm ▸ h.live)
  rw [onNewConnection, hsearch, Option.bind_eq_bind, Option.bind_some, if_neg hpid] at hstep
  obtain rfl := Option.some.inj hstep
  have hconnect : missedConnect (s, .dispatch) = false := rfl
  have hnotify : ∀ j, missedNotify j (s, .dispatch) = (t == j && (s.children j).report) := by
    intro j
    simp [missedNotify, targetReport, hsearch]
  have hself : missedNotify t (s, .dispatch) = (s.children t).report := by simp [hnotify]
  have hother : ∀ j, j ≠ t → missedNotify j (s, .dispatch) = false := by
    intro j hj
    rw [hnotify, beq_false_of_ne hj.symm]
    rfl
  have hunread := h.unread t
  refine ⟨hn, hn ▸ Nat.mod_lt _ (Nat.zero_lt_of_lt ht), h.live, h.going, ?_, ?_, ?_⟩
  · intro j hj
    exact (Function.update_of_ne (Nat.ne_of_gt (Nat.lt_of_lt_of_le (hn ▸ ht) hj)) _ _).trans (h.outside j hj)
  · intro j
    rw [countP_snoc]
    by_cases hj : j = t
    · subst hj
      simp only [sendTo, Function.update_self, hself, Child.due, Bool.toNat_true] at hunread ⊢
      rw [hunread, sizeofInt]
      omega
    · simp only [sendTo, Function.update_of_ne hj, hother j hj, Bool.toNat_false, Nat.add_zero]
      exact h.unread j
  · have hsum : ∑ j ∈ Finset.range n, ((steps ++ [(s, Step.dispatch)]).countP (missedNotify j) + (s.sendTo t j).due +
        (s.sendTo t j).accepting) + 0 =
        ∑ j ∈ Finset.range n,
          (steps.countP (missedNotify j) + (s.children j).due + (s.children j).accepting) + 1 := by
      refine sum_shift (hn ▸ ht) ?_ ?_
      · intro j hj
        rw [countP_snoc, hother j hj, sendTo, Function.update_of_ne hj, Bool.toNat_false, Nat.add_zero]
      · simp only [countP_snoc, hself, sendTo, Function.update_self, Child.due, Child.accepting, Bool.toNat_true]
        omega
    have hold := h.backlog
    rw [hd, Bool.toNat_true] at hold
    simp only [countP_snoc _ steps (s, .dispatch), hconnect, Bool.toNat_false, Nat.add_zero] at hsum ⊢
    omega

theorem Accounted.childWake (h : Accounted n s steps) (hi : i < n) (hreport : (s.children i).report = true)
    (hphase : (s.children i).phase = .waiting) :
    Accounted n (s.setChild i { s.children i with report := false, phase := .woken })
      (steps ++ [(s, .childWake i)]) := by
  refine h.child hi (fun _ => rfl) rfl ?_ ?_
  · rw [h.unread i]
    simp [Child.due, hreport, hphase]
  · simp [Child.due, Child.accepting, hreport, hphase]

theorem Accounted.childRecv (h : Accounted n s steps) (hi : i < n) (hphase : (s.children i).phase = .woken) :
    Accounted n (s.setChild i { s.children i with
      unread := (s.children i).unread - min sizeofInt (s.children i).unread, phase := .notified })
      (steps ++ [(s, .childRecv i)]) := by
  have hunread := h.unread i
  refine h.child hi (fun _ => rfl) rfl ?_ ?_
  · simp only [Child.due, hphase, sizeofInt] at hunread ⊢
    simp at hunread ⊢
    omega
  · simp [Child.due, Child.accepting, hphase]

theorem Accounted.childAccept (h : Accounted n s steps) (hi : i < n) (hphase : (s.children i).phase = .notified) :
    Accounted n { s.setChild i { s.children i with phase := .waiting } with backlog := s.backlog - 1 }
      (steps ++ [(s, .childAccept i)]) := by
  -- a client is there, because the child is counted
  have hterm := Finset.single_le_sum
    (f := fun j => steps.countP (missedNotify j) + (s.children j).due + (s.children j).accepting)
    (fun j _ => Nat.zero_le _) (Finset.mem_range.mpr hi)
  have hbacklog := h.backlog
  have haccepting : (s.children i).accepting = 1 := if_pos hphase
  refine h.child hi (fun _ => rfl) rfl ?_ ?_
  · rw [h.unread i]
    simp [Child.due, hphase]
  · simp [Child.due, Child.accepting, hphase]
    omega

theorem Accounted.step (h : Accounted n s steps) (hstep : s.step e = some s') :
    Accounted n s' (steps ++ [(s, e)]) := by
  have hnum := h.number
  cases e with
  | connect =>
    obtain rfl := Option.some.inj hstep
    exact h.connect
  | parentWake =>
    rw [Pool.step] at hstep
    split at hstep
    · next hwake =>
      obtain rfl := Option.some.inj hstep
      exact h.parentWake hwake.1 hwake.2.1
    · cases hstep
  | dispatch =>
    rw [Pool.step] at hstep
    split at hstep
    · next hd => exact h.dispatch hd hstep
    · cases hstep
  | childWake i =>
    simp only [Pool.step] at hstep
    split at hstep
    · next hwake =>
      obtain rfl := Option.some.inj hstep
      exact h.childWake (hnum ▸ hwake.1) hwake.2.1 hwake.2.2
    · cases hstep
  | childRecv i =>
    simp only [Pool.step] at hstep
    split at hstep
    · next hwoken =>
      obtain rfl := Option.some.inj hstep
      exact h.childRecv (hnum ▸ hwoken.1) hwoken.2
    · cases hstep
  | childAccept i =>
    simp only [Pool.step] at hstep
    split at hstep
    · next hnotified =>
      obtain rfl := Option.some.inj hstep
      exact h.childAccept (hnum ▸ hnotified.1) hnotified.2
    · cases hstep

end Counting

section Runs
variable {pid : ℕ → ℤ}

theorem accounted_start (hlive : ∃ j < n, pid j ≠ -1) : Accounted n (start n pid) [] where
  number := rfl
  counter := by
    obtain ⟨j, hj, -⟩ := hlive
    exact Nat.zero_lt_of_lt hj
  live := hlive
  going := rfl
  outside := fun _ _ => rfl
  unread := fun _ => rfl
  backlog := by simp [start, Child.start, Child.due, Child.accepting]

theorem Run.accounted (hlive : ∃ j < n, pid j ≠ -1) (h : Run (start n pid) steps s) : Accounted n s steps := by
  induction h with
  | refl => exact accounted_start hlive
  | step _ hstep ih => exact ih.step hstep

/-- What arrives has a report of its own: a client connects while no report of the listening socket is pending,
and the child that is notified has no report of its socketpair pending. -/
def Reported (s : Pool) : Step → Prop
  | .connect => s.report = false
  | .dispatch => ∀ i, s.search = some i → (s.children i).report = false
  | _ => True

theorem reported_iff (e : Pool × Step) :
    Reported e.1 e.2 ↔ missedConnect e = false ∧ ∀ i, missedNotify i e = false := by
  obtain ⟨s, e⟩ := e
  cases e with
  | connect => simp [Reported, missedConnect, missedNotify]
  | dispatch => simp [Reported, missedConnect, missedNotify, targetReport]
  | _ => simp [Reported, missedConnect, missedNotify]

/-- In a quiescent state no client and no notification is left exactly if all that arrived was reported. -/
theorem served_iff (hlive : ∃ j < n, pid j ≠ -1) (h : Run (start n pid) steps s) (hq : s.Quiescent) :
    s.Served ↔ ∀ e ∈ steps, Reported e.1 e.2 := by
  have hacc := h.accounted hlive
  have hchild : ∀ i, (s.children i).due = 0 ∧ (s.children i).accepting = 0 := by
    intro i
    rcases Nat.lt_or_ge i n with hi | hi
    · obtain ⟨hreport, hphase⟩ := hq.children i (hacc.number.symm ▸ hi)
      simp [Child.due, Child.accepting, hreport, hphase]
    · rw [hacc.outside i hi]
      exact ⟨rfl, rfl⟩
  have hunread : ∀ i, (s.children i).unread = 0 ↔ steps.countP (missedNotify i) = 0 := by
    intro i
    rw [hacc.unread i, (hchild i).1, sizeofInt]
    omega
  have hbacklog : s.backlog = steps.countP missedConnect + ∑ i ∈ Finset.range n, steps.countP (missedNotify i) := by
    rw [hacc.backlog, hq.report, hq.dispatching]
    simp only [hchild, Bool.toNat_false, Nat.add_zero]
  have hall : (∀ e ∈ steps, Reported e.1 e.2) ↔
      steps.countP missedConnect = 0 ∧ ∀ i, steps.countP (missedNotify i) = 0 := by
    simp only [reported_iff, List.countP_eq_zero, Bool.not_eq_true]
    constructor
    · intro h
      exact ⟨fun e he => (h e he).1, fun i e he => (h e he).2 i⟩
    · intro h e he
      exact ⟨h.1 e he, fun i => h.2 i e he⟩
  rw [hall, Served, hacc.number]
  constructor
  · rintro ⟨hzero, hread⟩
    refine ⟨by omega, fun i => (hunread i).mp ?_⟩
    rcases Nat.lt_or_ge i n with hi | hi
    · exact hread i hi
    · rw [hacc.outside i hi]
      rfl
  · rintro ⟨hconnect, hnotify⟩
    refine ⟨?_, fun i _ => (hunread i).mpr (hnotify i)⟩
    simp [hbacklog, hconnect, hnotify]

theorem quiescent_of_children (hreport : s.report = false) (hd : s.dispatching = false)
    (hchild : ∀ i ∈ List.range s.processNumber, (s.children i).report = false ∧ (s.children i).phase = .waiting) :
    s.Quiescent := ⟨hreport, hd, fun i hi => hchild i (List.mem_range.mpr hi)⟩

/-- Two clients, of which the second connects when the first has been dispatched. -/
theorem served_iff_two : ∃ (steps : List (Pool × Step)) (s : Pool), Run (start 2 fun i => 100 + i) steps s ∧
    steps.map Prod.snd = [.connect, .parentWake, .dispatch, .connect, .childWake 0, .childRecv 0, .parentWake, .dispatch,
      .childAccept 0, .childWake 1, .childRecv 1, .childAccept 1] ∧
    s.Served ∧ ∀ e ∈ steps, Reported e.1 e.2 := by
  have h₁ : Run (start 2 fun i => 100 + i) _ _ := .step (e := .connect) .refl rfl
  have h₂ := (h₁.step (e := .parentWake) rfl).step (e := .dispatch) rfl
  have h₃ := (h₂.step (e := .connect) rfl).step (e := .childWake 0) rfl
  have h₄ := (h₃.step (e := .childRecv 0) rfl).step (e := .parentWake) rfl
  have h₅ := (h₄.step (e := .dispatch) rfl).step (e := .childAccept 0) rfl
  have h₆ := (h₅.step (e := .childWake 1) rfl).step (e := .childRecv 1) rfl
  have h₇ := h₆.step (e := .childAccept 1) rfl
  have hserved := (served_iff ⟨0, by decide, by decide⟩ h₇ (quiescent_of_children rfl rfl (by decide))).mp
  exact ⟨_, _, h₇, rfl, ⟨rfl, by decide⟩, hserved ⟨rfl, by decide⟩⟩

/-- Two clients connect before the parent wakes up: the second one is left in the backlog. -/
theorem second_client_waits : ¬∀ (n : ℕ) (pid : ℕ → ℤ), (∃ j < n, pid j ≠ -1) → ∀ steps s,
    Run (start n pid) steps s → s.Quiescent → s.Served := by
  intro hall
  have h₁ : Run (start 1 fun _ => 100) _ _ := .step (e := .connect) .refl rfl
  have h₂ := h₁.step (e := .connect) rfl
  have h₃ := h₂.step (e := .parentWake) rfl
  have h₄ := h₃.step (e := .dispatch) rfl
  have h₅ := h₄.step (e := .childWake 0) rfl
  have h₆ := h₅.step (e := .childRecv 0) rfl
  have h₇ := h₆.step (e := .childAccept 0) rfl
  have hserved := hall 1 (fun _ => 100) ⟨0, by decide, by decide⟩ _ _ h₇ 
    (quiescent_of_children rfl rfl (List.forall_mem_singleton.mpr ⟨rfl, rfl⟩))
  exact absurd hserved.1 Nat.one_ne_zero

end Runs

end LinuxSocket.ProcessPool
