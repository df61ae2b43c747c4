import LinuxSocket.Lib.Cyclic
import LinuxSocket.ProcessPool.ProcessPool

/-! # The children of the pool take turns

The counter stands behind the child that was notified last. From there on the live children are in the order of
their turns, and a notification moves the first of them to the end.
-/
namespace LinuxSocket.ProcessPool
open Pool Cyclic

def Pool.live (s : Pool) (i : ℕ) : Bool := s.pid i != -1

def Pool.turns (s : Pool) : List ℕ := Cyclic.turns s.live s.processNumber s.subProcessCounter

def Pool.FirstLive (s : Pool) (i : ℕ) : Prop :=
  ∃ j < s.processNumber, i = (s.subProcessCounter + j) % s.processNumber ∧ s.pid i ≠ -1 ∧
    ∀ k < j, s.pid ((s.subProcessCounter + k) % s.processNumber) = -1

variable {s s' s₀ : Pool} {i n : ℕ}

theorem live_iff : s.live i = true ↔ s.pid i ≠ -1 := bne_iff_ne

theorem live_eq_false_iff : s.live i = false ↔ s.pid i = -1 := by simp [Pool.live]

theorem firstLive_iff : s.FirstLive i ↔ s.turns.head? = some i := by
  simp only [FirstLive, Pool.turns, head?_turns_iff, live_iff, live_eq_false_iff]

section Search

/-- The loop at the `k`-th child behind the counter, when the children before it are dead. -/
theorem searchLoop_eq (hn : s.subProcessCounter < s.processNumber) {k fuel : ℕ} (hk : k + fuel = s.processNumber)
    (hfuel : 0 < fuel) (hdead : ∀ j < k, s.pid ((s.subProcessCounter + j) % s.processNumber) = -1) :
    s.searchLoop fuel ((s.subProcessCounter + k) % s.processNumber) =
      some (s.turns.head?.getD s.subProcessCounter) := by
  induction fuel generalizing k with
  | zero => exact absurd hfuel (Nat.lt_irrefl 0)
  | succ fuel ih =>
    by_cases hpid : s.pid ((s.subProcessCounter + k) % s.processNumber) = -1
    · have hdead' : ∀ j < k + 1, s.pid ((s.subProcessCounter + j) % s.processNumber) = -1 := by
        intro j hj
        rcases Nat.lt_succ_iff_lt_or_eq.mp hj with hj | rfl
        · exact hdead j hj
        · exact hpid
      have hnext : ((s.subProcessCounter + k) % s.processNumber + 1) % s.processNumber =
          (s.subProcessCounter + (k + 1)) % s.processNumber := by
        rw [Nat.mod_add_mod, Nat.add_assoc]
      have hround := add_mod_eq_iff (k := k + 1) hn (by omega)
      rw [searchLoop, if_neg (not_not.mpr hpid)]
      simp only [hnext]
      rcases Nat.eq_zero_or_pos fuel with rfl | hpos
      · -- the loop has been round
        have hnone : s.turns.head? = none := by
          rw [Option.eq_none_iff_forall_ne_some]
          intro i hi
          obtain ⟨j, hj, rfl, hlive, -⟩ := firstLive_iff.mpr hi
          exact hlive (hdead' j (by omega))
        rw [if_neg (not_not.mpr (hround.mpr (by omega))), hround.mpr (by omega), hnone]
        rfl
      · rw [if_pos (hround.not.mpr (by omega))]
        exact ih (by omega) hpos hdead'
    · have hfirst : s.FirstLive ((s.subProcessCounter + k) % s.processNumber) := ⟨k, by omega, rfl, hpid, hdead⟩
      rw [searchLoop, if_pos hpid, firstLive_iff.mp hfirst]
      rfl

/-- The loop ends at the child whose turn it is, or where it began. -/
theorem search_eq (hn : s.subProcessCounter < s.processNumber) :
    s.search = some (s.turns.head?.getD s.subProcessCounter) := by
  have hrun := searchLoop_eq hn (Nat.zero_add s.processNumber) (Nat.zero_lt_of_lt hn)
    fun j hj => absurd hj (Nat.not_lt_zero j)
  rwa [Nat.add_zero, Nat.mod_eq_of_lt hn] at hrun

theorem mem_turns : i ∈ s.turns ↔ i < s.processNumber ∧ s.pid i ≠ -1 := by
  rw [Pool.turns, Cyclic.mem_turns, live_iff]

theorem search_of_turns {rest : List ℕ} (hn : s.subProcessCounter < s.processNumber) (ht : s.turns = i :: rest) :
    s.search = some i ∧ i < s.processNumber ∧ s.pid i ≠ -1 := by
  refine ⟨?_, mem_turns.mp (ht ▸ List.mem_cons_self)⟩
  rw [search_eq hn, ht]
  rfl

/-- The loop of `run_parent` finds a live child while there is one. -/
theorem search_live (hn : s.subProcessCounter < s.processNumber) (hlive : ∃ j < s.processNumber, s.pid j ≠ -1) :
    ∃ i < s.processNumber, s.search = some i ∧ s.pid i ≠ -1 := by
  obtain ⟨j, hj, hpid⟩ := hlive
  have hmem : j ∈ s.turns := mem_turns.mpr ⟨hj, hpid⟩
  obtain ⟨i, rest, ht⟩ := List.exists_cons_of_ne_nil (List.ne_nil_of_mem hmem)
  obtain ⟨hsearch, hi, hlive⟩ := search_of_turns hn ht
  exact ⟨i, hi, hsearch, hlive⟩

theorem turns_eq_nil_iff : s.turns = [] ↔ ∀ i < s.processNumber, s.pid i = -1 := by
  rw [List.eq_nil_iff_forall_not_mem]
  simp only [mem_turns, not_and, not_not]

theorem onNewConnection_cons {rest : List ℕ} (hn : s.subProcessCounter < s.processNumber) (ht : s.turns = i :: rest) :
    s.onNewConnection = some { s with
      subProcessCounter := (i + 1) % s.processNumber
      children := s.sendTo i
      dispatching := false } := by
  obtain ⟨hsearch, -, hlive⟩ := search_of_turns hn ht
  rw [onNewConnection, hsearch, Option.bind_eq_bind, Option.bind_some, if_neg hlive]

theorem onNewConnection_nil (hn : s.subProcessCounter < s.processNumber) (ht : s.turns = []) :
    s.onNewConnection = some { s with stop := true, dispatching := false } := by
  have hdead := turns_eq_nil_iff.mp ht _ hn
  have hsearch : s.search = some s.subProcessCounter := by
    rw [search_eq hn, ht]
    rfl
  rw [onNewConnection, hsearch, Option.bind_eq_bind, Option.bind_some, if_pos hdead]

end Search

/-- A step of the pool, or `SIGCHLD` for the parent with the results of its calls of `waitpid`. -/
inductive Event
  | step (e : Step)
  | sigchld (results : List ℤ)

def Pool.handle (s : Pool) : Event → Option Pool
  | .step e => s.step e
  | .sigchld results => some (s.onSigchld results)

def Pool.dispatched (s : Pool) : Event → List (Option ℕ)
  | .step .dispatch => [s.search.filter s.live]
  | _ => []

inductive Dispatches (s₀ : Pool) : List (Option ℕ) → Pool → Prop
  | refl : Dispatches s₀ [] s₀
  | event {targets s s'} (e : Event) : Dispatches s₀ targets s → s.handle e = some s' →
      Dispatches s₀ (targets ++ s.dispatched e) s'

section Table
variable {results : List ℤ}

theorem live_reap {pid : ℤ} (h : (s.reap pid).live i = true) : s.live i = true := by
  rw [live_iff] at h ⊢
  exact fun hdead => h (ite_eq_left_iff.mpr fun _ => hdead)

structure Kept (s s' : Pool) : Prop where
  processNumber_eq : s'.processNumber = s.processNumber
  counter_eq : s'.subProcessCounter = s.subProcessCounter
  live : ∀ i, s'.live i = true → s.live i = true

theorem Kept.refl (s : Pool) : Kept s s := ⟨rfl, rfl, fun _ h => h⟩

theorem Kept.reap (h : Kept s₀ s) (pid : ℤ) : Kept s₀ (s.reap pid) :=
  ⟨h.processNumber_eq, h.counter_eq, fun i hi => h.live i (live_reap hi)⟩

theorem Kept.foldl (h : Kept s₀ s) (pids : List ℤ) : Kept s₀ (pids.foldl Pool.reap s) := by
  induction pids generalizing s with
  | nil => exact h
  | cons pid pids ih => exact ih (h.reap pid)

theorem kept_onSigchld (s : Pool) (results : List ℤ) : Kept s (s.onSigchld results) :=
  let h := (Kept.refl s).foldl (results.takeWhile (0 < ·))
  ⟨h.processNumber_eq, h.counter_eq, h.live⟩

/-- No step but a dispatch touches the table or the counter. -/
theorem kept_step {e : Step} (hs : s.step e = some s') (he : e ≠ .dispatch) : Kept s s' := by
  cases e with
  | connect =>
    obtain rfl := Option.some.inj hs
    exact ⟨rfl, rfl, fun _ h => h⟩
  | parentWake =>
    obtain ⟨-, hs⟩ := Option.ite_none_right_eq_some.mp hs
    obtain rfl := Option.some.inj hs
    exact ⟨rfl, rfl, fun _ h => h⟩
  | dispatch => exact absurd rfl he
  | childWake i =>
    obtain ⟨-, hs⟩ := Option.ite_none_right_eq_some.mp hs
    obtain rfl := Option.some.inj hs
    exact ⟨rfl, rfl, fun _ h => h⟩
  | childRecv i =>
    obtain ⟨-, hs⟩ := Option.ite_none_right_eq_some.mp hs
    obtain rfl := Option.some.inj hs
    exact ⟨rfl, rfl, fun _ h => h⟩
  | childAccept i =>
    obtain ⟨-, hs⟩ := Option.ite_none_right_eq_some.mp hs
    obtain rfl := Option.some.inj hs
    exact ⟨rfl, rfl, fun _ h => h⟩

end Table

section Runs
variable {targets : List (Option ℕ)}

/-- The pool in a run from `s₀`: as long as no child has died, the dispatches have gone through the turns. -/
structure InTurn (s₀ : Pool) (targets : List (Option ℕ)) (s : Pool) : Prop where
  processNumber_eq : s.processNumber = s₀.processNumber
  counter_lt : s.subProcessCounter < s.processNumber
  live : ∀ i, s.live i = true → s₀.live i = true
  turns_eq : (∀ i < s₀.processNumber, s₀.live i = true → s.live i = true) → targets.length ≤ s₀.turns.length →
    s₀.turns.map some = targets ++ (s₀.turns.drop targets.length).map some ∧
      s.turns = s₀.turns.rotate targets.length

theorem InTurn.start (hn : s.subProcessCounter < s.processNumber) : InTurn s [] s :=
  ⟨rfl, hn, fun _ h => h, fun _ _ => ⟨rfl, (List.rotate_zero _).symm⟩⟩

theorem InTurn.kept (h : InTurn s₀ targets s) (hk : Kept s s') : InTurn s₀ targets s' := by
  refine ⟨hk.processNumber_eq.trans h.processNumber_eq, ?_, fun i hi => h.live i (hk.live i hi), ?_⟩
  · rw [hk.counter_eq, hk.processNumber_eq]
    exact h.counter_lt
  · intro hall hle
    obtain ⟨htargets, hturns⟩ := h.turns_eq (fun i hi hlive => hk.live i (hall i hi hlive)) hle
    refine ⟨htargets, ?_⟩
    rw [← hturns, Pool.turns, Pool.turns, hk.processNumber_eq, hk.counter_eq]
    refine turns_congr _ fun i hi => Bool.eq_iff_iff.mpr ⟨hk.live i, fun hlive => ?_⟩
    exact hall i (h.processNumber_eq ▸ hi) (h.live i hlive)

theorem length_snoc_dispatched (s : Pool) (targets : List (Option ℕ)) :
    (targets ++ s.dispatched (.step .dispatch)).length = targets.length + 1 := List.length_append

theorem InTurn.dispatch (h : InTurn s₀ targets s) (hs : s.onNewConnection = some s') :
    InTurn s₀ (targets ++ s.dispatched (.step .dispatch)) s' := by
  cases ht : s.turns with
  | nil =>
    rw [onNewConnection_nil h.counter_lt ht] at hs
    obtain rfl := Option.some.inj hs
    refine ⟨h.processNumber_eq, h.counter_lt, h.live, fun hall hle => ?_⟩
    rw [length_snoc_dispatched] at hle
    obtain ⟨-, hturns⟩ := h.turns_eq hall (Nat.le_of_succ_le hle)
    rw [ht] at hturns
    have hlen := congrArg List.length hturns
    rw [List.length_rotate, List.length_nil] at hlen
    omega
  | cons i rest =>
    obtain ⟨hsearch, hi, hlive⟩ := search_of_turns h.counter_lt ht
    have hnotified : s.dispatched (.step .dispatch) = [some i] := by
      rw [Pool.dispatched, hsearch, Option.filter_some, if_pos (live_iff.mpr hlive)]
    rw [onNewConnection_cons h.counter_lt ht] at hs
    obtain rfl := Option.some.inj hs
    refine ⟨h.processNumber_eq, Nat.mod_lt _ (Nat.zero_lt_of_lt hi), h.live, fun hall hle => ?_⟩
    rw [length_snoc_dispatched] at hle
    obtain ⟨htargets, hturns⟩ := h.turns_eq hall (Nat.le_of_succ_le hle)
    rw [ht] at hturns
    -- the child is the one whose turn has come in the list as well
    have hget : i = s₀.turns[targets.length] := by
      have hhead := congrArg List.head? hturns
      rw [List.head?_rotate hle, List.head?_cons, List.getElem?_eq_getElem hle] at hhead
      exact Option.some.inj hhead
    have hdrop := List.drop_eq_getElem_cons hle
    rw [hnotified, List.length_append, List.length_singleton]
    constructor
    · rw [htargets, hdrop, List.map_cons, ← hget, List.append_assoc]
      rfl
    · rw [← List.rotate_rotate, ← hturns, List.rotate_cons_succ, List.rotate_zero]
      exact turns_succ ht

theorem InTurn.handle (h : InTurn s₀ targets s) {e : Event} (hs : s.handle e = some s') :
    InTurn s₀ (targets ++ s.dispatched e) s' := by
  cases e with
  | sigchld results =>
    obtain rfl := Option.some.inj hs
    have hnone : s.dispatched (.sigchld results) = [] := rfl
    rw [hnone, List.append_nil]
    exact h.kept (kept_onSigchld s results)
  | step e =>
    by_cases he : e = .dispatch
    · subst he
      obtain ⟨-, hs⟩ := Option.ite_none_right_eq_some.mp hs
      exact h.dispatch hs
    · have hnone : s.dispatched (.step e) = [] := by
        cases e <;> first | rfl | exact absurd rfl he
      rw [hnone, List.append_nil]
      exact h.kept (kept_step hs he)

theorem Dispatches.inTurn (h : Dispatches s₀ targets s) (hn : s₀.subProcessCounter < s₀.processNumber) :
    InTurn s₀ targets s := by
  induction h with
  | refl => exact .start hn
  | event e _ hs ih => exact ih.handle hs

/-- The loop over the children ends for every table of pids and every counter. Its dispatch goes to the first live
child in cyclic order, or the parent stops and notifies nobody. In every run the counter stays in range, and as many
dispatches as there are live children, none of which dies, go to each of them once. -/
theorem dispatch_fair (hn : s₀.subProcessCounter < s₀.processNumber) :
    ((∃ i, s₀.FirstLive i ∧ s₀.search = some i ∧ s₀.onNewConnection = some { s₀ with
        subProcessCounter := (i + 1) % s₀.processNumber
        children := s₀.sendTo i
        dispatching := false }) ∨
      (∀ i < s₀.processNumber, s₀.pid i = -1) ∧ s₀.search = some s₀.subProcessCounter ∧
        s₀.onNewConnection = some { s₀ with stop := true, dispatching := false }) ∧
    ∀ targets s, Dispatches s₀ targets s → s.subProcessCounter < s.processNumber ∧
      ((∀ i < s₀.processNumber, s₀.pid i ≠ -1 → s.pid i ≠ -1) →
        targets.length = (List.range s₀.processNumber).countP s₀.live →
        ∃ order : List ℕ, targets = order.map some ∧ order.Nodup ∧
          ∀ i, i ∈ order ↔ i < s₀.processNumber ∧ s₀.pid i ≠ -1) := by
  constructor
  · cases ht : s₀.turns with
    | nil =>
      refine .inr ⟨turns_eq_nil_iff.mp ht, ?_, onNewConnection_nil hn ht⟩
      rw [search_eq hn, ht]
      rfl
    | cons i rest =>
      have hfirst : s₀.FirstLive i := firstLive_iff.mpr (ht ▸ rfl)
      exact .inl ⟨i, hfirst, (search_of_turns hn ht).1, onNewConnection_cons hn ht⟩
  · intro targets s h
    have hinv := h.inTurn hn
    refine ⟨hinv.counter_lt, fun hall hlen => ?_⟩
    have hcount : targets.length = s₀.turns.length := hlen.trans (length_turns _ _ _).symm
    have hlive : ∀ i < s₀.processNumber, s₀.live i = true → s.live i = true := fun i hi h =>
      live_iff.mpr (hall i hi (live_iff.mp h))
    obtain ⟨htargets, -⟩ := hinv.turns_eq hlive hcount.le
    rw [hcount, List.drop_length, List.map_nil, List.append_nil] at htargets
    exact ⟨s₀.turns, htargets.symm, nodup_turns _ _ _, fun i => mem_turns⟩

/-- Three children, of which the second dies before two clients come. -/
theorem dispatch_fair_three : ∃ order : List ℕ, [some 0, some 2] = order.map some ∧ order.Nodup ∧
    ∀ i, i ∈ order ↔ i < 3 ∧ (if i < 3 ∧ (100 + i : ℤ) = 101 then -1 else (100 + i : ℤ)) ≠ -1 := by
  let s₀ := (start 3 fun i => 100 + i).onSigchld [101, 0]
  have h₁ : Dispatches s₀ _ _ := .event (.step .connect) .refl rfl
  have h₂ := h₁.event (.step .parentWake) rfl
  have h₃ := h₂.event (.step .dispatch) rfl
  have h₄ := h₃.event (.step .connect) rfl
  have h₅ := h₄.event (.step .parentWake) rfl
  have h₆ := h₅.event (.step .dispatch) rfl
  exact ((dispatch_fair (by decide : s₀.subProcessCounter < s₀.processNumber)).2 _ _ h₆).2 (fun _ _ h => h) rfl

end Runs

end LinuxSocket.ProcessPool
