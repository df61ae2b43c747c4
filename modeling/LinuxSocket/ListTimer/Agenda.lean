import LinuxSocket.Lib.Agenda
import LinuxSocket.ListTimer.Refinement

/-! # The timer list as a container of timed jobs

The handle of a timer is its address, which `adjust_timer` leaves as it is.
-/
namespace LinuxSocket.ListTimer
open DoublyLinked StableList SortTimerLst Agenda

variable {P : Type} [DecidableEq P]

def UtilTimer.call (d : UtilTimer) : ℕ × ℕ := (d.cbFunc, d.userData)

def UtilTimer.ofTask (t : Task ℤ (ℕ × ℕ)) : UtilTimer := ⟨t.due, t.job.1, t.job.2⟩

def UtilTimer.task (d : UtilTimer) : Task ℤ (ℕ × ℕ) := ⟨d.expire, d.call⟩

def container (P : Type) [DecidableEq P] : Container (SortTimerLst P) P ℤ (ℕ × ℕ) where
  start s _ := s = init
  permits _ _ := True
  follows _ _ := True
  fresh s p := s.heap p = none
  add _ p t s s' := Returns (fun fuel => s.exec fuel (.add p (.ofTask t))) ([], s')
  remove p s s' := Returns (fun fuel => s.exec fuel (.del p)) ([], s')
  renames _ p q := q = p
  postpone _ p _ t s s' := Returns (fun fuel => s.exec fuel (.adjust p t.due)) ([], s')
  tick cur s jobs s' := ∃ fired, Returns (fun fuel => s.exec fuel (.tick cur)) (fired, s') ∧
    jobs = fired.map fun e => e.2.call

def entry (e : P × UtilTimer) : P × Task ℤ (ℕ × ℕ) := (e.1, e.2.task)

def HoldsTasks (s : SortTimerLst P) (_ : ℤ) (m : Multiset (P × Task ℤ (ℕ × ℕ))) : Prop :=
  ∃ l, Refines s l ∧ m = (l.map entry : List _)

section Keeps
variable {s s' : SortTimerLst P} {l : List (P × UtilTimer)} {m : Multiset (P × Task ℤ (ℕ × ℕ))} {p : P}
  {t : Task ℤ (ℕ × ℕ)} {now : ℤ}

/-- What an operation without callbacks leads to. -/
theorem leads_of_returns {op : Op P} {q : SortTimerLst P → Prop}
    (h : ∃ s', Returns (fun fuel => s.exec fuel op) ([], s') ∧ q s') :
    Leads (fun s' => Returns (fun fuel => s.exec fuel op) ([], s')) q := by
  obtain ⟨s', hrun, hq⟩ := h
  refine ⟨⟨s', hrun⟩, fun s'' hrun' => ?_⟩
  obtain ⟨-, rfl⟩ := Prod.ext_iff.mp (hrun.unique hrun')
  exact hq

omit [DecidableEq P] in
theorem coe_map_insertBy (e : P × UtilTimer) (l : List (P × UtilTimer)) :
    (((insertBy due e l).map entry : List _) : Multiset _) = entry e ::ₘ (l.map entry : List _) := by
  rw [Multiset.cons_coe]
  exact Multiset.coe_eq_coe.mpr ((insertBy_perm due e l).map entry)

omit [DecidableEq P] in
/-- A task of the list is the timer of an entry. -/
theorem HoldsTasks.exists_split (h : HoldsTasks s now ((p, t) ::ₘ m)) :
    ∃ l₁ l₂, Refines s (l₁ ++ (p, .ofTask t) :: l₂) ∧ m = ((l₁ ++ l₂).map entry : List _) := by
  obtain ⟨l, hs, heq⟩ := h
  have hmem : (p, t) ∈ l.map entry := by
    rw [← Multiset.mem_coe, ← heq]
    exact Multiset.mem_cons_self ..
  obtain ⟨⟨q, d⟩, he, hpt⟩ := List.mem_map.mp hmem
  obtain ⟨rfl, rfl⟩ := Prod.ext_iff.mp hpt
  obtain ⟨l₁, l₂, rfl⟩ := List.append_of_mem he
  refine ⟨l₁, l₂, hs, ?_⟩
  have hperm : ((l₁ ++ (q, d) :: l₂).map entry).Perm (entry (q, d) :: (l₁ ++ l₂).map entry) :=
    List.perm_middle.map entry
  rw [Multiset.coe_eq_coe.mpr hperm, ← Multiset.cons_coe] at heq
  exact (Multiset.cons_inj_right _).mp heq

theorem HoldsTasks.tick (h : HoldsTasks s now m) (cur : ℤ) : (∃ jobs s', (container P).tick cur s jobs s') ∧
    ∀ jobs s', (container P).tick cur s jobs s' → Called jobs ((m.filter fun e => e.2.due ≤ cur).map Prod.snd) ∧
      HoldsTasks s' cur (m.filter fun e => cur < e.2.due) := by
  obtain ⟨l, hs, rfl⟩ := h
  obtain ⟨s', hrun, hs'⟩ := hs.tick cur
  refine ⟨⟨_, s', _, hrun, rfl⟩, ?_⟩
  rintro jobs s'' ⟨fired, hrun', rfl⟩
  obtain ⟨rfl, rfl⟩ := Prod.ext_iff.mp (hrun.unique hrun')
  refine ⟨⟨(l.filter fun e => due e ≤ cur).map fun e => e.2.task, ?_, ?_, ?_⟩, _, hs', ?_⟩
  · rw [List.map_map]
    rfl
  · rw [List.pairwise_map]
    exact hs.sorted.filter _
  · rw [Multiset.filter_coe, Multiset.map_coe, List.filter_map, List.map_map]
    rfl
  · rw [Multiset.filter_coe, List.filter_map]
    rfl

theorem container_keeps : Keeps (container P) HoldsTasks where
  start := by
    rintro s now rfl
    exact ⟨[], ⟨holds_init, fun e he => absurd he List.not_mem_nil⟩, rfl⟩
  add := by
    rintro s now m p t ⟨l, hs, rfl⟩ hfresh -
    obtain ⟨s', hrun, hs'⟩ := hs.add hfresh (.ofTask t)
    exact leads_of_returns ⟨s', hrun, _, hs', (coe_map_insertBy (p, .ofTask t) l).symm⟩
  remove := by
    intro s now m p t h
    obtain ⟨l₁, l₂, hs, rfl⟩ := h.exists_split
    obtain ⟨s', hrun, hs'⟩ := hs.del
    exact leads_of_returns ⟨s', hrun, _, hs', rfl⟩
  postpone := by
    rintro s now m p q t due h rfl - hle
    obtain ⟨l₁, l₂, hs, rfl⟩ := h.exists_split
    obtain ⟨s', hrun, hs'⟩ := hs.adjust hle
    exact leads_of_returns ⟨s', hrun, _, hs', (coe_map_insertBy (q, .ofTask ⟨due, t.job⟩) _).symm⟩
  tick := fun h _ => h.tick _

end Keeps

end LinuxSocket.ListTimer
