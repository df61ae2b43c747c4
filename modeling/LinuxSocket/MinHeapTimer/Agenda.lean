import LinuxSocket.Lib.Agenda
import LinuxSocket.MinHeapTimer.Tick

/-! # The time heap as a container of timed jobs

A timer passed to `del_timer` stays in the heap without a callback, so the tasks are the timers of the heap that
have not been deleted. A postponed task is deleted and added as a new timer.
-/
namespace LinuxSocket.MinHeapTimer
open Agenda

variable {P : Type} [DecidableEq P]

def HeapTimer.ofTask (t : Task ℤ (ℕ × ℕ)) : HeapTimer := ⟨t.due, some t.job.1, t.job.2⟩

def Adds (p : P) (t : Task ℤ (ℕ × ℕ)) (s s' : Memory P × TimeHeap P) : Prop :=
  s'.1 = Function.update s.1 p (some (.ofTask t)) ∧ s.2.addTimer s'.1 (some p) = .ok s'.2

def Deletes (p : P) (s s' : Memory P × TimeHeap P) : Prop := TimeHeap.delTimer s.1 (some p) = .ok s'.1 ∧ s'.2 = s.2

/-- `time_heap(cap)`, driven by its operations. It has none that postpones a timer. -/
def container (P : Type) [DecidableEq P] (cap : ℕ) : Container (Memory P × TimeHeap P) P ℤ (ℕ × ℕ) where
  start s _ := s.2 = .ofCapacity cap
  permits _ _ := True
  follows _ _ := True
  fresh s p := s.1 p = none
  add _ p t s s' := Adds p t s s'
  remove p s s' := Deletes p s s'
  renames s _ q := s.1 q = none
  postpone _ p q t s s' := ∃ s₁, Deletes p s s₁ ∧ Adds q t s₁ s'
  tick cur s jobs s' := s.2.tick s.1 cur = .ok (s'.1, s'.2, jobs)

def supply (e : P × Task ℤ (ℕ × ℕ)) : Entry P := ⟨e.1, .ofTask e.2⟩

def undeleted (held : List (Entry P)) (deleted : List P) : List (Entry P) := held.filter fun e => e.timer ∉ deleted

def HoldsTasks (s : Memory P × TimeHeap P) (_ : ℤ) (m : Multiset (P × Task ℤ (ℕ × ℕ))) : Prop :=
  ∃ held deleted items, Tracks s.1 s.2 held deleted items ∧ m.map supply = (undeleted held deleted : List _)

section Keeps
variable {mem : Memory P} {h : TimeHeap P} {held : List (Entry P)} {deleted items : List P} {p : P}
  {s : Memory P × TimeHeap P} {m : Multiset (P × Task ℤ (ℕ × ℕ))} {t : Task ℤ (ℕ × ℕ)} {now : ℤ} {cap : ℕ}

theorem Tracks.nodup (ht : Tracks mem h held deleted items) : (held.map Entry.timer).Nodup :=
  ht.perm.nodup_iff.mp ht.heap.nodup

theorem Tracks.not_mem (ht : Tracks mem h held deleted items) (hp : mem p = none) : p ∉ held.map Entry.timer := by
  intro hmem
  obtain ⟨e, he, rfl⟩ := List.mem_map.mp hmem
  rw [ht.current e he] at hp
  cases hp

/-- `del_timer` does not change the time of a timer. -/
theorem Tracks.key_eq (ht : Tracks mem h held deleted items) {e : Entry P} (he : e ∈ held) :
    key mem e.timer = e.supplied.expire := by
  rw [key, ht.current e he, Entry.current]
  split <;> rfl

/-- A new object does not touch the heap. -/
theorem Tracks.alloc (ht : Tracks mem h held deleted items) (hp : mem p = none) (d : HeapTimer) :
    Tracks (Function.update mem p (some d)) h held deleted items := by
  have hother : ∀ e ∈ held, Function.update mem p (some d) e.timer = mem e.timer := by
    intro e he
    exact Function.update_of_ne (ne_of_mem_of_not_mem (List.mem_map_of_mem he) (ht.not_mem hp)) _ _
  refine ⟨ht.heap.frame fun q hq => ?_, ht.perm, fun e he => (hother e he).trans (ht.current e he)⟩
  obtain ⟨e, he, rfl⟩ := List.mem_map.mp (ht.perm.mem_iff.mp hq)
  exact hother e he

theorem HoldsTasks.adds (hs : HoldsTasks s now m) (hp : s.1 p = none) :
    Leads (Adds p t s) fun s' => HoldsTasks s' now ((p, t) ::ₘ m) := by
  obtain ⟨held, deleted, items, ht, hm⟩ := hs
  have hnew := ht.not_mem hp
  obtain ⟨mem, hmem⟩ : ∃ mem, mem = Function.update s.1 p (some (.ofTask t)) := ⟨_, rfl⟩
  have ht' : Tracks mem s.2 held deleted items := hmem ▸ ht.alloc hp _
  have hself : mem p = some (.ofTask t) := by rw [hmem, Function.update_self]
  have hsupplied : ∀ x, some (supply (p, t)) = some x → mem x.timer = some x.supplied ∧
      x.timer ∉ held.map Entry.timer := by
    rintro x hx
    obtain rfl := Option.some.inj hx
    exact ⟨hself, hnew⟩
  constructor
  · have hfresh : ∀ x, some p = some x → mem x ≠ none ∧ x ∉ items := by
      rintro x hx
      obtain rfl := Option.some.inj hx
      exact ⟨by simp [hself], mt ht.perm.mem_iff.mp hnew⟩
    obtain ⟨h', -, he, -⟩ := ht'.heap.addTimer_perm hfresh
    exact ⟨(mem, h'), hmem, he⟩
  · rintro ⟨mem', h'⟩ ⟨hmem', he⟩
    obtain rfl : mem' = mem := hmem'.trans hmem.symm
    obtain ⟨w, hw⟩ := ht'.addTimer hsupplied he
    refine ⟨_, _, w, hw, ?_⟩
    have hiff : ∀ e ∈ held, (e.timer ∈ deleted.filter fun q => some q ≠ some p) ↔ e.timer ∈ deleted := by
      intro e he
      have hne : e.timer ≠ p := ne_of_mem_of_not_mem (List.mem_map_of_mem he) hnew
      simp [hne]
    rw [Multiset.map_cons, hm, Multiset.cons_coe]
    refine congrArg _ ?_
    rw [undeleted, undeleted, Option.toList_some, List.singleton_append, List.filter_cons_of_pos (by simp [supply])]
    refine congrArg _ (List.filter_congr fun e he => ?_)
    rw [decide_eq_decide]
    exact not_congr (hiff e he).symm

theorem HoldsTasks.deletes (hs : HoldsTasks s now ((p, t) ::ₘ m)) :
    Leads (Deletes p s) fun s' => HoldsTasks s' now m ∧ ∀ q, s.1 q = none → s'.1 q = none := by
  obtain ⟨held, deleted, items, ht, hm⟩ := hs
  have hmem : supply (p, t) ∈ undeleted held deleted := by
    rw [← Multiset.mem_coe, ← hm, Multiset.map_cons]
    exact Multiset.mem_cons_self ..
  obtain ⟨hheld, hnot⟩ := List.mem_filter.mp hmem
  have hcur : s.1 p ≠ none := by
    have := ht.current _ hheld
    rw [show (supply (p, t)).timer = p from rfl] at this
    simp [this]
  have hlive : ∀ x, some p = some x → s.1 x ≠ none := by
    rintro x hx
    obtain rfl := Option.some.inj hx
    exact hcur
  constructor
  · obtain ⟨mem', he, -⟩ := ht.heap.delTimer_perm hlive
    exact ⟨(mem', s.2), he, rfl⟩
  · rintro ⟨mem', h'⟩ ⟨he, rfl⟩
    refine ⟨⟨held, p :: deleted, items, ht.delTimer hlive he, ?_⟩, ?_⟩
    · -- no other entry has the address of the deleted one
      have hrest : undeleted held (p :: deleted) = (undeleted held deleted).filter fun e => e.timer ≠ p := by
        rw [undeleted, undeleted, List.filter_filter]
        exact List.filter_congr fun e _ => by simp
      have hnodup : (((supply (p, t) ::ₘ m.map supply).map Entry.timer)).Nodup := by
        rw [← Multiset.map_cons, hm, Multiset.map_coe, Multiset.coe_nodup]
        exact ht.nodup.sublist (List.filter_sublist.map _)
      rw [Multiset.map_cons, Multiset.nodup_cons] at hnodup
      rw [hrest, ← Multiset.filter_coe, ← hm, Multiset.map_cons, Multiset.filter_cons_of_neg _ (by simp [supply])]
      refine (Multiset.filter_eq_self.mpr fun e he => ?_).symm
      exact ne_of_mem_of_not_mem (Multiset.mem_map_of_mem _ he) hnodup.1
    · intro q hq
      obtain ⟨d, hd⟩ := Option.ne_none_iff_exists'.mp hcur
      have hqp : q ≠ p := by
        rintro rfl
        exact hcur hq
      simp only [TimeHeap.delTimer, hd] at he
      obtain rfl := Except.ok.inj he
      exact (Function.update_of_ne hqp _ _).trans hq

theorem Tracks.undeleted_filter (ht : Tracks mem h held deleted items) (f : ℤ → Bool) :
    undeleted (held.filter fun e => f (key mem e.timer)) deleted =
      (undeleted held deleted).filter fun e => f e.supplied.expire := by
  rw [undeleted, undeleted, List.filter_filter, List.filter_filter]
  refine List.filter_congr fun e he => ?_
  rw [ht.key_eq he, Bool.and_comm]

/-- The tasks before and behind a time. -/
theorem map_supply_filter (hm : m.map supply = (undeleted held deleted : List _)) (f : ℤ → Prop) [DecidablePred f] :
    (m.filter fun e => f e.2.due).map supply =
      ((undeleted held deleted).filter fun e => f e.supplied.expire : List _) := by
  rw [← Multiset.filter_coe, ← hm, Multiset.filter_map]
  rfl

def Entry.task (e : Entry P) : Task ℤ (ℕ × ℕ) := ⟨e.supplied.expire, (e.supplied.cbFunc.getD 0, e.supplied.userData)⟩

omit [DecidableEq P] in
@[simp] theorem task_supply (e : P × Task ℤ (ℕ × ℕ)) : (supply e).task = e.2 := rfl

/-- The calls of the timers that have not been deleted. -/
theorem filterMap_call {order : List (Entry P)}
    (h : ∀ e ∈ order, e.timer ∉ deleted → e.supplied.call = some e.task.job) :
    order.filterMap (Entry.call deleted) = ((undeleted order deleted).map Entry.task).map Task.job := by
  induction order with
  | nil => rfl
  | cons e order ih =>
    have hrest := ih fun e' he' => h e' (List.mem_cons_of_mem _ he')
    by_cases hdel : e.timer ∈ deleted
    · have hcall : e.call deleted = none := if_pos hdel
      rw [undeleted, List.filter_cons_of_neg (by simpa using hdel), ← undeleted, List.filterMap_cons_none hcall, hrest]
    · have hcall : e.call deleted = some e.task.job := (if_neg hdel).trans (h e (by simp) hdel)
      rw [undeleted, List.filter_cons_of_pos (by simpa using hdel), ← undeleted, List.filterMap_cons_some hcall, hrest,
        List.map_cons, List.map_cons]

theorem HoldsTasks.tick (hs : HoldsTasks s now m) (cur : ℤ) : (∃ jobs s', (container P cap).tick cur s jobs s') ∧
    ∀ jobs s', (container P cap).tick cur s jobs s' → Called jobs ((m.filter fun e => e.2.due ≤ cur).map Prod.snd) ∧
      HoldsTasks s' cur (m.filter fun e => cur < e.2.due) := by
  obtain ⟨held, deleted, items, ht, hm⟩ := hs
  obtain ⟨h', timers, w, he, hdue, hsorted, hw⟩ := ht.tick cur
  obtain ⟨order, rfl, hperm⟩ :=
    (congrFun₂ (List.eq_map_comp_perm Entry.timer) timers _).mpr (hdue.trans (perm_filter ht.perm _))
  have hsub : order ⊆ held := fun e hmem => List.mem_of_mem_filter (hperm.mem_iff.mp hmem)
  rw [ht.calls_eq hsub] at he
  refine ⟨⟨_, (_, h'), he⟩, ?_⟩
  rintro jobs ⟨mem', h''⟩ he'
  obtain ⟨rfl, hrest⟩ := Prod.mk.inj (Except.ok.inj (he.symm.trans he'))
  obtain ⟨rfl, rfl⟩ := Prod.mk.inj hrest
  have hsupplied : ∀ e ∈ held, e.timer ∉ deleted → e.supplied.call = some e.task.job := by
    intro e hmem hnot
    have hin : e ∈ m.map supply := by
      rw [hm, Multiset.mem_coe]
      exact List.mem_filter.mpr ⟨hmem, by simpa using hnot⟩
    obtain ⟨x, -, rfl⟩ := Multiset.mem_map.mp hin
    rfl
  have hdone : (undeleted order deleted).Perm ((undeleted held deleted).filter fun e => e.supplied.expire ≤ cur) := by
    rw [← ht.undeleted_filter fun k => k ≤ cur]
    exact hperm.filter _
  refine ⟨⟨(undeleted order deleted).map Entry.task, ?_, ?_, ?_⟩, _, deleted, w, hw, ?_⟩
  · exact filterMap_call fun e hmem => hsupplied e (hsub hmem)
  · rw [List.pairwise_map] at hsorted ⊢
    refine (hsorted.imp_of_mem ?_).filter _
    intro e f he hf hle
    rwa [ht.key_eq (hsub he), ht.key_eq (hsub hf)] at hle
  · rw [← Multiset.map_coe, Multiset.coe_eq_coe.mpr hdone, ← map_supply_filter hm (· ≤ cur), Multiset.map_map]
    rfl
  · rw [map_supply_filter hm (cur < ·), ht.undeleted_filter fun k => cur < k]

/-- A heap without capacity fails at the first timer. -/
theorem container_keeps (hcap : 1 ≤ cap) : Keeps (container P cap) HoldsTasks where
  start := by
    rintro ⟨mem, h⟩ now rfl
    exact ⟨[], [], [], ⟨isHeap_ofCapacity mem hcap, .refl _, by simp⟩, rfl⟩
  add := fun h hfresh _ => h.adds hfresh
  remove := by
    intro s now m p t h
    exact ⟨h.deletes.1, fun s' he => (h.deletes.2 s' he).1⟩
  postpone := by
    intro s now m p q t due h hfresh _ _
    obtain ⟨⟨s₁, hdel⟩, hall⟩ := h.deletes
    constructor
    · obtain ⟨hs₁, hfree⟩ := hall s₁ hdel
      obtain ⟨s', hadd⟩ := (hs₁.adds (hfree q hfresh)).1
      exact ⟨s', s₁, hdel, hadd⟩
    · rintro s' ⟨s₁, hdel, hadd⟩
      obtain ⟨hs₁, hfree⟩ := hall s₁ hdel
      exact (hs₁.adds (hfree q hfresh)).2 s' hadd
  tick := fun h _ => h.tick _

end Keeps

end LinuxSocket.MinHeapTimer
