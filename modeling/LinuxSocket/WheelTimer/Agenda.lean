import LinuxSocket.Lib.Agenda
import LinuxSocket.WheelTimer.Countdown

/-! # The timer wheel as a container of timed jobs

The wheel measures time in ticks, so the next tick is at the next time. A new timer waits for one tick at least, and
the tick of its own time only brings the wheel to its slot, so that it is called one tick late. A postponed task is
deleted and added as a new timer.
-/
namespace LinuxSocket.WheelTimer
open DoublyLinked Agenda

variable {P : Type} [DecidableEq P]

/-- `add_timer` and the assignments to the members of the timer that it returns. Its constructor leaves any values in
them. -/
def Adds (now : ℤ) (p : P) (t : Task ℤ (ℕ × ℕ)) (s s' : TimeWheel P) : Prop :=
  ∃ cbFunc userData e s₁ e', Returns (fun fuel => s.exec fuel (.add p cbFunc userData (t.due - now))) (e, s₁) ∧
    Returns (fun fuel => s₁.exec fuel (.bind p t.job.1 t.job.2)) (e', s')

def Deletes (p : P) (s s' : TimeWheel P) : Prop := ∃ e, Returns (fun fuel => s.exec fuel (.del p)) (e, s')

def container (P : Type) [DecidableEq P] : Container (TimeWheel P) P ℤ (ℕ × ℕ) where
  start s _ := s = TimeWheel.init
  permits now due := now ≤ due
  follows now cur := cur = now + 1
  fresh s p := s.heap p = none
  add now p t s s' := Adds now p t s s'
  remove p s s' := Deletes p s s'
  renames s _ q := s.heap q = none
  postpone now p q t s s' := ∃ s₁, Deletes p s s₁ ∧ Adds now q t s₁ s'
  tick _ s jobs s' := ∃ fired, Returns (fun fuel => s.tick fuel) (fired, s') ∧
    jobs = fired.map fun e => (e.2.cbFunc, e.2.userData)

/-- The task of a timer, seen from the slot `cur` behind the tick at the time `now`. -/
def TwTimer.task (now cur : ℤ) (d : TwTimer) : Task ℤ (ℕ × ℕ) :=
  ⟨now + 1 + remaining cur d, (d.cbFunc, d.userData)⟩

structure HoldsTasks (s : TimeWheel P) (now : ℤ) (m : Multiset (P × Task ℤ (ℕ × ℕ))) : Prop where
  rep : ∃ xs, Rep s xs
  nodup : (m.map Prod.fst).Nodup
  mem_iff : ∀ p t, (p, t) ∈ m ↔ ∃ d, s.heap.dataAt p = some d ∧ t = d.task now s.curSlot

section Keeps
variable {s s' : TimeWheel P} {xs : ℤ → List P} {m : Multiset (P × Task ℤ (ℕ × ℕ))} {p : P} {d : TwTimer}
  {t : Task ℤ (ℕ × ℕ)} {now : ℤ}

omit [DecidableEq P] in
theorem dataAt_eq_none {heap : Heap P TwTimer} : heap.dataAt p = none ↔ heap p = none := Option.map_eq_none_iff

omit [DecidableEq P] in
theorem remaining_nonneg (h : Rep s xs) (hd : s.heap.dataAt p = some d) : 0 ≤ remaining s.curSlot d := by
  obtain ⟨i, hi⟩ := h.listed p d hd
  obtain ⟨d', hd', -, hrot⟩ := h.data i p hi
  obtain rfl := Option.some.inj (hd.symm.trans hd')
  simp only [remaining, TimeWheel.N]
  omega

theorem Rep.adds (h : Rep s xs) (hp : s.heap p = none) (hdue : now ≤ t.due) : Leads (Adds now p t s) fun s' =>
    (∃ xs', Rep s' xs') ∧ s'.curSlot = s.curSlot ∧ (∃ d, s'.heap.dataAt p = some d ∧ t.late now = d.task now s.curSlot) ∧
      ∀ q, q ≠ p → s'.heap.dataAt q = s.heap.dataAt q := by
  have hpos : 0 ≤ t.due - now := by omega
  have hrun : ∀ c u, ∃ e s₁ e' s', Returns (fun fuel => s.exec fuel (.add p c u (t.due - now))) (e, s₁) ∧
      Returns (fun fuel => s₁.exec fuel (.bind p t.job.1 t.job.2)) (e', s') ∧ (∃ xs', Rep s' xs') ∧
      s'.curSlot = s.curSlot ∧ (∃ d, s'.heap.dataAt p = some d ∧ t.late now = d.task now s.curSlot) ∧
      ∀ q, q ≠ p → s'.heap.dataAt q = s.heap.dataAt q := by
    intro c u
    obtain ⟨s₁, hadd, ⟨xs₁, hrep₁⟩, hcur₁, hdata₁⟩ := h.addTimer hp hpos c u
    have hself : s₁.heap.dataAt p = some (newTimer s.curSlot (t.due - now) c u) := by
      rw [hdata₁, Function.update_self]
    obtain ⟨i, hi⟩ := hrep₁.listed p _ hself
    obtain ⟨d', hd', -, hrot⟩ := hrep₁.data i p hi
    obtain rfl := Option.some.inj (hself.symm.trans hd')
    obtain ⟨heap, hset, hrep', hdata', -⟩ :=
      hrep₁.setData hself (f := fun d => { d with cbFunc := t.job.1, userData := t.job.2 }) rfl hrot
    have hexec : Returns (fun fuel => s.exec fuel (.add p c u (t.due - now)))
        (.added p (max 1 ((t.due - now) / TimeWheel.SI)), s₁) := by
      refine Returns.of_eq fun fuel => ?_
      rw [TimeWheel.exec, hadd]
      rfl
    have hbind : Returns (fun fuel => s₁.exec fuel (.bind p t.job.1 t.job.2)) (.bound p, { s₁ with heap := heap }) := by
      refine Returns.of_eq fun fuel => ?_
      rw [TimeWheel.exec, hset]
      rfl
    have hdata₂ := congrFun hdata' p
    rw [Function.update_self] at hdata₂
    refine ⟨_, s₁, _, _, hexec, hbind, ⟨_, hrep'⟩, hcur₁, ⟨_, hdata₂, ?_⟩, ?_⟩
    · have hrem : remaining s.curSlot (newTimer s.curSlot (t.due - now) c u) = _ := remaining_newTimer hpos c u
      rw [TimeWheel.SI] at hrem
      have hdue' : now + 1 + remaining s.curSlot (newTimer s.curSlot (t.due - now) c u) =
          max (now + 1) t.due + 1 := by
        omega
      rw [TwTimer.task]
      exact congrArg (fun due => Task.mk due t.job) hdue'.symm
    · intro q hq
      rw [hdata', Function.update_of_ne hq, hdata₁, Function.update_of_ne hq]
  constructor
  · obtain ⟨e, s₁, e', s', hadd, hbind, -⟩ := hrun 0 0
    exact ⟨s', 0, 0, e, s₁, e', hadd, hbind⟩
  · rintro s' ⟨c, u, e, s₁, e', hadd, hbind⟩
    obtain ⟨e₀, s₀, e₀', s₀', hadd₀, hbind₀, hall⟩ := hrun c u
    obtain ⟨-, rfl⟩ := Prod.ext_iff.mp (hadd₀.unique hadd)
    obtain ⟨-, rfl⟩ := Prod.ext_iff.mp (hbind₀.unique hbind)
    exact hall

theorem HoldsTasks.adds (h : HoldsTasks s now m) (hp : s.heap p = none) (hdue : now ≤ t.due) :
    Leads (Adds now p t s) fun s' => HoldsTasks s' now ((p, t.late now) ::ₘ m) := by
  obtain ⟨xs, hrep⟩ := h.rep
  obtain ⟨hex, hall⟩ := hrep.adds hp hdue
  refine ⟨hex, fun s' he => ?_⟩
  obtain ⟨hrep', hcur, ⟨d, hd, ht⟩, hother⟩ := hall s' he
  have hnew : ∀ t', (p, t') ∉ m := by
    intro t' hmem
    obtain ⟨d', hd', -⟩ := (h.mem_iff p t').mp hmem
    rw [dataAt_eq_none.mpr hp] at hd'
    cases hd'
  refine ⟨hrep', ?_, ?_⟩
  · rw [Multiset.map_cons, Multiset.nodup_cons]
    refine ⟨fun hmem => ?_, h.nodup⟩
    obtain ⟨⟨q, t'⟩, hin, rfl⟩ := Multiset.mem_map.mp hmem
    exact hnew t' hin
  · intro q t'
    rw [Multiset.mem_cons, hcur]
    by_cases hq : q = p
    · subst hq
      rw [hd, or_iff_left (hnew t'), Prod.mk.injEq, ht]
      simp
    · rw [hother q hq, ← h.mem_iff]
      simp [hq]

theorem HoldsTasks.deletes (h : HoldsTasks s now ((p, t) ::ₘ m)) :
    Leads (Deletes p s) fun s' => HoldsTasks s' now m ∧ ∀ q, s.heap q = none → s'.heap q = none := by
  obtain ⟨xs, hrep⟩ := h.rep
  obtain ⟨d, hd, ht⟩ := (h.mem_iff p t).mp (Multiset.mem_cons_self ..)
  obtain ⟨s', hrun, hrep', hcur, hgone, hother⟩ := hrep.delTimer hd
  have hdel : Returns (fun fuel => s.exec fuel (.del p)) (.deleted p, s') := by
    refine Returns.of_eq fun fuel => ?_
    rw [TimeWheel.exec, hrun]
    rfl
  refine ⟨⟨s', _, hdel⟩, ?_⟩
  rintro s'' ⟨e, hdel'⟩
  obtain ⟨-, rfl⟩ := Prod.ext_iff.mp (hdel.unique hdel')
  have hnodup := h.nodup
  rw [Multiset.map_cons, Multiset.nodup_cons] at hnodup
  refine ⟨⟨hrep', hnodup.2, ?_⟩, ?_⟩
  · intro q t'
    rw [hcur]
    by_cases hq : q = p
    · subst hq
      rw [dataAt_eq_none.mpr hgone]
      have hnot : (q, t') ∉ m := by
        intro hmem
        exact hnodup.1 (Multiset.mem_map.mpr ⟨(q, t'), hmem, rfl⟩)
      simp [hnot]
    · rw [hother q hq, ← h.mem_iff]
      simp [hq]
  · intro q hq
    by_cases hqp : q = p
    · rwa [hqp]
    · rw [← dataAt_eq_none, hother q hqp, dataAt_eq_none.mpr hq]

/-- The timers that a tick fires, with the data that they had before it. -/
theorem Rep.tick_fires (h : Rep s xs) {fired : List (P × TwTimer)}
    (hrun : Returns (fun fuel => s.tick fuel) (fired, s')) : fired = fires s (xs s.curSlot) := by
  have hslot : s.slot s.curSlot = some (xs s.curSlot).head? := by
    rw [TimeWheel.slot, if_pos h.cur, h.head]
  have hall : xs s.curSlot = [] ++ xs s.curSlot := rfl
  obtain ⟨s₁, hloop, -⟩ := h.tickLoop hall
  have htick : Returns (fun fuel => s.tick fuel)
      (fires s (xs s.curSlot), { s₁ with curSlot := (s₁.curSlot + 1) % TimeWheel.N }) := by
    refine hloop.imp fun fuel hfuel => ?_
    simp only [TimeWheel.tick, hslot, hfuel, Option.bind_eq_bind, Option.bind_some]
  exact (Prod.ext_iff.mp (hrun.unique htick)).1

omit [DecidableEq P] in
theorem data_of_mem_fires {r : List P} (h : (p, d) ∈ fires s r) : s.heap.dataAt p = some d := by
  obtain ⟨q, -, hq⟩ := List.mem_filterMap.mp h
  obtain ⟨d', hd', hif⟩ := Option.bind_eq_some_iff.mp hq
  split at hif
  · cases hif
  · obtain ⟨rfl, rfl⟩ := Prod.ext_iff.mp (Option.some.inj hif)
    exact hd'

omit [DecidableEq P] in
/-- A timer that a tick leaves is due at the same time as before. -/
theorem task_tick (now : ℤ) (h : Rep s xs) (hd : s.heap.dataAt p = some d) (hne : remaining s.curSlot d ≠ 0) :
    ∃ d', (if d.timeSlot = s.curSlot then visit d else some d) = some d' ∧
      d'.task (now + 1) ((s.curSlot + 1) % TimeWheel.N) = d.task now s.curSlot := by
  obtain ⟨i, hi⟩ := h.listed p d hd
  obtain ⟨d₁, hd₁, rfl, hrot⟩ := h.data i p hi
  obtain rfl := Option.some.inj (hd.symm.trans hd₁)
  obtain ⟨d', hd', hrem⟩ := Option.map_eq_some_iff.mp (remaining_tick h.cur (h.range _ p hi) hrot hne)
  refine ⟨d', hd', ?_⟩
  have hjob : (d'.cbFunc, d'.userData) = (d.cbFunc, d.userData) := by
    split at hd'
    · rw [visit] at hd'
      split at hd'
      · obtain rfl := Option.some.inj hd'
        rfl
      · cases hd'
    · obtain rfl := Option.some.inj hd'
      rfl
  rw [TwTimer.task, TwTimer.task, hjob, hrem]
  congr 1
  omega

/-- A tick fires the timers for which no tick remains before their own. -/
theorem Rep.mem_fired (h : Rep s xs) {fired : List (P × TwTimer)}
    (hrun : Returns (fun fuel => s.tick fuel) (fired, s')) :
    (p, d) ∈ fired ↔ s.heap.dataAt p = some d ∧ remaining s.curSlot d = 0 := by
  obtain rfl := h.tick_fires hrun
  have hzero : ∀ {d}, s.heap.dataAt p = some d →
      (p ∈ (fires s (xs s.curSlot)).map Prod.fst ↔ remaining s.curSlot d = 0) := by
    intro d hd
    obtain ⟨i, hi⟩ := h.listed p d hd
    obtain ⟨d', hd', rfl, hrot⟩ := h.data i p hi
    obtain rfl := Option.some.inj (hd.symm.trans hd')
    rw [mem_fires, remaining_eq_zero h.cur (h.range _ p hi), h.mem_iff hd, hd]
    refine and_congr_right fun _ => ?_
    constructor
    · rintro ⟨d', heq, hle⟩
      obtain rfl := Option.some.inj heq
      omega
    · intro hrot
      exact ⟨d, rfl, by omega⟩
  constructor
  · intro hmem
    have hd := data_of_mem_fires hmem
    exact ⟨hd, (hzero hd).mp (List.mem_map.mpr ⟨_, hmem, rfl⟩)⟩
  · rintro ⟨hd, hrem⟩
    obtain ⟨⟨q, d'⟩, hmem, rfl⟩ := List.mem_map.mp ((hzero hd).mpr hrem)
    rwa [Option.some.inj (hd.symm.trans (data_of_mem_fires hmem))]

/-- The tasks that are due at the next tick are the timers that it fires. -/
theorem HoldsTasks.due_eq (h : HoldsTasks s now m) {fired : List (P × TwTimer)} (hn : (fired.map Prod.fst).Nodup)
    (hrun : Returns (fun fuel => s.tick fuel) (fired, s')) : m.filter (fun e => e.2.due ≤ now + 1) =
      (fired.map fun e => (e.1, e.2.task now s.curSlot) : List (P × Task ℤ (ℕ × ℕ))) := by
  obtain ⟨xs, hrep⟩ := h.rep
  refine (Multiset.Nodup.ext (h.nodup.of_map.filter _) ?_).mpr ?_
  · rw [Multiset.coe_nodup]
    refine List.Nodup.of_map Prod.fst ?_
    rwa [List.map_map]
  · rintro ⟨p, t⟩
    rw [Multiset.mem_filter, h.mem_iff, Multiset.mem_coe, List.mem_map]
    constructor
    · rintro ⟨⟨d, hd, rfl⟩, hle⟩
      have hnonneg := remaining_nonneg hrep hd
      have hzero : remaining s.curSlot d = 0 := by
        simp only [TwTimer.task] at hle
        omega
      exact ⟨(p, d), (hrep.mem_fired hrun).mpr ⟨hd, hzero⟩, rfl⟩
    · rintro ⟨⟨q, d⟩, hmem, heq⟩
      obtain ⟨rfl, rfl⟩ := Prod.mk.inj heq
      obtain ⟨hd, hzero⟩ := (hrep.mem_fired hrun).mp hmem
      refine ⟨⟨d, hd, rfl⟩, ?_⟩
      simp [TwTimer.task, hzero]

omit [DecidableEq P] in
/-- The timers behind a tick are the ones before it that are due later, at the same times. -/
theorem Rep.task_iff (h : Rep s xs) (hcur : s'.curSlot = (s.curSlot + 1) % TimeWheel.N)
    (hdata : s'.heap.dataAt p = (s.heap.dataAt p).bind fun d => if d.timeSlot = s.curSlot then visit d else some d) :
    (∃ d, s'.heap.dataAt p = some d ∧ t = d.task (now + 1) s'.curSlot) ↔
      (∃ d, s.heap.dataAt p = some d ∧ t = d.task now s.curSlot) ∧ now + 1 < t.due := by
  rw [hdata, hcur]
  cases hd : s.heap.dataAt p with
  | none => simp
  | some d =>
    rw [Option.bind_some]
    by_cases hzero : remaining s.curSlot d = 0
    · obtain ⟨i, hi⟩ := h.listed p d hd
      obtain ⟨d', hd', rfl, -⟩ := h.data i p hi
      obtain rfl := Option.some.inj (hd.symm.trans hd')
      obtain ⟨htime, hrot⟩ := (remaining_eq_zero h.cur (h.range _ p hi)).mp hzero
      rw [if_pos htime, visit, if_neg (by omega)]
      constructor
      · rintro ⟨d', heq, -⟩
        cases heq
      · rintro ⟨⟨d', heq, rfl⟩, hlt⟩
        obtain rfl := Option.some.inj heq
        simp [TwTimer.task, hzero] at hlt
    · have hnonneg := remaining_nonneg h hd
      obtain ⟨d', hd', htask⟩ := task_tick now h hd hzero
      rw [hd']
      constructor
      · rintro ⟨d₁, heq, rfl⟩
        obtain rfl := Option.some.inj heq
        refine ⟨⟨d, rfl, htask⟩, ?_⟩
        rw [htask]
        simp only [TwTimer.task]
        omega
      · rintro ⟨⟨d₁, heq, rfl⟩, -⟩
        obtain rfl := Option.some.inj heq
        exact ⟨d', rfl, htask.symm⟩

theorem HoldsTasks.tick (h : HoldsTasks s now m) : (∃ jobs s', (container P).tick (now + 1) s jobs s') ∧
    ∀ jobs s', (container P).tick (now + 1) s jobs s' →
      Called jobs ((m.filter fun e => e.2.due ≤ now + 1).map Prod.snd) ∧
      HoldsTasks s' (now + 1) (m.filter fun e => now + 1 < e.2.due) := by
  obtain ⟨xs, hrep⟩ := h.rep
  obtain ⟨fired, s', hrun, hrep', hcur, hnodup, -, hdata⟩ := hrep.tick
  refine ⟨⟨_, s', fired, hrun, rfl⟩, ?_⟩
  rintro jobs s'' ⟨fired', hrun', rfl⟩
  obtain ⟨rfl, rfl⟩ := Prod.ext_iff.mp (hrun.unique hrun')
  refine ⟨⟨fired.map fun e => e.2.task now s.curSlot, ?_, ?_, ?_⟩, hrep', ?_, fun p t => ?_⟩
  · rw [List.map_map]
    rfl
  · rw [List.pairwise_map]
    refine List.pairwise_of_forall_mem_list fun a ha b hb => ?_
    simp only [TwTimer.task, ((hrep.mem_fired hrun).mp ha).2, ((hrep.mem_fired hrun).mp hb).2, le_refl]
  · rw [h.due_eq hnodup hrun, Multiset.map_coe, List.map_map]
    rfl
  · exact Multiset.nodup_of_le (Multiset.map_le_map (Multiset.filter_le _ m)) h.nodup
  · rw [Multiset.mem_filter, h.mem_iff]
    exact (hrep.task_iff hcur (hdata p)).symm

theorem container_keepsLate : KeepsLate (container P) HoldsTasks where
  follows h := h
  start := by
    rintro s now rfl
    obtain ⟨hrep, -⟩ := (counted_init : Counted (TimeWheel.init : TimeWheel P) fun _ => none)
    refine ⟨hrep, Multiset.nodup_zero, fun p t => ?_⟩
    constructor
    · intro hmem
      exact absurd hmem (Multiset.notMem_zero _)
    · rintro ⟨d, hd, -⟩
      cases hd
  add := fun h hfresh hdue => h.adds hfresh hdue
  remove := by
    intro s now m p t h
    exact ⟨h.deletes.1, fun s' he => (h.deletes.2 s' he).1⟩
  postpone := by
    intro s now m p q t due h hfresh hdue
    obtain ⟨⟨s₁, hdel⟩, hall⟩ := h.deletes
    constructor
    · obtain ⟨hs₁, hfree⟩ := hall s₁ hdel
      obtain ⟨s', hadd⟩ := (hs₁.adds (t := ⟨due, t.job⟩) (hfree q hfresh) hdue).1
      exact ⟨s', s₁, hdel, hadd⟩
    · rintro s' ⟨s₁, hdel, hadd⟩
      obtain ⟨hs₁, hfree⟩ := hall s₁ hdel
      exact (hs₁.adds (t := ⟨due, t.job⟩) (hfree q hfresh) hdue).2 s' hadd
  tick := by
    rintro s now m cur h rfl
    exact h.tick

end Keeps

end LinuxSocket.WheelTimer
