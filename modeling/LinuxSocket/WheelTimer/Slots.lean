import LinuxSocket.Lib.Fuel
import LinuxSocket.WheelTimer.TimeWheel

/-! # The lists of the slots

`Rep` is a wheel whose slot `i` holds the timers `xs i`. Each lemma says what a function does to the
lists and to the timers that exist.
-/
namespace LinuxSocket.WheelTimer
open DoublyLinked
variable {P : Type}

structure Rep (s : TimeWheel P) (xs : ℤ → List P) : Prop where
  cur : 0 ≤ s.curSlot ∧ s.curSlot < TimeWheel.N
  head : ∀ i, s.slots i = (xs i).head?
  chain : ∀ i, Chain s.heap none (xs i) none
  nodup : ∀ i, (xs i).Nodup
  range : ∀ i, ∀ p ∈ xs i, 0 ≤ i ∧ i < TimeWheel.N
  data : ∀ i, ∀ p ∈ xs i, ∃ d, s.heap.dataAt p = some d ∧ d.timeSlot = i ∧ 0 ≤ d.rotation
  listed : ∀ p d, s.heap.dataAt p = some d → ∃ i, p ∈ xs i

variable {s : TimeWheel P} {xs : ℤ → List P} {x p : P} {d : TwTimer} {i j : ℤ} {l r : List P}

/-- A timer is in the slot that it names. -/
theorem Rep.mem_iff (h : Rep s xs) (hd : s.heap.dataAt p = some d) : p ∈ xs i ↔ d.timeSlot = i := by
  have hslot : ∀ j, p ∈ xs j → d.timeSlot = j := by
    intro j hp
    obtain ⟨d', hd', hj, -⟩ := h.data j p hp
    rwa [Option.some.inj (hd.symm.trans hd')]
  constructor
  · exact hslot i
  · rintro rfl
    obtain ⟨j, hp⟩ := h.listed p d hd
    rwa [hslot j hp]

theorem Rep.slot_eq (h : Rep s xs) (hp : p ∈ xs i) : p ∈ xs j ↔ i = j := by
  obtain ⟨d, hd, rfl, -⟩ := h.data i p hp
  exact h.mem_iff hd

theorem dataAt_of_node {heap : Heap P TwTimer} {n : Node P TwTimer} (hn : heap p = some n) :
    heap.dataAt p = some n.data := congrArg (Option.map Node.data) hn

theorem exists_node_of_dataAt {heap : Heap P TwTimer} (hd : heap.dataAt p = some d) :
    ∃ n, heap p = some n ∧ n.data = d := Option.map_eq_some_iff.mp hd

section Removal

theorem mem_update (hi : xs i = l ++ x :: r) (hn : (xs i).Nodup) (hx : ∀ j, x ∈ xs j → i = j) :
    p ∈ Function.update xs i (l ++ r) j ↔ p ∈ xs j ∧ p ≠ x := by
  have hxlr : x ∉ l ++ r := by
    rw [hi] at hn
    exact (List.nodup_cons.mp (List.nodup_middle.mp hn)).1
  by_cases hj : j = i
  · subst hj
    rw [Function.update_self, hi]
    constructor
    · intro hp
      refine ⟨?_, ne_of_mem_of_not_mem hp hxlr⟩
      exact (List.Sublist.append_left (List.sublist_cons_self x r) l).subset hp
    · rintro ⟨hp, hne⟩
      simpa [hne] using hp
  · rw [Function.update_of_ne hj]
    constructor
    · intro hp
      refine ⟨hp, ?_⟩
      rintro rfl
      exact hj (hx j hp).symm
    · exact And.left

/-- A timer is deleted from its slot. -/
theorem Rep.removed {s' : TimeWheel P} (h : Rep s xs) (hi : xs i = l ++ x :: r)
    (hr : Removed s.heap s'.heap x (l ++ r)) (hcur : s'.curSlot = s.curSlot)
    (hslots : s'.slots = Function.update s.slots i (l ++ r).head?) : Rep s' (Function.update xs i (l ++ r)) := by
  have hxi : x ∈ xs i := by simp [hi]
  have hmem : ∀ {p j}, p ∈ Function.update xs i (l ++ r) j ↔ p ∈ xs j ∧ p ≠ x :=
    mem_update hi (h.nodup i) fun j hxj => (h.slot_eq hxi).mp hxj
  refine ⟨hcur ▸ h.cur, ?_, ?_, ?_, ?_, ?_, ?_⟩
  · intro j
    rw [hslots]
    by_cases hj : j = i
    · subst hj
      rw [Function.update_self, Function.update_self]
    · rw [Function.update_of_ne hj, Function.update_of_ne hj]
      exact h.head j
  · intro j
    by_cases hj : j = i
    · subst hj
      rw [Function.update_self]
      exact hr.chain
    · rw [Function.update_of_ne hj]
      refine (h.chain j).frame fun q hq => hr.other q ?_ ?_
      · rintro rfl
        exact hj ((h.slot_eq hxi).mp hq).symm
      · intro hlr
        have hqi : q ∈ xs i := by
          rw [hi]
          exact (List.Sublist.append_left (List.sublist_cons_self x r) l).subset hlr
        exact hj ((h.slot_eq hqi).mp hq).symm
  · intro j
    by_cases hj : j = i
    · subst hj
      have hn := h.nodup j
      rw [hi, List.nodup_middle] at hn
      rw [Function.update_self]
      exact (List.nodup_cons.mp hn).2
    · rw [Function.update_of_ne hj]
      exact h.nodup j
  · exact fun j q hq => h.range j q (hmem.mp hq).1
  · intro j q hq
    obtain ⟨hqj, hne⟩ := hmem.mp hq
    rw [hr.data q hne]
    exact h.data j q hqj
  · intro q d hd
    have hne : q ≠ x := by
      rintro rfl
      rw [Heap.dataAt, hr.gone] at hd
      cases hd
    rw [hr.data q hne] at hd
    obtain ⟨j, hj⟩ := h.listed q d hd
    exact ⟨j, hmem.mpr ⟨hj, hne⟩⟩

theorem Rep.slot (h : Rep s xs) (hp : p ∈ xs i) : s.slot i = some (xs i).head? := by
  rw [TimeWheel.slot, if_pos (h.range i p hp), h.head]

/-- A timer is the first of its list exactly when no timer stands before it. -/
theorem Rep.head_iff (h : Rep s xs) (hi : xs i = l ++ x :: r) : (xs i).head? = some x ↔ l = [] := by
  have hn := h.nodup i
  rw [hi] at hn ⊢
  cases l with
  | nil => simp
  | cons y l =>
    have hne : y ≠ x := by
      rintro rfl
      simp at hn
    simpa using hne

variable [DecidableEq P]

theorem Rep.delTimer (h : Rep s xs) (hx : s.heap.dataAt x = some d) : ∃ s', s.delTimer (some x) = some s' ∧
    (∃ xs', Rep s' xs') ∧ s'.curSlot = s.curSlot ∧ s'.heap x = none ∧
      ∀ q, q ≠ x → s'.heap.dataAt q = s.heap.dataAt q := by
  have hmem : x ∈ xs d.timeSlot := (h.mem_iff hx).mpr rfl
  obtain ⟨l, r, hi⟩ := List.append_of_mem hmem
  have hslot := h.slot hmem
  have hhead := h.head_iff hi
  have hc := h.chain d.timeSlot
  have hn := h.nodup d.timeSlot
  rw [hi] at hc hn
  have hnext := hc.node_next
  have hprev := hc.node_prev
  rw [Option.or_none] at hnext hprev
  rcases List.eq_nil_or_concat' l with rfl | ⟨l, p, rfl⟩
  · obtain ⟨h₁, h₂, hset, hfree, hrem⟩ := Chain.remove_first hc hn
    refine ⟨⟨h₂, Function.update s.slots d.timeSlot r.head?, s.curSlot⟩, ?_, ⟨_, h.removed hi hrem rfl rfl⟩, rfl,
      hrem.gone, hrem.data⟩
    simp [TimeWheel.delTimer, hx, hslot, hhead.mpr, hnext, hset, hfree, TimeWheel.setSlot]
  · rw [List.append_assoc, List.singleton_append] at hc hn
    obtain ⟨h₁, h₂, h₃, hset₁, hnext₁, hprev₁, hset₂, -, hfree, hrem⟩ := hc.remove_behind hn
    have hmid : (l ++ [p]) ++ r = l ++ p :: r := by simp
    rw [← hmid] at hrem
    have hslots : s.slots = Function.update s.slots d.timeSlot ((l ++ [p]) ++ r).head? := by
      refine (Function.update_eq_self_iff.mpr ?_).symm
      rw [h.head, hi]
      simp
    refine ⟨⟨h₃, s.slots, s.curSlot⟩, ?_, ⟨_, h.removed hi hrem rfl hslots⟩, rfl, hrem.gone, hrem.data⟩
    simp [TimeWheel.delTimer, hx, hslot, hhead, hnext, hprev, hset₁, hnext₁, hprev₁, hset₂, hfree]

end Removal

section Insertion
variable [DecidableEq P]

theorem dataAt_alloc (heap : Heap P TwTimer) (x : P) (d : TwTimer) :
    (heap.alloc x d).dataAt = Function.update heap.dataAt x (some d) := by
  funext q
  by_cases hq : q = x
  · subst hq
    rw [Function.update_self, Heap.dataAt, Heap.alloc, Function.update_self]
    rfl
  · rw [Function.update_of_ne hq, Heap.dataAt, Heap.alloc, Function.update_of_ne hq, Heap.dataAt]

/-- A new timer in front of the list of its slot. -/
theorem Rep.inserted {s' : TimeWheel P} (h : Rep s xs) (hx : s.heap.dataAt x = none)
    (hslot : 0 ≤ d.timeSlot ∧ d.timeSlot < TimeWheel.N) (hrot : 0 ≤ d.rotation)
    (hc : Chain s'.heap none (x :: xs d.timeSlot) none)
    (hother : ∀ q, q ≠ x → q ∉ xs d.timeSlot → s'.heap q = s.heap q)
    (hdata : s'.heap.dataAt = Function.update s.heap.dataAt x (some d)) (hcur : s'.curSlot = s.curSlot)
    (hslots : s'.slots = Function.update s.slots d.timeSlot (some x)) :
    Rep s' (Function.update xs d.timeSlot (x :: xs d.timeSlot)) := by
  have hnew : ∀ j, x ∉ xs j := by
    intro j hxj
    obtain ⟨d', hd', -⟩ := h.data j x hxj
    rw [hx] at hd'
    cases hd'
  have hmem : ∀ {q j}, q ∈ Function.update xs d.timeSlot (x :: xs d.timeSlot) j ↔
      q = x ∧ d.timeSlot = j ∨ q ∈ xs j := by
    intro q j
    by_cases hj : j = d.timeSlot
    · subst hj
      rw [Function.update_self, List.mem_cons]
      simp
    · rw [Function.update_of_ne hj]
      simp [Ne.symm hj]
  refine ⟨hcur ▸ h.cur, ?_, ?_, ?_, ?_, ?_, ?_⟩
  · intro j
    rw [hslots]
    by_cases hj : j = d.timeSlot
    · subst hj
      rw [Function.update_self, Function.update_self]
      rfl
    · rw [Function.update_of_ne hj, Function.update_of_ne hj]
      exact h.head j
  · intro j
    by_cases hj : j = d.timeSlot
    · subst hj
      rw [Function.update_self]
      exact hc
    · rw [Function.update_of_ne hj]
      refine (h.chain j).frame fun q hq => hother q (ne_of_mem_of_not_mem hq (hnew j)) ?_
      exact fun hqd => hj ((h.slot_eq hq).mp hqd)
  · intro j
    by_cases hj : j = d.timeSlot
    · subst hj
      rw [Function.update_self]
      exact List.nodup_cons.mpr ⟨hnew _, h.nodup _⟩
    · rw [Function.update_of_ne hj]
      exact h.nodup j
  · intro j q hq
    rcases hmem.mp hq with ⟨-, rfl⟩ | hq
    · exact hslot
    · exact h.range j q hq
  · intro j q hq
    rcases hmem.mp hq with ⟨rfl, rfl⟩ | hq
    · exact ⟨d, by rw [hdata, Function.update_self], rfl, hrot⟩
    · rw [hdata, Function.update_of_ne (ne_of_mem_of_not_mem hq (hnew j))]
      exact h.data j q hq
  · intro q d' hd'
    by_cases hq : q = x
    · exact ⟨d.timeSlot, hmem.mpr (.inl ⟨hq, rfl⟩)⟩
    · rw [hdata, Function.update_of_ne hq] at hd'
      obtain ⟨j, hj⟩ := h.listed q d' hd'
      exact ⟨j, hmem.mpr (.inr hj)⟩

def newTimer (curSlot timeout : ℤ) (cbFunc userData : ℕ) : TwTimer :=
  ⟨TimeWheel.ticksOf timeout / TimeWheel.N, (curSlot + TimeWheel.ticksOf timeout % TimeWheel.N) % TimeWheel.N, cbFunc,
    userData⟩

theorem ticksOf_pos {timeout : ℤ} : 0 < TimeWheel.ticksOf timeout := by
  rw [TimeWheel.ticksOf, TimeWheel.SI]
  split
  · exact Int.one_pos
  · omega

theorem Rep.addTimer (h : Rep s xs) (hx : s.heap x = none) {timeout : ℤ} (ht : 0 ≤ timeout) (cbFunc userData : ℕ) :
    ∃ s', s.addTimer x cbFunc userData timeout = some (some x, s') ∧ (∃ xs', Rep s' xs') ∧ s'.curSlot = s.curSlot ∧
      s'.heap.dataAt = Function.update s.heap.dataAt x (some (newTimer s.curSlot timeout cbFunc userData)) := by
  obtain ⟨d, hd⟩ : ∃ d, d = newTimer s.curSlot timeout cbFunc userData := ⟨_, rfl⟩
  have hpos : 0 < TimeWheel.ticksOf timeout := ticksOf_pos
  have hslot : 0 ≤ d.timeSlot ∧ d.timeSlot < TimeWheel.N := by
    rw [hd, newTimer, TimeWheel.N]
    constructor
    · exact Int.emod_nonneg _ (by decide)
    · exact Int.emod_lt_of_pos _ (by decide)
  have hrot : 0 ≤ d.rotation := by
    rw [hd]
    exact Int.ediv_nonneg (Int.le_of_lt hpos) (by decide)
  have hxd : s.heap.dataAt x = none := by rw [Heap.dataAt, hx]; rfl
  have hnew : x ∉ xs d.timeSlot := by
    intro hmem
    obtain ⟨d', hd', -⟩ := h.data _ x hmem
    rw [hxd] at hd'
    cases hd'
  have hat : s.slot d.timeSlot = some (xs d.timeSlot).head? := by
    rw [TimeWheel.slot, if_pos hslot, h.head]
  have hself : s.heap.alloc x d x = some ⟨d, none, none⟩ := Function.update_self _ _ _
  have hframe : ∀ q, q ≠ x → s.heap.alloc x d q = s.heap q := fun q hq => Function.update_of_ne hq _ _
  have hc₀ : Chain (s.heap.alloc x d) none (xs d.timeSlot) none :=
    (h.chain _).frame fun q hq => hframe q (ne_of_mem_of_not_mem hq hnew)
  have hts : (s.curSlot + TimeWheel.ticksOf timeout % TimeWheel.N) % TimeWheel.N = d.timeSlot := by rw [hd, newTimer]
  have hnewTimer : (⟨TimeWheel.ticksOf timeout / TimeWheel.N, d.timeSlot, cbFunc, userData⟩ : TwTimer) = d := by
    rw [← hts, hd, newTimer]
  rw [← hd]
  cases hxs : xs d.timeSlot with
  | nil =>
    refine ⟨⟨s.heap.alloc x d, Function.update s.slots d.timeSlot (some x), s.curSlot⟩, ?_,
      ⟨_, h.inserted hxd hslot hrot ?_ (fun q hq _ => hframe q hq) (dataAt_alloc _ _ _) rfl rfl⟩, rfl,
      dataAt_alloc _ _ _⟩
    · simp [TimeWheel.addTimer, Int.not_lt.mpr ht, hts, hnewTimer, hat, hxs, TimeWheel.setSlot]
    · rw [hxs]
      exact ⟨⟨d, hself⟩, trivial⟩
  | cons y ys =>
    rw [hxs] at hc₀ hnew
    have hn := h.nodup d.timeSlot
    rw [hxs] at hn
    obtain ⟨h₁, h₂, hset₁, hset₂, hc₂, hr₁, hr₂⟩ := hc₀.push hself (List.nodup_cons.mp hn).1 hnew
    have hdata : h₂.dataAt = Function.update s.heap.dataAt x (some d) := by
      rw [← dataAt_alloc]
      funext q
      exact (hr₁.trans hr₂).data q
    refine ⟨⟨h₂, Function.update s.slots d.timeSlot (some x), s.curSlot⟩, ?_,
      ⟨_, h.inserted hxd hslot hrot ?_ ?_ hdata rfl rfl⟩, rfl, hdata⟩
    · simp [TimeWheel.addTimer, Int.not_lt.mpr ht, hts, hnewTimer, hat, hxs, hset₁, hset₂, TimeWheel.setSlot]
    · rw [hxs]
      exact hc₂
    · intro q hq hqs
      rw [hxs] at hqs
      refine ((hr₁.trans hr₂).other q ?_).trans (hframe q hq)
      simp only [List.mem_append, List.mem_singleton, not_or]
      exact ⟨hq, fun heq => hqs (by simp [heq])⟩

end Insertion

section Tick
variable [DecidableEq P]

/-- Other data in a timer that stays in its slot. -/
theorem Rep.setData (h : Rep s xs) (hx : s.heap.dataAt x = some d) {f : TwTimer → TwTimer}
    (hslot : (f d).timeSlot = d.timeSlot) (hrot : 0 ≤ (f d).rotation) : ∃ heap, s.heap.setData x f = some heap ∧
      Rep { s with heap := heap } xs ∧ heap.dataAt = Function.update s.heap.dataAt x (some (f d)) ∧
        heap.next x = s.heap.next x := by
  obtain ⟨n, hn, rfl⟩ := exists_node_of_dataAt hx
  obtain ⟨heap, hset, hchain, hself, hother⟩ := setData_of_node hn f
  have hdata : heap.dataAt = Function.update s.heap.dataAt x (some (f n.data)) := by
    funext q
    by_cases hq : q = x
    · subst hq
      rw [Function.update_self, dataAt_of_node hself]
    · rw [Function.update_of_ne hq, Heap.dataAt, hother q hq, Heap.dataAt]
  refine ⟨heap, hset, ⟨h.cur, h.head, fun i => hchain _ _ _ (h.chain i), h.nodup, h.range, ?_, ?_⟩, hdata, ?_⟩
  · intro i p hp
    rw [hdata]
    by_cases hpx : p = x
    · subst hpx
      rw [Function.update_self]
      exact ⟨_, rfl, hslot.trans ((h.mem_iff hx).mp hp), hrot⟩
    · rw [Function.update_of_ne hpx]
      exact h.data i p hp
  · intro p d' hd'
    by_cases hpx : p = x
    · subst hpx
      exact h.listed p _ hx
    · rw [hdata, Function.update_of_ne hpx] at hd'
      exact h.listed p d' hd'
  · rw [Heap.next, hself, Heap.next, hn]
    rfl

def visit (d : TwTimer) : Option TwTimer :=
  if 0 < d.rotation then some { d with rotation := d.rotation - 1 } else none

def fires (s : TimeWheel P) (r : List P) : List (P × TwTimer) :=
  r.filterMap fun p => (s.heap.dataAt p).bind fun d => if 0 < d.rotation then none else some (p, d)

omit [DecidableEq P] in
theorem fires_congr {s' : TimeWheel P} (hs : ∀ p ∈ r, s'.heap.dataAt p = s.heap.dataAt p) : fires s' r = fires s r :=
  List.filterMap_congr fun p hp => by rw [hs p hp]

omit [DecidableEq P] in
theorem fires_cons (hd : s.heap.dataAt x = some d) (r : List P) :
    fires s (x :: r) = (if 0 < d.rotation then [] else [(x, d)]) ++ fires s r := by
  by_cases hpos : 0 < d.rotation
  · rw [fires, List.filterMap_cons, hd, Option.bind_some, if_pos hpos, if_pos hpos]
    rfl
  · rw [fires, List.filterMap_cons, hd, Option.bind_some, if_neg hpos, if_neg hpos]
    rfl

omit [DecidableEq P] in
theorem mem_fires : p ∈ (fires s r).map Prod.fst ↔ p ∈ r ∧ ∃ d, s.heap.dataAt p = some d ∧ ¬0 < d.rotation := by
  rw [List.mem_map]
  constructor
  · rintro ⟨⟨q, d⟩, hmem, rfl⟩
    obtain ⟨q', hq', hfire⟩ := List.mem_filterMap.mp hmem
    obtain ⟨d', hd', hif⟩ := Option.bind_eq_some_iff.mp hfire
    by_cases hpos : 0 < d'.rotation
    · rw [if_pos hpos] at hif
      cases hif
    · rw [if_neg hpos] at hif
      obtain ⟨rfl, rfl⟩ := Prod.ext_iff.mp (Option.some.inj hif)
      exact ⟨hq', _, hd', hpos⟩
  · rintro ⟨hp, d, hd, hrot⟩
    refine ⟨(p, d), List.mem_filterMap.mpr ⟨p, hp, ?_⟩, rfl⟩
    rw [hd, Option.bind_some, if_neg hrot]

omit [DecidableEq P] in
theorem fires_nodup (hr : r.Nodup) : ((fires s r).map Prod.fst).Nodup := by
  induction r with
  | nil => exact List.nodup_nil
  | cons x r ih =>
    obtain ⟨hxr, hr⟩ := List.nodup_cons.mp hr
    cases hd : s.heap.dataAt x with
    | none =>
      rw [fires, List.filterMap_cons, hd]
      exact ih hr
    | some d =>
      rw [fires_cons hd]
      split
      · exact ih hr
      · exact List.nodup_cons.mpr ⟨fun hx => hxr (mem_fires.mp hx).1, ih hr⟩

/-- What one round of the loop of `tick` at the timer `x` leaves for the rounds on `r`. -/
structure Round (s s₁ : TimeWheel P) (x : P) (d : TwTimer) (r : List P) : Prop where
  rep : ∃ xs l, Rep s₁ xs ∧ xs s₁.curSlot = l ++ r
  cur : s₁.curSlot = s.curSlot
  self : s₁.heap.dataAt x = visit d
  other : ∀ q, q ≠ x → s₁.heap.dataAt q = s.heap.dataAt q
  run : ∀ fired s', Returns (fun fuel => TimeWheel.tickLoop fuel s₁ r.head?) (fired, s') →
    Returns (fun fuel => TimeWheel.tickLoop fuel s (some x)) ((if 0 < d.rotation then [] else [(x, d)]) ++ fired, s')

theorem Rep.round (h : Rep s xs) (hi : xs s.curSlot = l ++ x :: r) (hd : s.heap.dataAt x = some d) :
    ∃ s₁, Round s s₁ x d r := by
  have hmem : x ∈ xs s.curSlot := by simp [hi]
  have hslot := h.slot hmem
  have hhead := h.head_iff hi
  have hn := h.nodup s.curSlot
  have hc := h.chain s.curSlot
  rw [hi] at hn hc
  have hnext := hc.node_next
  have hprev := hc.node_prev
  rw [Option.or_none] at hnext hprev
  by_cases hpos : 0 < d.rotation
  · obtain ⟨heap, hset, hrep, hdata, hnext₁⟩ := h.setData hd (f := fun d => { d with rotation := d.rotation - 1 }) rfl
      (Int.sub_nonneg_of_le hpos)
    refine ⟨{ s with heap := heap }, ⟨xs, l ++ [x], hrep, by simpa using hi⟩, rfl, ?_, ?_, ?_⟩
    · rw [hdata, Function.update_self, visit, if_pos hpos]
    · intro q hq
      rw [hdata, Function.update_of_ne hq]
    · intro fired s' hrun
      rw [if_pos hpos]
      refine hrun.succ fun fuel => ?_
      rw [← hnext₁] at hnext
      simp only [TimeWheel.tickLoop, hd, Option.bind_eq_bind, Option.bind_some, if_pos hpos, hset, hnext]
  · have hgone : ∀ {heap : Heap P TwTimer}, heap x = none → heap.dataAt x = visit d := by
      intro heap hx
      rw [Heap.dataAt, hx, visit, if_neg hpos]
      rfl
    rcases List.eq_nil_or_concat' l with rfl | ⟨l, p, rfl⟩
    · obtain ⟨h₁, h₂, hfree, hset, hrem⟩ := Chain.remove_freed hc hn
      refine ⟨⟨h₂, Function.update s.slots s.curSlot r.head?, s.curSlot⟩, ⟨_, [], h.removed hi hrem rfl rfl, ?_⟩, rfl,
        hgone hrem.gone, hrem.data, ?_⟩
      · exact Function.update_self _ _ _
      · intro fired s' hrun
        rw [if_neg hpos]
        refine hrun.imp_succ fun fuel hfuel => ?_
        simp [TimeWheel.tickLoop, hd, hpos, hslot, hhead.mpr, hnext, hfree, hset, TimeWheel.setSlot, hfuel]
    · rw [List.append_assoc, List.singleton_append] at hc hn
      obtain ⟨h₁, h₂, h₃, hset₁, hnext₁, hprev₁, hset₂, hnext₂, hfree, hrem⟩ := hc.remove_behind hn
      have hmid : (l ++ [p]) ++ r = l ++ p :: r := by simp
      rw [← hmid] at hrem
      have hslots : s.slots = Function.update s.slots s.curSlot ((l ++ [p]) ++ r).head? := by
        refine (Function.update_eq_self_iff.mpr ?_).symm
        rw [h.head, hi]
        simp
      refine ⟨⟨h₃, s.slots, s.curSlot⟩, ⟨_, l ++ [p], h.removed hi hrem rfl hslots, ?_⟩, rfl, hgone hrem.gone,
        hrem.data, ?_⟩
      · exact Function.update_self _ _ _
      · intro fired s' hrun
        rw [if_neg hpos]
        refine hrun.imp_succ fun fuel hfuel => ?_
        simp [TimeWheel.tickLoop, hd, hpos, hslot, hhead, hnext, hprev, hset₁, hnext₁, hprev₁, hset₂, hnext₂, hfree,
          hfuel]

/-- The loop of `tick` with the timers `l` behind it and the timers `r` before it. -/
theorem Rep.tickLoop (h : Rep s xs) (hi : xs s.curSlot = l ++ r) : ∃ s',
    Returns (fun fuel => TimeWheel.tickLoop fuel s r.head?) (fires s r, s') ∧ (∃ xs', Rep s' xs') ∧
      s'.curSlot = s.curSlot ∧
      (∀ q ∈ r, s'.heap.dataAt q = (s.heap.dataAt q).bind visit) ∧
      ∀ q, q ∉ r → s'.heap.dataAt q = s.heap.dataAt q := by
  induction r generalizing s l xs with
  | nil => exact ⟨s, Returns.of_succ fun fuel => rfl, ⟨xs, h⟩, rfl, by simp, fun _ _ => rfl⟩
  | cons x r ih =>
    have hn := h.nodup s.curSlot
    rw [hi] at hn
    have hxr : x ∉ r := (List.nodup_cons.mp (List.nodup_append.mp hn).2.1).1
    obtain ⟨d, hd, -⟩ := h.data s.curSlot x (by simp [hi])
    obtain ⟨s₁, hround⟩ := h.round hi hd
    obtain ⟨xs₁, l₁, hrep₁, hi₁⟩ := hround.rep
    obtain ⟨s', hrun, hrep', hcur, hvisit, hrest⟩ := ih hrep₁ hi₁
    have hne : ∀ q ∈ r, q ≠ x := fun q hq => ne_of_mem_of_not_mem hq hxr
    have hfires : fires s (x :: r) = (if 0 < d.rotation then [] else [(x, d)]) ++ fires s₁ r := by
      rw [fires_congr fun q hq => hround.other q (hne q hq), fires_cons hd]
    refine ⟨s', ?_, hrep', hcur.trans hround.cur, ?_, ?_⟩
    · rw [hfires]
      exact hround.run _ _ hrun
    · intro q hq
      rcases List.mem_cons.mp hq with rfl | hq
      · rw [hrest q hxr, hround.self, hd]
        rfl
      · rw [hvisit q hq, hround.other q (hne q hq)]
    · intro q hq
      rw [List.mem_cons, not_or] at hq
      rw [hrest q hq.2, hround.other q hq.1]

theorem Rep.tick (h : Rep s xs) : ∃ fired s', Returns (fun fuel => s.tick fuel) (fired, s') ∧ (∃ xs', Rep s' xs') ∧
    s'.curSlot = (s.curSlot + 1) % TimeWheel.N ∧ (fired.map Prod.fst).Nodup ∧
    (∀ q, q ∈ fired.map Prod.fst ↔ ∃ d, s.heap.dataAt q = some d ∧ d.timeSlot = s.curSlot ∧ d.rotation = 0) ∧
    ∀ q, s'.heap.dataAt q =
      (s.heap.dataAt q).bind fun d => if d.timeSlot = s.curSlot then visit d else some d := by
  have hslot : s.slot s.curSlot = some (xs s.curSlot).head? := by
    rw [TimeWheel.slot, if_pos h.cur, h.head]
  have hall : xs s.curSlot = [] ++ xs s.curSlot := rfl
  obtain ⟨s', hrun, ⟨xs', hrep⟩, hcur, hvisit, hrest⟩ := h.tickLoop hall
  refine ⟨fires s (xs s.curSlot), { s' with curSlot := (s'.curSlot + 1) % TimeWheel.N }, ?_,
    ⟨xs', ⟨?_, hrep.head, hrep.chain, hrep.nodup, hrep.range, hrep.data, hrep.listed⟩⟩, by rw [hcur], ?_, ?_, ?_⟩
  · refine hrun.imp fun fuel hfuel => ?_
    simp only [TimeWheel.tick, hslot, hfuel, Option.bind_eq_bind, Option.bind_some]
  · exact ⟨Int.emod_nonneg _ (by decide), Int.emod_lt_of_pos _ (by decide)⟩
  · exact fires_nodup (h.nodup s.curSlot)
  · intro q
    rw [mem_fires]
    constructor
    · rintro ⟨hq, d, hd, hrot⟩
      obtain ⟨d', hd', htime, hpos⟩ := h.data _ q hq
      obtain rfl := Option.some.inj (hd.symm.trans hd')
      exact ⟨d, hd, htime, by omega⟩
    · rintro ⟨d, hd, htime, hrot⟩
      exact ⟨(h.mem_iff hd).mpr htime, d, hd, by omega⟩
  · intro q
    by_cases hq : q ∈ xs s.curSlot
    · obtain ⟨d, hd, htime, -⟩ := h.data _ q hq
      have := hvisit q hq
      rw [hd] at this ⊢
      rw [Option.bind_some, if_pos htime]
      exact this
    · have := hrest q hq
      cases hd : s.heap.dataAt q with
      | none =>
        rw [hd] at this
        exact this
      | some d =>
        have htime : d.timeSlot ≠ s.curSlot := mt (h.mem_iff hd).mpr hq
        rw [hd] at this
        rw [Option.bind_some, if_neg htime]
        exact this

end Tick

end LinuxSocket.WheelTimer
