import LinuxSocket.MinHeapTimer.Runs

/-! # The ticks of the time heap

Every round of the loop takes the root out of the heap, so the timers come out in the order of their expiry
times. What is behind the last one that is due expires later.
-/
namespace LinuxSocket.MinHeapTimer

variable {P : Type}

theorem IsHeap.exists_root {mem : Memory P} {h : TimeHeap P} {items : List P} (hh : IsHeap mem h items) :
    ∃ tmp, cell h.array 0 = .ok tmp := by
  have hpos : 0 < h.array.length := hh.length_eq ▸ hh.capacity_pos
  exact ⟨h.array[0], by rw [cell, List.getElem?_eq_getElem hpos]⟩

structure Entry (P : Type) where
  timer : P
  supplied : HeapTimer

/-- The timers left when some are taken out of the heap. -/
theorem perm_filter {items : List P} {held : List (Entry P)} (hp : items.Perm (held.map Entry.timer)) (f : P → Bool) :
    (items.filter f).Perm ((held.filter fun e => f e.timer).map Entry.timer) := by
  have hfilter := hp.filter f
  rwa [List.filter_map] at hfilter

variable [DecidableEq P]

def without (mem : Memory P) (order : List P) : Memory P := fun p => if p ∈ order then none else mem p

/-- The loop at its condition: the timers `order` have come out of the heap and `items` are in it. -/
structure Ticking (mem₀ : Memory P) (items₀ : List P) (cur : ℤ) (s : TimeHeap.Tick P) (order items : List P) :
    Prop where
  heap : IsHeap s.mem s.heap items
  root : cell s.heap.array 0 = .ok s.tmp
  perm : (order ++ items).Perm items₀
  sorted : order.Pairwise fun p q => key mem₀ p ≤ key mem₀ q
  le : ∀ p ∈ order, ∀ q ∈ items, key mem₀ p ≤ key mem₀ q
  due : ∀ p ∈ order, key mem₀ p ≤ cur
  mem_eq : s.mem = without mem₀ order
  calls_eq : s.calls = order.filterMap fun p => (mem₀ p).bind HeapTimer.call

section Loop
variable {mem₀ : Memory P} {items₀ order items : List P} {cur : ℤ} {s : TimeHeap.Tick P}

/-- A timer in the heap has not been touched. -/
theorem Ticking.mem_items (h : Ticking mem₀ items₀ cur s order items) (hn : items₀.Nodup) {q : P}
    (hq : q ∈ items) : s.mem q = mem₀ q := by
  have hnot : q ∉ order := fun ho => (List.nodup_append.mp (h.perm.nodup_iff.mpr hn)).2.2 q ho q hq rfl
  rw [h.mem_eq, without, if_neg hnot]

theorem without_nil (mem : Memory P) : without mem [] = mem := by
  funext p
  simp [without]

theorem without_append (mem : Memory P) (order : List P) (p : P) :
    Function.update (without mem order) p none = without mem (order ++ [p]) := by
  funext q
  by_cases hq : q = p
  · subst hq
    simp [without]
  · rw [Function.update_of_ne hq]
    simp [without, hq]

section Root
variable {p : P}

theorem Ticking.not_empty (h : Ticking mem₀ items₀ cur s order (p :: items)) : ¬s.heap.empty := by
  rw [TimeHeap.empty, h.heap.curSize_eq]
  exact Nat.succ_ne_zero _

theorem Ticking.tmp_eq (h : Ticking mem₀ items₀ cur s order (p :: items)) : s.tmp = some p := by
  obtain ⟨rest, harr⟩ := h.heap.cells
  have hroot := h.root
  rw [harr] at hroot
  exact (Except.ok.inj ((cell_cells (Nat.zero_lt_succ _)).symm.trans hroot)).symm

theorem Ticking.expireOf_tmp (h : Ticking mem₀ items₀ cur s order (p :: items)) (hn : items₀.Nodup) :
    expireOf s.mem s.tmp = .ok (key mem₀ p) := by
  obtain ⟨t, ht⟩ := h.heap.live p (by simp)
  rw [h.tmp_eq, key, ← h.mem_items hn (by simp), ht]
  simp [expireOf, ht]

end Root

/-- The round that takes out the root. -/
theorem Ticking.next {p : P} (h : Ticking mem₀ items₀ cur s order (p :: items)) (hn : items₀.Nodup)
    (hdue : key mem₀ p ≤ cur) : ∃ t w, TimeHeap.tickNext cur s = .ok (some t) ∧
      Ticking mem₀ items₀ cur t (order ++ [p]) w := by
  obtain ⟨h', w, hpop, hw, hperm⟩ := h.heap.popTimer_cons
  obtain ⟨tmp, htmp⟩ := hw.exists_root
  have hmem : s.mem p = mem₀ p := h.mem_items hn (by simp)
  obtain ⟨t, ht⟩ := h.heap.live p (by simp)
  have htask : TimeHeap.task s.mem s.heap = .ok t.call.toList := by
    rw [TimeHeap.task, h.root, ok_bind, h.tmp_eq]
    simp [ht]
  refine ⟨⟨Function.update s.mem p none, h', tmp, s.calls ++ t.call.toList⟩, w, ?_, ?_⟩
  · rw [TimeHeap.tickNext, if_neg h.not_empty, if_neg (by simp [h.tmp_eq]), h.expireOf_tmp hn, ok_bind,
      if_neg (not_lt.mpr hdue), htask, ok_bind, hpop, ok_bind]
    dsimp only
    rw [htmp, ok_bind]
  · have hle := h.heap.head_least (p := p) rfl
    have hleast : ∀ q ∈ w, key mem₀ p ≤ key mem₀ q := by
      intro q hq
      have hq' : q ∈ p :: items := List.mem_cons_of_mem _ (hperm.mem_iff.mp hq)
      have hlq := hle q hq'
      rwa [key, key, hmem, h.mem_items hn hq'] at hlq
    refine ⟨hw, htmp, ?_, ?_, ?_, ?_, ?_, ?_⟩
    · rw [List.append_assoc]
      exact (List.Perm.append_left order (hperm.cons p)).trans h.perm
    · rw [List.pairwise_append]
      refine ⟨h.sorted, List.pairwise_singleton _ _, fun q hq r hr => ?_⟩
      obtain rfl := List.mem_singleton.mp hr
      exact h.le q hq r (by simp)
    · intro q hq r hr
      rcases List.mem_append.mp hq with hq | hq
      · exact h.le q hq r (List.mem_cons_of_mem _ (hperm.mem_iff.mp hr))
      · obtain rfl := List.mem_singleton.mp hq
        exact hleast r hr
    · intro q hq
      rcases List.mem_append.mp hq with hq | hq
      · exact h.due q hq
      · obtain rfl := List.mem_singleton.mp hq
        exact hdue
    · rw [← without_append, ← h.mem_eq]
    · have hcall : [p].filterMap (fun q => (mem₀ q).bind HeapTimer.call) = t.call.toList := by
        rw [hmem] at ht
        cases hc : t.call <;> simp [ht, hc]
      rw [List.filterMap_append, ← h.calls_eq, hcall]

/-- What one round of the loop does. -/
theorem Ticking.next_cases (h : Ticking mem₀ items₀ cur s order items) (hn : items₀.Nodup) :
    ((∀ q ∈ items, cur < key mem₀ q) ∧ TimeHeap.tickNext cur s = .ok none) ∨
    ∃ t p w, TimeHeap.tickNext cur s = .ok (some t) ∧ Ticking mem₀ items₀ cur t (order ++ [p]) w := by
  cases items with
  | nil => exact .inl ⟨by simp, if_pos h.heap.curSize_eq⟩
  | cons p items =>
    by_cases hdue : key mem₀ p ≤ cur
    · obtain ⟨t, w, ht, hw⟩ := h.next hn hdue
      exact .inr ⟨t, p, w, ht, hw⟩
    · refine .inl ⟨?_, ?_⟩
      · intro q hq
        have hle := h.heap.head_least (p := p) rfl q hq
        rw [key, key, h.mem_items hn (by simp), h.mem_items hn hq] at hle
        exact (not_le.mp hdue).trans_le hle
      · rw [TimeHeap.tickNext, if_neg h.not_empty, if_neg (by simp [h.tmp_eq]), h.expireOf_tmp hn, ok_bind,
          if_pos (not_le.mp hdue)]

variable {mem : Memory P} {h : TimeHeap P}

/-- A tick takes the timers that are due out of the heap, in the order of their expiry times. -/
theorem IsHeap.tick (hh : IsHeap mem h items) (cur : ℤ) : ∃ h' order w,
    h.tick mem cur = .ok (without mem order, h', order.filterMap fun p => (mem p).bind HeapTimer.call) ∧
    IsHeap (without mem order) h' w ∧ order.Perm (items.filter fun p => key mem p ≤ cur) ∧
    (order.Pairwise fun p q => key mem p ≤ key mem q) ∧ w.Perm (items.filter fun p => cur < key mem p) := by
  obtain ⟨tmp, htmp⟩ := hh.exists_root
  have hstart : Ticking mem items cur ⟨mem, h, tmp, []⟩ [] items :=
    ⟨hh, htmp, .refl _, .nil, by simp, by simp, (without_nil mem).symm, rfl⟩
  obtain ⟨s, hrun, ⟨order, w, hs⟩, hstop⟩ : ∃ s, (TimeHeap.tickLoop cur).run ⟨mem, h, tmp, []⟩ = .ok s ∧
      (∃ order w, Ticking mem items cur s order w) ∧ TimeHeap.tickNext cur s = .ok none := by
    refine Loop.run_whileSome ?_ ?_ ⟨[], items, hstart⟩
    · rintro s ⟨order, w, hs⟩
      rcases hs.next_cases hh.nodup with ⟨-, hnone⟩ | ⟨t, p, w', hsome, -⟩
      · exact ⟨_, hnone⟩
      · exact ⟨_, hsome⟩
    · rintro s t ⟨order, w, hs⟩ hn
      rcases hs.next_cases hh.nodup with ⟨-, hnone⟩ | ⟨t', p, w', hsome, ht'⟩
      · rw [hnone] at hn
        cases hn
      · obtain rfl := Option.some.inj (Except.ok.inj (hn.symm.trans hsome))
        exact ⟨_, w', ht'⟩
  have hlate : ∀ q ∈ w, cur < key mem q := by
    rcases hs.next_cases hh.nodup with ⟨hlate, -⟩ | ⟨t, p, w', hsome, -⟩
    · exact hlate
    · rw [hstop] at hsome
      cases hsome
  refine ⟨s.heap, order, w, ?_, hs.mem_eq ▸ hs.heap, ?_, hs.sorted, ?_⟩
  · rw [TimeHeap.tick, htmp, ok_bind, hrun, ok_bind, hs.mem_eq, hs.calls_eq]
  · have hfilter := hs.perm.filter fun p => decide (key mem p ≤ cur)
    rwa [List.filter_append, List.filter_eq_self.mpr (by simpa using hs.due),
      List.filter_eq_nil_iff.mpr (by simpa using hlate), List.append_nil] at hfilter
  · have hfilter := hs.perm.filter fun p => decide (cur < key mem p)
    rwa [List.filter_append, List.filter_eq_nil_iff.mpr (by simpa using hs.due),
      List.filter_eq_self.mpr (by simpa using hlate), List.nil_append] at hfilter

end Loop

def Entry.current (deleted : List P) (e : Entry P) : HeapTimer :=
  if e.timer ∈ deleted then { e.supplied with cbFunc := none } else e.supplied

def Entry.call (deleted : List P) (e : Entry P) : Option (ℕ × ℕ) :=
  if e.timer ∈ deleted then none else e.supplied.call

/-- The heaps that calls and ticks lead to from either constructor, with the timers supplied that are still in
it, and the timers passed to `del_timer` since they were supplied. `other` is whatever the rest of the program
does to objects that are not in the heap. -/
inductive TickRun : Memory P → TimeHeap P → List (Entry P) → List P → Prop
  | ofCapacity (mem : Memory P) {cap : ℕ} : 1 ≤ cap → TickRun mem (.ofCapacity cap) [] []
  | ofArray {mem : Memory P} {held : List (Entry P)} (more : List (Option P)) {capacity h} :
      (∀ e ∈ held, mem e.timer = some e.supplied) → (held.map Entry.timer).Nodup → held.length ≤ capacity →
      1 ≤ capacity → TimeHeap.ofArray mem ((held.map Entry.timer).map some ++ more) held.length capacity = .ok h →
      TickRun mem h held []
  | addTimer {mem h held deleted h'} (e : Option (Entry P)) : TickRun mem h held deleted →
      (∀ x, e = some x → mem x.timer = some x.supplied ∧ x.timer ∉ held.map Entry.timer) →
      h.addTimer mem (e.map Entry.timer) = .ok h' →
      TickRun mem h' (e.toList ++ held) (deleted.filter fun p => some p ≠ e.map Entry.timer)
  | delTimer {mem h held deleted mem'} (timer : Option P) : TickRun mem h held deleted →
      (∀ x, timer = some x → mem x ≠ none) → TimeHeap.delTimer mem timer = .ok mem' →
      TickRun mem' h held (timer.toList ++ deleted)
  | popTimer {mem h held deleted popped mem' h'} : TickRun mem h held deleted → h.top = .ok popped →
      h.popTimer mem = .ok (mem', h') → TickRun mem' h' (held.filter fun e => some e.timer ≠ popped) deleted
  | tick {mem h held deleted mem' h' calls} (cur : ℤ) : TickRun mem h held deleted →
      h.tick mem cur = .ok (mem', h', calls) →
      TickRun mem' h' (held.filter fun e => cur < key mem e.timer) deleted
  | other {mem h held deleted mem'} : TickRun mem h held deleted →
      (∀ e ∈ held, mem' e.timer = mem e.timer) → TickRun mem' h held deleted

/-- What holds in every run: the timers in the heap are the ones supplied, and differ from what was supplied by
`del_timer` only. -/
structure Tracks (mem : Memory P) (h : TimeHeap P) (held : List (Entry P)) (deleted items : List P) : Prop where
  heap : IsHeap mem h items
  perm : items.Perm (held.map Entry.timer)
  current : ∀ e ∈ held, mem e.timer = some (e.current deleted)

section Runs
variable {mem mem' : Memory P} {h h' : TimeHeap P} {held : List (Entry P)} {deleted items : List P}

theorem Tracks.addTimer (ht : Tracks mem h held deleted items) {e : Option (Entry P)}
    (ha : ∀ x, e = some x → mem x.timer = some x.supplied ∧ x.timer ∉ held.map Entry.timer)
    (he : h.addTimer mem (e.map Entry.timer) = .ok h') :
    ∃ w, Tracks mem h' (e.toList ++ held) (deleted.filter fun p => some p ≠ e.map Entry.timer) w := by
  have hfresh : ∀ p, e.map Entry.timer = some p → mem p ≠ none ∧ p ∉ items := by
    intro p hp
    obtain ⟨x, hx, rfl⟩ := Option.map_eq_some_iff.mp hp
    obtain ⟨hmem, hnew⟩ := ha x hx
    exact ⟨by simp [hmem], mt ht.perm.mem_iff.mp hnew⟩
  obtain ⟨h'', w, he', hw, hwp⟩ := ht.heap.addTimer_perm hfresh
  obtain rfl := Except.ok.inj (he.symm.trans he')
  refine ⟨w, hw, ?_, ?_⟩
  · rw [List.map_append]
    refine hwp.trans ?_
    cases e with
    | none => exact ht.perm
    | some x => exact ht.perm.cons x.timer
  · intro x hx
    rcases List.mem_append.mp hx with hx | hx
    · obtain rfl := Option.mem_toList.mp hx
      rw [(ha x rfl).1, Entry.current, if_neg (by simp)]
    · have hne : ∀ y, e = some y → x.timer ≠ y.timer := by
        rintro y hy heq
        exact (ha y hy).2 (heq ▸ List.mem_map_of_mem hx)
      have hiff : x.timer ∈ deleted.filter (fun p => some p ≠ e.map Entry.timer) ↔ x.timer ∈ deleted := by
        cases e with
        | none => simp
        | some y => simp [hne y rfl]
      rw [ht.current x hx, Entry.current, Entry.current, if_congr hiff rfl rfl]

theorem Tracks.delTimer (ht : Tracks mem h held deleted items) {timer : Option P}
    (ha : ∀ x, timer = some x → mem x ≠ none) (he : TimeHeap.delTimer mem timer = .ok mem') :
    Tracks mem' h held (timer.toList ++ deleted) items := by
  cases timer with
  | none =>
    obtain rfl := Except.ok.inj he
    exact ht
  | some x =>
    obtain ⟨t, hx⟩ := Option.ne_none_iff_exists'.mp (ha x rfl)
    obtain ⟨mem'', he', hh⟩ := ht.heap.delTimer hx
    obtain rfl := Except.ok.inj (he.symm.trans he')
    refine ⟨hh, ht.perm, fun e hmem => ?_⟩
    have hcur := ht.current e hmem
    simp only [TimeHeap.delTimer, hx] at he
    obtain rfl := Except.ok.inj he
    by_cases hex : e.timer = x
    · subst hex
      obtain rfl := Option.some.inj (hx.symm.trans hcur)
      rw [Function.update_self, Entry.current, Entry.current]
      split <;> simp
    · rw [Function.update_of_ne hex, hcur, Entry.current, Entry.current]
      simp [hex]

theorem Tracks.popTimer (ht : Tracks mem h held deleted items) {popped : Option P} (htop : h.top = .ok popped)
    (he : h.popTimer mem = .ok (mem', h')) :
    ∃ w, Tracks mem' h' (held.filter fun e => some e.timer ≠ popped) deleted w := by
  obtain rfl := Except.ok.inj (ht.heap.top.symm.trans htop)
  cases items with
  | nil =>
    have hstay : h.popTimer mem = .ok (mem, h) := if_pos ht.heap.curSize_eq
    obtain ⟨rfl, rfl⟩ := Prod.mk.inj (Except.ok.inj (hstay.symm.trans he))
    exact ⟨[], by simpa using ht⟩
  | cons p items =>
    obtain ⟨h'', w, he', hw, hwp⟩ := ht.heap.popTimer_cons
    obtain ⟨rfl, rfl⟩ := Prod.mk.inj (Except.ok.inj (he.symm.trans he'))
    refine ⟨w, hw, hwp.trans ?_, ?_⟩
    · have hfilter := perm_filter ht.perm fun q => some q ≠ some p
      have hnot : p ∉ items := (List.nodup_cons.mp ht.heap.nodup).1
      have hself : items.filter (fun q => some q ≠ some p) = items := by
        rw [List.filter_eq_self]
        intro q hq
        simpa using ne_of_mem_of_not_mem hq hnot
      rwa [List.filter_cons_of_neg (by simp), hself] at hfilter
    · intro e hmem
      obtain ⟨hmem, hne⟩ := List.mem_filter.mp hmem
      rw [Function.update_of_ne (by simpa using hne), ht.current e hmem]

theorem Tracks.tick (ht : Tracks mem h held deleted items) (cur : ℤ) : ∃ h' order w,
    h.tick mem cur = .ok (without mem order, h', order.filterMap fun p => (mem p).bind HeapTimer.call) ∧
    order.Perm (items.filter fun p => key mem p ≤ cur) ∧ (order.Pairwise fun p q => key mem p ≤ key mem q) ∧
    Tracks (without mem order) h' (held.filter fun e => cur < key mem e.timer) deleted w := by
  obtain ⟨h', order, w, he, hw, hdue, hsorted, hlate⟩ := ht.heap.tick cur
  refine ⟨h', order, w, he, hdue, hsorted, hw, hlate.trans (perm_filter ht.perm _), fun e hmem => ?_⟩
  obtain ⟨hmem, hlt⟩ := List.mem_filter.mp hmem
  have hnot : e.timer ∉ order := by
    intro ho
    have hle := (List.mem_filter.mp (hdue.mem_iff.mp ho)).2
    simp only [decide_eq_true_eq] at hlt hle
    omega
  rw [without, if_neg hnot, ht.current e hmem]

/-- The invariant of a run. -/
theorem TickRun.tracks (hr : TickRun mem h held deleted) : ∃ items, Tracks mem h held deleted items := by
  induction hr with
  | ofCapacity mem hcap => exact ⟨[], isHeap_ofCapacity mem hcap, .refl _, by simp⟩
  | @ofArray mem held more capacity h hcur hn hle hpos he =>
    have hl : Live mem (held.map Entry.timer) := by
      intro p hp
      obtain ⟨e, hmem, rfl⟩ := List.mem_map.mp hp
      exact ⟨_, hcur e hmem⟩
    rw [← List.length_map (f := Entry.timer)] at hle he
    obtain ⟨h', items, he', hh, hperm⟩ := isHeap_ofArray more hl hn hle hpos
    obtain rfl := Except.ok.inj (he.symm.trans he')
    exact ⟨items, hh, hperm, fun e hmem => by rw [hcur e hmem, Entry.current, if_neg (by simp)]⟩
  | addTimer e _ ha he ih =>
    obtain ⟨items, ht⟩ := ih
    exact ht.addTimer ha he
  | delTimer timer _ ha he ih =>
    obtain ⟨items, ht⟩ := ih
    exact ⟨items, ht.delTimer ha he⟩
  | popTimer _ htop he ih =>
    obtain ⟨items, ht⟩ := ih
    exact ht.popTimer htop he
  | tick cur _ he ih =>
    obtain ⟨items, ht⟩ := ih
    obtain ⟨h', order, w, he', -, -, hw⟩ := ht.tick cur
    obtain ⟨rfl, hrest⟩ := Prod.mk.inj (Except.ok.inj (he.symm.trans he'))
    obtain ⟨rfl, rfl⟩ := Prod.mk.inj hrest
    exact ⟨w, hw⟩
  | other _ hm ih =>
    obtain ⟨items, hh, hperm, hcur⟩ := ih
    refine ⟨items, hh.frame fun p hp => ?_, hperm, fun e he => (hm e he).trans (hcur e he)⟩
    obtain ⟨e, he, rfl⟩ := List.mem_map.mp (hperm.mem_iff.mp hp)
    exact hm e he

/-- The callbacks called are the ones that are due. -/
theorem Tracks.calls_eq (ht : Tracks mem h held deleted items) {order : List (Entry P)} (ho : order ⊆ held) :
    ((order.map Entry.timer).filterMap fun p => (mem p).bind HeapTimer.call) =
      order.filterMap (Entry.call deleted) := by
  rw [List.filterMap_map]
  refine List.filterMap_congr fun e he => ?_
  rw [Function.comp_apply, ht.current e (ho he), Option.bind_some, Entry.current, Entry.call]
  split <;> rfl

end Runs

/-- A tick calls the callbacks of the timers that are due, in the order of their expiry times and without the
deleted ones, and leaves a heap of the timers that expire later. -/
theorem tick_fires_due {mem : Memory P} {h : TimeHeap P} {held : List (Entry P)} {deleted : List P}
    (hr : TickRun mem h held deleted) (cur : ℤ) :
    ∃ (h' : TimeHeap P) (order : List (Entry P)), h.tick mem cur =
        .ok (without mem (order.map Entry.timer), h', order.filterMap (Entry.call deleted)) ∧
      order.Perm (held.filter fun e => key mem e.timer ≤ cur) ∧
      (order.Pairwise fun e f => key mem e.timer ≤ key mem f.timer) ∧
      Correct (without mem (order.map Entry.timer)) h'
        ((held.filter fun e => cur < key mem e.timer).map Entry.timer) ∧
      ∀ e ∈ held, cur < key mem e.timer → cur < key (without mem (order.map Entry.timer)) e.timer := by
  obtain ⟨items, ht⟩ := hr.tracks
  obtain ⟨h', timers, w, he, hdue, hsorted, hw⟩ := ht.tick cur
  obtain ⟨order, rfl, hperm⟩ :=
    (congrFun₂ (List.eq_map_comp_perm Entry.timer) timers _).mpr (hdue.trans (perm_filter ht.perm _))
  rw [List.pairwise_map] at hsorted
  have hsub : order ⊆ held := fun e hmem => List.mem_of_mem_filter (hperm.mem_iff.mp hmem)
  refine ⟨h', order, ?_, hperm, hsorted, hw.heap.correct hw.perm, fun e hmem hlt => ?_⟩
  · rw [he, ht.calls_eq hsub]
  · have hnot : e.timer ∉ order.map Entry.timer := by
      intro ho
      have hle := (List.mem_filter.mp (hdue.mem_iff.mp ho)).2
      simp only [decide_eq_true_eq] at hle
      omega
    rwa [key, without, if_neg hnot]

/-- Two timers, of which the first to expire has been deleted, at a time when both are due. -/
theorem tick_fires_due_two : ∃ (mem : Memory ℕ) (h h' : TimeHeap ℕ) (order : List (Entry ℕ)),
    h.tick mem 7 = .ok (without mem (order.map Entry.timer), h', order.filterMap (Entry.call [1])) ∧
    order.Perm [⟨0, 5, some 1, 10⟩, ⟨1, 3, some 2, 20⟩] := by
  let mem : Memory ℕ := fun p => if p = 0 then some ⟨5, some 1, 10⟩ else if p = 1 then some ⟨3, some 2, 20⟩ else none
  let held : List (Entry ℕ) := [⟨0, 5, some 1, 10⟩, ⟨1, 3, some 2, 20⟩]
  have hheld : ∀ e ∈ held, mem e.timer = some e.supplied := by simp [held, mem]
  have hlive : Live mem [0, 1] := by simp [Live, mem]
  obtain ⟨h, -, he, -⟩ := isHeap_ofArray [] hlive (by decide) (Nat.le_refl 2) (by decide)
  have hrun : TickRun mem h held [] := .ofArray [] hheld (by decide) (by decide) (by decide) he
  have hdeleted : TickRun _ h held [1] := hrun.delTimer (some 1) (by simp [mem]) rfl
  obtain ⟨h', order, htick, hperm, -⟩ := tick_fires_due hdeleted 7
  exact ⟨_, h, h', order, htick, hperm⟩

end LinuxSocket.MinHeapTimer
