import LinuxSocket.MinHeapTimer.HeapOrder

/-! # The time heap in every run

`IsHeap` ties the array, the capacity and the size to a list of timers in heap order. Both
constructors establish it and every call keeps it; the list changes as the timers held do.
-/
namespace LinuxSocket.MinHeapTimer
open BinaryHeap

variable {P : Type}

structure IsHeap (mem : Memory P) (h : TimeHeap P) (items : List P) : Prop where
  cells : ∃ rest, h.array = items.map some ++ rest
  length_eq : h.array.length = h.capacity
  capacity_pos : 1 ≤ h.capacity
  curSize_eq : h.curSize = items.length
  live : Live mem items
  nodup : items.Nodup
  ordered : Ordered 0 items.length (keys (key mem) items)

section Memory
variable {mem mem' : Memory P} {items : List P}

theorem keys_congr (h : ∀ p ∈ items, mem' p = mem p) : keys (key mem') items = keys (key mem) items := by
  funext i
  cases hi : items[i]? with
  | none => rw [keys, keys, hi]; rfl
  | some p =>
    rw [keys_of_get hi, keys_of_get hi, key, key, h p (List.mem_of_getElem? hi)]

/-- Whatever happens to other objects, the heap stays a heap. -/
theorem IsHeap.frame {h : TimeHeap P} (hh : IsHeap mem h items) (hm : ∀ p ∈ items, mem' p = mem p) :
    IsHeap mem' h items :=
  { hh with
    live := fun p hp => (hm p hp).symm ▸ hh.live p hp
    ordered := (keys_congr hm).symm ▸ hh.ordered }

end Memory

section Copies

theorem copyCells_of_le {dst src : List (Option P)} {n : ℕ} (hd : n ≤ dst.length) (hs : n ≤ src.length) :
    copyCells dst src n = .ok (src.take n ++ dst.drop n) := by
  induction n with
  | zero => simp [copyCells, pure, Except.pure]
  | succ n ih =>
    have hlt : n < src.length := hs
    have hprev := ih (by omega) (by omega)
    rw [copyCells] at hprev ⊢
    rw [List.range_succ, List.foldlM_append, hprev]
    have hlen : (src.take n).length = n := by
      rw [List.length_take]
      omega
    have hstore : store (src.take n ++ dst.drop n) n src[n] = .ok (src.take (n + 1) ++ dst.drop (n + 1)) := by
      rw [store, if_pos (by simp only [List.length_append, List.length_drop]; omega)]
      congr 1
      rw [List.set_append_right _ _ (by omega), hlen, Nat.sub_self, List.drop_eq_getElem_cons hd, List.set_cons_zero,
        List.take_succ_eq_append_getElem hlt, List.append_assoc]
      rfl
    have hcell : cell src n = .ok src[n] := by rw [cell, List.getElem?_eq_getElem hlt]
    rw [ok_bind, List.foldlM_cons, hcell, ok_bind, hstore]
    rfl

end Copies

section Constructors
variable {mem : Memory P}

theorem isHeap_ofCapacity (mem : Memory P) {cap : ℕ} (h : 1 ≤ cap) : IsHeap mem (TimeHeap.ofCapacity cap) [] where
  cells := ⟨_, rfl⟩
  length_eq := List.length_replicate
  capacity_pos := h
  curSize_eq := rfl
  live := by simp [Live]
  nodup := List.nodup_nil
  ordered := ordered_of_half_le _ (by simp)

/-- Percolating down from index `i` to 0 completes the order from `i` on to the order of a heap. -/
theorem heapify_cells (mem : Memory P) (capacity : ℕ) (rest : List (Option P)) {v : List P} {i : ℕ}
    (hl : Live mem v) (hi : i < v.length) (ho : Ordered (i + 1) v.length (keys (key mem) v)) :
    ∃ w, w.Perm v ∧ Ordered 0 w.length (keys (key mem) w) ∧
      TimeHeap.heapify mem ⟨v.map some ++ rest, capacity, v.length⟩ i =
        .ok ⟨w.map some ++ rest, capacity, v.length⟩ := by
  induction i generalizing v with
  | zero => exact percolateDown_cells mem capacity rest hl hi ho.downHole
  | succ i ih =>
    obtain ⟨u, hu, hou, hrun⟩ := percolateDown_cells mem capacity rest hl hi ho.downHole
    obtain ⟨w, hw, how, hrest⟩ := ih (hl.perm hu) (by rw [hu.length_eq]; omega) hou
    refine ⟨w, hw.trans hu, how, ?_⟩
    rw [TimeHeap.heapify, hrun]
    rwa [hu.length_eq] at hrest

theorem isHeap_ofArray {timers : List P} (more : List (Option P)) {capacity : ℕ} (hl : Live mem timers)
    (hn : timers.Nodup) (hle : timers.length ≤ capacity) (hpos : 1 ≤ capacity) :
    ∃ h items, TimeHeap.ofArray mem (timers.map some ++ more) timers.length capacity = .ok h ∧
      IsHeap mem h items ∧ items.Perm timers := by
  rw [TimeHeap.ofArray, if_neg (Nat.not_lt.mpr hle)]
  by_cases hne : timers.length ≠ 0
  · have hcopy : copyCells (List.replicate capacity none) (timers.map some ++ more) timers.length =
        .ok (timers.map some ++ List.replicate (capacity - timers.length) none) := by
      rw [copyCells_of_le (by simpa using hle) (by simp), List.take_left' (List.length_map ..), List.drop_replicate]
    obtain ⟨w, hw, how, hrun⟩ := heapify_cells mem capacity (List.replicate (capacity - timers.length) none)
      (i := (timers.length - 1) / 2) hl (by omega) (ordered_of_half_le _ (by omega))
    rw [if_pos hne, hcopy]
    refine ⟨_, w, hrun, ?_, hw⟩
    refine ⟨⟨_, rfl⟩, ?_, hpos, hw.length_eq.symm, hl.perm hw, hw.nodup_iff.mpr hn, how⟩
    simp only [List.length_append, List.length_map, List.length_replicate, hw.length_eq]
    omega
  · have hnil : timers = [] := List.eq_nil_of_length_eq_zero (by omega)
    subst hnil
    rw [if_neg hne]
    exact ⟨_, [], rfl, isHeap_ofCapacity mem hpos, .refl _⟩

end Constructors

section Operations
variable {mem : Memory P} {h : TimeHeap P} {items : List P}

/-- The first part of `add_timer` leaves a free cell behind the timers. -/
theorem IsHeap.makeRoom (hh : IsHeap mem h items) : ∃ h' r rest, h.makeRoom = .ok h' ∧
    h'.array = items.map some ++ r :: rest ∧ h'.array.length = h'.capacity ∧ h'.curSize = items.length := by
  obtain ⟨rest, harr⟩ := hh.cells
  have hlen := hh.length_eq
  have hcur := hh.curSize_eq
  have hpos := hh.capacity_pos
  rw [harr, List.length_append, List.length_map] at hlen
  by_cases hfull : h.capacity ≤ h.curSize
  · have hrest : rest = [] := List.eq_nil_of_length_eq_zero (by omega)
    subst hrest
    have hcopy : copyCells (List.replicate (2 * h.capacity) none) h.array h.curSize =
        .ok (items.map some ++ none :: List.replicate (2 * h.capacity - items.length - 1) none) := by
      rw [copyCells_of_le (by rw [List.length_replicate]; omega) (by rw [harr]; simp [hcur]), harr, List.append_nil,
        List.take_of_length_le (by simp [hcur]), List.drop_replicate, ← List.replicate_succ, hcur]
      congr 4
      simp at hlen
      omega
    refine ⟨⟨items.map some ++ none :: List.replicate (2 * h.capacity - items.length - 1) none, 2 * h.capacity,
      h.curSize⟩, none, _, ?_, rfl, ?_, hcur⟩
    · rw [TimeHeap.makeRoom, if_pos hfull, TimeHeap.resize, hcopy]
      rfl
    · simp at hlen ⊢
      omega
  · obtain ⟨r, rest, rfl⟩ : ∃ r rest', rest = r :: rest' := List.exists_cons_of_length_pos (by omega)
    exact ⟨h, r, rest, if_neg hfull, harr, hh.length_eq, hcur⟩

theorem IsHeap.addTimer (hh : IsHeap mem h items) {x : P} {t : HeapTimer} (hx : mem x = some t) (hnew : x ∉ items) :
    ∃ h' w, h.addTimer mem (some x) = .ok h' ∧ IsHeap mem h' w ∧ w.Perm (x :: items) := by
  obtain ⟨h₁, r, rest, hroom, harr, hlen, hcur⟩ := hh.makeRoom
  have hlive : Live mem (items ++ [x]) := by
    intro p hp
    rcases List.mem_append.mp hp with hp | hp
    · exact hh.live p hp
    · exact ⟨t, List.mem_singleton.mp hp ▸ hx⟩
  have hfill : Filled h₁.array items.length (items ++ [x]) rest := by
    refine ⟨by simp, ?_⟩
    rw [harr, List.set_append_right _ _ (by simp)]
    simp
  obtain ⟨w, s, hw, how, hrun, hstore⟩ := siftUp_cells mem x hlive hfill hh.ordered
  have hperm : w.Perm (x :: items) := hw.trans (List.perm_append_singleton x items)
  refine ⟨{ h₁ with curSize := h₁.curSize + 1, array := w.map some ++ rest }, w, ?_, ?_, hperm⟩
  · rw [TimeHeap.addTimer, hroom]
    change (do let r ← (TimeHeap.siftUpLoop mem (some x)).run (h₁.array, h₁.curSize); _) = _
    rw [hcur, hrun]
    change (do let a ← store s.1 s.2 (some x); _) = _
    rw [hstore]
    rfl
  · have hwlen := hw.length_eq
    have hcap : (w.map some ++ rest).length = h₁.capacity := by
      rw [← hlen, harr]
      simp only [List.length_append, List.length_map, List.length_cons, List.length_nil] at hwlen ⊢
      omega
    refine ⟨⟨rest, rfl⟩, hcap, ?_, ?_, hlive.perm hw, ?_, how⟩
    · rw [List.length_append, List.length_map] at hcap
      change 1 ≤ h₁.capacity
      simp at hwlen
      omega
    · simpa [hcur] using hwlen.symm
    · exact hperm.nodup_iff.mpr (List.nodup_cons.mpr ⟨hnew, hh.nodup⟩)

theorem IsHeap.top (hh : IsHeap mem h items) : h.top = .ok items.head? := by
  obtain ⟨rest, harr⟩ := hh.cells
  have hcur := hh.curSize_eq
  cases items with
  | nil => exact if_pos hcur
  | cons p items =>
    have hne : ¬h.empty := by
      rw [TimeHeap.empty, hcur]
      exact Nat.succ_ne_zero _
    rw [TimeHeap.top, if_neg hne, harr]
    exact cell_cells (Nat.zero_lt_succ _)

/-- The first timer of the list expires before all others. -/
theorem IsHeap.head_least (hh : IsHeap mem h items) {p : P} (hp : items.head? = some p) :
    ∀ q ∈ items, key mem p ≤ key mem q := by
  intro q hq
  obtain ⟨i, hi, rfl⟩ := List.mem_iff_getElem.mp hq
  have h0 : items[0]? = some p := by rwa [← List.head?_eq_getElem?]
  have hle := hh.ordered.root_le hi
  rwa [keys_of_get h0, keys_of_get (List.getElem?_eq_getElem hi)] at hle

/-- An array without timers is left as it is. -/
theorem percolateDown_nil (mem : Memory P) (capacity : ℕ) {array : List (Option P)} (hpos : 0 < array.length) :
    TimeHeap.percolateDown mem ⟨array, capacity, 0⟩ 0 = .ok ⟨array, capacity, 0⟩ := by
  have hcell : cell array 0 = .ok array[0] := by rw [cell, List.getElem?_eq_getElem hpos]
  have hrun : (TimeHeap.percolateLoop mem 0 array[0]).run (array, 0) = .ok (array, 0) :=
    Loop.Body.run_exit _ rfl
  rw [TimeHeap.percolateDown, hcell]
  change (do let r ← (TimeHeap.percolateLoop mem 0 array[0]).run (array, 0); _) = _
  rw [hrun]
  change (do let a ← store array 0 array[0]; _) = _
  rw [store, if_pos hpos, List.set_getElem_self]
  rfl

variable [DecidableEq P]

theorem IsHeap.delTimer (hh : IsHeap mem h items) {x : P} {t : HeapTimer} (hx : mem x = some t) :
    ∃ mem', TimeHeap.delTimer mem (some x) = .ok mem' ∧ IsHeap mem' h items := by
  refine ⟨Function.update mem x (some { t with cbFunc := none }), ?_, ?_⟩
  · simp only [TimeHeap.delTimer, hx]
  · have hkey : key (Function.update mem x (some { t with cbFunc := none })) = key mem := by
      funext p
      by_cases hp : p = x
      · subst hp
        rw [key, key, Function.update_self, hx]
        rfl
      · rw [key, key, Function.update_of_ne hp]
    refine { hh with live := ?_, ordered := hkey.symm ▸ hh.ordered }
    intro p hp
    by_cases hpx : p = x
    · subst hpx
      exact ⟨_, Function.update_self _ _ _⟩
    · rw [Function.update_of_ne hpx]
      exact hh.live p hp

/-- `pop_timer` of a nonempty heap, when the last cell can be stored in the root and sinks. -/
theorem IsHeap.popTimer_run {p : P} (hh : IsHeap mem h (p :: items)) {array' : List (Option P)} {h' : TimeHeap P}
    (hstore : store h.array 0 (p :: items)[items.length]? = .ok array')
    (hdown : TimeHeap.percolateDown (Function.update mem p none) ⟨array', h.capacity, items.length⟩ 0 = .ok h') :
    h.popTimer mem = .ok (Function.update mem p none, h') := by
  obtain ⟨rest, harr⟩ := hh.cells
  have hcur : h.curSize = items.length + 1 := hh.curSize_eq
  have hne : ¬h.empty := by
    rw [TimeHeap.empty, hcur]
    exact Nat.succ_ne_zero _
  obtain ⟨t, ht⟩ := hh.live p (by simp)
  have hroot : cell h.array 0 = .ok (some p) := by
    rw [harr]
    exact cell_cells (Nat.zero_lt_succ _)
  have hsize : h.curSize - 1 = items.length := by omega
  rw [TimeHeap.popTimer, if_neg hne, hroot, ok_bind]
  dsimp only
  rw [ht, if_neg (by simp), hsize, harr, cell_cells (by simp), ok_bind, ← harr, hstore, ok_bind]
  rw [hdown]
  rfl

/-- Deleting the root does not change the other timers. -/
theorem IsHeap.update_eq {p q : P} (hh : IsHeap mem h (p :: items)) (hq : q ∈ items) :
    Function.update mem p none q = mem q :=
  Function.update_of_ne (ne_of_mem_of_not_mem hq (List.nodup_cons.mp hh.nodup).1) _ _

/-- With the last timer in the root, the order holds everywhere below. -/
theorem IsHeap.downHole_last {p last : P} {mid : List P} (hh : IsHeap mem h (p :: (mid ++ [last]))) :
    DownHole 0 (last :: mid).length (keys (key (Function.update mem p none)) (last :: mid)) 0 := by
  have hkeys : ∀ i, 0 < i → i < (last :: mid).length →
      keys (key (Function.update mem p none)) (last :: mid) i = keys (key mem) (p :: (mid ++ [last])) i := by
    intro i hi hlt
    obtain ⟨j, rfl⟩ : ∃ j, i = j + 1 := ⟨i - 1, by omega⟩
    have hj : j < mid.length := Nat.lt_of_succ_lt_succ hlt
    have hv : (last :: mid)[j + 1]? = some mid[j] := List.getElem?_eq_getElem hj
    have hitems : (p :: (mid ++ [last]))[j + 1]? = some mid[j] := by
      rw [List.getElem?_cons_succ, List.getElem?_append_left hj, List.getElem?_eq_getElem hj]
    rw [keys_of_get hv, keys_of_get hitems, key, key,
      hh.update_eq (List.mem_append_left _ (List.getElem_mem hj))]
  have hord : Ordered 0 (last :: mid).length (keys (key mem) (p :: (mid ++ [last]))) := by
    intro i hi hlt hlo
    refine hh.ordered i hi ?_ hlo
    simp at hlt ⊢
    omega
  exact hord.replace_root hkeys

/-- The timer in the root is deleted, the last one takes its place and sinks. -/
theorem IsHeap.popTimer_cons {p : P} (hh : IsHeap mem h (p :: items)) :
    ∃ h' w, h.popTimer mem = .ok (Function.update mem p none, h') ∧
      IsHeap (Function.update mem p none) h' w ∧ w.Perm items := by
  obtain ⟨rest, harr⟩ := hh.cells
  rcases List.eq_nil_or_concat' items with rfl | ⟨mid, last, rfl⟩
  · have hpos : 0 < h.array.length := by
      rw [harr]
      simp
    have hstore : store h.array 0 [p][0]? = .ok h.array := by
      rw [store, if_pos hpos, harr]
      rfl
    refine ⟨⟨h.array, h.capacity, 0⟩, [], hh.popTimer_run hstore (percolateDown_nil _ _ hpos), ?_, .refl _⟩
    exact ⟨⟨_, rfl⟩, hh.length_eq, hh.capacity_pos, rfl, by simp [Live], List.nodup_nil,
      ordered_of_half_le _ (by simp)⟩
  · have hperm : (last :: mid).Perm (mid ++ [last]) := (List.perm_append_singleton last mid).symm
    have hlive : Live (Function.update mem p none) (last :: mid) := by
      intro q hq
      rw [hh.update_eq (hperm.mem_iff.mp hq)]
      exact hh.live q (List.mem_cons_of_mem _ (hperm.mem_iff.mp hq))
    obtain ⟨w, hw, how, hdown⟩ := percolateDown_cells (Function.update mem p none) h.capacity (some last :: rest)
      hlive (Nat.zero_lt_succ _) hh.downHole_last
    have hlen : (last :: mid).length = (mid ++ [last]).length := hperm.length_eq
    have hlast : (p :: (mid ++ [last]))[(mid ++ [last]).length]? = some last := by simp
    have hstore : store h.array 0 (p :: (mid ++ [last]))[(mid ++ [last]).length]? =
        .ok ((last :: mid).map some ++ some last :: rest) := by
      rw [store, harr, hlast, if_pos (by simp)]
      simp
    refine ⟨_, w, hh.popTimer_run hstore (hlen ▸ hdown), ?_, hw.trans hperm⟩
    refine ⟨⟨_, rfl⟩, ?_, hh.capacity_pos, ?_, hlive.perm hw, ?_, how⟩
    · have hcap := hh.length_eq
      have hwl := hw.length_eq
      rw [harr] at hcap
      simp only [List.length_append, List.length_map, List.length_cons, List.length_nil] at hcap hwl ⊢
      omega
    · change (mid ++ [last]).length = w.length
      rw [hw.length_eq, hlen]
    · exact (hw.trans hperm).nodup_iff.mpr (List.nodup_cons.mp hh.nodup).2

end Operations

/-- The heaps that calls lead to from either constructor, with the timers supplied and not yet popped.
`other` is whatever the rest of the program does to objects that are not in the heap. -/
inductive Run [DecidableEq P] : Memory P → TimeHeap P → List P → Prop
  | ofCapacity (mem : Memory P) {cap : ℕ} : 1 ≤ cap → Run mem (.ofCapacity cap) []
  | ofArray {mem : Memory P} {timers : List P} (more : List (Option P)) {capacity h} : Live mem timers →
      timers.Nodup → timers.length ≤ capacity → 1 ≤ capacity →
      TimeHeap.ofArray mem (timers.map some ++ more) timers.length capacity = .ok h → Run mem h timers
  | addTimer {mem h held h'} (timer : Option P) : Run mem h held →
      (∀ x, timer = some x → mem x ≠ none ∧ x ∉ held) → h.addTimer mem timer = .ok h' →
      Run mem h' (timer.toList ++ held)
  | delTimer {mem h held mem'} (timer : Option P) : Run mem h held → (∀ x, timer = some x → mem x ≠ none) →
      TimeHeap.delTimer mem timer = .ok mem' → Run mem' h held
  | popTimer {mem h held popped mem' h'} : Run mem h held → h.top = .ok popped →
      h.popTimer mem = .ok (mem', h') → Run mem' h' (held.diff popped.toList)
  | other {mem h held mem'} : Run mem h held → (∀ x ∈ held, mem' x = mem x) → Run mem' h held

structure Correct [DecidableEq P] (mem : Memory P) (h : TimeHeap P) (held : List P) : Prop where
  curSize_le : h.curSize ≤ h.capacity
  length_eq : h.array.length = h.capacity
  ordered : ∀ i, 0 < i → i < h.curSize → ∃ e₁ e₂, expireAt mem h.array ((i - 1) / 2) = .ok e₁ ∧
    expireAt mem h.array i = .ok e₂ ∧ e₁ ≤ e₂
  perm : ∃ items : List P, h.array.take h.curSize = items.map some ∧ items.Perm held
  top_none : h.top = .ok none ↔ held = []
  top_least : ∀ p, h.top = .ok (some p) → p ∈ held ∧ ∀ q ∈ held, key mem p ≤ key mem q
  /-- no call accesses the array outside of its bounds, or an object that does not exist -/
  addTimer_ok : ∀ timer : Option P, (∀ x, timer = some x → mem x ≠ none ∧ x ∉ held) →
    ∃ h', h.addTimer mem timer = .ok h'
  delTimer_ok : ∀ timer : Option P, (∀ x, timer = some x → mem x ≠ none) →
    ∃ mem', TimeHeap.delTimer mem timer = .ok mem'
  top_ok : ∃ p, h.top = .ok p
  popTimer_ok : ∃ r, h.popTimer mem = .ok r

section Runs
variable {mem mem' : Memory P} {h h' : TimeHeap P} {held : List P}

theorem IsHeap.addTimer_perm {items : List P} (hh : IsHeap mem h items) {timer : Option P}
    (ha : ∀ x, timer = some x → mem x ≠ none ∧ x ∉ items) :
    ∃ h' w, h.addTimer mem timer = .ok h' ∧ IsHeap mem h' w ∧ w.Perm (timer.toList ++ items) := by
  cases timer with
  | none => exact ⟨h, items, rfl, hh, .refl _⟩
  | some x =>
    obtain ⟨t, ht⟩ := Option.ne_none_iff_exists'.mp (ha x rfl).1
    exact hh.addTimer ht (ha x rfl).2

variable [DecidableEq P]

theorem IsHeap.delTimer_perm {items : List P} (hh : IsHeap mem h items) {timer : Option P}
    (ha : ∀ x, timer = some x → mem x ≠ none) :
    ∃ mem', TimeHeap.delTimer mem timer = .ok mem' ∧ IsHeap mem' h items := by
  cases timer with
  | none => exact ⟨mem, rfl, hh⟩
  | some x =>
    obtain ⟨t, ht⟩ := Option.ne_none_iff_exists'.mp (ha x rfl)
    exact hh.delTimer ht

theorem IsHeap.popTimer_perm {items : List P} (hh : IsHeap mem h items) : ∃ mem' h' w,
    h.popTimer mem = .ok (mem', h') ∧ IsHeap mem' h' w ∧ w.Perm (items.diff items.head?.toList) := by
  cases items with
  | nil => exact ⟨mem, h, [], if_pos hh.curSize_eq, hh, .refl _⟩
  | cons p items =>
    obtain ⟨h', w, hpop, hw, hperm⟩ := hh.popTimer_cons
    exact ⟨_, h', w, hpop, hw, by simpa using hperm⟩

/-- The invariant of a run. -/
theorem Run.isHeap (hr : Run mem h held) : ∃ items, IsHeap mem h items ∧ items.Perm held := by
  induction hr with
  | ofCapacity mem hcap => exact ⟨[], isHeap_ofCapacity mem hcap, .refl _⟩
  | ofArray more hl hn hle hpos he =>
    obtain ⟨h', items, he', hh, hperm⟩ := isHeap_ofArray more hl hn hle hpos
    obtain rfl := Except.ok.inj (he.symm.trans he')
    exact ⟨items, hh, hperm⟩
  | addTimer timer _ ha he ih =>
    obtain ⟨items, hh, hperm⟩ := ih
    obtain ⟨h', w, he', hw, hwp⟩ := hh.addTimer_perm fun x hx => ⟨(ha x hx).1, mt hperm.mem_iff.mp (ha x hx).2⟩
    obtain rfl := Except.ok.inj (he.symm.trans he')
    exact ⟨w, hw, hwp.trans (hperm.append_left _)⟩
  | delTimer timer _ ha he ih =>
    obtain ⟨items, hh, hperm⟩ := ih
    obtain ⟨mem', he', hw⟩ := hh.delTimer_perm ha
    obtain rfl := Except.ok.inj (he.symm.trans he')
    exact ⟨items, hw, hperm⟩
  | popTimer _ ht he ih =>
    obtain ⟨items, hh, hperm⟩ := ih
    obtain ⟨mem', h', w, he', hw, hwp⟩ := hh.popTimer_perm
    obtain ⟨rfl, rfl⟩ := Prod.mk.inj (Except.ok.inj (he.symm.trans he'))
    obtain rfl := Except.ok.inj (ht.symm.trans hh.top)
    exact ⟨w, hw, hwp.trans (hperm.diff_right _)⟩
  | other _ hm ih =>
    obtain ⟨items, hh, hperm⟩ := ih
    exact ⟨items, hh.frame fun p hp => hm p (hperm.mem_iff.mp hp), hperm⟩

theorem IsHeap.correct {items : List P} (hh : IsHeap mem h items) (hperm : items.Perm held) : Correct mem h held := by
  obtain ⟨rest, harr⟩ := hh.cells
  have hcur := hh.curSize_eq
  have htop := hh.top
  constructor
  · rw [hcur, ← hh.length_eq, harr]
    simp
  · exact hh.length_eq
  · intro i hi hlt
    rw [hcur] at hlt
    have hp : (i - 1) / 2 < items.length := (parent_lt hi).trans hlt
    refine ⟨_, _, ?_, ?_, hh.ordered i hi hlt (Nat.zero_le _)⟩
    · rw [expireAt, harr, cell_cells hp]
      exact expireOf_get hh.live hp
    · rw [expireAt, harr, cell_cells hlt]
      exact expireOf_get hh.live hlt
  · refine ⟨items, ?_, hperm⟩
    rw [harr, hcur, List.take_left' (List.length_map ..)]
  · rw [htop, Except.ok.injEq, List.head?_eq_none_iff]
    exact ⟨fun he => List.nil_perm.mp (he ▸ hperm), fun he => List.perm_nil.mp (he ▸ hperm)⟩
  · intro p hp
    have hhead := Except.ok.inj (htop.symm.trans hp)
    refine ⟨hperm.mem_iff.mp (List.mem_of_mem_head? hhead), ?_⟩
    intro q hq
    exact hh.head_least hhead q (hperm.mem_iff.mpr hq)
  · intro timer ha
    obtain ⟨h', -, he, -⟩ := hh.addTimer_perm fun x hx => ⟨(ha x hx).1, mt hperm.mem_iff.mp (ha x hx).2⟩
    exact ⟨h', he⟩
  · intro timer ha
    obtain ⟨mem', he, -⟩ := hh.delTimer_perm ha
    exact ⟨mem', he⟩
  · exact ⟨_, htop⟩
  · obtain ⟨mem', h', -, he, -⟩ := hh.popTimer_perm
    exact ⟨_, he⟩

end Runs

/-- Both constructors succeed on timers that exist, and in every run the heap is a correct min-heap of
the timers held. -/
theorem timeHeap_correct [DecidableEq P] :
    (∀ (mem : Memory P) (timers : List P) (more : List (Option P)) (capacity : ℕ), Live mem timers →
      timers.Nodup → timers.length ≤ capacity → 1 ≤ capacity →
      ∃ h, TimeHeap.ofArray mem (timers.map some ++ more) timers.length capacity = .ok h) ∧
    ∀ (mem : Memory P) (h : TimeHeap P) (held : List P), Run mem h held → Correct mem h held := by
  constructor
  · intro mem timers more capacity hl hn hle hpos
    obtain ⟨h, -, he, -⟩ := isHeap_ofArray more hl hn hle hpos
    exact ⟨h, he⟩
  · intro mem h held hr
    obtain ⟨items, hh, hperm⟩ := hr.isHeap
    exact hh.correct hperm

theorem timeHeap_correct_two :
    ∃ h, Correct (fun p : ℕ => if p < 2 then some ⟨5 - p, none, 0⟩ else none) h [0, 1] := by
  have hl : Live (fun p : ℕ => if p < 2 then some ⟨5 - p, none, 0⟩ else none) [0, 1] := by simp [Live]
  obtain ⟨h, he⟩ := timeHeap_correct.1 _ [0, 1] [] 2 hl (by decide) (by decide) (by decide)
  exact ⟨h, timeHeap_correct.2 _ h _ (.ofArray [] hl (by decide) (by decide) (by decide) he)⟩

end LinuxSocket.MinHeapTimer
