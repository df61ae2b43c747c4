import LinuxSocket.ListTimer.Sorted

/-! # The timer list refines a stable sorted list

`Queue.exec` says what the component is for: timers in the order of their expiry times, the first
added first among equals. Every operation of the linked list does the same to the timers it holds.
-/
namespace LinuxSocket.ListTimer
open DoublyLinked StableList SortTimerLst

/-- What a caller does. A new timer is at an address where no timer exists. -/
inductive Op (P : Type)
  | add (timer : P) (d : UtilTimer)
  | adjust (timer : P) (expire : ℤ)
  | del (timer : P)
  | tick (cur : ℤ)

variable {P : Type} [DecidableEq P]

def SortTimerLst.setExpire (s : SortTimerLst P) (timer : P) (expire : ℤ) : Option (SortTimerLst P) := do
  let heap ← s.heap.setData timer fun d => { d with expire := expire }
  some { s with heap := heap }

/-- The operations, with the timers that fire. -/
def SortTimerLst.exec (fuel : ℕ) (s : SortTimerLst P) : Op P → Option (List (P × UtilTimer) × SortTimerLst P)
  | .add timer d => do
    let s ← addTimer fuel { s with heap := s.heap.alloc timer d } (some timer)
    some ([], s)
  | .adjust timer expire => do
    let s ← s.setExpire timer expire
    let s ← s.adjustTimer fuel (some timer)
    some ([], s)
  | .del timer => do
    let s ← s.delTimer (some timer)
    some ([], s)
  | .tick cur => s.tick fuel cur

section Abstract

def due (e : P × UtilTimer) : ℤ := e.2.expire

def Queue.exec (l : List (P × UtilTimer)) : Op P → List (P × UtilTimer) × List (P × UtilTimer)
  | .add timer d => ([], insertBy due (timer, d) l)
  | .adjust timer expire =>
    match l.find? (fun e => e.1 = timer) with
    | none => ([], l)
    | some (_, d) => ([], insertBy due (timer, { d with expire := expire }) (l.filter fun e => e.1 ≠ timer))
  | .del timer => ([], l.filter fun e => e.1 ≠ timer)
  | .tick cur => (l.filter fun e => due e ≤ cur, l.filter fun e => cur < due e)

variable {x : P} {d : UtilTimer} {l l' : List (P × UtilTimer)}

omit [DecidableEq P] in
theorem exists_entry (hx : x ∈ l.map Prod.fst) : ∃ l₁ d l₂, l = l₁ ++ (x, d) :: l₂ := by
  obtain ⟨⟨y, d⟩, he, rfl⟩ := List.mem_map.mp hx
  obtain ⟨l₁, l₂, rfl⟩ := List.append_of_mem he
  exact ⟨l₁, d, l₂, rfl⟩

theorem filter_ne_entry (h : ((l ++ (x, d) :: l').map Prod.fst).Nodup) :
    (l ++ (x, d) :: l').filter (fun e => e.1 ≠ x) = l ++ l' := by
  rw [List.map_append, List.map_cons, List.nodup_middle, List.nodup_cons, List.mem_append, not_or] at h
  have hne : ∀ l₀ : List (P × UtilTimer), x ∉ l₀.map Prod.fst → l₀.filter (fun e => e.1 ≠ x) = l₀ := by
    intro l₀ hx
    refine List.filter_eq_self.mpr fun e he => ?_
    simpa using ne_of_mem_of_not_mem (List.mem_map_of_mem he) hx
  rw [List.filter_append, hne l h.1.1, List.filter_cons_of_neg (by simp), hne l' h.1.2]

theorem find_entry (h : ((l ++ (x, d) :: l').map Prod.fst).Nodup) :
    (l ++ (x, d) :: l').find? (fun e => e.1 = x) = some (x, d) := by
  rw [List.map_append, List.map_cons, List.nodup_middle, List.nodup_cons, List.mem_append, not_or] at h
  have hnone : l.find? (fun e => e.1 = x) = none := by
    refine List.find?_eq_none.mpr fun e he => ?_
    simpa using ne_of_mem_of_not_mem (List.mem_map_of_mem he) h.1.1
  rw [List.find?_append, hnone, Option.none_or, List.find?_cons_of_pos (by simp)]

end Abstract

/-- The linked list holds the timers `l` in this order. -/
structure Refines (s : SortTimerLst P) (l : List (P × UtilTimer)) : Prop where
  holds : Holds s (l.map Prod.fst)
  data : ∀ e ∈ l, s.heap.dataAt e.1 = some e.2

variable {s s' : SortTimerLst P} {x : P} {d : UtilTimer} {l l' : List (P × UtilTimer)}

section Data
omit [DecidableEq P]

theorem key_of_data (h : s.heap.dataAt x = some d) : s.key x = d.expire := by
  rw [SortTimerLst.key, expire, h]
  rfl

theorem sorted_keys (hl : ∀ e ∈ l, s.heap.dataAt e.1 = some e.2) : Sorted s.key (l.map Prod.fst) ↔ Sorted due l := by
  rw [Sorted, List.pairwise_map]
  constructor
  · exact fun h => Sorted.congr h fun e he => (key_of_data (hl e he)).symm
  · exact fun h => Sorted.congr h fun e he => key_of_data (hl e he)

theorem Refines.sorted (h : Refines s l) : Sorted due l := (sorted_keys h.data).mp h.holds.sorted

theorem Refines.of_insert (h : Holds s' (insertBy s.key x (l.map Prod.fst))) (hx : s.heap.dataAt x = some d)
    (hl : ∀ e ∈ l, s.heap.dataAt e.1 = some e.2) (hdata : ∀ q, s'.heap.dataAt q = s.heap.dataAt q) :
    Refines s' (insertBy due (x, d) l) := by
  have hall : ∀ e ∈ (x, d) :: l, s.heap.dataAt e.1 = some e.2 := by
    intro e he
    rcases List.mem_cons.mp he with rfl | he
    · exact hx
    · exact hl e he
  refine ⟨?_, ?_⟩
  · have hmap : (insertBy due (x, d) l).map Prod.fst = insertBy s.key x (l.map Prod.fst) :=
      map_insertBy fun e he => key_of_data (hall e he)
    rw [hmap]
    exact h
  · intro e he
    rw [hdata]
    exact hall e ((insertBy_perm due (x, d) l).mem_iff.mp he)

theorem Refines.of_deleted (h : Deleted s s' x (l.map Prod.fst)) (hl : ∀ e ∈ l, s.heap.dataAt e.1 = some e.2)
    (hs : Sorted due l) : Refines s' l := by
  have hne : ∀ e ∈ l, e.1 ≠ x := by
    intro e he hex
    obtain ⟨n, hn⟩ := h.rep.chain.exists_node (List.mem_map_of_mem he)
    rw [hex, h.gone] at hn
    cases hn
  have hdata : ∀ e ∈ l, s'.heap.dataAt e.1 = some e.2 := fun e he => (h.data e.1 (hne e he)).trans (hl e he)
  exact ⟨⟨h.rep, (sorted_keys hdata).mpr hs⟩, hdata⟩

end Data

section Operations

theorem Refines.add (h : Refines s l) (hx : s.heap x = none) (d : UtilTimer) :
    ∃ s', Returns (fun fuel => s.exec fuel (.add x d)) ([], s') ∧ Refines s' (insertBy due (x, d) l) := by
  have hnew : x ∉ l.map Prod.fst := by
    intro hmem
    obtain ⟨n, hn⟩ := h.holds.chain.exists_node hmem
    rw [hx] at hn
    cases hn
  have hne : ∀ y ∈ l.map Prod.fst, y ≠ x := fun y hy => ne_of_mem_of_not_mem hy hnew
  obtain ⟨s₀, hs₀⟩ : ∃ s₀, s₀ = { s with heap := s.heap.alloc x d } := ⟨_, rfl⟩
  have hheap : ∀ y ∈ l.map Prod.fst, s₀.heap y = s.heap y := by
    intro y hy
    rw [hs₀]
    exact Function.update_of_ne (hne y hy) _ _
  have hdata₀ : ∀ e ∈ l, s₀.heap.dataAt e.1 = some e.2 := by
    intro e he
    rw [← h.data e he, Heap.dataAt, hheap e.1 (List.mem_map_of_mem he), Heap.dataAt]
  have hx₀ : s₀.heap x = some ⟨d, none, none⟩ := by
    rw [hs₀]
    exact Function.update_self _ _ _
  have hhead : s₀.head = s.head := by rw [hs₀]
  have htail : s₀.tail = s.tail := by rw [hs₀]
  have hholds : Holds s₀ (l.map Prod.fst) :=
    ⟨⟨hhead.trans h.holds.head_eq, fun hl => htail.trans (h.holds.tail_eq hl), h.holds.chain.frame hheap,
      h.holds.nodup⟩, (sorted_keys hdata₀).mpr h.sorted⟩
  obtain ⟨s', hrun, hs', hdata⟩ := hholds.addTimer hx₀ hnew
  refine ⟨s', ?_, Refines.of_insert hs' (by rw [Heap.dataAt, hx₀]; rfl) hdata₀ hdata⟩
  refine hrun.imp fun fuel hfuel => ?_
  rw [hs₀] at hfuel
  rw [SortTimerLst.exec, hfuel]
  rfl

theorem Refines.del (h : Refines s (l ++ (x, d) :: l')) :
    ∃ s', Returns (fun fuel => s.exec fuel (.del x)) ([], s') ∧ Refines s' (l ++ l') := by
  have hrep := h.holds.toRep
  rw [List.map_append, List.map_cons] at hrep
  obtain ⟨s', hrun, hdel⟩ := hrep.delTimer
  have hsub : (l ++ l').Sublist (l ++ (x, d) :: l') := List.Sublist.append_left (List.sublist_cons_self ..) l
  rw [← List.map_append] at hdel
  refine ⟨s', Returns.of_eq fun fuel => ?_, Refines.of_deleted hdel (fun e he => h.data e (hsub.subset he)) ?_⟩
  · rw [SortTimerLst.exec, hrun]
    rfl
  · exact List.Pairwise.sublist hsub h.sorted

theorem Rep.setExpire {xs : List P} (h : Rep s xs) (hx : x ∈ xs) (hd : s.heap.dataAt x = some d) (new : ℤ) :
    ∃ s₁, s.setExpire x new = some s₁ ∧ Rep s₁ xs ∧ s₁.heap.dataAt x = some { d with expire := new } ∧
      ∀ q, q ≠ x → s₁.heap.dataAt q = s.heap.dataAt q := by
  obtain ⟨n, hn⟩ := h.chain.exists_node hx
  obtain ⟨h₁, hset, hc₁, hdx, hother⟩ := setData_of_node hn fun d => { d with expire := new }
  rw [Heap.dataAt, hn] at hd
  obtain rfl := Option.some.inj hd
  refine ⟨{ s with heap := h₁ }, ?_, ⟨h.head_eq, h.tail_eq, hc₁ _ _ _ h.chain, h.nodup⟩,
    congrArg (Option.map Node.data) hdx, ?_⟩
  · rw [SortTimerLst.setExpire, hset]
    rfl
  · intro q hq
    exact congrArg (Option.map Node.data) (hother q hq)

/-- Setting the expiry time and `adjust_timer` behind it. -/
theorem Refines.adjust (h : Refines s (l ++ (x, d) :: l')) {new : ℤ} (hnew : d.expire ≤ new) :
    ∃ s', Returns (fun fuel => s.exec fuel (.adjust x new)) ([], s') ∧
      Refines s' (insertBy due (x, { d with expire := new }) (l ++ l')) := by
  have hrep := h.holds.toRep
  rw [List.map_append, List.map_cons] at hrep
  have hsub : (l ++ l').Sublist (l ++ (x, d) :: l') := List.Sublist.append_left (List.sublist_cons_self ..) l
  have hx : x ∉ (l ++ l').map Prod.fst := by
    rw [List.map_append]
    exact (List.nodup_cons.mp (List.nodup_middle.mp hrep.nodup)).1
  obtain ⟨s₁, hset, hrep₁, hdx, hother⟩ := hrep.setExpire (by simp) (h.data (x, d) (by simp)) new
  have hdata₁ : ∀ e ∈ l ++ l', s₁.heap.dataAt e.1 = some e.2 := by
    intro e he
    rw [hother e.1 (ne_of_mem_of_not_mem (List.mem_map_of_mem he) hx)]
    exact h.data e (hsub.subset he)
  have hkey : s₁.key x = new := key_of_data hdx
  have hle : ∀ y ∈ l.map Prod.fst, s₁.key y ≤ s₁.key x := by
    intro y hy
    obtain ⟨e, he, rfl⟩ := List.mem_map.mp hy
    rw [hkey, key_of_data (hdata₁ e (List.mem_append_left _ he))]
    exact ((List.pairwise_append.mp h.sorted).2.2 e he (x, d) (by simp)).trans hnew
  have hsorted : Sorted s₁.key (l.map Prod.fst ++ l'.map Prod.fst) := by
    rw [← List.map_append]
    exact (sorted_keys hdata₁).mpr (List.Pairwise.sublist hsub h.sorted)
  obtain ⟨s', hrun, hs', hdata⟩ := hrep₁.adjustTimer hsorted hle
  rw [← List.map_append] at hs'
  refine ⟨s', ?_, Refines.of_insert hs' hdx hdata₁ hdata⟩
  refine hrun.imp fun fuel hfuel => ?_
  simp only [SortTimerLst.exec, hset, Option.bind_eq_bind, Option.bind_some, hfuel]

theorem Refines.tickLoop (h : Refines s l) (cur : ℤ) : ∃ s', Returns (fun fuel => tickLoop cur fuel s s.head)
    (l.filter (fun e => due e ≤ cur), s') ∧ Refines s' (l.filter fun e => cur < due e) := by
  induction l generalizing s with
  | nil =>
    refine ⟨s, Returns.of_succ fun fuel => ?_, h⟩
    have hhead : s.head = none := h.holds.head_eq
    rw [hhead]
    rfl
  | cons e l ih =>
    obtain ⟨p, d⟩ := e
    have hhead : s.head = some p := h.holds.head_eq
    have hp : s.heap.dataAt p = some d := h.data (p, d) (by simp)
    by_cases hlt : cur < d.expire
    · obtain ⟨hfired, hrest⟩ := h.sorted.filter_of_lt (c := cur) hlt
      rw [hfired, hrest]
      refine ⟨s, Returns.of_succ fun fuel => ?_, h⟩
      simp [SortTimerLst.tickLoop, hhead, hp, hlt]
    · have hnext := h.holds.chain.head_next
      obtain ⟨s₁, h₁, hclear, hfree, hdel⟩ := h.holds.toRep.popHead
      have hs₁ : Refines { s₁ with heap := h₁ } l := Refines.of_deleted hdel
        (fun e he => h.data e (List.mem_cons_of_mem _ he)) (List.pairwise_cons.mp h.sorted).2
      obtain ⟨s', hrun, hs'⟩ := ih hs₁
      have hdue : due (p, d) ≤ cur := not_lt.mp hlt
      rw [List.filter_cons_of_pos (by simpa using hdue), List.filter_cons_of_neg (by simpa using hdue)]
      refine ⟨s', ?_, hs'⟩
      rw [Option.or_none] at hnext
      refine hrun.imp_succ fun fuel hfuel => ?_
      simp only [hhead, SortTimerLst.tickLoop, hp, Option.bind_eq_bind, Option.bind_some, if_neg hlt, hnext, hclear,
        hfree, hfuel]

theorem Refines.tick (h : Refines s l) (cur : ℤ) : ∃ s', Returns (fun fuel => s.exec fuel (.tick cur))
    (l.filter (fun e => due e ≤ cur), s') ∧ Refines s' (l.filter fun e => cur < due e) := by
  cases l with
  | nil =>
    have hhead : s.head = none := h.holds.head_eq
    refine ⟨s, Returns.of_eq fun fuel => ?_, h⟩
    simp [SortTimerLst.exec, SortTimerLst.tick, hhead]
  | cons e l =>
    have hhead : s.head = some e.1 := h.holds.head_eq
    obtain ⟨s', hrun, hs'⟩ := h.tickLoop cur
    refine ⟨s', hrun.congr fun fuel => ?_, hs'⟩
    simp [SortTimerLst.exec, SortTimerLst.tick, hhead]

end Operations

section Runs

/-- What a caller keeps to: a new timer is at an address of no timer, and only timers of the list are
adjusted, to no earlier time, and deleted. -/
def Legal (s : SortTimerLst P) (live : Set P) : Op P → Prop
  | .add timer _ => s.heap timer = none
  | .adjust timer expire => timer ∈ live ∧ ∀ old, s.expire timer = some old → old ≤ expire
  | .del timer => timer ∈ live
  | .tick _ => True

def after (live : Set P) (fired : List (P × UtilTimer)) : Op P → Set P
  | .add timer _ => insert timer live
  | .adjust _ _ => live
  | .del timer => live \ {timer}
  | .tick _ => live \ {p | p ∈ fired.map Prod.fst}

inductive Run : SortTimerLst P → Set P → Prop
  | init : Run init ∅
  | exec {s s' live op fired} : Run s live → Legal s live op → Returns (fun fuel => s.exec fuel op) (fired, s') →
      Run s' (after live fired op)

def timers (l : List (P × UtilTimer)) : Set P := {p | p ∈ l.map Prod.fst}

omit [DecidableEq P] in
theorem timers_insertBy (x : P) (d : UtilTimer) (l : List (P × UtilTimer)) :
    timers (insertBy due (x, d) l) = insert x (timers l) := by
  have hperm := (insertBy_perm due (x, d) l).map Prod.fst
  ext p
  exact hperm.mem_iff.trans List.mem_cons

theorem timers_remove (h : ((l ++ (x, d) :: l').map Prod.fst).Nodup) :
    timers (l ++ l') = timers (l ++ (x, d) :: l') \ {x} := by
  ext p
  rw [← filter_ne_entry h, timers, Set.mem_ofPred_eq, List.mem_map]
  constructor
  · rintro ⟨e, he, rfl⟩
    exact ⟨List.mem_map_of_mem (List.mem_filter.mp he).1, by simpa using (List.mem_filter.mp he).2⟩
  · rintro ⟨hp, hpx⟩
    obtain ⟨e, he, rfl⟩ := List.mem_map.mp hp
    exact ⟨e, List.mem_filter.mpr ⟨he, by simpa using hpx⟩, rfl⟩

omit [DecidableEq P] in
theorem timers_tick (h : (l.map Prod.fst).Nodup) (cur : ℤ) : timers (l.filter fun e => cur < due e) =
    timers l \ timers (l.filter fun e => due e ≤ cur) := by
  ext p
  constructor
  · intro hp
    obtain ⟨e, he, rfl⟩ := List.mem_map.mp hp
    obtain ⟨hel, hlt⟩ := List.mem_filter.mp he
    refine ⟨List.mem_map_of_mem hel, fun hp' => ?_⟩
    obtain ⟨e', he', heq⟩ := List.mem_map.mp hp'
    obtain ⟨hel', hle⟩ := List.mem_filter.mp he'
    obtain rfl := List.inj_on_of_nodup_map h hel' hel heq
    simp only [decide_eq_true_eq] at hlt hle
    omega
  · rintro ⟨hp, hnot⟩
    obtain ⟨e, he, rfl⟩ := List.mem_map.mp hp
    refine List.mem_map_of_mem (List.mem_filter.mpr ⟨he, ?_⟩)
    by_contra hlt
    exact hnot (List.mem_map_of_mem (List.mem_filter.mpr ⟨he, by simpa using hlt⟩))

/-- Every operation does to the linked list what it does to the abstract one. -/
theorem Refines.exec {op : Op P} (h : Refines s l) (hop : Legal s (timers l) op) :
    ∃ s', Returns (fun fuel => s.exec fuel op) ((Queue.exec l op).1, s') ∧ Refines s' (Queue.exec l op).2 ∧
      timers (Queue.exec l op).2 = after (timers l) (Queue.exec l op).1 op := by
  cases op with
  | add x d =>
    obtain ⟨s', hrun, hs'⟩ := h.add hop d
    exact ⟨s', hrun, hs', timers_insertBy x d l⟩
  | adjust x new =>
    obtain ⟨l₁, d, l₂, rfl⟩ := exists_entry hop.1
    have hold : d.expire ≤ new := hop.2 _ (by rw [expire, h.data (x, d) (by simp)]; rfl)
    obtain ⟨s', hrun, hs'⟩ := h.adjust hold
    have hexec : Queue.exec (l₁ ++ (x, d) :: l₂) (.adjust x new) =
        ([], insertBy due (x, { d with expire := new }) (l₁ ++ l₂)) := by
      simp only [Queue.exec, find_entry h.holds.nodup, filter_ne_entry h.holds.nodup]
    rw [hexec]
    refine ⟨s', hrun, hs', ?_⟩
    rw [timers_insertBy, timers_remove h.holds.nodup, Set.insert_sdiff_singleton]
    exact Set.insert_eq_of_mem hop.1
  | del x =>
    obtain ⟨l₁, d, l₂, rfl⟩ := exists_entry hop
    obtain ⟨s', hrun, hs'⟩ := h.del
    have hexec : Queue.exec (l₁ ++ (x, d) :: l₂) (.del x) = ([], l₁ ++ l₂) := by
      simp only [Queue.exec, filter_ne_entry h.holds.nodup]
    rw [hexec]
    exact ⟨s', hrun, hs', timers_remove h.holds.nodup⟩
  | tick cur =>
    obtain ⟨s', hrun, hs'⟩ := h.tick cur
    exact ⟨s', hrun, hs', timers_tick h.holds.nodup cur⟩

/-- In every reachable state the list is well formed and sorted and holds the live timers, and every
operation returns what the stable sorted list returns. -/
theorem run_refines {live : Set P} (h : Run s live) : ∃ l, Refines s l ∧ timers l = live ∧
    ∀ op, Legal s live op → ∃ s', Returns (fun fuel => s.exec fuel op) ((Queue.exec l op).1, s') ∧
      Refines s' (Queue.exec l op).2 := by
  have hl : ∃ l, Refines s l ∧ timers l = live := by
    induction h with
    | init => exact ⟨[], ⟨holds_init, fun e he => absurd he List.not_mem_nil⟩, by ext p; simp [timers]⟩
    | exec _ hop hrun ih =>
      obtain ⟨l, hs, rfl⟩ := ih
      obtain ⟨s', hrun', hs', hlive⟩ := hs.exec hop
      obtain ⟨rfl, rfl⟩ := Prod.ext_iff.mp (hrun'.unique hrun)
      exact ⟨_, hs', hlive⟩
  obtain ⟨l, hs, rfl⟩ := hl
  refine ⟨l, hs, rfl, fun op hop => ?_⟩
  obtain ⟨s', hrun, hs', -⟩ := hs.exec hop
  exact ⟨s', hrun, hs'⟩

/-- Two timers, of which the first is postponed to the time of the second, and a tick at that time: the postponed one
goes behind timers of the same time. -/
theorem run_refines_two : ∃ s : SortTimerLst ℕ, ∃ l, Refines s l ∧ timers l = {3, 4} ∧
    (Queue.exec l (.tick 5)).1 = [(4, ⟨5, 1, 40⟩), (3, ⟨5, 1, 30⟩)] ∧ ∀ op, Legal s {3, 4} op →
      ∃ s', Returns (fun fuel => s.exec fuel op) ((Queue.exec l op).1, s') ∧ Refines s' (Queue.exec l op).2 := by
  obtain ⟨s, hrun, hfires⟩ : ∃ s : SortTimerLst ℕ, Run s {3, 4} ∧
      ∀ k, (s.exec (k + 3) (.tick 5)).map Prod.fst = some [(4, ⟨5, 1, 40⟩), (3, ⟨5, 1, 30⟩)] := by
    have hlive : after (after (after ∅ [] (.add 3 ⟨2, 1, 30⟩)) [] (.add 4 ⟨5, 1, 40⟩)) [] (.adjust 3 5) =
        ({3, 4} : Set ℕ) := by
      ext p
      simp [after, or_comm]
    have hfirst := Run.init.exec (show Legal _ _ (.add 3 ⟨2, 1, 30⟩) from rfl) (Returns.of_eq fun _ => rfl)
    have hboth := hfirst.exec (show Legal _ _ (.add 4 ⟨5, 1, 40⟩) from rfl) (Returns.of_succ fun _ => rfl)
    refine ⟨_, hlive ▸ hboth.exec (show Legal _ _ (.adjust 3 5) from ⟨by simp [after], ?_⟩)
        (Returns.of_succ fun _ => rfl),
      fun _ => rfl⟩
    intro old hold
    obtain rfl : 2 = old := Option.some.inj hold
    decide
  obtain ⟨l, hl, htimers, hops⟩ := run_refines hrun
  obtain ⟨s', ⟨N, htick⟩, -⟩ := hops (.tick 5) trivial
  have hfired : some (Queue.exec l (.tick 5)).1 = _ :=
    (congrArg (Option.map Prod.fst) (htick (N + 3) (Nat.le_add_right N 3))).symm.trans (hfires N)
  exact ⟨s, l, hl, htimers, Option.some.inj hfired, hops⟩

end Runs

end LinuxSocket.ListTimer
