import LinuxSocket.ListTimer.Links

/-! # The timer list stays sorted

What the operations do to a list that is linked in the order of its expiry times.
-/
namespace LinuxSocket.ListTimer
open DoublyLinked StableList SortTimerLst
variable {P : Type} {s s' : SortTimerLst P} {x : P} {l r xs : List P}

structure Holds (s : SortTimerLst P) (xs : List P) : Prop extends Rep s xs where
  sorted : Sorted s.key xs

theorem holds_init : Holds (init : SortTimerLst P) [] := ⟨⟨rfl, fun h => absurd rfl h, trivial, List.nodup_nil⟩, .nil⟩

theorem Holds.of_insert (h : Rep s' (insertBy s.key x xs)) (hs : Sorted s.key xs)
    (hdata : ∀ q, s'.heap.dataAt q = s.heap.dataAt q) : Holds s' (insertBy s.key x xs) :=
  ⟨h, (hs.insertBy x).congr fun q _ => congrFun (key_congr hdata) q⟩

variable [DecidableEq P]

/-- `add_timer` of a timer outside of the list whose pointers are null. -/
theorem Holds.addTimer {d : UtilTimer} (h : Holds s xs) (hx : s.heap x = some ⟨d, none, none⟩) (hnew : x ∉ xs) :
    ∃ s', Returns (fun fuel => s.addTimer fuel (some x)) s' ∧ Holds s' (insertBy s.key x xs) ∧
      ∀ q, s'.heap.dataAt q = s.heap.dataAt q := by
  cases xs with
  | nil =>
    have hrep : Rep { s with head := some x, tail := some x } [x] :=
      ⟨rfl, fun _ => rfl, ⟨⟨d, hx⟩, trivial⟩, List.nodup_singleton x⟩
    refine ⟨_, Returns.of_eq fun fuel => ?_, Holds.of_insert hrep h.sorted fun _ => rfl, fun _ => rfl⟩
    simp [SortTimerLst.addTimer, h.head_eq]
  | cons hd r =>
    have hex := expire_of_node hx
    have hehd := h.expire_eq (p := hd) (by simp)
    by_cases hlt : s.key x < s.key hd
    · obtain ⟨h₁, h₂, hset₁, hset₂, hc, hr₁, hr₂⟩ := h.chain.push hx (List.nodup_cons.mp h.nodup).1 hnew
      have hdata := (hr₁.trans hr₂).data
      have hrep : Rep { s with heap := h₂, head := some x } (insertBy s.key x (hd :: r)) := by
        rw [insertBy_cons_of_lt hlt]
        exact ⟨rfl, fun _ => by simpa using h.tail_eq (by simp), hc, List.nodup_cons.mpr ⟨hnew, h.nodup⟩⟩
      refine ⟨_, Returns.of_eq fun fuel => ?_, Holds.of_insert hrep h.sorted hdata, hdata⟩
      simp [SortTimerLst.addTimer, h.head_eq, hex, hehd, hlt, hset₁, hset₂]
    · have hlist : Rep s ([] ++ hd :: r) := h.toRep
      obtain ⟨s', hrun, hrep, hdata⟩ := hlist.addTimerAfter hx hnew
      refine ⟨s', ?_, Holds.of_insert ?_ h.sorted hdata, hdata⟩
      · refine hrun.congr fun fuel => ?_
        simp only [SortTimerLst.addTimer, h.head_eq, List.head?_cons, hex, hehd, Option.bind_eq_bind, Option.bind_some,
          if_neg hlt]
      · rw [insertBy_cons_of_le (not_lt.mp hlt)]
        exact hrep

/-- A timer that has been taken out is put in again behind one that expires no later. -/
theorem Rep.reinsert {s₂ : SortTimerLst P} {d : Node P UtilTimer} {n : P} (h : Rep s₂ (l ++ n :: r))
    (hdata : ∀ q, s₂.heap.dataAt q = s.heap.dataAt q) (hx : s₂.heap x = some d) (hnew : x ∉ l ++ n :: r)
    (hs : Sorted s.key (l ++ n :: r)) (hle : ∀ y ∈ l, s.key y ≤ s.key x) (hn : s.key n ≤ s.key x) :
    ∃ s', Returns (fun fuel => s₂.addTimerAfter fuel x n) s' ∧ Holds s' (insertBy s.key x (l ++ n :: r)) ∧
      ∀ q, s'.heap.dataAt q = s.heap.dataAt q := by
  obtain ⟨s', hrun, hrep, hdata'⟩ := h.addTimerAfter hx hnew
  have hall : ∀ q, s'.heap.dataAt q = s.heap.dataAt q := fun q => (hdata' q).trans (hdata q)
  refine ⟨s', hrun, Holds.of_insert ?_ hs hall, hall⟩
  rw [insertBy_append hle, insertBy_cons_of_le hn, ← key_congr hdata]
  exact hrep

/-- `adjust_timer` of a timer in the list that expires no earlier than the timers in front of it. -/
theorem Rep.adjustTimer (h : Rep s (l ++ x :: r)) (hs : Sorted s.key (l ++ r)) (hle : ∀ y ∈ l, s.key y ≤ s.key x) :
    ∃ s', Returns (fun fuel => s.adjustTimer fuel (some x)) s' ∧ Holds s' (insertBy s.key x (l ++ r)) ∧
      ∀ q, s'.heap.dataAt q = s.heap.dataAt q := by
  obtain ⟨d, hd⟩ := h.chain.node
  have hex := expire_of_node hd
  have hnext := h.chain.node_next
  have hprev := h.chain.node_prev
  have hhead := h.head_eq_iff
  have hnew : x ∉ l ++ r := (List.nodup_cons.mp (List.nodup_middle.mp h.nodup)).1
  cases r with
  | nil =>
    refine ⟨s, Returns.of_eq fun fuel => ?_, Holds.of_insert ?_ hs fun _ => rfl, fun _ => rfl⟩
    · simp [SortTimerLst.adjustTimer, hnext]
    · rw [insertBy_append hle]
      exact h
  | cons n r =>
    have hen := h.expire_eq (p := n) (by simp)
    rw [List.head?_cons, Option.some_or] at hnext
    by_cases hlt : s.key x < s.key n
    · refine ⟨s, Returns.of_eq fun fuel => ?_, Holds.of_insert ?_ hs fun _ => rfl, fun _ => rfl⟩
      · simp [SortTimerLst.adjustTimer, hnext, hex, hen, hlt]
      · rw [insertBy_append hle, insertBy_cons_of_lt hlt]
        exact h
    · have hn := not_lt.mp hlt
      rcases List.eq_nil_or_concat' l with rfl | ⟨l, p, rfl⟩
      · obtain ⟨h₁, hset₁, hc₁, hr₁, hx₁⟩ := Chain.unlink_first h.chain h.nodup
        obtain ⟨hset₂, hr₂⟩ := modify_relinked (hx₁.trans hd) (f := fun d => { d with next := none }) rfl
        have hrep : Rep ⟨Function.update h₁ x _, some n, s.tail⟩ ([] ++ n :: r) :=
          ⟨rfl, fun _ => by simpa using h.tail_eq (by simp), hc₁.relinked hr₂ fun y hy hyx =>
            hnew (List.mem_singleton.mp hyx ▸ hy), (List.nodup_cons.mp h.nodup).2⟩
        obtain ⟨s', hrun, hres⟩ := hrep.reinsert (hr₁.trans hr₂).data (Function.update_self ..)
          hnew hs hle hn
        refine ⟨s', hrun.congr fun fuel => ?_, hres⟩
        simp [SortTimerLst.adjustTimer, hnext, hex, hen, hlt, hhead.mpr, hset₁, Heap.setNext, hset₂]
      · obtain ⟨h₁, h₂, hset₁, hset₂, hc₂, hr₂, hx₁, hx₂⟩ :=
          Chain.unlink_between (by simpa using h.chain) (by simpa using h.nodup)
        have hrep : Rep ⟨h₂, s.head, s.tail⟩ ((l ++ [p]) ++ n :: r) :=
          ⟨by simpa using h.head_eq, fun _ => by simpa using h.tail_eq (by simp), by simpa using hc₂,
            (List.nodup_cons.mp (List.nodup_middle.mp h.nodup)).2⟩
        obtain ⟨s', hrun, hres⟩ := hrep.reinsert hr₂.data (hx₂.trans hd) hnew hs hle hn
        refine ⟨s', hrun.congr fun fuel => ?_, hres⟩
        have hprev₁ : h₁.prev x = s.heap.prev x := by rw [Heap.prev, hx₁, Heap.prev]
        have hnext₁ : h₁.next x = s.heap.next x := by rw [Heap.next, hx₁, Heap.next]
        have hnext₂ : h₂.next x = s.heap.next x := by rw [Heap.next, hx₂, Heap.next]
        simp [SortTimerLst.adjustTimer, hnext, hex, hen, hlt, hhead, hprev, hprev₁, hnext₁, hnext₂, hset₁, hset₂]

end LinuxSocket.ListTimer
