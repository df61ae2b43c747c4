import LinuxSocket.MinHeapTimer.Runs

/-! # The bounds of the array

No pointer has to be valid here, and the timer objects may be any before each call. A heap of capacity 0 is the only
one that leaves its array: `tick` looks at the root first, and twice nothing is no room for another timer.
-/
namespace LinuxSocket.MinHeapTimer
variable {P α : Type}

/-- A computation that accesses no cell outside of the array; what it returns meets `Q`. -/
abbrev InBounds (Q : α → Prop) (x : Result α) : Prop := Avoids (· = Failure.index) Q x

inductive Call (P : Type)
  | addTimer (timer : Option P)
  | popTimer
  | tick (cur : ℤ)

def TimeHeap.exec [DecidableEq P] (mem : Memory P) (h : TimeHeap P) : Call P → Result (TimeHeap P)
  | .addTimer timer => h.addTimer mem timer
  | .popTimer => do
    let (_, h) ← h.popTimer mem
    .ok h
  | .tick cur => do
    let (_, h, _) ← h.tick mem cur
    .ok h

/-- What the constructors make of the arguments that they accept. -/
inductive Constructed : ℕ → Result (TimeHeap P) → Prop
  | ofCapacity (cap : ℕ) : Constructed cap (.ok (.ofCapacity cap))
  | ofArray (mem : Memory P) (initArray : List (Option P)) {size capacity : ℕ} : size ≤ capacity →
      size ≤ initArray.length → Constructed capacity (TimeHeap.ofArray mem initArray size capacity)

inductive Reached [DecidableEq P] (h₀ : TimeHeap P) : TimeHeap P → Prop
  | start : Reached h₀ h₀
  | call {h h'} (mem : Memory P) (c : Call P) : Reached h₀ h → h.exec mem c = .ok h' → Reached h₀ h'

/-- The array has as many cells as the capacity says, and neither the constructor nor any call accesses another. -/
structure StaysInBounds [DecidableEq P] (made : Result (TimeHeap P)) : Prop where
  constructor_ne : made ≠ .error .index
  length_eq : ∀ h₀ h, made = .ok h₀ → Reached h₀ h → h.array.length = h.capacity
  exec_ne : ∀ h₀ h, made = .ok h₀ → Reached h₀ h → ∀ mem c, h.exec mem c ≠ .error .index

structure Bounded (h : TimeHeap P) : Prop where
  length_eq : h.array.length = h.capacity
  curSize_le : h.curSize ≤ h.capacity
  capacity_pos : 0 < h.capacity

section Accesses
variable {mem : Memory P} {array : List (Option P)} {i : ℕ}

theorem inBounds_cell (h : i < array.length) : InBounds (fun _ => True) (cell array i) := by
  rw [cell, List.getElem?_eq_getElem h]
  trivial

theorem inBounds_store (h : i < array.length) (p : Option P) :
    InBounds (fun array' => array'.length = array.length) (store array i p) := by
  rw [store, if_pos h]
  exact List.length_set

theorem inBounds_expireOf (mem : Memory P) (p : Option P) : InBounds (fun _ => True) (expireOf mem p) := by
  unfold expireOf
  split
  · trivial
  · exact Failure.noConfusion

theorem inBounds_expireAt (mem : Memory P) (h : i < array.length) : InBounds (fun _ => True) (expireAt mem array i) :=
  (inBounds_cell h).bind fun p _ => inBounds_expireOf mem p

end Accesses

section Loops
variable {mem : Memory P} {array : List (Option P)} {curSize hole n : ℕ} {s : List (Option P) × ℕ}

theorem inBounds_smallerChild (mem : Memory P) (hle : curSize ≤ array.length) (hlt : hole * 2 + 1 < curSize) :
    InBounds (· < curSize) (TimeHeap.smallerChild mem curSize array hole) := by
  unfold TimeHeap.smallerChild
  dsimp only
  split
  · next hright =>
    refine (inBounds_expireAt mem (by omega)).bind fun _ _ => ?_
    refine (inBounds_expireAt mem (by omega)).bind fun _ _ => ?_
    split
    · exact hright
    · exact hlt
  · exact hlt

theorem inBounds_percolateNext (mem : Memory P) (temp : Option P) (hle : curSize ≤ n) (hs : s.1.length = n ∧ s.2 < n) :
    InBounds (fun o => ∀ t, o = some t → t.1.length = n ∧ t.2 < n) (TimeHeap.percolateNext mem curSize temp s) := by
  obtain ⟨array, hole⟩ := s
  obtain ⟨hlen, hhole⟩ : array.length = n ∧ hole < n := hs
  rw [TimeHeap.percolateNext]
  split
  · next hlt =>
    refine (inBounds_smallerChild mem (by omega) hlt).bind fun child hchild => ?_
    refine (inBounds_expireAt mem (by omega)).bind fun _ _ => ?_
    refine (inBounds_expireOf mem temp).bind fun _ _ => ?_
    split
    · refine (inBounds_cell (by omega)).bind fun p _ => ?_
      refine (inBounds_store (by omega) p).bind fun array' harray => ?_
      rintro t ⟨⟩
      exact ⟨harray.trans hlen, hchild.trans_le hle⟩
    · rintro t ⟨⟩
  · rintro t ⟨⟩

theorem inBounds_siftUpNext (mem : Memory P) (timer : Option P) (hs : s.1.length = n ∧ s.2 < n) :
    InBounds (fun o => ∀ t, o = some t → t.1.length = n ∧ t.2 < n) (TimeHeap.siftUpNext mem timer s) := by
  obtain ⟨array, hole⟩ := s
  obtain ⟨hlen, hhole⟩ : array.length = n ∧ hole < n := hs
  rw [TimeHeap.siftUpNext]
  dsimp only
  split
  · refine (inBounds_expireAt mem (by omega)).bind fun _ _ => ?_
    refine (inBounds_expireOf mem timer).bind fun _ _ => ?_
    split
    · rintro t ⟨⟩
    · refine (inBounds_cell (by omega)).bind fun p _ => ?_
      refine (inBounds_store (by omega) p).bind fun array' harray => ?_
      rintro t ⟨⟩
      exact ⟨harray.trans hlen, by omega⟩
  · rintro t ⟨⟩

end Loops

section Calls
variable {h : TimeHeap P}

theorem Bounded.percolateDown (hb : Bounded h) (mem : Memory P) {hole : ℕ} (hhole : hole < h.capacity) :
    InBounds (fun h' => Bounded h' ∧ h'.capacity = h.capacity) (h.percolateDown mem hole) := by
  have hlen := hb.length_eq
  refine (inBounds_cell (by omega)).bind fun temp _ => ?_
  refine (Loop.avoids_whileSome (fun s hs => inBounds_percolateNext mem temp hb.curSize_le hs) ⟨hlen, hhole⟩).bind ?_
  rintro ⟨array, last⟩ ⟨harray, hlast⟩
  refine (inBounds_store (harray ▸ hlast) temp).bind fun array' harray' => ?_
  exact ⟨⟨harray'.trans harray, hb.curSize_le, hb.capacity_pos⟩, rfl⟩

theorem Bounded.heapify (hb : Bounded h) (mem : Memory P) {i : ℕ} (hi : i < h.capacity) :
    InBounds Bounded (h.heapify mem i) := by
  induction i generalizing h with
  | zero => exact Avoids.mono (hb.percolateDown mem hi) fun h' hh => hh.1
  | succ i ih =>
    refine (hb.percolateDown mem hi).bind fun h' hh => ?_
    exact ih hh.1 (hh.2 ▸ Nat.lt_of_succ_lt hi)

theorem Bounded.makeRoom (hb : Bounded h) :
    InBounds (fun h' => Bounded h' ∧ h'.curSize < h'.capacity) h.makeRoom := by
  have hlen := hb.length_eq
  have hle := hb.curSize_le
  have hpos := hb.capacity_pos
  unfold TimeHeap.makeRoom
  split
  · have hdst : (List.replicate (2 * h.capacity) (none : Option P)).length = 2 * h.capacity := List.length_replicate
    rw [TimeHeap.resize, copyCells_of_le (by omega) (by omega), ok_bind]
    have hnew : (h.array.take h.curSize ++ (List.replicate (2 * h.capacity) none).drop h.curSize).length =
        2 * h.capacity := by
      rw [List.length_append, List.length_take, List.length_drop, hdst]
      omega
    exact ⟨⟨hnew, by dsimp only; omega, by dsimp only; omega⟩, by dsimp only; omega⟩
  · exact ⟨hb, by omega⟩

theorem Bounded.addTimer (hb : Bounded h) (mem : Memory P) (timer : Option P) :
    InBounds Bounded (h.addTimer mem timer) := by
  cases timer with
  | none => exact hb
  | some x =>
    refine hb.makeRoom.bind fun room hroom => ?_
    obtain ⟨hb, hlt⟩ := hroom
    refine (Loop.avoids_whileSome (fun s hs => inBounds_siftUpNext mem (some x) hs) ⟨hb.length_eq, hlt⟩).bind ?_
    rintro ⟨array, last⟩ ⟨harray, hlast⟩
    refine (inBounds_store (harray ▸ hlast) (some x)).bind fun array' harray' => ?_
    exact ⟨harray'.trans harray, hlt, hb.capacity_pos⟩

theorem Bounded.task (hb : Bounded h) (mem : Memory P) : InBounds (fun _ => True) (TimeHeap.task mem h) := by
  refine (inBounds_cell (hb.length_eq ▸ hb.capacity_pos)).bind fun root _ => ?_
  cases root.bind mem with
  | none => exact Failure.noConfusion
  | some t => trivial

variable [DecidableEq P]

theorem Bounded.popTimer (hb : Bounded h) (mem : Memory P) : InBounds (fun r => Bounded r.2) (h.popTimer mem) := by
  have hlen := hb.length_eq
  have hle := hb.curSize_le
  have hpos := hb.capacity_pos
  unfold TimeHeap.popTimer
  split
  · exact hb
  · refine (inBounds_cell (by omega)).bind fun root _ => ?_
    cases root with
    | none => exact hb
    | some p =>
      dsimp only
      split
      · exact Failure.noConfusion
      · refine (inBounds_cell (by omega)).bind fun last _ => ?_
        refine (inBounds_store (by omega) last).bind fun array harray => ?_
        have hb' : Bounded ⟨array, h.capacity, h.curSize - 1⟩ :=
          ⟨harray.trans hlen, (Nat.sub_le _ _).trans hle, hpos⟩
        exact (hb'.percolateDown _ hpos).bind fun h' hh => hh.1

theorem inBounds_tickNext (cur : ℤ) {s : TimeHeap.Tick P} (hs : Bounded s.heap) :
    InBounds (fun o => ∀ t, o = some t → Bounded t.heap) (TimeHeap.tickNext cur s) := by
  have hpos : 0 < s.heap.array.length := hs.length_eq ▸ hs.capacity_pos
  unfold TimeHeap.tickNext
  split
  · exact fun t ht => nomatch ht
  · split
    · exact fun t ht => nomatch ht
    · refine (inBounds_expireOf s.mem s.tmp).bind fun _ _ => ?_
      split
      · exact fun t ht => nomatch ht
      · refine (hs.task s.mem).bind fun calls _ => ?_
        refine (hs.popTimer s.mem).bind fun r hr => ?_
        refine (inBounds_cell (hr.length_eq ▸ hr.capacity_pos)).bind fun tmp _ => ?_
        rintro t ⟨⟩
        exact hr

theorem Bounded.tick (hb : Bounded h) (mem : Memory P) (cur : ℤ) :
    InBounds (fun r => Bounded r.2.1) (h.tick mem cur) := by
  refine (inBounds_cell (hb.length_eq ▸ hb.capacity_pos)).bind fun tmp _ => ?_
  refine (Loop.avoids_whileSome (I := fun s : TimeHeap.Tick P => Bounded s.heap)
    (fun s hs => inBounds_tickNext cur hs) hb).bind fun s hs => hs

theorem Bounded.exec (hb : Bounded h) (mem : Memory P) (c : Call P) : InBounds Bounded (h.exec mem c) := by
  cases c with
  | addTimer timer => exact hb.addTimer mem timer
  | popTimer => exact (hb.popTimer mem).bind fun r hr => hr
  | tick cur => exact (hb.tick mem cur).bind fun r hr => hr

theorem Reached.bounded {h₀ : TimeHeap P} (hr : Reached h₀ h) (h₀b : Bounded h₀) : Bounded h := by
  induction hr with
  | start => exact h₀b
  | call mem c _ he ih => exact (ih.exec mem c).of_ok he

end Calls

section Capacity
variable {capacity : ℕ} {made : Result (TimeHeap P)}

theorem bounded_ofCapacity (hpos : 0 < capacity) : Bounded (TimeHeap.ofCapacity capacity : TimeHeap P) :=
  ⟨List.length_replicate, Nat.zero_le _, hpos⟩

theorem Constructed.inBounds (hc : Constructed capacity made) (hpos : 0 < capacity) : InBounds Bounded made := by
  cases hc with
  | ofCapacity => exact bounded_ofCapacity hpos
  | @ofArray mem initArray size _ hle hsize =>
    have hdst : (List.replicate capacity (none : Option P)).length = capacity := List.length_replicate
    rw [TimeHeap.ofArray, if_neg (Nat.not_lt.mpr hle)]
    split
    · rw [copyCells_of_le (by omega) hsize, ok_bind]
      have hnew : (initArray.take size ++ (List.replicate capacity none).drop size).length = capacity := by
        rw [List.length_append, List.length_take, List.length_drop, hdst]
        omega
      exact Bounded.heapify ⟨hnew, hle, hpos⟩ mem (by dsimp only; omega)
    · exact ⟨hdst, hle, hpos⟩

theorem Constructed.eq_empty (hc : Constructed 0 made) : made = .ok ⟨[], 0, 0⟩ := by
  generalize hcap : 0 = capacity at hc
  cases hc with
  | ofCapacity => rw [← hcap]; rfl
  | ofArray mem initArray hle =>
    subst hcap
    obtain rfl := Nat.le_zero.mp hle
    rfl

variable [DecidableEq P]

/-- Nothing leaves the array exactly when the constructor was given a capacity. -/
theorem staysInBounds_iff (hc : Constructed capacity made) : StaysInBounds made ↔ 0 < capacity := by
  constructor
  · intro h
    by_contra hzero
    obtain rfl := Nat.eq_zero_of_not_pos hzero
    exact h.exec_ne _ _ hc.eq_empty .start (fun _ => none) (.tick 0) rfl
  · intro hpos
    have hmade := hc.inBounds hpos
    refine ⟨hmade.not_bad rfl, fun h₀ h he hr => ?_, fun h₀ h he hr mem c => ?_⟩
    · exact (hr.bounded (hmade.of_ok he)).length_eq
    · exact ((hr.bounded (hmade.of_ok he)).exec mem c).not_bad rfl

theorem staysInBounds_iff_one : StaysInBounds (.ok (.ofCapacity 1) : Result (TimeHeap ℕ)) :=
  (staysInBounds_iff (.ofCapacity 1)).mpr Nat.one_pos

/-- `add_timer` on a heap of capacity 0 doubles nothing and then stores the timer. -/
theorem no_capacity_overruns : ¬∀ (capacity : ℕ) (made : Result (TimeHeap ℕ)), Constructed capacity made →
    StaysInBounds made := by
  intro h
  exact (h 0 _ (.ofCapacity 0)).exec_ne _ _ rfl .start (fun _ => none) (.addTimer (some 1)) rfl

end Capacity

end LinuxSocket.MinHeapTimer
