import Mathlib.Data.List.Perm.Basic
import LinuxSocket.Lib.BinaryHeap
import LinuxSocket.MinHeapTimer.TimeHeap

/-! # The sifts of the time heap

While a sift runs, one cell of the array is a hole. `Filled` is the array with the carried timer
written into the hole; a sift moves the hole and exchanges two timers of that list.
-/
namespace LinuxSocket.MinHeapTimer
open BinaryHeap

variable {P : Type} {mem : Memory P} {array : List (Option P)} {hole i : ℕ}

def key (mem : Memory P) (p : P) : ℤ := ((mem p).map HeapTimer.expire).getD 0

def Live (mem : Memory P) (v : List P) : Prop := ∀ p ∈ v, ∃ t, mem p = some t

/-- The array with the timer for the hole in its place. -/
structure Filled (array : List (Option P)) (hole : ℕ) (v : List P) (rest : List (Option P)) : Prop where
  lt : hole < v.length
  eq : array.set hole v[hole]? = v.map some ++ rest

theorem getElem?_cells {v : List P} {rest : List (Option P)} (h : i < v.length) :
    (v.map some ++ rest)[i]? = some v[i]? := by
  rw [List.getElem?_append_left (by simpa using h), List.getElem?_map, List.getElem?_eq_getElem h]
  rfl

theorem cell_cells {v : List P} {rest : List (Option P)} (h : i < v.length) :
    cell (v.map some ++ rest) i = .ok v[i]? := by
  rw [cell, getElem?_cells h]

theorem expireOf_get {v : List P} (hl : Live mem v) (h : i < v.length) :
    expireOf mem v[i]? = .ok (keys (key mem) v i) := by
  obtain ⟨t, ht⟩ := hl v[i] (List.getElem_mem h)
  rw [keys, List.getElem?_eq_getElem h]
  simp [expireOf, key, ht]

/-- An array without a hole. -/
theorem filled_cells {v : List P} (rest : List (Option P)) (h : hole < v.length) :
    Filled (v.map some ++ rest) hole v rest where
  lt := h
  eq := by
    apply List.ext_getElem?
    intro i
    rw [List.getElem?_set]
    split
    · next hi =>
      subst hi
      rw [if_pos (by simp only [List.length_append, List.length_map]; omega), getElem?_cells h]
    · rfl

section Filled
variable {v : List P} {rest : List (Option P)}

theorem Filled.length_eq (h : Filled array hole v rest) : array.length = v.length + rest.length := by
  have := congrArg List.length h.eq
  simpa using this

theorem Filled.lt_length (h : Filled array hole v rest) : hole < array.length := by
  have := h.length_eq
  have := h.lt
  omega

theorem Filled.cell (h : Filled array hole v rest) (hi : i < v.length) (hne : i ≠ hole) :
    cell array i = .ok v[i]? := by
  have hget := congrArg (fun a => a[i]?) h.eq
  simp only [List.getElem?_set_ne hne.symm] at hget
  rw [MinHeapTimer.cell, hget, getElem?_cells hi]

theorem Filled.expireAt (h : Filled array hole v rest) (hl : Live mem v) (hi : i < v.length) (hne : i ≠ hole) :
    expireAt mem array i = .ok (keys (key mem) v i) := by
  rw [MinHeapTimer.expireAt, h.cell hi hne]
  exact expireOf_get hl hi

/-- Writing the carried timer closes the hole. -/
theorem Filled.close (h : Filled array hole v rest) : store array hole v[hole]? = .ok (v.map some ++ rest) := by
  rw [store, if_pos h.lt_length, h.eq]

/-- The timer at `i` moves into the hole, and the hole to `i`. -/
theorem Filled.move (h : Filled array hole v rest) (hi : i < v.length) :
    store array hole v[i]? = .ok (array.set hole v[i]?) ∧
      Filled (array.set hole v[i]?) i (v.swap hole i) rest := by
  refine ⟨if_pos h.lt_length, by rw [List.length_swap]; exact hi, ?_⟩
  have hlt := h.lt
  have hswap : (v.swap hole i)[i]? = v[hole]? := by rw [getElem?_swap h.lt hi, if_pos rfl]
  have hset : (v.map some ++ rest).set hole v[i]? = (v.set hole v[i]).map some ++ rest := by
    rw [List.set_append_left _ _ (by simpa using h.lt), List.map_set, List.getElem?_eq_getElem hi]
  calc (array.set hole v[i]?).set i (v.swap hole i)[i]?
      = ((array.set hole v[hole]?).set hole v[i]?).set i v[hole]? := by rw [List.set_set, hswap]
    _ = ((v.set hole v[i]).map some ++ rest).set i v[hole]? := by rw [h.eq, hset]
    _ = ((v.set hole v[i]).set i v[hole]).map some ++ rest := by
        rw [List.set_append_left _ _ (by simpa using hi), List.getElem?_eq_getElem h.lt,
          List.map_set (l := v.set hole v[i])]
    _ = (v.swap hole i).map some ++ rest := by rw [List.swap_eq_of_lt h.lt hi]

end Filled

section Percolate
variable {v : List P} {rest : List (Option P)} {c : ℕ}

theorem smallerChild_filled (h : Filled array hole v rest) (hl : Live mem v) (hlt : hole * 2 + 1 < v.length) :
    ∃ c, TimeHeap.smallerChild mem v.length array hole = .ok c ∧ 0 < c ∧ c < v.length ∧ parent c = hole ∧
      ∀ s, 0 < s → s < v.length → parent s = hole → keys (key mem) v c ≤ keys (key mem) v s := by
  unfold TimeHeap.smallerChild
  dsimp only
  by_cases hright : hole * 2 + 1 + 1 < v.length
  · rw [if_pos hright, h.expireAt hl hright (by omega), h.expireAt hl hlt (by omega)]
    by_cases hle : keys (key mem) v (hole * 2 + 1 + 1) < keys (key mem) v (hole * 2 + 1)
    · refine ⟨hole * 2 + 1 + 1, if_pos hle, by omega, hright, (parent_eq_iff (by omega)).mpr (by omega), ?_⟩
      intro s hs hn hp
      rcases (parent_eq_iff hs).mp hp with hs' | hs'
      · rw [hs', Nat.mul_comm 2 hole]
        exact hle.le
      · rw [hs', Nat.mul_comm 2 hole]
    · refine ⟨hole * 2 + 1, if_neg hle, by omega, hlt, (parent_eq_iff (by omega)).mpr (by omega), ?_⟩
      intro s hs hn hp
      rcases (parent_eq_iff hs).mp hp with hs' | hs'
      · rw [hs', Nat.mul_comm 2 hole]
      · rw [hs', Nat.mul_comm 2 hole]
        exact not_lt.mp hle
  · refine ⟨hole * 2 + 1, if_neg hright, by omega, hlt, (parent_eq_iff (by omega)).mpr (by omega), ?_⟩
    intro s hs hn hp
    rcases (parent_eq_iff hs).mp hp with hs' | hs'
    · rw [hs', Nat.mul_comm 2 hole]
    · omega

/-- What one iteration of `percolate_down` does. -/
theorem percolateNext_filled (h : Filled array hole v rest) (hl : Live mem v) :
    (v.length ≤ hole * 2 + 1 ∧ TimeHeap.percolateNext mem v.length v[hole]? (array, hole) = .ok none) ∨
    ∃ c, 0 < c ∧ c < v.length ∧ parent c = hole ∧
      (∀ s, 0 < s → s < v.length → parent s = hole → keys (key mem) v c ≤ keys (key mem) v s) ∧
      TimeHeap.percolateNext mem v.length v[hole]? (array, hole) =
        if keys (key mem) v c < keys (key mem) v hole then .ok (some (array.set hole v[c]?, c)) else .ok none := by
  rw [TimeHeap.percolateNext]
  by_cases hlt : hole * 2 + 1 < v.length
  · obtain ⟨c, hc, hpos, hcn, hp, hleast⟩ := smallerChild_filled h hl hlt
    have hne : c ≠ hole := by
      have := parent_lt hpos
      omega
    refine Or.inr ⟨c, hpos, hcn, hp, hleast, ?_⟩
    rw [if_pos hlt, hc]
    change (do let a ← expireAt mem array c; _) = _
    rw [h.expireAt hl hcn hne, expireOf_get hl h.lt, h.cell hcn hne]
    change (if _ then (do let a ← store array hole v[c]?; _) else _) = _
    rw [(h.move hcn).1]
    rfl
  · exact Or.inl ⟨Nat.le_of_not_lt hlt, if_neg hlt⟩

/-- The invariant of `percolate_down` from `lo`, for the timers `v₀` of the array. -/
structure Sinking (mem : Memory P) (lo : ℕ) (temp : Option P) (v₀ : List P) (rest : List (Option P))
    (s : List (Option P) × ℕ) (v : List P) : Prop where
  filled : Filled s.1 s.2 v rest
  temp_eq : v[s.2]? = temp
  perm : v.Perm v₀
  order : DownHole lo v.length (keys (key mem) v) s.2

theorem Live.perm {v w : List P} (h : Live mem v) (hp : w.Perm v) : Live mem w :=
  fun p hm => h p (hp.mem_iff.mp hm)

theorem Sinking.next {lo : ℕ} {temp : Option P} {v₀ : List P} {s t : List (Option P) × ℕ}
    (h : Sinking mem lo temp v₀ rest s v) (hl : Live mem v₀)
    (hn : TimeHeap.percolateNext mem v₀.length temp s = .ok (some t)) : ∃ w, Sinking mem lo temp v₀ rest t w := by
  obtain ⟨array, hole⟩ := s
  have htemp := h.temp_eq
  subst htemp
  rw [← h.perm.length_eq] at hn
  rcases percolateNext_filled h.filled (hl.perm h.perm) with ⟨-, hnone⟩ | ⟨c, hpos, hcn, hp, hleast, heq⟩
  · rw [hnone] at hn
    cases hn
  · rw [heq] at hn
    split at hn
    · next hsmall =>
      obtain rfl := Option.some.inj (Except.ok.inj hn)
      refine ⟨v.swap hole c, (h.filled.move hcn).2, ?_, (List.swap_perm v hole c).trans h.perm, ?_⟩
      · rw [getElem?_swap h.filled.lt hcn, if_pos rfl]
      · rw [List.length_swap, keys_swap h.filled.lt hcn]
        exact h.order.exchange hpos hcn hp hleast hsmall
    · cases hn

/-- Where `percolate_down` stops, the order below `lo` is complete. -/
theorem Sinking.stop {lo : ℕ} {temp : Option P} {v₀ : List P} {s : List (Option P) × ℕ}
    (h : Sinking mem lo temp v₀ rest s v) (hl : Live mem v₀)
    (hn : TimeHeap.percolateNext mem v₀.length temp s = .ok none) : Ordered lo v.length (keys (key mem) v) := by
  obtain ⟨array, hole⟩ := s
  have htemp := h.temp_eq
  subst htemp
  rw [← h.perm.length_eq] at hn
  refine h.order.ordered ?_
  intro i hi hin hp
  rcases percolateNext_filled h.filled (hl.perm h.perm) with ⟨hge, -⟩ | ⟨c, hpos, hcn, hpc, hleast, heq⟩
  · have := (parent_eq_iff hi).mp hp
    dsimp only at this
    omega
  · rw [heq] at hn
    split at hn
    · cases hn
    · next hge => exact (not_lt.mp hge).trans (hleast i hi hin hp)

theorem Sinking.safe {lo : ℕ} {temp : Option P} {v₀ : List P} {s : List (Option P) × ℕ}
    (h : Sinking mem lo temp v₀ rest s v) (hl : Live mem v₀) :
    ∃ r, TimeHeap.percolateNext mem v₀.length temp s = .ok r := by
  obtain ⟨array, hole⟩ := s
  have htemp := h.temp_eq
  subst htemp
  rw [← h.perm.length_eq]
  rcases percolateNext_filled h.filled (hl.perm h.perm) with ⟨-, hnone⟩ | ⟨c, -, -, -, -, heq⟩
  · exact ⟨_, hnone⟩
  · rw [heq]
    split <;> exact ⟨_, rfl⟩

/-- `percolate_down` on an array whose subtrees below the hole are in order. -/
theorem percolateDown_cells (mem : Memory P) (capacity : ℕ) (rest : List (Option P)) {v : List P} {lo : ℕ}
    (hl : Live mem v) (hlt : lo < v.length) (ho : DownHole lo v.length (keys (key mem) v) lo) :
    ∃ w, w.Perm v ∧ Ordered lo w.length (keys (key mem) w) ∧
      TimeHeap.percolateDown mem ⟨v.map some ++ rest, capacity, v.length⟩ lo =
        .ok ⟨w.map some ++ rest, capacity, v.length⟩ := by
  have hstart : Sinking mem lo v[lo]? v rest (v.map some ++ rest, lo) v :=
    ⟨filled_cells rest hlt, rfl, .refl v, ho⟩
  have hloop : ∃ t, (TimeHeap.percolateLoop mem v.length v[lo]?).run (v.map some ++ rest, lo) = .ok t ∧
      (∃ w, Sinking mem lo v[lo]? v rest t w) ∧ TimeHeap.percolateNext mem v.length v[lo]? t = .ok none := by
    refine Loop.run_whileSome ?_ ?_ ⟨v, hstart⟩
    · rintro s ⟨w, hw⟩
      exact hw.safe hl
    · rintro s t ⟨w, hw⟩ hn
      exact hw.next hl hn
  obtain ⟨t, hrun, ⟨w, hw⟩, hstop⟩ := hloop
  refine ⟨w, hw.perm, hw.stop hl hstop, ?_⟩
  rw [TimeHeap.percolateDown, cell_cells hlt]
  change (do let r ← (TimeHeap.percolateLoop mem v.length v[lo]?).run _; _) = _
  rw [hrun]
  change (do let a ← store t.1 t.2 v[lo]?; _) = _
  rw [← hw.temp_eq, hw.filled.close]
  rfl

end Percolate

section SiftUp
variable {v : List P} {rest : List (Option P)}

/-- The invariant of the loop of `add_timer`. -/
structure Rising (mem : Memory P) (timer : Option P) (v₀ : List P) (rest : List (Option P))
    (s : List (Option P) × ℕ) (v : List P) : Prop where
  filled : Filled s.1 s.2 v rest
  timer_eq : v[s.2]? = timer
  perm : v.Perm v₀
  order : UpHole v.length (keys (key mem) v) s.2

/-- What one iteration of the loop of `add_timer` does. -/
theorem siftUpNext_filled (h : Filled array hole v rest) (hl : Live mem v) :
    (hole = 0 ∧ TimeHeap.siftUpNext mem v[hole]? (array, hole) = .ok none) ∨
    0 < hole ∧ TimeHeap.siftUpNext mem v[hole]? (array, hole) =
      if keys (key mem) v (parent hole) ≤ keys (key mem) v hole then .ok none
      else .ok (some (array.set hole v[parent hole]?, parent hole)) := by
  rw [TimeHeap.siftUpNext]
  by_cases hpos : 0 < hole
  · have hp := parent_lt hpos
    have hpn : parent hole < v.length := hp.trans h.lt
    refine Or.inr ⟨hpos, ?_⟩
    rw [if_pos hpos]
    change (do let a ← expireAt mem array (parent hole); _) = _
    rw [h.expireAt hl hpn hp.ne, expireOf_get hl h.lt]
    change (if _ then _ else (do let c ← cell array (parent hole); _)) = _
    rw [h.cell hpn hp.ne]
    change (if _ then _ else (do let a ← store array hole v[parent hole]?; _)) = _
    rw [(h.move hpn).1]
    rfl
  · exact Or.inl ⟨by omega, if_neg hpos⟩

variable {timer : Option P} {v₀ : List P} {s t : List (Option P) × ℕ}

theorem Rising.safe (h : Rising mem timer v₀ rest s v) (hl : Live mem v₀) :
    ∃ r, TimeHeap.siftUpNext mem timer s = .ok r := by
  obtain ⟨array, hole⟩ := s
  have htimer := h.timer_eq
  subst htimer
  rcases siftUpNext_filled h.filled (hl.perm h.perm) with ⟨-, hnone⟩ | ⟨-, heq⟩
  · exact ⟨_, hnone⟩
  · rw [heq]
    split <;> exact ⟨_, rfl⟩

theorem Rising.next (h : Rising mem timer v₀ rest s v) (hl : Live mem v₀)
    (hn : TimeHeap.siftUpNext mem timer s = .ok (some t)) : ∃ w, Rising mem timer v₀ rest t w := by
  obtain ⟨array, hole⟩ := s
  have htimer := h.timer_eq
  subst htimer
  rcases siftUpNext_filled h.filled (hl.perm h.perm) with ⟨-, hnone⟩ | ⟨hpos, heq⟩
  · rw [hnone] at hn
    cases hn
  · rw [heq] at hn
    split at hn
    · cases hn
    · next hlt =>
      obtain rfl := Option.some.inj (Except.ok.inj hn)
      have hpn : parent hole < v.length := (parent_lt hpos).trans h.filled.lt
      refine ⟨v.swap hole (parent hole), (h.filled.move hpn).2, ?_, (List.swap_perm v _ _).trans h.perm, ?_⟩
      · rw [getElem?_swap h.filled.lt hpn, if_pos rfl]
      · rw [List.length_swap, keys_swap h.filled.lt hpn]
        exact h.order.exchange hpos h.filled.lt (not_le.mp hlt)

theorem Rising.stop (h : Rising mem timer v₀ rest s v) (hl : Live mem v₀)
    (hn : TimeHeap.siftUpNext mem timer s = .ok none) : Ordered 0 v.length (keys (key mem) v) := by
  obtain ⟨array, hole⟩ := s
  have htimer := h.timer_eq
  subst htimer
  refine h.order.ordered ?_
  intro hpos
  rcases siftUpNext_filled h.filled (hl.perm h.perm) with ⟨hzero, -⟩ | ⟨-, heq⟩
  · exact absurd hzero hpos.ne'
  · rw [heq] at hn
    split at hn
    · next hle => exact hle
    · cases hn

/-- The loop of `add_timer` and the store behind it, when the last timer of the list is the new one. -/
theorem siftUp_cells (mem : Memory P) (x : P) {v : List P} (hl : Live mem (v ++ [x])) {array : List (Option P)}
    (hf : Filled array v.length (v ++ [x]) rest) (ho : Ordered 0 v.length (keys (key mem) v)) :
    ∃ w t, w.Perm (v ++ [x]) ∧ Ordered 0 w.length (keys (key mem) w) ∧
      (TimeHeap.siftUpLoop mem (some x)).run (array, v.length) = .ok t ∧
      store t.1 t.2 (some x) = .ok (w.map some ++ rest) := by
  have hlast : (v ++ [x])[v.length]? = some x := by simp
  have ho' : Ordered 0 v.length (keys (key mem) (v ++ [x])) := by
    intro i hi hn hlo
    have := parent_lt hi
    have hkey : ∀ j < v.length, keys (key mem) (v ++ [x]) j = keys (key mem) v j := by
      intro j hj
      rw [keys, keys, List.getElem?_append_left hj]
    rw [hkey i hn, hkey (parent i) (by omega)]
    exact ho i hi hn hlo
  have hstart : Rising mem (some x) (v ++ [x]) rest (array, v.length) (v ++ [x]) :=
    ⟨hf, hlast, .refl _, by simpa using ho'.upHole⟩
  have hloop : ∃ t, (TimeHeap.siftUpLoop mem (some x)).run (array, v.length) = .ok t ∧
      (∃ w, Rising mem (some x) (v ++ [x]) rest t w) ∧ TimeHeap.siftUpNext mem (some x) t = .ok none := by
    refine Loop.run_whileSome ?_ ?_ ⟨_, hstart⟩
    · rintro s ⟨w, hw⟩
      exact hw.safe hl
    · rintro s t ⟨w, hw⟩ hn
      exact hw.next hl hn
  obtain ⟨t, hrun, ⟨w, hw⟩, hstop⟩ := hloop
  exact ⟨w, t, hw.perm, hw.stop hl hstop, hrun, by rw [← hw.timer_eq, hw.filled.close]⟩

end SiftUp

end LinuxSocket.MinHeapTimer
