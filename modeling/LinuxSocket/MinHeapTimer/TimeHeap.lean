import LinuxSocket.Lib.Loop
import Mathlib.Logic.Function.Basic

/-! # The time heap

Timers are objects at addresses of type `P`. A cell of the array is a pointer, `none` for the
null pointer. Every access to the array is checked against its length, and every access through
a pointer against the objects that exist.
-/
namespace LinuxSocket.MinHeapTimer
variable {P : Type}

structure HeapTimer where
  expire : ℤ
  /-- `none` is the null pointer -/
  cbFunc : Option ℕ
  userData : ℕ
  deriving DecidableEq

/-- The call of the callback, unless it is the null pointer. -/
def HeapTimer.call (t : HeapTimer) : Option (ℕ × ℕ) := t.cbFunc.map fun f => (f, t.userData)

abbrev Memory (P : Type) := P → Option HeapTimer

inductive Failure
  /-- `std::exception` -/
  | thrown
  /-- an access outside of the array -/
  | index
  /-- an access through the null pointer or to an object that does not exist -/
  | access
  deriving DecidableEq

abbrev Result := Except Failure

def cell (array : List (Option P)) (i : ℕ) : Result (Option P) :=
  match array[i]? with
  | some p => .ok p
  | none => .error .index

def store (array : List (Option P)) (i : ℕ) (p : Option P) : Result (List (Option P)) :=
  if i < array.length then .ok (array.set i p) else .error .index

def expireOf (mem : Memory P) (p : Option P) : Result ℤ :=
  match p.bind mem with
  | some t => .ok t.expire
  | none => .error .access

def expireAt (mem : Memory P) (array : List (Option P)) (i : ℕ) : Result ℤ := do
  expireOf mem (← cell array i)

/-- The loops that copy the first `n` cells of `src`. -/
def copyCells (dst src : List (Option P)) (n : ℕ) : Result (List (Option P)) :=
  (List.range n).foldlM (fun dst i => do store dst i (← cell src i)) dst

structure TimeHeap (P : Type) where
  array : List (Option P)
  capacity : ℕ
  curSize : ℕ

namespace TimeHeap

def empty (h : TimeHeap P) : Prop := h.curSize = 0

instance (h : TimeHeap P) : Decidable h.empty := inferInstanceAs (Decidable (_ = _))

def resize (h : TimeHeap P) : Result (TimeHeap P) := do
  let temp := List.replicate (2 * h.capacity) none
  let temp ← copyCells temp h.array h.curSize
  .ok { h with array := temp, capacity := 2 * h.capacity }

section Percolate
variable (mem : Memory P) (curSize : ℕ)

/-- The child with the smaller `expire`, the left one when they are equal or there is only one. -/
def smallerChild (array : List (Option P)) (hole : ℕ) : Result ℕ := do
  let child := hole * 2 + 1
  if child + 1 < curSize then
    if (← expireAt mem array (child + 1)) < (← expireAt mem array child) then .ok (child + 1) else .ok child
  else .ok child

/-- One iteration of `percolate_down`, on the array and the hole. -/
def percolateNext (temp : Option P) : List (Option P) × ℕ → Result (Option (List (Option P) × ℕ))
  | (array, hole) => do
    if hole * 2 + 1 < curSize then
      let child ← smallerChild mem curSize array hole
      if (← expireAt mem array child) < (← expireOf mem temp) then
        let array ← store array hole (← cell array child)
        .ok (some (array, child))
      else .ok none
    else .ok none

variable {mem curSize}

theorem smallerChild_cases {array : List (Option P)} {hole child : ℕ}
    (h : smallerChild mem curSize array hole = .ok child) :
    child = hole * 2 + 1 ∨ child = hole * 2 + 2 ∧ hole * 2 + 2 < curSize := by
  unfold smallerChild at h
  dsimp only at h
  split at h
  · next hlt =>
    obtain ⟨e₁, -, h⟩ := bind_eq_ok h
    obtain ⟨e₂, -, h⟩ := bind_eq_ok h
    split at h
    · cases h
      exact Or.inr ⟨rfl, hlt⟩
    · cases h
      exact Or.inl rfl
  · cases h
    exact Or.inl rfl

theorem percolateNext_decreases {temp : Option P} {s t : List (Option P) × ℕ}
    (h : percolateNext mem curSize temp s = .ok (some t)) : curSize - t.2 < curSize - s.2 := by
  obtain ⟨array, hole⟩ := s
  rw [percolateNext] at h
  split at h
  · next hlt =>
    obtain ⟨child, hchild, h⟩ := bind_eq_ok h
    obtain ⟨e₁, -, h⟩ := bind_eq_ok h
    obtain ⟨e₂, -, h⟩ := bind_eq_ok h
    split at h
    · obtain ⟨p, -, h⟩ := bind_eq_ok h
      obtain ⟨array', -, h⟩ := bind_eq_ok h
      cases h
      have := smallerChild_cases hchild
      dsimp only
      omega
    · cases h
  · cases h

variable (mem curSize)

def percolateLoop (temp : Option P) : Loop.Body (List (Option P) × ℕ) (Result (List (Option P) × ℕ)) :=
  Loop.whileSome (percolateNext mem curSize temp) (fun s => curSize - s.2) percolateNext_decreases

end Percolate

def percolateDown (mem : Memory P) (h : TimeHeap P) (hole : ℕ) : Result (TimeHeap P) := do
  let temp ← cell h.array hole
  let (array, hole) ← (percolateLoop mem h.curSize temp).run (h.array, hole)
  let array ← store array hole temp
  .ok { h with array := array }

/-- The loop of the second constructor, which percolates down from index `i` to 0. -/
def heapify (mem : Memory P) (h : TimeHeap P) : ℕ → Result (TimeHeap P)
  | 0 => h.percolateDown mem 0
  | i + 1 => do
    let h ← h.percolateDown mem (i + 1)
    heapify mem h i

/-- The first constructor. -/
def ofCapacity (cap : ℕ) : TimeHeap P := ⟨List.replicate cap none, cap, 0⟩

/-- The second constructor. -/
def ofArray (mem : Memory P) (initArray : List (Option P)) (size capacity : ℕ) : Result (TimeHeap P) :=
  if capacity < size then .error .thrown
  else if size ≠ 0 then do
    let array ← copyCells (List.replicate capacity none) initArray size
    heapify mem ⟨array, capacity, size⟩ ((size - 1) / 2)
  else .ok ⟨List.replicate capacity none, capacity, size⟩

section SiftUp
variable (mem : Memory P)

/-- One iteration of the loop of `add_timer`, on the array and the hole. -/
def siftUpNext (timer : Option P) : List (Option P) × ℕ → Result (Option (List (Option P) × ℕ))
  | (array, hole) => do
    if 0 < hole then
      let parent := (hole - 1) / 2
      if (← expireAt mem array parent) ≤ (← expireOf mem timer) then .ok none
      else
        let array ← store array hole (← cell array parent)
        .ok (some (array, parent))
    else .ok none

variable {mem}

theorem siftUpNext_decreases {timer : Option P} {s t : List (Option P) × ℕ}
    (h : siftUpNext mem timer s = .ok (some t)) : t.2 < s.2 := by
  obtain ⟨array, hole⟩ := s
  rw [siftUpNext] at h
  dsimp only at h
  split at h
  · obtain ⟨e₁, -, h⟩ := bind_eq_ok h
    obtain ⟨e₂, -, h⟩ := bind_eq_ok h
    split at h
    · cases h
    · obtain ⟨p, -, h⟩ := bind_eq_ok h
      obtain ⟨array', -, h⟩ := bind_eq_ok h
      cases h
      dsimp only
      omega
  · cases h

variable (mem)

def siftUpLoop (timer : Option P) : Loop.Body (List (Option P) × ℕ) (Result (List (Option P) × ℕ)) :=
  Loop.whileSome (siftUpNext mem timer) Prod.snd siftUpNext_decreases

end SiftUp

/-- The first part of `add_timer`. -/
def makeRoom (h : TimeHeap P) : Result (TimeHeap P) := if h.capacity ≤ h.curSize then h.resize else .ok h

def addTimer (mem : Memory P) (h : TimeHeap P) (timer : Option P) : Result (TimeHeap P) :=
  match timer with
  | none => .ok h
  | some _ => do
    let h ← h.makeRoom
    let hole := h.curSize
    let h := { h with curSize := h.curSize + 1 }
    let (array, hole) ← (siftUpLoop mem timer).run (h.array, hole)
    let array ← store array hole timer
    .ok { h with array := array }

/-- The timer stays in the heap without a callback. -/
def delTimer [DecidableEq P] (mem : Memory P) (timer : Option P) : Result (Memory P) :=
  match timer with
  | none => .ok mem
  | some p =>
    match mem p with
    | none => .error .access
    | some t => .ok (Function.update mem p (some { t with cbFunc := none }))

def top (h : TimeHeap P) : Result (Option P) := if h.empty then .ok none else cell h.array 0

def popTimer [DecidableEq P] (mem : Memory P) (h : TimeHeap P) : Result (Memory P × TimeHeap P) :=
  if h.empty then .ok (mem, h)
  else do
    match (← cell h.array 0) with
    | none => .ok (mem, h)
    | some p =>
      -- the object is deleted; its address is still in the array
      if (mem p).isNone then .error .access
      else
        let mem := Function.update mem p none
        let h := { h with curSize := h.curSize - 1 }
        let array ← store h.array 0 (← cell h.array h.curSize)
        let h ← percolateDown mem { h with array := array } 0
        .ok (mem, h)

section Tick

/-- `tick` at the condition of its loop, with the callbacks called so far and their arguments. -/
structure Tick (P : Type) where
  mem : Memory P
  heap : TimeHeap P
  tmp : Option P
  calls : List (ℕ × ℕ)

def task (mem : Memory P) (h : TimeHeap P) : Result (List (ℕ × ℕ)) := do
  match (← cell h.array 0).bind mem with
  | none => .error .access
  | some t => .ok t.call.toList

theorem curSize_percolateDown {mem : Memory P} {h h' : TimeHeap P} {hole : ℕ}
    (he : h.percolateDown mem hole = .ok h') : h'.curSize = h.curSize := by
  obtain ⟨temp, -, he⟩ := bind_eq_ok he
  obtain ⟨s, -, he⟩ := bind_eq_ok he
  obtain ⟨array, -, he⟩ := bind_eq_ok he
  cases he
  rfl

variable [DecidableEq P]

def tickNext (cur : ℤ) (s : Tick P) : Result (Option (Tick P)) :=
  if s.heap.empty then .ok none
  else if s.tmp = none then .ok none
  else do
    if cur < (← expireOf s.mem s.tmp) then .ok none
    else
      let calls ← task s.mem s.heap
      let (mem, heap) ← s.heap.popTimer s.mem
      let tmp ← cell heap.array 0
      .ok (some ⟨mem, heap, tmp, s.calls ++ calls⟩)

theorem popTimer_decreases {mem mem' : Memory P} {h h' : TimeHeap P} {p : P} (hne : ¬h.empty)
    (hp : cell h.array 0 = .ok (some p)) (he : h.popTimer mem = .ok (mem', h')) : h'.curSize < h.curSize := by
  rw [popTimer, if_neg hne, hp, ok_bind] at he
  dsimp only at he
  split at he
  · cases he
  · obtain ⟨q, -, he⟩ := bind_eq_ok he
    obtain ⟨array, -, he⟩ := bind_eq_ok he
    obtain ⟨h'', hdown, he⟩ := bind_eq_ok he
    cases he
    have hcur : h'.curSize = h.curSize - 1 := curSize_percolateDown hdown
    have : h.curSize ≠ 0 := hne
    omega

theorem tickNext_decreases {cur : ℤ} {s t : Tick P} (h : tickNext cur s = .ok (some t)) :
    t.heap.curSize < s.heap.curSize := by
  unfold tickNext at h
  split at h
  · cases h
  · next hne =>
    split at h
    · cases h
    · obtain ⟨e, -, h⟩ := bind_eq_ok h
      split at h
      · cases h
      · obtain ⟨calls, htask, h⟩ := bind_eq_ok h
        obtain ⟨⟨mem, heap⟩, hpop, h⟩ := bind_eq_ok h
        obtain ⟨tmp, -, h⟩ := bind_eq_ok h
        cases h
        obtain ⟨root, hroot, htask⟩ := bind_eq_ok htask
        cases root with
        | none => cases htask
        | some p => exact popTimer_decreases hne hroot hpop

def tickLoop (cur : ℤ) : Loop.Body (Tick P) (Result (Tick P)) :=
  Loop.whileSome (tickNext cur) (fun s => s.heap.curSize) tickNext_decreases

/-- `tick` at the time `cur`, when the callbacks do not touch the heap. -/
def tick (mem : Memory P) (h : TimeHeap P) (cur : ℤ) : Result (Memory P × TimeHeap P × List (ℕ × ℕ)) := do
  let tmp ← cell h.array 0
  let s ← (tickLoop cur).run ⟨mem, h, tmp, []⟩
  .ok (s.mem, s.heap, s.calls)

end Tick

end TimeHeap

end LinuxSocket.MinHeapTimer
