import LinuxSocket.Lib.DoublyLinked
import Mathlib.Data.Int.Notation

/-! # The sorted timer list

Timers are nodes at addresses of type `P`. `none` is an access through the null pointer or to a
timer that has been deleted, or a walk along the list that has used up its fuel.
-/
namespace LinuxSocket.ListTimer
open DoublyLinked

structure UtilTimer where
  expire : ℤ
  cbFunc : ℕ
  userData : ℕ
  deriving DecidableEq

structure SortTimerLst (P : Type) where
  heap : Heap P UtilTimer
  head : Option P
  tail : Option P

namespace SortTimerLst
variable {P : Type} [DecidableEq P]

def init : SortTimerLst P := ⟨fun _ => none, none, none⟩

def expire (s : SortTimerLst P) (p : P) : Option ℤ := (s.heap.dataAt p).map UtilTimer.expire

/-- The loop of the private `add_timer`, and what stands behind it. -/
def addAfterLoop (timer : P) : ℕ → SortTimerLst P → P → Option P → Option (SortTimerLst P)
  | 0, _, _, _ => none
  | _ + 1, s, prev, none => do
    let heap ← s.heap.setNext prev (some timer)
    let heap ← heap.setPrev timer (some prev)
    let heap ← heap.setNext timer none
    some { s with heap := heap, tail := some timer }
  | fuel + 1, s, prev, some tmp => do
    if (← s.expire timer) < (← s.expire tmp) then
      let heap ← s.heap.setNext prev (some timer)
      let heap ← heap.setNext timer (some tmp)
      let heap ← heap.setPrev tmp (some timer)
      let heap ← heap.setPrev timer (some prev)
      some { s with heap := heap }
    else addAfterLoop timer fuel s tmp (← s.heap.next tmp)

def addTimerAfter (fuel : ℕ) (s : SortTimerLst P) (timer lstHead : P) : Option (SortTimerLst P) := do
  let tmp ← s.heap.next lstHead
  addAfterLoop timer fuel s lstHead tmp

def addTimer (fuel : ℕ) (s : SortTimerLst P) (timer : Option P) : Option (SortTimerLst P) :=
  match timer with
  | none => some s
  | some timer =>
    match s.head with
    | none => some { s with head := some timer, tail := some timer }
    | some head => do
      if (← s.expire timer) < (← s.expire head) then
        let heap ← s.heap.setNext timer (some head)
        let heap ← heap.setPrev head (some timer)
        some { s with heap := heap, head := some timer }
      else s.addTimerAfter fuel timer head

def adjustTimer (fuel : ℕ) (s : SortTimerLst P) (timer : Option P) : Option (SortTimerLst P) :=
  match timer with
  | none => some s
  | some timer => do
    match (← s.heap.next timer) with
    | none => some s
    | some tmp =>
      if (← s.expire timer) < (← s.expire tmp) then some s
      else if s.head = some timer then
        let head ← (← s.heap.next timer)
        let heap ← s.heap.setPrev head none
        let heap ← heap.setNext timer none
        addTimerAfter fuel { s with heap := heap, head := some head } timer head
      else
        let heap ← s.heap.setNext (← (← s.heap.prev timer)) (← s.heap.next timer)
        let heap ← heap.setPrev (← (← heap.next timer)) (← heap.prev timer)
        addTimerAfter fuel { s with heap := heap } timer (← (← heap.next timer))

def delTimer (s : SortTimerLst P) (timer : Option P) : Option (SortTimerLst P) :=
  match timer with
  | none => some s
  | some timer =>
    if s.head = some timer ∧ s.tail = some timer then do
      let heap ← s.heap.free timer
      some ⟨heap, none, none⟩
    else if s.head = some timer then do
      let head ← (← s.heap.next timer)
      let heap ← s.heap.setPrev head none
      let heap ← heap.free timer
      some { s with heap := heap, head := some head }
    else if s.tail = some timer then do
      let tail ← (← s.heap.prev timer)
      let heap ← s.heap.setNext tail none
      let heap ← heap.free timer
      some { s with heap := heap, tail := some tail }
    else do
      let heap ← s.heap.setNext (← (← s.heap.prev timer)) (← s.heap.next timer)
      let heap ← heap.setPrev (← (← heap.next timer)) (← heap.prev timer)
      let heap ← heap.free timer
      some { s with heap := heap }

def clearHeadPrev (s : SortTimerLst P) : Option (SortTimerLst P) :=
  match s.head with
  | none => some s
  | some head => do
    let heap ← s.heap.setPrev head none
    some { s with heap := heap }

/-- The loop of `tick`. The first result are the timers whose callbacks are called, in order. -/
def tickLoop (cur : ℤ) : ℕ → SortTimerLst P → Option P → Option (List (P × UtilTimer) × SortTimerLst P)
  | 0, _, _ => none
  | _ + 1, s, none => some ([], s)
  | fuel + 1, s, some tmp => do
    let timer ← s.heap.dataAt tmp
    if cur < timer.expire then some ([], s)
    else
      let next ← s.heap.next tmp
      let s ← clearHeadPrev { s with head := next }
      let heap ← s.heap.free tmp
      let (fired, s) ← tickLoop cur fuel { s with heap := heap } s.head
      some ((tmp, timer) :: fired, s)

def tick (fuel : ℕ) (s : SortTimerLst P) (cur : ℤ) : Option (List (P × UtilTimer) × SortTimerLst P) :=
  match s.head with
  | none => some ([], s)
  | some head => tickLoop cur fuel s (some head)

end SortTimerLst

end LinuxSocket.ListTimer
