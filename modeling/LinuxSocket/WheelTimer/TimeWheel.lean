import LinuxSocket.Lib.DoublyLinked
import Mathlib.Data.Int.Notation

/-! # The timer wheel

Timers are nodes at addresses of type `P`, in the lists of the slots. `none` is an access through the
null pointer or to a timer that has been deleted, an index outside of the slots, or a walk along a list
that has used up its fuel.
-/
namespace LinuxSocket.WheelTimer
open DoublyLinked

structure TwTimer where
  rotation : ℤ
  timeSlot : ℤ
  cbFunc : ℕ
  userData : ℕ
  deriving DecidableEq

structure TimeWheel (P : Type) where
  heap : Heap P TwTimer
  slots : ℤ → Option P
  curSlot : ℤ

namespace TimeWheel
variable {P : Type} [DecidableEq P]

def N : ℤ := 60

def SI : ℤ := 1

def init : TimeWheel P := ⟨fun _ => none, fun _ => none, 0⟩

def slot (s : TimeWheel P) (ts : ℤ) : Option (Option P) := if 0 ≤ ts ∧ ts < N then some (s.slots ts) else none

def setSlot (s : TimeWheel P) (ts : ℤ) (p : Option P) : TimeWheel P :=
  { s with slots := Function.update s.slots ts p }

def ticksOf (timeout : ℤ) : ℤ := if timeout < SI then 1 else timeout / SI

/-- `add_timer` with the timer that it returns. `timer` is the address of the new timer, and `cbFunc` and
`userData` are what its constructor leaves in these members. -/
def addTimer (s : TimeWheel P) (timer : P) (cbFunc userData : ℕ) (timeout : ℤ) :
    Option (Option P × TimeWheel P) :=
  if timeout < 0 then some (none, s)
  else do
    let ticks := ticksOf timeout
    let rotation := ticks / N
    let ts := (s.curSlot + ticks % N) % N
    let heap := s.heap.alloc timer ⟨rotation, ts, cbFunc, userData⟩
    match (← s.slot ts) with
    | none => some (some timer, setSlot { s with heap := heap } ts (some timer))
    | some head =>
      let heap ← heap.setNext timer (some head)
      let heap ← heap.setPrev head (some timer)
      some (some timer, setSlot { s with heap := heap } ts (some timer))

def delTimer (s : TimeWheel P) (timer : Option P) : Option (TimeWheel P) :=
  match timer with
  | none => some s
  | some timer => do
    let d ← s.heap.dataAt timer
    let ts := d.timeSlot
    if (← s.slot ts) = some timer then
      let head ← s.heap.next timer
      let heap ← s.heap.setPrevIf head none
      let heap ← heap.free timer
      some (setSlot { s with heap := heap } ts head)
    else
      let heap ← s.heap.setNext (← (← s.heap.prev timer)) (← s.heap.next timer)
      let heap ← heap.setPrevIf (← heap.next timer) (← heap.prev timer)
      let heap ← heap.free timer
      some { s with heap := heap }

/-- The loop of `tick`. The first result are the timers whose callbacks are called, in order. -/
def tickLoop : ℕ → TimeWheel P → Option P → Option (List (P × TwTimer) × TimeWheel P)
  | 0, _, _ => none
  | _ + 1, s, none => some ([], s)
  | fuel + 1, s, some tmp => do
    let d ← s.heap.dataAt tmp
    if 0 < d.rotation then
      let heap ← s.heap.setData tmp fun d => { d with rotation := d.rotation - 1 }
      let next ← heap.next tmp
      tickLoop fuel { s with heap := heap } next
    else if (← s.slot s.curSlot) = some tmp then
      let head ← s.heap.next tmp
      let heap ← s.heap.free tmp
      let heap ← heap.setPrevIf head none
      let (fired, s) ← tickLoop fuel (setSlot { s with heap := heap } s.curSlot head) head
      some ((tmp, d) :: fired, s)
    else
      let heap ← s.heap.setNext (← (← s.heap.prev tmp)) (← s.heap.next tmp)
      let heap ← heap.setPrevIf (← heap.next tmp) (← heap.prev tmp)
      let tmp2 ← heap.next tmp
      let heap ← heap.free tmp
      let (fired, s) ← tickLoop fuel { s with heap := heap } tmp2
      some ((tmp, d) :: fired, s)

def tick (fuel : ℕ) (s : TimeWheel P) : Option (List (P × TwTimer) × TimeWheel P) := do
  let tmp ← s.slot s.curSlot
  let (fired, s) ← tickLoop fuel s tmp
  some (fired, { s with curSlot := (s.curSlot + 1) % N })

end TimeWheel

end LinuxSocket.WheelTimer
