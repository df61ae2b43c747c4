import Mathlib.Data.Int.Notation
import Mathlib.Logic.Function.Basic
import Mathlib.Tactic.Common

/-! # The process pool

The parent, its children, the listening socket and the socketpairs. A descriptor in an epoll set is
reported once for all that has arrived since the last report; a handler runs to its end before the
process waits again.
-/
namespace LinuxSocket.ProcessPool

/-- Where a child stands: in `epoll_wait`, before its `recv` from the parent, or before its `accept`. -/
inductive Phase
  | waiting
  | woken
  | notified
  deriving DecidableEq

/-- A child with its end of the socketpair: the bytes not read and whether a report is pending. -/
structure Child where
  unread : ℕ
  report : Bool
  phase : Phase
  deriving DecidableEq

/-- The pool. `pid i` is `m_sub_process[i].m_pid`; `report` is the pending report of the listening socket to
the parent, and `dispatching` holds while the parent handles one. -/
structure Pool where
  processNumber : ℕ
  pid : ℕ → ℤ
  subProcessCounter : ℕ
  stop : Bool
  report : Bool
  dispatching : Bool
  backlog : ℕ
  children : ℕ → Child

inductive Step
  | connect
  | parentWake
  | dispatch
  | childWake (i : ℕ)
  | childRecv (i : ℕ)
  | childAccept (i : ℕ)
  deriving DecidableEq

def sizeofInt : ℕ := 4

def Child.start : Child := ⟨0, false, .waiting⟩

namespace Pool

def start (processNumber : ℕ) (pid : ℕ → ℤ) : Pool :=
  ⟨processNumber, pid, 0, false, false, false, 0, fun _ => .start⟩

/-- The loop of `run_parent` that looks for a child; `none` when the fuel does not last. -/
def searchLoop (s : Pool) : ℕ → ℕ → Option ℕ
  | 0, _ => none
  | fuel + 1, i =>
    if s.pid i ≠ -1 then some i
    else
      let i := (i + 1) % s.processNumber
      if i ≠ s.subProcessCounter then searchLoop s fuel i else some i

/-- The loop makes at most one round over the children. -/
def search (s : Pool) : Option ℕ := s.searchLoop s.processNumber s.subProcessCounter

def sendTo (s : Pool) (i : ℕ) : ℕ → Child :=
  Function.update s.children i { s.children i with unread := (s.children i).unread + sizeofInt, report := true }

def onNewConnection (s : Pool) : Option Pool := do
  let i ← s.search
  if s.pid i = -1 then some { s with stop := true, dispatching := false }
  else
    some { s with
      subProcessCounter := (i + 1) % s.processNumber
      children := s.sendTo i
      dispatching := false }

/-- The loop of `run_parent` over the children when one has been waited for. -/
def reap (s : Pool) (pid : ℤ) : Pool :=
  { s with pid := fun i => if i < s.processNumber ∧ s.pid i = pid then -1 else s.pid i }

/-- What `run_parent` does about `SIGCHLD`, with the results of its calls of `waitpid`. -/
def onSigchld (s : Pool) (results : List ℤ) : Pool :=
  let s := (results.takeWhile (0 < ·)).foldl reap s
  { s with stop := (List.range s.processNumber).all fun i => s.pid i == -1 }

def setChild (s : Pool) (i : ℕ) (c : Child) : Pool := { s with children := Function.update s.children i c }

/-- One step; `none` when it cannot be taken. A `recv` without data fails with `EAGAIN`, and then the child
tries to accept as well; an `accept` with an empty backlog fails. -/
def step (s : Pool) : Step → Option Pool
  | .connect => some { s with backlog := s.backlog + 1, report := true }
  | .parentWake =>
    if s.report = true ∧ s.dispatching = false ∧ s.stop = false then
      some { s with report := false, dispatching := true }
    else none
  | .dispatch => if s.dispatching = true then s.onNewConnection else none
  | .childWake i =>
    let c := s.children i
    if i < s.processNumber ∧ c.report = true ∧ c.phase = .waiting then
      some (s.setChild i { c with report := false, phase := .woken })
    else none
  | .childRecv i =>
    let c := s.children i
    if i < s.processNumber ∧ c.phase = .woken then
      some (s.setChild i { c with unread := c.unread - min sizeofInt c.unread, phase := .notified })
    else none
  | .childAccept i =>
    let c := s.children i
    if i < s.processNumber ∧ c.phase = .notified then
      some { s.setChild i { c with phase := .waiting } with backlog := s.backlog - 1 }
    else none

/-- No process runs a handler and no report is pending. -/
structure Quiescent (s : Pool) : Prop where
  report : s.report = false
  dispatching : s.dispatching = false
  children : ∀ i < s.processNumber, (s.children i).report = false ∧ (s.children i).phase = .waiting

def Served (s : Pool) : Prop := s.backlog = 0 ∧ ∀ i < s.processNumber, (s.children i).unread = 0

end Pool

inductive Run (s₀ : Pool) : List (Pool × Step) → Pool → Prop
  | refl : Run s₀ [] s₀
  | step {steps s s' e} : Run s₀ steps s → s.step e = some s' → Run s₀ (steps ++ [(s, e)]) s'

end LinuxSocket.ProcessPool
