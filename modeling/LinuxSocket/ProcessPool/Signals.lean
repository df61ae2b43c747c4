import LinuxSocket.ProcessPool.ProcessPool

/-! # The signals of the pool

A signal handler writes to `sig_pipefd`, and the loop of the process reads it there. The parent waits for the children
that have exited and passes `SIGTERM` on to the others; a child leaves its loop. Signals arrive at any time, also
while a process handles another event.
-/
namespace LinuxSocket.ProcessPool

inductive Sig
  | chld
  | term
  | int
  deriving DecidableEq

/-- The way of the signals to the loop of a process: the signals that the kernel has for the process, at most one of a
kind, the bytes in `sig_pipefd`, whether a report about them is pending or has been taken, and the bytes of the last
`recv` that have not been looked at. -/
structure SigPipe where
  pending : Sig → Bool
  unread : List Sig
  report : Bool
  woken : Bool
  received : List Sig
  /-- a handler has found no room for its byte, or `recv` has left bytes behind -/
  overrun : Bool

def sizeofSignals : ℕ := 1024

namespace SigPipe

def start : SigPipe := ⟨fun _ => false, [], false, false, [], false⟩

def raise (p : SigPipe) (sig : Sig) : SigPipe := { p with pending := Function.update p.pending sig true }

/-- `send` to `sig_pipefd[1]`, which holds `cap` bytes and does not block. -/
def put (p : SigPipe) (cap : ℕ) (sig : Sig) : SigPipe :=
  if p.unread.length < cap then { p with unread := p.unread ++ [sig], report := true } else { p with overrun := true }

def sigHandler (p : SigPipe) (cap : ℕ) (sig : Sig) : Option SigPipe :=
  if p.pending sig = true then some ({ p with pending := Function.update p.pending sig false }.put cap sig) else none

def wake (p : SigPipe) : Option SigPipe :=
  if p.report = true ∧ p.woken = false then some { p with report := false, woken := true } else none

def recv (p : SigPipe) : Option SigPipe :=
  if p.woken = true ∧ p.received = [] then
    some { p with
      woken := false
      received := p.unread.take sizeofSignals
      unread := p.unread.drop sizeofSignals
      overrun := p.overrun || decide (sizeofSignals < p.unread.length) }
  else none

end SigPipe

/-- A child before its exit, before the parent has waited for it, and behind that. -/
inductive Life
  | running
  | exited
  | reaped
  deriving DecidableEq

/-- A child with its `m_stop`. `requests` are the reports about data of its clients that it has not handled. -/
structure Worker where
  signals : SigPipe
  stop : Bool
  life : Life
  requests : ℕ

/-- One signal that `recv` has returned to a child; a child has no children to wait for. -/
def Worker.onSignal (w : Worker) : Sig → Worker
  | .chld => w
  | .term => { w with stop := true }
  | .int => { w with stop := true }

/-- The pool with its signals. `pids` are the children, `reaping` holds in the loop of `waitpid`, `closed` counts the
calls of `close` on the parent's end of each socketpair, and `killed` has the arguments of `kill`. -/
structure Server where
  pool : Pool
  pids : ℕ → ℤ
  signals : SigPipe
  reaping : Bool
  workers : ℕ → Worker
  closed : ℕ → ℕ
  killed : List ℤ

/-- `raise`, `raiseChild`, `crash` and `request` come from outside of the pool, and `pool` is the part without signals
and without the data of clients. -/
inductive Action
  | pool (e : Step)
  | raise (sig : Sig)
  | raiseChild (i : ℕ) (sig : Sig)
  | crash (i : ℕ)
  | handler (sig : Sig)
  | wake
  | recv
  | signal
  | waitpid (i : Option ℕ)
  | handlerChild (i : ℕ) (sig : Sig)
  | wakeChild (i : ℕ)
  | recvChild (i : ℕ)
  | signalChild (i : ℕ)
  | exit (i : ℕ)
  | request (i : ℕ)
  | process (i : ℕ)
  deriving DecidableEq

def Action.own : Action → Bool
  | .pool e => decide (e ≠ .connect)
  | .raise _ => false
  | .raiseChild _ _ => false
  | .crash _ => false
  | .request _ => false
  | _ => true

def Action.sends : Action → Bool
  | .raise _ => true
  | .raiseChild _ _ => true
  | _ => false

namespace Server

/-- The pool behind `setup_sig_pipe` in every process: the handlers are installed. -/
def start (processNumber : ℕ) (pids : ℕ → ℤ) : Server where
  pool := .start processNumber pids
  pids
  signals := .start
  reaping := false
  workers _ := ⟨.start, false, .running, 0⟩
  closed _ := 0
  killed := []

/-- The parent is in no handler of a signal. -/
def AtEvents (s : Server) : Prop := s.reaping = false ∧ s.signals.received = []

def ChildAtEvents (s : Server) (i : ℕ) : Prop := (s.workers i).life = .running ∧ (s.workers i).signals.received = []

instance (s : Server) (i : ℕ) : Decidable (s.ChildAtEvents i) := inferInstanceAs (Decidable (_ ∧ _))

def Takes (s : Server) : Step → Prop
  | .connect => True
  | .parentWake => s.AtEvents
  | .dispatch => s.AtEvents
  | .childWake i => s.ChildAtEvents i ∧ (s.workers i).stop = false
  | .childRecv i => s.ChildAtEvents i
  | .childAccept i => s.ChildAtEvents i

instance (s : Server) (e : Step) : Decidable (s.Takes e) :=
  match e with
  | .connect => inferInstanceAs (Decidable True)
  | .parentWake => inferInstanceAs (Decidable (_ ∧ _))
  | .dispatch => inferInstanceAs (Decidable (_ ∧ _))
  | .childWake _ => inferInstanceAs (Decidable ((_ ∧ _) ∧ _))
  | .childRecv _ => inferInstanceAs (Decidable (_ ∧ _))
  | .childAccept _ => inferInstanceAs (Decidable (_ ∧ _))

def setWorker (s : Server) (i : ℕ) (w : Worker) : Server := { s with workers := Function.update s.workers i w }

def kill (s : Server) (pid : ℤ) : Server :=
  { s with
    killed := s.killed ++ [pid]
    workers := fun i =>
      if s.pids i = pid then { s.workers i with signals := (s.workers i).signals.raise .term } else s.workers i }

/-- The loop of `run_parent` over the children for `SIGTERM` and `SIGINT`. -/
def killAll (s : Server) : Server :=
  (List.range s.pool.processNumber).foldl (fun s i => if s.pool.pid i ≠ -1 then s.kill (s.pool.pid i) else s) s

/-- `waitpid` has returned this child; the loop over the table closes its pipe. -/
def reap (s : Server) (i : ℕ) : Server :=
  { s with
    pool := s.pool.reap (s.pids i)
    closed := fun j =>
      if j < s.pool.processNumber ∧ s.pool.pid j = s.pids i then s.closed j + 1 else s.closed j
    workers := Function.update s.workers i { s.workers i with life := .reaped } }

/-- A child ends, and `SIGCHLD` is for the parent. -/
def childEnds (s : Server) (i : ℕ) : Server :=
  { s.setWorker i { s.workers i with life := .exited } with signals := s.signals.raise .chld }

/-- One signal that `recv` has returned to the parent. -/
def onSignal (s : Server) : Sig → Server
  | .chld => { s with reaping := true }
  | .term => s.killAll
  | .int => s.killAll

def childSignals (s : Server) (i : ℕ) (f : SigPipe → Option SigPipe) : Option Server :=
  if i < s.pool.processNumber ∧ (s.workers i).life = .running then
    (f (s.workers i).signals).map fun p => s.setWorker i { s.workers i with signals := p }
  else none

/-- One step; `none` when it cannot be taken. The pipes of the signals hold `cap` bytes. -/
def step (cap : ℕ) (s : Server) : Action → Option Server
  | .pool e => if s.Takes e then (s.pool.step e).map fun pool => { s with pool } else none
  | .raise sig => some { s with signals := s.signals.raise sig }
  | .raiseChild i sig => s.childSignals i fun p => some (p.raise sig)
  | .crash i => if i < s.pool.processNumber ∧ (s.workers i).life = .running then some (s.childEnds i) else none
  | .handler sig => (s.signals.sigHandler cap sig).map fun p => { s with signals := p }
  | .wake => if s.pool.stop = false then s.signals.wake.map fun p => { s with signals := p } else none
  | .recv =>
    if s.pool.dispatching = false ∧ s.reaping = false then s.signals.recv.map fun p => { s with signals := p } else none
  | .signal =>
    if s.pool.dispatching = false ∧ s.reaping = false then
      match s.signals.received with
      | [] => none
      | sig :: rest => some ({ s with signals := { s.signals with received := rest } }.onSignal sig)
    else none
  | .waitpid (some i) =>
    if s.reaping = true ∧ i < s.pool.processNumber ∧ (s.workers i).life = .exited then some (s.reap i) else none
  | .waitpid none =>
    -- nobody is left to wait for at once: the loop ends, and the parent looks whether all children are gone
    if s.reaping = true ∧ ∀ i < s.pool.processNumber, (s.workers i).life ≠ .exited then
      some { s with pool := s.pool.onSigchld [], reaping := false }
    else none
  | .handlerChild i sig => s.childSignals i fun p => p.sigHandler cap sig
  | .wakeChild i => if (s.workers i).stop = false then s.childSignals i SigPipe.wake else none
  | .recvChild i => if (s.pool.children i).phase = .waiting then s.childSignals i SigPipe.recv else none
  | .signalChild i =>
    if i < s.pool.processNumber ∧ (s.workers i).life = .running then
      match (s.workers i).signals.received with
      | [] => none
      | sig :: rest =>
        some (s.setWorker i
          (Worker.onSignal { s.workers i with signals := { (s.workers i).signals with received := rest } } sig))
    else none
  | .exit i =>
    if i < s.pool.processNumber ∧ s.ChildAtEvents i ∧ (s.workers i).stop = true ∧ (s.pool.children i).phase = .waiting then
      some (s.childEnds i)
    else none
  | .request i =>
    if i < s.pool.processNumber ∧ (s.workers i).life = .running then
      some (s.setWorker i { s.workers i with requests := (s.workers i).requests + 1 })
    else none
  | .process i =>
    -- `process` of the class of the clients, which returns or, as a `crash`, does not
    if i < s.pool.processNumber ∧ s.ChildAtEvents i ∧ (s.pool.children i).phase = .waiting ∧ 0 < (s.workers i).requests then
      some (s.setWorker i { s.workers i with requests := (s.workers i).requests - 1 })
    else none

def run (cap : ℕ) (s : Server) (actions : List Action) : Option Server := actions.foldlM (step cap) s

end Server

end LinuxSocket.ProcessPool
