import LinuxSocket.ListTimer.Refinement

/-! # The server that closes idle connections

The event loop, the table of users and the timer list. A pointer `&users[fd]` is the index `fd`; what
`new client_data[FD_LIMIT]` leaves in the table is arbitrary. Every step also returns the calls it makes
on descriptors and timers.
-/
namespace LinuxSocket.ListTimer
open DoublyLinked StableList SortTimerLst

def fdLimit : ℕ := 65535

def timeslot : ℤ := 5

structure ClientData (P : Type) where
  sockfd : ℕ
  timer : Option P

def cbFuncPtr : ℕ := 0

/-- `recv` from a client: its result is positive, negative with `EAGAIN` or with another error, or zero. -/
inductive Received
  | data
  | again
  | error
  | closed

/-- What the loop handles. `accept` comes with the descriptor and with the address of the new timer,
`eventsDone` stands behind the events of one `epoll_wait`. -/
inductive Event (P : Type)
  | accept (connfd : ℕ) (timer : P)
  | recv (sockfd : ℕ) (ret : Received)
  | sigalrm
  | eventsDone

inductive Call (P : Type)
  | accept (fd : ℕ) (time : ℤ)
  | read (fd : ℕ) (time : ℤ)
  | close (fd : ℕ)
  | adjustTimer (timer : P)
  | delTimer (timer : P)

structure Server (P : Type) where
  timerLst : SortTimerLst P
  users : ℕ → ClientData P
  timeout : Bool

namespace Server
variable {P : Type} [DecidableEq P]

def start (users : ℕ → ClientData P) : Server P := ⟨init, users, false⟩

def user (s : Server P) (i : ℕ) : Option (ClientData P) := if i < fdLimit then some (s.users i) else none

def cbFunc (s : Server P) (userData : ℕ) : Option (Call P) := do
  let user ← s.user userData
  some (.close user.sockfd)

def callBack (s : Server P) (timer : UtilTimer) : Option (Call P) :=
  if timer.cbFunc = cbFuncPtr then s.cbFunc timer.userData else none

def onAccept (fuel : ℕ) (s : Server P) (connfd : ℕ) (timer : P) (cur : ℤ) : Option (List (Call P) × Server P) := do
  let _ ← s.user connfd
  let users := Function.update s.users connfd ⟨connfd, some timer⟩
  let (_, timerLst) ← s.timerLst.exec fuel (.add timer ⟨cur + 3 * timeslot, cbFuncPtr, connfd⟩)
  some ([.accept connfd cur], { s with timerLst := timerLst, users := users })

/-- The branches that close the connection. -/
def onClose (fuel : ℕ) (s : Server P) (sockfd : ℕ) (timer : Option P) : Option (List (Call P) × Server P) := do
  let call ← s.cbFunc sockfd
  match timer with
  | none => some ([call], s)
  | some timer => do
    let (_, timerLst) ← s.timerLst.exec fuel (.del timer)
    some ([call, .delTimer timer], { s with timerLst := timerLst })

def onRecv (fuel : ℕ) (s : Server P) (sockfd : ℕ) (ret : Received) (cur : ℤ) :
    Option (List (Call P) × Server P) := do
  let user ← s.user sockfd
  match ret with
  | .again => some ([], s)
  | .error => s.onClose fuel sockfd user.timer
  | .closed => s.onClose fuel sockfd user.timer
  | .data =>
    match user.timer with
    | none => some ([.read sockfd cur], s)
    | some timer => do
      let (_, timerLst) ← s.timerLst.exec fuel (.adjust timer (cur + 3 * timeslot))
      some ([.read sockfd cur, .adjustTimer timer], { s with timerLst := timerLst })

def timerHandler (fuel : ℕ) (s : Server P) (cur : ℤ) : Option (List (Call P) × Server P) := do
  let (fired, timerLst) ← s.timerLst.exec fuel (.tick cur)
  let calls ← fired.mapM fun e => s.callBack e.2
  some (calls, { s with timerLst := timerLst })

/-- One round of the loop over the events, or what stands behind that loop, at time `cur`. -/
def step (fuel : ℕ) (s : Server P) (cur : ℤ) : Event P → Option (List (Call P) × Server P)
  | .accept connfd timer => s.onAccept fuel connfd timer cur
  | .recv sockfd ret => s.onRecv fuel sockfd ret cur
  | .sigalrm => some ([], { s with timeout := true })
  | .eventsDone =>
    if s.timeout then do
      let (calls, s) ← s.timerHandler fuel cur
      some (calls, { s with timeout := false })
    else some ([], s)

end Server

/-- The open client descriptors, and when each one was last accepted or read from. -/
structure World where
  openFds : Set ℕ
  last : ℕ → ℤ

variable {P : Type}

def World.apply (w : World) : Call P → World
  | .accept fd time => ⟨insert fd w.openFds, Function.update w.last fd time⟩
  | .read fd time => { w with last := Function.update w.last fd time }
  | .close fd => { w with openFds := w.openFds \ {fd} }
  | .adjustTimer _ => w
  | .delTimer _ => w

/-- The world behind the calls of a run. -/
def world (log : List (Call P)) : World := log.foldl World.apply ⟨∅, fun _ => 0⟩

/-- What the kernel and the allocator grant: descriptors not in use and below the limit, addresses of no
timer, input on open descriptors only. The server does not test what `accept` returns, so one that fails or reaches
the limit is left out. -/
def Permitted (s : Server P) (w : World) : Event P → Prop
  | .accept connfd timer => connfd ∉ w.openFds ∧ connfd < fdLimit ∧ s.timerLst.heap timer = none
  | .recv sockfd _ => sockfd ∈ w.openFds
  | .sigalrm => True
  | .eventsDone => True

inductive ServerRun [DecidableEq P] : Server P → List (Call P) → ℤ → Prop
  | start (users : ℕ → ClientData P) (clock : ℤ) : ServerRun (.start users) [] clock
  | step {s s' log calls clock cur ev} : ServerRun s log clock → clock ≤ cur → Permitted s (world log) ev →
      Returns (fun fuel => s.step fuel cur ev) (calls, s') → ServerRun s' (log ++ calls) cur

end LinuxSocket.ListTimer
