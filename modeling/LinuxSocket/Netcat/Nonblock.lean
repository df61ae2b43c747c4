import LinuxSocket.Lib.Line
import Mathlib.Logic.Function.Basic

/-! # The relay of the non-blocking netcat

`relay` waits for its socket and the standard input and handles the events that `poll` reports one after the
other. What the system calls return is free.
-/
namespace LinuxSocket.Netcat

inductive Fd
  | sock
  | stdin
  deriving DecidableEq

/-- `POLLIN` and `POLLOUT` in a mask of events. -/
structure Events where
  pollin : Bool
  pollout : Bool
  deriving DecidableEq

/-- How `os.write` to the socket ends: with a count, `EWOULDBLOCK`, or another error. -/
inductive Write
  | wrote (n : ℕ)
  | wouldBlock
  | failed
  deriving DecidableEq

def Write.part (data : Bytes) : Write → Bytes
  | .wrote n => data.take n
  | .wouldBlock => []
  | .failed => []

/-- `none` is `None`. -/
def nonBlockingWrite : Write → Option ℤ
  | .wrote n => some n
  | .wouldBlock => some (-1)
  | .failed => none

inductive Failure
  | assertionError
  | keyError
  | typeError
  deriving DecidableEq

/-- The variables of `relay`, with all that was read from the standard input and written to the socket, and
whether `SHUT_WR` has been sent, which is when the standard input has ended. -/
structure Relay where
  poll : Fd → Option Events
  socketEvents : Events
  done : Bool
  socketOutputBuffer : Bytes
  readBytes : Bytes
  written : Bytes
  shutWr : Bool

namespace Relay

def register (s : Relay) (fd : Fd) (events : Events) : Relay :=
  { s with poll := Function.update s.poll fd (some events) }

def unregister (s : Relay) (fd : Fd) : Except Failure Relay :=
  match s.poll fd with
  | none => .error .keyError
  | some _ => .ok { s with poll := Function.update s.poll fd none }

/-- `relay` at its loop. -/
def start : Relay where
  poll _ := some ⟨true, false⟩
  socketEvents := ⟨true, false⟩
  done := false
  socketOutputBuffer := []
  readBytes := []
  written := []
  shutWr := false

/-- `POLLIN` of the socket, when `recv` returns the data. -/
def socketReadable (s : Relay) (data : Bytes) : Relay := if data ≠ [] then s else { s with done := true }

/-- `POLLIN` of the standard input, when `os.read` returns the data. -/
def stdinReadable (s : Relay) (data : Bytes) (w : Write) : Except Failure Relay :=
  if data ≠ [] then
    if s.socketOutputBuffer.length ≠ 0 then .error .assertionError
    else
      match nonBlockingWrite w with
      | none => .error .typeError
      | some nw =>
        let s := { s with readBytes := s.readBytes ++ data, written := s.written ++ w.part data }
        if nw < data.length then
          let nw := if nw < 0 then 0 else nw
          let s := { s with
            socketOutputBuffer := data.drop nw.toNat
            socketEvents := { s.socketEvents with pollout := true } }
          (s.register .sock s.socketEvents).unregister .stdin
        else .ok s
  else { s with shutWr := true }.unregister .stdin

/-- `POLLOUT` of the socket. -/
def socketWritable (s : Relay) (w : Write) : Except Failure Relay :=
  if s.socketOutputBuffer.length = 0 then .error .assertionError
  else
    match nonBlockingWrite w with
    | none => .error .typeError
    | some nw =>
      let buffer := s.socketOutputBuffer
      let s := { s with written := s.written ++ w.part buffer }
      if nw < buffer.length then
        if nw ≤ 0 then .error .assertionError else .ok { s with socketOutputBuffer := buffer.drop nw.toNat }
      else
        let s := { s with socketOutputBuffer := [], socketEvents := { s.socketEvents with pollout := false } }
        .ok ((s.register .sock s.socketEvents).register .stdin ⟨true, false⟩)

end Relay

structure Event where
  fd : Fd
  events : Events
  deriving DecidableEq

/-- What the system calls return while one event is handled: the data read and the write to the socket. -/
structure Answers where
  data : Bytes
  write : Write
  deriving DecidableEq

namespace Relay

def onPollin (s : Relay) (fd : Fd) (a : Answers) : Except Failure Relay :=
  match fd with
  | .sock => .ok (s.socketReadable a.data)
  | .stdin => s.stdinReadable a.data a.write

def onPollout (s : Relay) (fd : Fd) (a : Answers) : Except Failure Relay :=
  match fd with
  | .sock => s.socketWritable a.write
  | .stdin => .ok s

/-- The body of the loop over the events. -/
def handle (s : Relay) (e : Event) (a : Answers) : Except Failure Relay := do
  let s ← if e.events.pollin = true then s.onPollin e.fd a else .ok s
  if e.events.pollout = true then s.onPollout e.fd a else .ok s

/-- What `poll` may return: at most one entry for each descriptor, with some of the events registered for it,
or none of them in the case of an error. -/
structure Polled (s : Relay) (batch : List Event) : Prop where
  nodup : (batch.map Event.fd).Nodup
  registered : ∀ e ∈ batch, ∃ m, s.poll e.fd = some m ∧ (e.events.pollin = true → m.pollin = true) ∧
    (e.events.pollout = true → m.pollout = true)

/-- What the calls may return: a write of data from the standard input moves any part of it or would block, and a
write behind `POLLOUT` moves something. -/
def Allowed (s : Relay) (e : Event) (a : Answers) : Prop :=
  a.data.length ≤ 8192 ∧
  match e.fd with
  | .sock => e.events.pollout = true → ∃ n, 0 < n ∧ n ≤ s.socketOutputBuffer.length ∧ a.write = .wrote n
  | .stdin => a.write = .wouldBlock ∨ ∃ n ≤ a.data.length, a.write = .wrote n

inductive Reachable : Relay → List Event → Prop
  | start : Reachable start []
  | poll {s batch} : Reachable s [] → s.done = false → s.Polled batch → Reachable s batch
  | handle {s s' e batch} (a : Answers) : Reachable s (e :: batch) → s.Allowed e a → s.handle e a = .ok s' →
      Reachable s' batch

end Relay

end LinuxSocket.Netcat
