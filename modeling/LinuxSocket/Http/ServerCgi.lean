import LinuxSocket.Lib.Duplex
import LinuxSocket.Lib.Line

/-! # `server_cgi` and its child -/
namespace LinuxSocket.Http
open Duplex

section Child

inductive CgiAction
  | read
  | write (c : UInt8)
  deriving DecidableEq

def leadingWrites : List CgiAction → Bytes
  | .write c :: actions => c :: leadingWrites actions
  | _ => []

def leadingReads : List CgiAction → ℕ
  | .read :: actions => leadingReads actions + 1
  | _ => 0

def inputLength : List CgiAction → ℕ
  | [] => 0
  | .read :: actions => inputLength actions + 1
  | .write _ :: actions => inputLength actions

def output : List CgiAction → Bytes
  | [] => []
  | .read :: actions => output actions
  | .write c :: actions => c :: output actions

/-- The child after `execl`: a call moves a part of the bytes that it reads or writes next. -/
def cgiChild : Process UInt8 (List CgiAction) where
  call
    | [] => .exit
    | .read :: actions => .read (leadingReads actions + 1)
    | .write c :: actions => .write (c :: leadingWrites actions)
  onWrite actions k := actions.drop k
  onRead actions bytes := actions.drop bytes.length
  onBroken _ := []
  onInterrupt actions := actions

end Child

section Parent

/-- The parent: in the `write` of the body of the request, which returns when all of it is written, or in the
loop of `read`, with what is appended to the body of the response. -/
inductive CgiParent
  | writing (rest : Bytes)
  | reading (body : Bytes)
  | closed (body : Bytes)
  deriving DecidableEq

def CgiParent.start (body : Bytes) : CgiParent := if body = [] then .reading [] else .writing body

def cgiParent : Process UInt8 CgiParent where
  call
    | .writing rest => .write rest
    | .reading _ => .read 8192
    | .closed _ => .exit
  onWrite p k :=
    match p with
    | .writing rest => .start (rest.drop k)
    | p => p
  onRead p bytes :=
    match p with
    | .reading body => if bytes = [] then .closed body else .reading (body ++ bytes)
    | p => p
  onBroken _ := .reading []
  onInterrupt p := p

end Parent

end LinuxSocket.Http
