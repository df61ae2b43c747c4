import LinuxSocket.Lib.Duplex
import LinuxSocket.Lib.Transfer
import LinuxSocket.Ttcp.Common

/-! # The blocking client and server of ttcp

Both sides run `read_n` and `write_n` on a connected socket. The states of a side are the points where it waits
for `read` or `write`.
-/
namespace LinuxSocket.Ttcp
open Duplex

section Loops

/-- The loop of `write_n`, which has written the first `written` bytes. -/
structure WriteN where
  buf : Bytes
  length : ℤ
  written : ℕ
  deriving DecidableEq

/-- The loop of `read_n`, with the bytes stored so far. -/
structure ReadN where
  length : ℤ
  stored : Bytes
  deriving DecidableEq

variable {β : Type*}

def WriteN.start (buf : Bytes) (length : ℤ) : WriteN := ⟨buf, length, 0⟩

def WriteN.rest (w : WriteN) : Bytes := (w.buf.take w.length.toNat).drop w.written

/-- The loop condition: `write` is called once more, or `write_n` returns. -/
def WriteN.loop (w : WriteN) (call : WriteN → β) (ret : ℤ → β) : β :=
  if w.written < w.length then call w else ret w.written

def WriteN.onWrite (w : WriteN) (k : ℕ) (call : WriteN → β) (ret : ℤ → β) : β :=
  { w with written := w.written + k }.loop call ret

def ReadN.start (length : ℤ) : ReadN := ⟨length, []⟩

def ReadN.want (r : ReadN) : ℕ := (r.length - r.stored.length).toNat

def ReadN.loop (r : ReadN) (call : ReadN → β) (ret : Bytes → β) : β :=
  if r.stored.length < r.length then call r else ret r.stored

/-- `read` has returned; `[]` is the end of the stream. -/
def ReadN.onRead (r : ReadN) (bytes : Bytes) (call : ReadN → β) (ret : Bytes → β) : β :=
  if bytes = [] then ret r.stored else { r with stored := r.stored ++ bytes }.loop call ret

end Loops

section Functions
open Transfer

/-- `write_n` with the results of its calls of `write`. The descriptor has got `passed` before. -/
def writeN (passed buf : Bytes) (length : ℤ) (results : List CallResult) : Option (State Bytes) :=
  (writer buf).run length passed results

/-- `read_n` with the results of its calls of `read`. The descriptor gives the bytes of `stream`. -/
def readN (stream buf : Bytes) (length : ℤ) (results : List CallResult) : Option (State (Bytes × Bytes)) :=
  reader.run length (buf, stream) results

end Functions

/-- How a side ends before its last statement: by `exit(1)`, at an assertion, by an access outside of the
payload, or by the signal for a write that nobody can read. -/
inductive Death
  | exit
  | assertion
  | fault
  | sigpipe
  deriving DecidableEq

/-- `sizeof(int32_t) + length`, computed with `size_t` and converted to `int`. -/
def intTotalLen (length : ℤ) : ℤ := toInt32 ((4 + length) % 2 ^ 64).toNat

section ClientSend

/-- `opt.number` and `opt.length` are in `opt`; `i` counts the frames. -/
inductive Client
  | session (w : WriteN)
  | frame (i : ℕ) (w : WriteN)
  | ack (i : ℕ) (r : ReadN)
  | returned
  | died (d : Death)
  deriving DecidableEq

variable (host : Endian) (opt : SessionMessage)

def payloadData (length : ℕ) : Bytes :=
  (List.range length).map fun i => (ascii "0123456789ABCDEF").getD (i % 16) 0

def payload : Bytes := payloadMessage host opt.length (payloadData opt.length.toNat)

/-- After `write_n` of a frame. `read_n` is then asked for four bytes, so that it calls `read`. -/
def Client.sent (i : ℕ) (nw : ℤ) : Client :=
  if nw = intTotalLen opt.length then .ack i (.start 4) else .died .assertion

/-- The loop over the frames, at its condition. -/
def Client.round (i : ℕ) : Client :=
  if i < opt.number then
    (WriteN.start (payload host opt) (intTotalLen opt.length)).loop (.frame i) (.sent opt i)
  else .returned

def Client.opened (nw : ℤ) : Client := if nw = 8 then .round host opt 0 else .died .exit

def Client.acked (i : ℕ) (stored : Bytes) : Client :=
  if stored.length = 4 then
    if int32OfBytes host stored = opt.length then .round host opt (i + 1) else .died .assertion
  else .died .assertion

def clientSend : Client := .session (.start (opt.bytes host) 8)

def clientProcess : Process UInt8 Client where
  call
    | .session w => .write w.rest
    | .frame _ w => .write w.rest
    | .ack _ r => .read r.want
    | _ => .exit
  onWrite c k :=
    match c with
    | .session w => w.onWrite k .session (.opened host opt)
    | .frame i w => w.onWrite k (.frame i) (.sent opt i)
    | c => c
  onRead c bytes :=
    match c with
    | .ack i r => r.onRead bytes (.ack i) (.acked host opt i)
    | c => c
  onBroken _ := .died .sigpipe
  onInterrupt c := c

end ClientSend

section ServerReceive

/-- `smsg` is the session message in host order and `i` counts the frames that were read. -/
inductive Server
  | session (r : ReadN)
  | frame (smsg : SessionMessage) (i : ℕ) (r : ReadN)
  | ack (smsg : SessionMessage) (i : ℕ) (w : WriteN)
  | returned (i : ℕ)
  | died (d : Death)
  deriving DecidableEq

variable (host : Endian)

def Server.received (smsg : SessionMessage) (i : ℕ) (stored : Bytes) : Server :=
  if stored.length = intTotalLen smsg.length then
    match cells stored 0 4 with
    | none => .died .fault
    | some word =>
      let length := int32OfBytes host word
      if length = smsg.length then .ack smsg i (.start (int32Bytes host length) 4) else .died .assertion
  else .died .exit

/-- The loop over the frames, at its condition. -/
def Server.round (smsg : SessionMessage) (i : ℕ) : Server :=
  if i < smsg.number then
    (ReadN.start (intTotalLen smsg.length)).loop (.frame smsg i) (.received host smsg i)
  else .returned i

def Server.opened (stored : Bytes) : Server :=
  if stored.length = 8 then
    let smsg := ⟨int32OfBytes host (stored.take 4), int32OfBytes host (stored.drop 4)⟩
    if maxBufferLength < smsg.length then .died .exit else .round host smsg 0
  else .died .exit

def Server.answered (smsg : SessionMessage) (i : ℕ) (nw : ℤ) : Server :=
  if nw = 4 then .round host smsg (i + 1) else .died .exit

def serverReceive : Server := .session (.start 8)

def serverProcess : Process UInt8 Server where
  call
    | .session r => .read r.want
    | .frame _ _ r => .read r.want
    | .ack _ _ w => .write w.rest
    | _ => .exit
  onWrite s k :=
    match s with
    | .ack smsg i w => w.onWrite k (.ack smsg i) (.answered host smsg i)
    | s => s
  onRead s bytes :=
    match s with
    | .session r => r.onRead bytes .session (.opened host)
    | .frame smsg i r => r.onRead bytes (.frame smsg i) (.received host smsg i)
    | s => s
  onBroken _ := .died .sigpipe
  onInterrupt s := s

end ServerReceive

end LinuxSocket.Ttcp
