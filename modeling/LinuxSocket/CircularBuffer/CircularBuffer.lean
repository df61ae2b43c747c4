import LinuxSocket.Lib.Memory
import LinuxSocket.Lib.Cyclic

/-! # The circular buffer

`none` is a failed assertion. Sizes and indices are natural numbers: no subtraction of the code
goes below zero in a state that can be reached.
-/
namespace LinuxSocket

structure CircularBuffer where
  buffer : Bytes
  readableBytes : ℕ
  readIdx : ℕ
  writeIdx : ℕ
  deriving DecidableEq

namespace CircularBuffer

def kInitSize : ℕ := 1024

def init : CircularBuffer := ⟨List.replicate kInitSize 0, 0, 0, 0⟩

def writeableBytes (b : CircularBuffer) : ℕ := b.buffer.length - b.readableBytes - 1

def push (b : CircularBuffer) (ele : UInt8) : ℕ × CircularBuffer :=
  let next := b.writeIdx + 1
  let next := if b.buffer.length ≤ next then 0 else next
  if next = b.readIdx then (0, b)
  else (1, { b with
    buffer := b.buffer.set b.writeIdx ele, writeIdx := next, readableBytes := b.readableBytes + 1 })

def pop (b : CircularBuffer) : ℕ × Option UInt8 × CircularBuffer :=
  if b.readIdx = b.writeIdx then (0, none, b)
  else
    let next := b.readIdx + 1
    let next := if b.buffer.length ≤ next then 0 else next
    (1, some (b.buffer.getD b.readIdx 0),
      { b with readIdx := next, readableBytes := b.readableBytes - 1 })

/-- The first part of `push_str`, when `len` bytes do not fit. -/
def grow (b : CircularBuffer) (len : ℕ) : Option CircularBuffer :=
  let oldBufferSize := b.buffer.length
  let makeSize := len - b.writeableBytes + b.buffer.length
  if b.writeIdx < b.readIdx then
    let newBuffer := List.replicate makeSize 0
    let newBuffer := copyTo newBuffer 0 (b.buffer.drop b.readIdx)
    let newBuffer := copyTo newBuffer (oldBufferSize - b.readIdx) (b.buffer.take b.writeIdx)
    some { b with
      writeIdx := oldBufferSize - b.readIdx + b.writeIdx, readIdx := 0, buffer := newBuffer }
  else
    let b := { b with buffer := resize b.buffer makeSize }
    if b.buffer.length = makeSize then some b else none

/-- The loop of `push_str`. -/
def pushAll (b : CircularBuffer) : Bytes → Option CircularBuffer
  | [] => some b
  | c :: cs =>
    let r := b.push c
    if r.1 = 0 then none else r.2.pushAll cs

def pushStr (b : CircularBuffer) (ele : Bytes) : Option (ℕ × CircularBuffer) := do
  let b ← if b.writeableBytes < ele.length then b.grow ele.length else some b
  if b.writeableBytes < ele.length then none
  else
    let b ← b.pushAll ele
    some (ele.length, b)

/-- The loops of `retrieve` and `read_int32`: `n` pops, with the bytes they yield. -/
def popAll (b : CircularBuffer) : ℕ → Option (Bytes × CircularBuffer)
  | 0 => some ([], b)
  | n + 1 => do
    let r := b.pop
    if r.1 = 0 then none
    else
      let (bytes, b) ← r.2.2.popAll n
      some (r.2.1.toList ++ bytes, b)

def readInt32 (host : Endian) (b : CircularBuffer) : Option (ℤ × CircularBuffer) :=
  if b.readableBytes < 4 then none
  else do
    let (bytes, b) ← b.popAll 4
    some (Int.bmod (host.ntohl (host.load bytes)) (2 ^ 32), b)

def retrieve (b : CircularBuffer) (len : ℕ) : Option CircularBuffer :=
  if len ≤ b.readableBytes then do
    let (_, b) ← b.popAll len
    some b
  else none

end CircularBuffer

end LinuxSocket
