import LinuxSocket.Lib.Memory

/-! # The buffer of the ttcp server

The calls are those of the release build, which is compiled without assertions; the calls of the debug build are in
`Assertions`. `none` is a byte copied from or to a place outside of the vector. Sizes and indices are natural numbers:
no subtraction of the code goes below zero in a state that can be reached.
-/
namespace LinuxSocket

structure Tbuf where
  ridx : ℕ
  widx : ℕ
  buf : Bytes
  deriving DecidableEq

namespace Tbuf

def kInitSize : ℕ := 1024

def init : Tbuf := ⟨0, 0, List.replicate kInitSize 0⟩

def readableBytes (b : Tbuf) : ℕ := b.widx - b.ridx

def writeableBytes (b : Tbuf) : ℕ := b.buf.length - b.widx

def prependableBytes (b : Tbuf) : ℕ := b.ridx

/-- The first part of `append`, which makes room for `size` bytes. -/
def makeRoom (b : Tbuf) (size : ℕ) : Option Tbuf :=
  if b.writeableBytes < size then
    if size ≤ b.writeableBytes + b.prependableBytes then do
      let transferSize := b.readableBytes
      let buf ← copyInto b.buf 0 (← cells b.buf b.ridx b.widx)
      some { b with buf := buf, ridx := 0, widx := 0 + transferSize }
    else some { b with buf := resize b.buf (b.widx + size) }
  else some b

def append (b : Tbuf) (str : Bytes) : Option Tbuf := do
  let b ← b.makeRoom str.length
  let buf ← copyInto b.buf b.widx str
  some { b with buf := buf, widx := b.widx + str.length }

def retrieve (b : Tbuf) (len : ℕ) : Tbuf :=
  if len < b.readableBytes then { b with ridx := b.ridx + len } else { b with ridx := 0, widx := 0 }

def peekInt32 (host : Endian) (b : Tbuf) : Option ℤ := do
  let rtn ← cells b.buf b.ridx (b.ridx + 4)
  some (toInt32 (host.ntohl (host.load rtn)))

def readInt32 (host : Endian) (b : Tbuf) : Option (ℤ × Tbuf) := do
  let rtn ← b.peekInt32 host
  some (rtn, b.retrieve 4)

@[simp] theorem readableBytes_retrieve (b : Tbuf) (len : ℕ) :
    (b.retrieve len).readableBytes = b.readableBytes - len := by
  unfold retrieve readableBytes
  split <;> dsimp only <;> omega

theorem readInt32_eq_some {host : Endian} {b b' : Tbuf} {n : ℤ} (h : b.readInt32 host = some (n, b')) :
    b' = b.retrieve 4 := by
  unfold readInt32 at h
  cases hp : b.peekInt32 host with
  | none => simp [hp] at h
  | some m =>
    rw [hp] at h
    exact (Prod.mk.inj (Option.some.inj h)).2.symm

def extrabufSize : ℕ := 65536

def offered (b : Tbuf) : ℕ :=
  if b.writeableBytes < extrabufSize then b.writeableBytes + extrabufSize else b.writeableBytes

/-- `readfd` when `readv` delivers `bytes`, or fails. The vectors are filled in order: first the
cells behind `widx_`, then `extrabuf`. -/
def readfd (b : Tbuf) : Option Bytes → Option (ℤ × Tbuf)
  | none => some (-1, b)
  | some bytes => do
    let writeable := b.writeableBytes
    let n := bytes.length
    let buf ← copyInto b.buf b.widx (bytes.take writeable)
    let extrabuf := bytes.drop writeable
    let b := { b with buf := buf }
    if n ≤ writeable then some (n, { b with widx := b.widx + n })
    else
      let b := { b with widx := b.buf.length }
      let b ← b.append (extrabuf.take (n - writeable))
      some (n, b)

end Tbuf

end LinuxSocket
