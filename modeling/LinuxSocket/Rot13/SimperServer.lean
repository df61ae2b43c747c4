import LinuxSocket.Lib.Loop
import LinuxSocket.Rot13.LowLevelServer
import Mathlib.Data.List.TakeWhile

/-! # The simpler rot13 server

The `bufferevent` of one connection. Its callback runs whenever bytes have been read from the client, and all that it
adds to the output is sent.
-/
namespace LinuxSocket.Rot13
open Loop

/-- The source of libevent is not part of the repository; `evbuffer_remove` and `evbuffer_add` take bytes from the
front and put them at the end. -/
class Libevent where
  /-- `evbuffer_readln` with `EVBUFFER_EOL_LF`: a line without its end and what is left, `none` for `NULL`. -/
  readln : Bytes → Option (Bytes × Bytes)
  readln_eq_some : ∀ {b line left : Bytes}, readln b = some (line, left) ↔ LF ∉ line ∧ b = line ++ LF :: left

abbrev Libevent.reference : Libevent where
  readln b := if LF ∈ b then some (b.takeWhile (· ≠ LF), (b.dropWhile (· ≠ LF)).tail) else none
  readln_eq_some {b line left} := by
    rw [Option.ite_none_right_eq_some, Option.some.injEq, Prod.mk.injEq]
    constructor
    · rintro ⟨hmem, rfl, rfl⟩
      have hne : b.dropWhile (· ≠ LF) ≠ [] := fun h => by simpa using List.dropWhile_eq_nil_iff.mp h LF hmem
      have hhead : (b.dropWhile (· ≠ LF)).head hne = LF := by simpa using List.head_dropWhile_not (· ≠ LF) hne
      refine ⟨fun h => by simpa using List.mem_takeWhile_imp h, ?_⟩
      conv => lhs; rw [← List.takeWhile_append_dropWhile (p := (· ≠ LF)) (l := b), ← List.cons_head_tail hne, hhead]
    · rintro ⟨hline, rfl⟩
      have hall : ∀ c ∈ line, decide (c ≠ LF) = true := fun c hc => decide_eq_true fun h => hline (h ▸ hc)
      rw [List.takeWhile_append_of_pos hall, List.dropWhile_append_of_pos hall]
      simp

structure Bufferevent where
  input : Bytes
  output : Bytes
  deriving DecidableEq

namespace Bufferevent

def removeSize : ℕ := 1024

section Readcb
variable [Libevent]

theorem length_readln {b line left : Bytes} (h : Libevent.readln b = some (line, left)) : left.length < b.length := by
  rw [(Libevent.readln_eq_some.mp h).2, List.length_append, List.length_cons]
  omega

/-- The loop over the lines. -/
def lines : Body Bufferevent Bufferevent where
  step bev :=
    match Libevent.readln bev.input with
    | none => .inr bev
    | some (line, left) => .inl ⟨left, bev.output ++ line.map rot13Char ++ [LF]⟩
  variant bev := bev.input.length
  decreases {s t} h := by
    cases hline : Libevent.readln s.input with
    | none => simp [hline] at h
    | some r =>
      simp only [hline, Sum.inl.injEq] at h
      rw [← h]
      exact length_readln hline

/-- The loop over what is there of a line that is too long. -/
def tooLong : Body Bufferevent Bufferevent where
  step bev :=
    if bev.input.length = 0 then .inr bev
    else .inl ⟨bev.input.drop removeSize, bev.output ++ (bev.input.take removeSize).map rot13Char⟩
  variant bev := bev.input.length
  decreases {s t} h := by
    split at h
    · cases h
    · obtain rfl := Sum.inl.inj h
      rw [List.length_drop, removeSize]
      omega

def readcb (bev : Bufferevent) : Bufferevent :=
  let bev := lines.run bev
  if maxLine ≤ bev.input.length then
    let bev := tooLong.run bev
    { bev with output := bev.output ++ [LF] }
  else bev

def receive (bev : Bufferevent) (chunk : Bytes) : Bufferevent := readcb { bev with input := bev.input ++ chunk }

def serve (chunks : List Bytes) : Bufferevent := chunks.foldl receive ⟨[], []⟩

/-- No more is read than the high-water mark allows. -/
def Within (bev : Bufferevent) : List Bytes → Prop
  | [] => True
  | chunk :: chunks => bev.input.length + chunk.length ≤ maxLine ∧ (bev.receive chunk).Within chunks

end Readcb

end Bufferevent

end LinuxSocket.Rot13
