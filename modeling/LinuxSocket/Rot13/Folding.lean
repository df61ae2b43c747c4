import LinuxSocket.Lib.Pieces
import LinuxSocket.Rot13.SimperServer

/-! # Lines that are too long

The callback works as if the bytes came one by one, whatever the reads are, as long as they keep to the high-water
mark. So it puts a line feed behind every `MAX_LINE` bytes of a line.
-/
namespace LinuxSocket.Rot13
open Loop Pieces

theorem rot13Char_lf : rot13Char LF = LF := by decide

namespace Bufferevent

def folded (line : Bytes) : Bytes := (pieces maxLine line).flatMap fun piece => piece.map rot13Char ++ [LF]

/-- What the connection is to be after these lines, the last of which has not ended. -/
def ofLines (output : Bytes) : List Bytes → Bufferevent
  | [] => ⟨[], output⟩
  | [last] => ⟨rest maxLine last, output ++ folded last⟩
  | line :: lines => ofLines (output ++ folded line ++ (rest maxLine line).map rot13Char ++ [LF]) lines

def deliver (bev : Bufferevent) (c : UInt8) : Bufferevent :=
  if c = LF then ⟨[], bev.output ++ bev.input.map rot13Char ++ [LF]⟩
  else if maxLine ≤ bev.input.length + 1 then ⟨[], bev.output ++ (bev.input ++ [c]).map rot13Char ++ [LF]⟩
  else ⟨bev.input ++ [c], bev.output⟩

structure Short (bev : Bufferevent) : Prop where
  no_lf : LF ∉ bev.input
  lt : bev.input.length < maxLine

variable {bev : Bufferevent} {input output chunk : Bytes} {chunks : List Bytes} {c : UInt8}

theorem deliver_lf (input output : Bytes) :
    deliver ⟨input, output⟩ LF = ⟨[], output ++ input.map rot13Char ++ [LF]⟩ := rfl

theorem deliver_full (hc : c ≠ LF) (h : (input ++ [c]).length = maxLine) (output : Bytes) :
    deliver ⟨input, output⟩ c = ⟨[], output ++ (input ++ [c]).map rot13Char ++ [LF]⟩ := by
  rw [List.length_append] at h
  exact (if_neg hc).trans (if_pos h.ge)

theorem deliver_room (hc : c ≠ LF) (h : (input ++ [c]).length < maxLine) (output : Bytes) :
    deliver ⟨input, output⟩ c = ⟨input ++ [c], output⟩ := by
  rw [List.length_append] at h
  exact (if_neg hc).trans (if_neg (Nat.not_le.mpr h))

theorem lt_or_eq_of_lt (h : input.length < maxLine) (c : UInt8) :
    (input ++ [c]).length < maxLine ∨ (input ++ [c]).length = maxLine := by
  rw [List.length_append, List.length_singleton]
  exact Nat.lt_or_eq_of_le h

theorem not_mem_concat (h : LF ∉ input) (hc : c ≠ LF) : LF ∉ input ++ [c] := by simpa [h] using hc.symm

theorem run_tooLong (input output : Bytes) : tooLong.run ⟨input, output⟩ = ⟨[], output ++ input.map rot13Char⟩ := by
  induction hlen : input.length using Nat.strong_induction_on generalizing input output with
  | _ length ih =>
    by_cases hzero : input.length = 0
    · have hexit : tooLong.step ⟨input, output⟩ = .inr ⟨input, output⟩ := if_pos hzero
      rw [tooLong.run_exit hexit, List.eq_nil_of_length_eq_zero hzero, List.map_nil, List.append_nil]
    · have hlt : (input.drop removeSize).length < length := by
        rw [List.length_drop, removeSize]
        omega
      have hnext : tooLong.step ⟨input, output⟩ =
        .inl ⟨input.drop removeSize, output ++ (input.take removeSize).map rot13Char⟩ := if_neg hzero
      rw [tooLong.run_next hnext]
      refine (ih _ hlt _ _ rfl).trans ?_
      rw [List.append_assoc, ← List.map_append, List.take_append_drop]

section Readcb
variable [Libevent]

theorem readln_line (h : LF ∉ input) (left : Bytes) : Libevent.readln (input ++ LF :: left) = some (input, left) :=
  Libevent.readln_eq_some.mpr ⟨h, rfl⟩

theorem readln_eq_none (h : LF ∉ input) : Libevent.readln input = none := by
  cases hline : Libevent.readln input with
  | none => rfl
  | some r =>
    obtain ⟨-, heq⟩ := Libevent.readln_eq_some.mp (hline : _ = some (r.1, r.2))
    exact absurd (heq ▸ List.mem_append_right _ List.mem_cons_self) h

theorem run_lines_line (h : LF ∉ input) (left output : Bytes) :
    lines.run ⟨input ++ LF :: left, output⟩ = lines.run ⟨left, output ++ input.map rot13Char ++ [LF]⟩ := by
  apply lines.run_next
  simp only [lines, readln_line h]

theorem run_lines_rest (h : LF ∉ input) (output : Bytes) : lines.run ⟨input, output⟩ = ⟨input, output⟩ := by
  apply lines.run_exit
  simp only [lines, readln_eq_none h]

theorem readcb_line (h : LF ∉ input) (left output : Bytes) :
    readcb ⟨input ++ LF :: left, output⟩ = readcb ⟨left, output ++ input.map rot13Char ++ [LF]⟩ := by
  unfold readcb
  rw [run_lines_line h]

theorem readcb_short (h : LF ∉ input) (hlt : input.length < maxLine) : readcb ⟨input, output⟩ = ⟨input, output⟩ := by
  unfold readcb
  simp only [run_lines_rest h, if_neg (Nat.not_le.mpr hlt)]

theorem readcb_full (h : LF ∉ input) (hle : maxLine ≤ input.length) :
    readcb ⟨input, output⟩ = ⟨[], output ++ input.map rot13Char ++ [LF]⟩ := by
  unfold readcb
  simp only [run_lines_rest h, if_pos hle, run_tooLong]

theorem receive_short (hno : LF ∉ input) (hlt : input.length < maxLine) (hle : input.length + chunk.length ≤ maxLine)
    (output : Bytes) : receive ⟨input, output⟩ chunk = chunk.foldl deliver ⟨input, output⟩ := by
  rw [receive]
  dsimp only
  induction chunk generalizing input output with
  | nil =>
    rw [List.append_nil]
    exact readcb_short hno hlt
  | cons c chunk ih =>
    rw [List.length_cons] at hle
    rw [List.foldl_cons]
    by_cases hc : c = LF
    · subst hc
      have hle' : ([] : Bytes).length + chunk.length ≤ maxLine := by
        rw [List.length_nil]
        omega
      rw [readcb_line hno, deliver_lf]
      exact ih List.not_mem_nil (by decide) hle' _
    · have hno' := not_mem_concat hno hc
      have hlen : (input ++ [c]).length = input.length + 1 := List.length_append
      rw [List.append_cons]
      rcases lt_or_eq_of_lt hlt c with hroom | hfull
      · rw [deliver_room hc hroom]
        exact ih hno' hroom (by omega) _
      · -- the mark has been reached, so that this is the last byte
        have hnil : chunk = [] := List.eq_nil_of_length_eq_zero (by omega)
        rw [deliver_full hc hfull, hnil, List.append_nil]
        exact readcb_full hno' hfull.ge

/-- A read that keeps to the high-water mark is as good as single bytes. -/
theorem receive_eq (h : bev.Short) (hle : bev.input.length + chunk.length ≤ maxLine) :
    bev.receive chunk = chunk.foldl deliver bev := receive_short h.no_lf h.lt hle bev.output

end Readcb

theorem Short.deliver (h : bev.Short) (c : UInt8) : (bev.deliver c).Short := by
  have hnil : ([] : Bytes).length < maxLine := by decide
  obtain ⟨input, output⟩ := bev
  by_cases hc : c = LF
  · rw [hc, deliver_lf]
    exact ⟨List.not_mem_nil, hnil⟩
  · rcases lt_or_eq_of_lt h.lt c with hroom | hfull
    · rw [deliver_room hc hroom]
      exact ⟨not_mem_concat h.no_lf hc, hroom⟩
    · rw [deliver_full hc hfull]
      exact ⟨List.not_mem_nil, hnil⟩

theorem Short.foldl (h : bev.Short) (bytes : Bytes) : (bytes.foldl Bufferevent.deliver bev).Short := by
  induction bytes generalizing bev with
  | nil => exact h
  | cons c bytes ih => exact ih (h.deliver c)

theorem short_start : Short ⟨[], []⟩ := ⟨List.not_mem_nil, by decide⟩

theorem foldl_receive [Libevent] (h : bev.Short) (hwithin : bev.Within chunks) :
    chunks.foldl receive bev = chunks.flatten.foldl deliver bev := by
  induction chunks generalizing bev with
  | nil => rfl
  | cons chunk chunks ih =>
    rw [List.foldl_cons, List.flatten_cons, List.foldl_append, ← receive_eq h hwithin.1]
    refine ih ?_ hwithin.2
    rw [receive_eq h hwithin.1]
    exact h.foldl chunk

section Lines

theorem ofLines_cons (output line : Bytes) {lines : List Bytes} (h : lines ≠ []) :
    ofLines output (line :: lines) =
      ofLines (output ++ folded line ++ (rest maxLine line).map rot13Char ++ [LF]) lines := by
  cases lines with
  | nil => exact absurd rfl h
  | cons => rfl

theorem folded_of_lt (h : input.length < maxLine) : folded input = [] := by
  rw [folded, pieces_of_lt h]
  rfl

theorem folded_append (h : input.length = maxLine) (line : Bytes) :
    folded (input ++ line) = input.map rot13Char ++ [LF] ++ folded line := by
  rw [folded, pieces_append (by decide) h, List.flatMap_cons]
  rfl

/-- A full piece in front of the first line. -/
theorem ofLines_piece (h : input.length = maxLine) (output : Bytes) {lines : List Bytes} (hlines : lines ≠ []) :
    ofLines output (lines.modifyHead (input ++ ·)) = ofLines (output ++ input.map rot13Char ++ [LF]) lines := by
  have hrest : ∀ line, rest maxLine (input ++ line) = rest maxLine line := rest_append (by decide) h
  cases lines with
  | nil => exact absurd rfl hlines
  | cons line lines =>
    rw [List.modifyHead_cons]
    by_cases hnil : lines = []
    · rw [hnil, ofLines, ofLines, hrest, folded_append h]
      simp only [List.append_assoc]
    · rw [ofLines_cons _ _ hnil, ofLines_cons _ _ hnil, hrest, folded_append h]
      simp only [List.append_assoc]

theorem splitOn_append (h : LF ∉ input) (b : Bytes) :
    (input ++ b).splitOn LF = (b.splitOn LF).modifyHead (input ++ ·) := by
  by_cases hmem : LF ∈ b
  · obtain ⟨l, r, rfl, hl⟩ := List.eq_append_cons_of_mem hmem
    rw [List.splitOn_append_cons_self_of_not_mem hl, ← List.append_assoc, List.splitOn_append_cons_self_of_not_mem]
    · rfl
    · simp [h, hl]
  · rw [List.splitOn_eq_singleton hmem, List.splitOn_eq_singleton]
    · rfl
    · simp [h, hmem]

/-- The bytes one by one, behind the beginning of a line. -/
theorem foldl_deliver (h : Short ⟨input, output⟩) (b : Bytes) :
    b.foldl deliver ⟨input, output⟩ = ofLines output ((input ++ b).splitOn LF) := by
  obtain ⟨hno, hlt⟩ := h
  dsimp only at hno hlt
  induction b generalizing input output with
  | nil =>
    rw [List.append_nil, List.splitOn_eq_singleton hno, ofLines, rest_of_lt hlt, folded_of_lt hlt, List.append_nil]
    rfl
  | cons c b ih =>
    rw [List.foldl_cons]
    by_cases hc : c = LF
    · subst hc
      rw [deliver_lf, ih List.not_mem_nil (by decide), List.splitOn_append_cons_self_of_not_mem hno,
        ofLines_cons _ _ (List.splitOn_ne_nil _ _), rest_of_lt hlt, folded_of_lt hlt, List.append_nil]
      rfl
    · have hno' := not_mem_concat hno hc
      rw [List.append_cons]
      rcases lt_or_eq_of_lt hlt c with hroom | hfull
      · rw [deliver_room hc hroom]
        exact ih hno' hroom
      · rw [deliver_full hc hfull, ih List.not_mem_nil (by decide), splitOn_append hno', ofLines_piece hfull _ (List.splitOn_ne_nil _ _)]
        rfl

end Lines

/-- However the bytes are read, the output and what is left of the input are those of the lines of the stream, with a
line feed behind every `MAX_LINE` bytes of a line. -/
theorem serve_eq_ofLines [Libevent] (h : Within ⟨[], []⟩ chunks) :
    serve chunks = ofLines [] (chunks.flatten.splitOn LF) := by
  rw [serve, foldl_receive short_start h, foldl_deliver short_start]
  rfl

/-- The end of the first line comes with the next one. -/
theorem serve_eq_ofLines_two : @serve .reference [[104], [105, LF, 104]] = ⟨[104], [117, 118, LF]⟩ := by
  let _ := Libevent.reference
  have hwithin : Within ⟨[], []⟩ [[104], [105, LF, 104]] := ⟨by decide, by decide, trivial⟩
  rw [serve_eq_ofLines hwithin]
  decide

end Bufferevent

end LinuxSocket.Rot13
