import LinuxSocket.Lib.Source
import LinuxSocket.ThirdParty
import Mathlib.Data.List.TakeWhile

/-! # Splitting a command line into words and reading its numbers

A pointer into the request is the suffix of the request that starts there, so a
word is a suffix with a length. Behind the request lies its CR, which ends every
number that the last word holds.
-/
namespace LinuxSocket.Memcached

/-- `muduo::StringPiece`: the bytes from its pointer to the end of the request, and its length. -/
structure StringPiece where
  data : Bytes
  length : ℕ

def StringPiece.asString (p : StringPiece) : Bytes := p.data.take p.length

/-- `SpaceSeparator::operator()` on the bytes between `next` and `end`: the token and the new `next`. -/
def spaceSeparator (next : Bytes) : Option (StringPiece × Bytes) :=
  match next.dropWhile (· == SP) with
  | [] => none
  | c :: cs =>
    let start := c :: cs
    -- up to the space `memchr` finds, or up to the end
    let len := (start.takeWhile (· != SP)).length
    some (⟨start, len⟩, start.drop len)

theorem head_dropWhile_ne_space {next cs : Bytes} {c : UInt8} (h : next.dropWhile (· == SP) = c :: cs) :
    (c == SP) = false := by
  have := List.head_dropWhile_not (l := next) (· == SP) (by simp [h])
  simpa [h] using this

theorem length_spaceSeparator {next rest : Bytes} {tok : StringPiece}
    (h : spaceSeparator next = some (tok, rest)) : rest.length < next.length := by
  unfold spaceSeparator at h
  split at h
  · cases h
  · next c cs hc =>
    cases h
    have hle := (List.dropWhile_suffix (l := next) (· == SP)).length_le
    have hne := head_dropWhile_ne_space hc
    have hpos : 0 < ((c :: cs).takeWhile (· != SP)).length := by
      simp [bne, hne]
    rw [hc] at hle
    simp only [List.length_drop, List.length_cons] at hle ⊢
    omega

/-- `boost::tokenizer` calls the separator until it returns false. -/
def tokenizer : Source Bytes StringPiece where
  next := spaceSeparator
  variant next := next.length
  decreases := length_spaceSeparator

def tokens (request : Bytes) : List StringPiece := tokenizer.toList request

theorem tokens_of_none {s : Bytes} (h : spaceSeparator s = none) : tokens s = [] :=
  tokenizer.toList_of_none h

theorem tokens_of_some {s rest : Bytes} {tok : StringPiece} (h : spaceSeparator s = some (tok, rest)) :
    tokens s = tok :: tokens rest :=
  tokenizer.toList_of_some h

theorem asString_of_spaceSeparator {next rest : Bytes} {tok : StringPiece}
    (h : spaceSeparator next = some (tok, rest)) : tok.asString ≠ [] := by
  unfold spaceSeparator at h
  split at h
  · cases h
  · next c cs hc =>
    cases h
    have hne := head_dropWhile_ne_space hc
    simp [StringPiece.asString, bne, hne]

theorem asString_ne_nil {s : Bytes} {tok : StringPiece} (h : tok ∈ tokens s) : tok.asString ≠ [] :=
  tokenizer.forall_mem_toList (fun _ _ _ => asString_of_spaceSeparator) s tok h

def IsWord (w : Bytes) : Prop := w ≠ [] ∧ SP ∉ w

theorem IsWord.takeWhile {w : Bytes} (h : SP ∉ w) (rest : Bytes) :
    (w ++ SP :: rest).takeWhile (· != SP) = w := by
  have hw : ∀ c ∈ w, (c != SP) = true := by
    intro c hc
    simpa using fun he : c = SP => h (he ▸ hc)
  rw [List.takeWhile_append_of_pos hw]
  simp

@[simp] theorem tokens_nil : tokens [] = [] := tokens_of_none rfl

@[simp] theorem tokens_space (s : Bytes) : tokens (SP :: s) = tokens s :=
  tokenizer.toList_eq_of_next_eq (by simp [tokenizer, spaceSeparator])

theorem spaceSeparator_cons {c : UInt8} {cs w rest : Bytes} (hc : (c == SP) = false)
    (hw : (c :: cs).takeWhile (· != SP) = w) (hr : (c :: cs).drop w.length = rest) :
    spaceSeparator (c :: cs) = some (⟨c :: cs, w.length⟩, rest) := by
  simp only [spaceSeparator, List.dropWhile_cons, hc, Bool.false_eq_true, if_false, hw, hr]

theorem tokens_word {w : Bytes} (h : IsWord w) (rest : Bytes) :
    tokens (w ++ SP :: rest) = ⟨w ++ SP :: rest, w.length⟩ :: tokens rest := by
  obtain ⟨c, cs, rfl⟩ := List.exists_cons_of_ne_nil h.1
  have hc : (c == SP) = false := by
    simpa using fun he : c = SP => h.2 (he ▸ List.mem_cons_self)
  have hsep : spaceSeparator (c :: cs ++ SP :: rest) =
      some (⟨c :: cs ++ SP :: rest, (c :: cs).length⟩, SP :: rest) :=
    spaceSeparator_cons hc (IsWord.takeWhile h.2 rest) (List.drop_left ..)
  rw [tokens_of_some hsep, tokens_space]

theorem tokens_last {w : Bytes} (h : IsWord w) : tokens w = [⟨w, w.length⟩] := by
  obtain ⟨c, cs, rfl⟩ := List.exists_cons_of_ne_nil h.1
  have hc : (c == SP) = false := by
    simpa using fun he : c = SP => h.2 (he ▸ List.mem_cons_self)
  have hall : (c :: cs).takeWhile (· != SP) = c :: cs := by
    rw [List.takeWhile_eq_self_iff]
    intro x hx
    simpa using fun he : x = SP => h.2 (he ▸ hx)
  rw [tokens_of_some (spaceSeparator_cons hc hall (List.drop_length ..)), tokens_nil]

def toInt (x : ℕ) : ℤ := Int.bmod x (2 ^ 32)

theorem toInt_of_lt {x : ℕ} (h : x < 2 ^ 31) : toInt x = x := by
  unfold toInt
  rw [Int.bmod_eq_of_le] <;> omega

/-- `Reader::read<int>`: the value read and the words behind it, `none` for false. -/
def readInt : List StringPiece → Option (ℤ × List StringPiece)
  | [] => none
  | tok :: toks =>
    let r := strtoull (tok.data ++ [CR])
    if r.2 = tok.length then some (toInt r.1, toks) else none

/-- A canonical numeral in front of a space or of the end of the line is read back. -/
theorem readInt_decimal {n : ℕ} (h : n < 2 ^ 31) (behind : Bytes) (hb : behind = [] ∨ behind.head? = some SP)
    (toks : List StringPiece) :
    readInt (⟨decimal n ++ behind, (decimal n).length⟩ :: toks) = some ((n : ℤ), toks) := by
  have hnum : ∃ t tail, decimal n ++ behind ++ [CR] = decimal n ++ t :: tail ∧ isdigit t = false := by
    rcases hb with rfl | hb
    · exact ⟨CR, [], by simp, by decide⟩
    · obtain ⟨tail, rfl⟩ := List.head?_eq_some_iff.mp hb
      exact ⟨SP, tail ++ [CR], by simp, by decide⟩
  obtain ⟨t, tail, he, ht⟩ := hnum
  have hs := strtoull_digits (decimal_ne_nil n) (fun c => isdigit_of_mem_decimal) ht tail
    (by rw [ofDecimal_decimal]; omega)
  simp only [readInt, he, hs, ofDecimal_decimal, if_true, toInt_of_lt h]

end LinuxSocket.Memcached
