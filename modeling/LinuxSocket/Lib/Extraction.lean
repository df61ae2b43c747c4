import LinuxSocket.Lib.Decimal

/-! # Formatted extraction from a string stream

`operator>>` of the C++ library for characters and signed integers, in decimal: leading white space is skipped, a value
outside of the type saturates and fails the stream, and nothing is stored once the stream has failed.
-/
namespace LinuxSocket

/-- What is left of the text, and whether an extraction has failed. -/
structure IStream where
  rest : Bytes
  failed : Bool
  deriving DecidableEq

structure IntRange where
  lo : ℤ
  hi : ℤ

namespace IntRange

def int : IntRange := ⟨-2 ^ 31, 2 ^ 31 - 1⟩

def long : IntRange := ⟨-2 ^ 63, 2 ^ 63 - 1⟩

def Contains (r : IntRange) (n : ℤ) : Prop := r.lo ≤ n ∧ n ≤ r.hi

instance (r : IntRange) (n : ℤ) : Decidable (r.Contains n) := inferInstanceAs (Decidable (_ ∧ _))

def clamp (r : IntRange) (n : ℤ) : ℤ := max r.lo (min r.hi n)

theorem clamp_eq {r : IntRange} {n : ℤ} (h : r.Contains n) : r.clamp n = n := by
  rw [clamp, min_eq_right h.2, max_eq_right h.1]

end IntRange

namespace IStream

def sentry (s : IStream) : IStream :=
  if s.failed then s else ⟨s.rest.dropWhile isspace, decide (s.rest.dropWhile isspace = [])⟩

/-- Extraction into a character that holds `old`. -/
def getChar (s : IStream) (old : UInt8) : UInt8 × IStream :=
  let s := s.sentry
  if s.failed then (old, s)
  else
    match s.rest with
    | [] => (old, s)
    | c :: rest => (c, { s with rest := rest })

/-- Extraction into an integer of the type `r` that holds `old`. -/
def getInt (r : IntRange) (s : IStream) (old : ℤ) : ℤ × IStream :=
  let s := s.sentry
  if s.failed then (old, s)
  else
    let sign := if s.rest.head? = some 43 ∨ s.rest.head? = some 45 then 1 else 0
    let unread := s.rest.drop sign
    let digits := unread.takeWhile isdigit
    if digits = [] then (0, ⟨unread, true⟩)
    else
      let n : ℤ := if s.rest.head? = some 45 then -ofDecimal digits else ofDecimal digits
      (r.clamp n, ⟨unread.drop digits.length, decide ¬r.Contains n⟩)

section Texts
variable {r : IntRange} {c : UInt8} {tail : Bytes} {n : ℤ}

def Ends (tail : Bytes) : Prop := ∀ c, tail.head? = some c → isdigit c = false

theorem takeWhile_decimal (n : ℕ) (h : Ends tail) : (decimal n ++ tail).takeWhile isdigit = decimal n := by
  rw [List.takeWhile_append_of_pos fun c => isdigit_of_mem_decimal]
  cases tail with
  | nil => simp
  | cons c tail => simp [h c rfl]

theorem sentry_space (hc : isspace c = false) (tail : Bytes) :
    sentry ⟨SP :: c :: tail, false⟩ = ⟨c :: tail, false⟩ := by
  have hsp : isspace SP = true := by decide
  simp [sentry, hsp, hc]

/-- A character behind a blank is extracted. -/
theorem getChar_space (hc : isspace c = false) (tail : Bytes) (old : UInt8) :
    getChar ⟨SP :: c :: tail, false⟩ old = (c, ⟨tail, false⟩) := by
  rw [getChar, sentry_space hc]
  rfl

/-- A number behind a blank is extracted, and fails the stream if the type does not contain it. -/
theorem getInt_space (n : ℤ) (h : Ends tail) (old : ℤ) :
    getInt r ⟨SP :: decimalInt n ++ tail, false⟩ old = (r.clamp n, ⟨tail, decide ¬r.Contains n⟩) := by
  obtain ⟨d, ds, hd⟩ := List.exists_cons_of_ne_nil (decimal_ne_nil n.natAbs)
  have hdigit : isdigit d = true := isdigit_of_mem_decimal (n := n.natAbs) (by simp [hd])
  obtain ⟨hplus, hminus⟩ := ne_sign_of_isdigit hdigit
  have htake := takeWhile_decimal n.natAbs h
  have hne := decimal_ne_nil n.natAbs
  by_cases hneg : n < 0
  · have htext : SP :: decimalInt n ++ tail = SP :: 45 :: (decimal n.natAbs ++ tail) := by
      rw [decimalInt, if_pos hneg]
      rfl
    have habs : -|n| = n := by rw [abs_of_neg hneg, neg_neg]
    rw [htext, getInt, sentry_space (by decide)]
    simp [htake, hne, habs]
  · have htext : SP :: decimalInt n ++ tail = SP :: d :: (ds ++ tail) := by
      rw [decimalInt, if_neg hneg, hd]
      rfl
    have hcons : d :: (ds ++ tail) = decimal n.natAbs ++ tail := by rw [hd, List.cons_append]
    have habs : |n| = n := abs_of_nonneg (Int.not_lt.mp hneg)
    rw [htext, getInt, sentry_space (not_isspace_of_isdigit hdigit)]
    have hhead : (decimal n.natAbs ++ tail).head? = some d := by rw [hd]; rfl
    simp [hcons, hhead, hplus, hminus, htake, hne, habs]

/-- Numbers, each behind a blank. -/
def fields (ns : List ℤ) : Bytes := ns.flatMap fun n => SP :: decimalInt n

theorem fields_cons (n : ℤ) (ns : List ℤ) (tail : Bytes) :
    fields (n :: ns) ++ tail = SP :: decimalInt n ++ (fields ns ++ tail) := by
  rw [fields, List.flatMap_cons, List.append_assoc]
  rfl

theorem ends_fields (ns : List ℤ) (h : Ends tail) : Ends (fields ns ++ tail) := by
  cases ns with
  | nil => exact h
  | cons n ns =>
    rw [fields_cons]
    rintro c hc
    obtain rfl := Option.some.inj hc
    decide

/-- The first of some fields is extracted. -/
theorem getInt_fields (hn : r.Contains n) (ns : List ℤ) (h : Ends tail) (old : ℤ) :
    getInt r ⟨fields (n :: ns) ++ tail, false⟩ old = (n, ⟨fields ns ++ tail, false⟩) := by
  rw [fields_cons, getInt_space n (ends_fields ns h), IntRange.clamp_eq hn]
  simp [hn]

end Texts

end IStream

end LinuxSocket
