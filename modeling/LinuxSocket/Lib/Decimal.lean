import LinuxSocket.Lib.Line
import Mathlib.Data.List.TakeWhile
import Mathlib.Data.Nat.Digits.Lemmas
import Mathlib.Tactic.NormNum

/-! # Decimal numerals and the conversions of the C library -/
namespace LinuxSocket

def ofDecimal (b : Bytes) : ℕ := b.foldl (fun a c => 10 * a + (c.toNat - 48)) 0

def decimal (n : ℕ) : Bytes :=
  if n = 0 then [48] else (Nat.digits 10 n).reverse.map (fun d => UInt8.ofNat (48 + d))

/-- `%d`: a minus sign in front of the numeral of a negative number. -/
def decimalInt (n : ℤ) : Bytes := if n < 0 then 45 :: decimal n.natAbs else decimal n.natAbs

theorem isdigit_ofNat {d : ℕ} (h : d < 10) : isdigit (UInt8.ofNat (48 + d)) = true := by
  interval_cases d <;> decide

theorem toNat_ofNat_digit {d : ℕ} (h : d < 10) : (UInt8.ofNat (48 + d)).toNat - 48 = d := by
  interval_cases d <;> decide

theorem ofDecimal_append_singleton (b : Bytes) (c : UInt8) :
    ofDecimal (b ++ [c]) = 10 * ofDecimal b + (c.toNat - 48) := by
  simp [ofDecimal]

theorem ofDecimal_reverse_map (ds : List ℕ) (h : ∀ d ∈ ds, d < 10) :
    ofDecimal (ds.reverse.map (fun d => UInt8.ofNat (48 + d))) = Nat.ofDigits 10 ds := by
  induction ds with
  | nil => rfl
  | cons d ds ih =>
    rw [List.reverse_cons, List.map_append, List.map_singleton, ofDecimal_append_singleton,
      ih (fun e he => h e (List.mem_cons_of_mem _ he)), toNat_ofNat_digit (h d List.mem_cons_self),
      Nat.ofDigits_cons]
    omega

@[simp] theorem ofDecimal_decimal (n : ℕ) : ofDecimal (decimal n) = n := by
  unfold decimal
  split
  · next h => rw [h]; rfl
  · rw [ofDecimal_reverse_map _ (fun d hd => Nat.digits_lt_base (by norm_num) hd), Nat.ofDigits_digits]

theorem isdigit_of_mem_decimal {n : ℕ} {c : UInt8} (h : c ∈ decimal n) : isdigit c = true := by
  unfold decimal at h
  split at h
  · rw [List.mem_singleton.mp h]; rfl
  · obtain ⟨d, hd, rfl⟩ := List.mem_map.mp h
    exact isdigit_ofNat (Nat.digits_lt_base (by norm_num) (List.mem_reverse.mp hd))

theorem decimal_ne_nil (n : ℕ) : decimal n ≠ [] := by
  unfold decimal
  split
  · simp
  · next h => simpa using Nat.digits_ne_nil_iff_ne_zero.mpr h

theorem length_decimal_le {n k : ℕ} (h : n < 10 ^ k) (hk : 0 < k) : (decimal n).length ≤ k := by
  unfold decimal
  split
  · exact hk
  · simpa using (Nat.digits_length_le_iff (by norm_num) n).mpr h

theorem decimal_injective : Function.Injective decimal := fun m n h => by
  rw [← ofDecimal_decimal m, h, ofDecimal_decimal]

theorem decimalInt_injective : Function.Injective decimalInt := by
  have hminus (n : ℕ) : (45 : UInt8) ∉ decimal n := fun h => absurd (isdigit_of_mem_decimal h) (by decide)
  intro m n h
  unfold decimalInt at h
  split at h <;> split at h
  · have := decimal_injective (List.cons.inj h).2
    omega
  · exact absurd (h ▸ List.mem_cons_self) (hminus n.natAbs)
  · exact absurd (h ▸ List.mem_cons_self) (hminus m.natAbs)
  · have := decimal_injective h
    omega

/-- What `strtoull(s, &end, 10)` returns and how many bytes in front of `end` it has read: leading
white space and one sign are skipped, a minus negates modulo 2^64, an overflow saturates. -/
def strtoull (s : Bytes) : ℕ × ℕ :=
  let white := s.takeWhile isspace
  let signed := s.drop white.length
  let sign := if signed.head? = some 43 ∨ signed.head? = some 45 then 1 else 0
  let digits := (signed.drop sign).takeWhile isdigit
  let v := ofDecimal digits
  if digits = [] then (0, 0)
  else (if 2 ^ 64 ≤ v then 2 ^ 64 - 1 else if signed.head? = some 45 then (2 ^ 64 - v) % 2 ^ 64 else v,
    white.length + sign + digits.length)

theorem not_isspace_of_isdigit {c : UInt8} (h : isdigit c = true) : isspace c = false := by
  simp only [isdigit, Bool.and_eq_true, decide_eq_true_eq, UInt8.le_iff_toNat_le] at h
  simp only [isspace, Bool.or_eq_false_iff, Bool.and_eq_false_iff, beq_eq_false_iff_ne,
    decide_eq_false_iff_not, UInt8.le_iff_toNat_le, ne_eq, UInt8.ext_iff]
  simp only [UInt8.reduceToNat] at h ⊢
  omega

theorem ne_sign_of_isdigit {c : UInt8} (h : isdigit c = true) : c ≠ 43 ∧ c ≠ 45 := by
  constructor <;> rintro rfl <;> exact absurd h (by decide)

/-- The texts that `strtoull` converts to their end. -/
structure NumberText (white sign digits : Bytes) : Prop where
  white : ∀ c ∈ white, isspace c = true
  sign : sign = [] ∨ sign = [43] ∨ sign = [45]
  ne_nil : digits ≠ []
  digits : ∀ c ∈ digits, isdigit c = true

/-- What `strtoull` makes of digits of value `v` behind a sign. -/
def unsignedValue (sign : Bytes) (v : ℕ) : ℕ :=
  if 2 ^ 64 ≤ v then 2 ^ 64 - 1 else if sign = [45] then (2 ^ 64 - v) % 2 ^ 64 else v

theorem not_isspace_sign {sign digits rest : Bytes} (hs : sign = [] ∨ sign = [43] ∨ sign = [45])
    (hne : digits ≠ []) (hd : ∀ c ∈ digits, isdigit c = true) :
    (sign ++ (digits ++ rest)).takeWhile isspace = [] := by
  obtain ⟨d, ds, rfl⟩ := List.exists_cons_of_ne_nil hne
  have hspace := not_isspace_of_isdigit (hd d List.mem_cons_self)
  rcases hs with rfl | rfl | rfl
  · simp [hspace]
  · rfl
  · rfl

/-- A number in front of a byte that is no digit is converted as a whole. -/
theorem strtoull_number {white sign digits : Bytes} (h : NumberText white sign digits) {t : UInt8}
    (ht : isdigit t = false) (tail : Bytes) : strtoull (white ++ sign ++ digits ++ t :: tail) =
      (unsignedValue sign (ofDecimal digits), (white ++ sign ++ digits).length) := by
  have hwhite : (white ++ (sign ++ (digits ++ t :: tail))).takeWhile isspace = white := by
    rw [List.takeWhile_append_of_pos h.white, not_isspace_sign h.sign h.ne_nil h.digits, List.append_nil]
  have hdigits : (digits ++ t :: tail).takeWhile isdigit = digits := by
    rw [List.takeWhile_append_of_pos h.digits]
    simp [ht]
  obtain ⟨d, ds, hd⟩ := List.exists_cons_of_ne_nil h.ne_nil
  obtain ⟨hplus, hminus⟩ := ne_sign_of_isdigit (h.digits d (hd ▸ List.mem_cons_self))
  have hhead : (digits ++ t :: tail).head? = some d := by rw [hd]; rfl
  simp only [List.append_assoc, strtoull, hwhite, List.drop_left, unsignedValue]
  rcases h.sign with rfl | rfl | rfl
  · simp [hhead, hplus, hminus, hdigits, h.ne_nil]
  · simp [hdigits, h.ne_nil]
    omega
  · simp [hdigits, h.ne_nil]
    omega

/-- Digits followed by a byte that is none are converted as a whole. -/
theorem strtoull_digits {ds : Bytes} {t : UInt8} (hne : ds ≠ []) (hds : ∀ c ∈ ds, isdigit c = true)
    (ht : isdigit t = false) (tail : Bytes) (hv : ofDecimal ds < 2 ^ 64) :
    strtoull (ds ++ t :: tail) = (ofDecimal ds, ds.length) := by
  have h := strtoull_number ⟨List.forall_mem_nil _, Or.inl rfl, hne, hds⟩ ht tail
  have hvalue : unsignedValue [] (ofDecimal ds) = ofDecimal ds := by
    simp only [unsignedValue, if_neg (Nat.not_le.mpr hv), List.nil_eq, reduceCtorEq, if_false]
  simpa only [List.nil_append, hvalue] using h

theorem take_sign (b : Bytes) : let k := if b.head? = some 43 ∨ b.head? = some 45 then 1 else 0
    (b.take k).length = k ∧ (b.take k = [] ∨ b.take k = [43] ∨ b.take k = [45]) := by
  cases b with
  | nil => simp
  | cons c b => by_cases hc : c = 43 ∨ c = 45 <;> simp [hc]

theorem append_drop_takeWhile (p : UInt8 → Bool) (b : Bytes) :
    b.takeWhile p ++ b.drop (b.takeWhile p).length = b :=
  List.prefix_iff_eq_append.mp (List.takeWhile_prefix p)

/-- A text that is converted to its end is a number. -/
theorem numberText_of_strtoull {w rest : Bytes} (hw : w ≠ []) (h : (strtoull (w ++ rest)).2 = w.length) :
    ∃ white sign digits, w = white ++ sign ++ digits ∧ NumberText white sign digits := by
  simp only [strtoull] at h
  have hwhite := append_drop_takeWhile isspace (w ++ rest)
  generalize hs : (w ++ rest).drop ((w ++ rest).takeWhile isspace).length = signed at h hwhite
  obtain ⟨hk, hsign⟩ := take_sign signed
  generalize hk' : (if signed.head? = some 43 ∨ signed.head? = some 45 then 1 else 0) = k at h hk hsign
  have hdigits := append_drop_takeWhile isdigit (signed.drop k)
  split at h
  · exact absurd (List.length_eq_zero_iff.mp h.symm) hw
  · next hne =>
    refine ⟨(w ++ rest).takeWhile isspace, signed.take k, (signed.drop k).takeWhile isdigit, ?_,
      fun c => List.mem_takeWhile_imp, hsign, hne, fun c => List.mem_takeWhile_imp⟩
    rw [← List.take_append_drop k signed, ← hdigits, ← List.append_assoc, ← List.append_assoc] at hwhite
    refine (List.append_inj_left hwhite ?_).symm
    simp only [List.length_append, hk]
    exact h

end LinuxSocket
