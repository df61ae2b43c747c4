import LinuxSocket.Lib.Decimal

/-! # What the code relies on of the libraries it links

The sources of muduo and boost are not part of the repository. Their functions are
parameters here, with the documented behaviour the callers depend on as fields;
`reference` shows that the fields can be met.
-/
namespace LinuxSocket

/-- muduo. Positions in a `Buffer` are counted from `peek()`. A pointer that is kept between calls is such a
position too: the readable bytes stay in place, as they do in a buffer that need not make room. -/
class Muduo where
  /-- `Buffer::findCRLF(start)`, `none` for the null pointer. -/
  findCRLF : Bytes → ℕ → Option ℕ
  findCRLF_eq_some : ∀ {b : Bytes} {p i : ℕ}, findCRLF b p = some i ↔ FirstCrlf b p i
  /-- The text `LogStream::operator<<(int)` appends. -/
  formatInteger : ℤ → Bytes
  formatInteger_eq : ∀ n, formatInteger n = decimalInt n

/-- An optional sign and decimal digits, with their value in the range of a signed 64-bit integer. -/
def SignedDecimal (s : Bytes) (n : ℤ) : Prop :=
  ∃ digits, digits ≠ [] ∧ (∀ c ∈ digits, isdigit c = true) ∧
    ((s = digits ∨ s = 43 :: digits) ∧ n = ofDecimal digits ∨ s = 45 :: digits ∧ n = -ofDecimal digits) ∧
    -2 ^ 63 ≤ n ∧ n < 2 ^ 63

class Boost where
  /-- `lexical_cast<ssize_t>`, `none` for a thrown `bad_lexical_cast`. -/
  lexicalCast : Bytes → Option ℤ
  lexicalCast_eq_some : ∀ {s : Bytes} {n : ℤ}, lexicalCast s = some n ↔ SignedDecimal s n

section
variable [Muduo]

theorem findCRLF_eq_none {b : Bytes} {p : ℕ} : Muduo.findCRLF b p = none ↔ ∀ i, p ≤ i → ¬CrlfAt b i := by
  constructor
  · intro h i hp hc
    obtain ⟨j, hj⟩ := exists_firstCrlf ⟨i, hp, hc⟩
    rw [Muduo.findCRLF_eq_some.mpr hj] at h
    cases h
  · intro h
    cases hf : Muduo.findCRLF b p with
    | none => rfl
    | some i =>
      have hi := Muduo.findCRLF_eq_some.mp hf
      exact absurd hi.found (h i hi.le)

theorem findCRLF_zero_eq_none {b : Bytes} : Muduo.findCRLF b 0 = none ↔ NoCrlf b := by
  simp [findCRLF_eq_none, NoCrlf]

theorem findCRLF_append {b : Bytes} {p i : ℕ} (h : Muduo.findCRLF b p = some i) (c : Bytes) :
    Muduo.findCRLF (b ++ c) p = some i :=
  Muduo.findCRLF_eq_some.mpr ((Muduo.findCRLF_eq_some.mp h).append c)

theorem findCRLF_line_from {l : Bytes} (h : NoCrlf l) {p : ℕ} (hp : p ≤ l.length) (rest : Bytes) :
    Muduo.findCRLF (l ++ CR :: LF :: rest) p = some l.length := by
  have hl := firstCrlf_line h rest
  exact Muduo.findCRLF_eq_some.mpr ⟨hp, hl.found, fun j _ hj => hl.first j (Nat.zero_le j) hj⟩

theorem findCRLF_line {l : Bytes} (h : NoCrlf l) (rest : Bytes) :
    Muduo.findCRLF (l ++ CR :: LF :: rest) 0 = some l.length := findCRLF_line_from h (Nat.zero_le _) rest

theorem findCRLF_lt {b : Bytes} {p i : ℕ} (h : Muduo.findCRLF b p = some i) : i + 1 < b.length :=
  (Muduo.findCRLF_eq_some.mp h).found.lt_length

theorem findCRLF_take_append {b : Bytes} {p i : ℕ} (h : Muduo.findCRLF b p = some i) (c : Bytes) :
    (b ++ c).take i = b.take i := by
  have := findCRLF_lt h
  exact List.take_append_of_le_length (by omega)

theorem findCRLF_split {b : Bytes} {i : ℕ} (h : Muduo.findCRLF b 0 = some i) :
    NoCrlf (b.take i) ∧ b = b.take i ++ CRLF ++ b.drop (i + 2) := by
  have hi := Muduo.findCRLF_eq_some.mp h
  refine ⟨hi.noCrlf_take, hi.split.trans ?_⟩
  simp [CRLF]

theorem findCRLF_congr {b : Bytes} {p q : ℕ} (h : ∀ i, FirstCrlf b p i ↔ FirstCrlf b q i) :
    Muduo.findCRLF b p = Muduo.findCRLF b q := by
  apply Option.ext
  intro i
  rw [Muduo.findCRLF_eq_some, Muduo.findCRLF_eq_some, h]

end

abbrev Muduo.reference : Muduo where
  findCRLF := crlfFrom
  findCRLF_eq_some := crlfFrom_eq_some
  formatInteger := decimalInt
  formatInteger_eq _ := rfl

theorem lexicalCast_decimal [Boost] {n : ℕ} (h : n < 2 ^ 63) :
    Boost.lexicalCast (decimal n) = some (n : ℤ) := by
  refine Boost.lexicalCast_eq_some.mpr
    ⟨decimal n, decimal_ne_nil n, fun c => isdigit_of_mem_decimal, ?_, ?_, ?_⟩
  · exact Or.inl ⟨Or.inl rfl, by rw [ofDecimal_decimal]⟩
  · omega
  · exact_mod_cast h

def readSigned : Bytes → ℤ × Bytes
  | 43 :: digits => (1, digits)
  | 45 :: digits => (-1, digits)
  | digits => (1, digits)

def castSigned (s : Bytes) : Option ℤ :=
  let p := readSigned s
  let n := p.1 * ofDecimal p.2
  if p.2 ≠ [] ∧ p.2.all isdigit ∧ -2 ^ 63 ≤ n ∧ n < 2 ^ 63 then some n else none

theorem readSigned_digits {digits : Bytes} (h : ∀ c ∈ digits, isdigit c = true) :
    readSigned digits = (1, digits) := by
  unfold readSigned
  split
  · exact absurd (h _ List.mem_cons_self) (by decide)
  · exact absurd (h _ List.mem_cons_self) (by decide)
  · rfl

theorem castSigned_eq_some {s : Bytes} {n : ℤ} : castSigned s = some n ↔ SignedDecimal s n := by
  simp only [castSigned, List.all_eq_true, Option.ite_none_right_eq_some, Option.some.injEq]
  constructor
  · rintro ⟨⟨hne, hd, hlo, hhi⟩, rfl⟩
    refine ⟨(readSigned s).2, hne, hd, ?_, hlo, hhi⟩
    unfold readSigned
    split <;> simp
  · rintro ⟨digits, hne, hd, hs, hlo, hhi⟩
    rcases hs with ⟨rfl | rfl, rfl⟩ | ⟨rfl, rfl⟩
    · rw [readSigned_digits hd, one_mul]
      exact ⟨⟨hne, hd, hlo, hhi⟩, rfl⟩
    · rw [readSigned, one_mul]
      exact ⟨⟨hne, hd, hlo, hhi⟩, rfl⟩
    · rw [readSigned, neg_one_mul]
      exact ⟨⟨hne, hd, hlo, hhi⟩, rfl⟩

abbrev Boost.reference : Boost where
  lexicalCast := castSigned
  lexicalCast_eq_some := castSigned_eq_some

end LinuxSocket
