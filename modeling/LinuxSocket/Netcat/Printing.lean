import LinuxSocket.Lib.Line

/-! # What the scripts print

The two scripts write `str(data)` to the standard output, which is the literal of the bytes: in quotes behind a `b`, and
with escapes. The blocks of data can be read back from what is printed.
-/
namespace LinuxSocket.Netcat

def hexDigit (d : UInt8) : UInt8 := if d < 10 then 48 + d else 87 + d

/-- A byte in the literal. -/
def escape (quote c : UInt8) : Bytes :=
  if c = quote ∨ c = 92 then [92, c]
  else if c = 9 then ascii "\\t"
  else if c = 10 then ascii "\\n"
  else if c = 13 then ascii "\\r"
  else if c < 32 ∨ 127 ≤ c then ascii "\\x" ++ [hexDigit (c / 16), hexDigit (c % 16)]
  else [c]

/-- The literal has double quotes when there are single ones, and only these, in the data. -/
def quoteOf (data : Bytes) : UInt8 := if 39 ∈ data ∧ 34 ∉ data then 34 else 39

def str (data : Bytes) : Bytes := 98 :: quoteOf data :: (data.flatMap (escape (quoteOf data)) ++ [quoteOf data])

/-- The text of a relay in Python that has printed these blocks. -/
def printed (blocks : List Bytes) : Bytes := blocks.flatMap str

example : str (ascii "it's\n") = ascii "b\"it's\\n\"" := by decide

section ReadBack
variable {q c : UInt8} {rest rest' data data' : Bytes} {blocks blocks' : List Bytes}

def unhex (c : UInt8) : UInt8 := if c < 58 then c - 48 else c - 87

/-- The first byte of the data in a literal. -/
def unescape : Bytes → Option (UInt8 × Bytes)
  | [] => none
  | 92 :: 116 :: rest => some (9, rest)
  | 92 :: 110 :: rest => some (10, rest)
  | 92 :: 114 :: rest => some (13, rest)
  | 92 :: 120 :: high :: low :: rest => some (16 * unhex high + unhex low, rest)
  | 92 :: c :: rest => some (c, rest)
  | c :: rest => some (c, rest)

theorem unhex_hexDigit (c : UInt8) : 16 * unhex (hexDigit (c / 16)) + unhex (hexDigit (c % 16)) = c := by
  obtain ⟨c⟩ := c
  revert c
  decide

theorem unescape_escape (hq : q = 34 ∨ q = 39) (c : UInt8) (rest : Bytes) :
    unescape (escape q c ++ rest) = some (c, rest) := by
  unfold escape
  split
  · next hc =>
    rcases hc with rfl | rfl
    · rcases hq with rfl | rfl
      · rfl
      · rfl
    · rfl
  · next hc =>
    split
    · next h => rw [h]; rfl
    · split
      · next h => rw [h]; rfl
      · split
        · next h => rw [h]; rfl
        · split
          · exact congrArg some (Prod.ext (unhex_hexDigit c) rfl)
          · unfold unescape
            simp_all

/-- The quote behind the data is not taken for a byte of it. -/
theorem head_escape_ne (hq : q = 34 ∨ q = 39) (c : UInt8) (rest : Bytes) : escape q c ++ rest ≠ q :: rest' := by
  have hback : q ≠ 92 := by
    rcases hq with rfl | rfl
    · decide
    · decide
  unfold escape
  intro h
  split at h
  · exact hback (List.cons.inj h).1.symm
  · next hc =>
    split at h
    · exact hback (List.cons.inj h).1.symm
    · split at h
      · exact hback (List.cons.inj h).1.symm
      · split at h
        · exact hback (List.cons.inj h).1.symm
        · split at h
          · exact hback (List.cons.inj h).1.symm
          · exact hc (.inl (List.cons.inj h).1)

theorem escaped_inj (hq : q = 34 ∨ q = 39)
    (h : data.flatMap (escape q) ++ q :: rest = data'.flatMap (escape q) ++ q :: rest') : data = data' ∧ rest = rest' := by
  induction data generalizing data' with
  | nil =>
    cases data' with
    | nil => exact ⟨rfl, (List.cons.inj h).2⟩
    | cons c data' =>
      rw [List.flatMap_cons, List.append_assoc] at h
      exact absurd h.symm (head_escape_ne hq c _)
  | cons c data ih =>
    rw [List.flatMap_cons, List.append_assoc] at h
    cases data' with
    | nil => exact absurd h (head_escape_ne hq c _)
    | cons c' data' =>
      rw [List.flatMap_cons, List.append_assoc] at h
      have heq := congrArg unescape h
      rw [unescape_escape hq, unescape_escape hq] at heq
      obtain ⟨rfl, htail⟩ := Prod.mk.inj (Option.some.inj heq)
      obtain ⟨rfl, hrest⟩ := ih htail
      exact ⟨rfl, hrest⟩

theorem quoteOf_cases (data : Bytes) : quoteOf data = 34 ∨ quoteOf data = 39 := by
  unfold quoteOf
  split
  · exact .inl rfl
  · exact .inr rfl

theorem str_inj (h : str data ++ rest = str data' ++ rest') : data = data' ∧ rest = rest' := by
  simp only [str, List.cons_append, List.append_assoc, List.nil_append, List.cons.injEq, true_and] at h
  obtain ⟨hquote, h⟩ := h
  rw [← hquote] at h
  exact escaped_inj (quoteOf_cases data) h

/-- What is printed determines the blocks. -/
theorem printed_injective : Function.Injective printed := by
  intro blocks blocks' h
  induction blocks generalizing blocks' with
  | nil =>
    cases blocks' with
    | nil => rfl
    | cons data' blocks' => cases h
  | cons data blocks ih =>
    cases blocks' with
    | nil => cases h
    | cons data' blocks' =>
      obtain ⟨rfl, hrest⟩ := str_inj h
      rw [ih hrest]

end ReadBack

end LinuxSocket.Netcat
