import LinuxSocket.Memcached.SessionInvariant

/-! # The grammar of a `set` line

A well-formed line has a key and three numerals in range. `doUpdate` accepts every such
line, and also lines whose tokens `strtoull` and the conversion to `int` bring into range.
-/
namespace LinuxSocket.Memcached

/-- A token that consists of decimal digits, with a value below the bound. -/
structure IsNumeral (bound : ℕ) (text : Bytes) : Prop where
  ne_nil : text ≠ []
  digits : ∀ c ∈ text, isdigit c = true
  lt : ofDecimal text < bound

/-- The tokens behind `set`: a key, three numerals, and whatever follows. -/
inductive SetGrammar : List StringPiece → Bytes → ℕ → ℕ → ℕ → Prop
  | mk {key flag exptime valueLen : StringPiece} {more} :
      1 ≤ key.asString.length → key.asString.length ≤ 250 → IsNumeral (2 ^ 31) flag.asString →
      IsNumeral (2 ^ 31) exptime.asString → IsNumeral 1048576 valueLen.asString →
      SetGrammar (key :: flag :: exptime :: valueLen :: more) key.asString (ofDecimal flag.asString)
        (ofDecimal exptime.asString) (ofDecimal valueLen.asString)

structure AcceptsGrammar (words : List StringPiece) (w : World) : Prop where
  accepts : (doUpdate words w).1 = true ↔ ∃ key flag exptime valueLen, SetGrammar words key flag exptime valueLen
  reads : ∀ {key flag exptime valueLen}, SetGrammar words key flag exptime valueLen →
    (doUpdate words w).2.session.curKey = key ∧ (doUpdate words w).2.session.curFlag = flag ∧
    (doUpdate words w).2.session.curExptime = exptime ∧ (doUpdate words w).2.session.curValueLen = valueLen

def signedValue (sign : Bytes) (v : ℕ) : ℤ := if sign = [45] then -v else v

/-- White space, a sign or none, and digits of a 64-bit value which, with its sign, is congruent modulo 2^32
to a number below the bound. -/
def Congruent (bound : ℕ) (text : Bytes) : Prop := ∃ white sign digits, text = white ++ sign ++ digits ∧
  NumberText white sign digits ∧ ofDecimal digits < 2 ^ 64 ∧ signedValue sign (ofDecimal digits) % 2 ^ 32 < bound

/-- A legal key and three numbers that are congruent to numbers in range without all being numerals in range. -/
inductive Misread : List StringPiece → Prop
  | mk {key flag exptime valueLen : StringPiece} {more} : key.asString.length ≤ 250 →
      Congruent (2 ^ 31) flag.asString → Congruent (2 ^ 31) exptime.asString →
      Congruent 1048576 valueLen.asString →
      ¬(IsNumeral (2 ^ 31) flag.asString ∧ IsNumeral (2 ^ 31) exptime.asString ∧
        IsNumeral 1048576 valueLen.asString) →
      Misread (key :: flag :: exptime :: valueLen :: more)

section Tokens

/-- A word of the request: a space or the end of the request is behind it. -/
structure Delimited (tok : StringPiece) : Prop where
  word : IsWord tok.asString
  data : ∃ behind, tok.data = tok.asString ++ behind ∧ (behind = [] ∨ behind.head? = some SP)
  length : tok.asString.length = tok.length

theorem head_dropWhile_word (b : Bytes) :
    b.dropWhile (· != SP) = [] ∨ (b.dropWhile (· != SP)).head? = some SP := by
  cases hd : b.dropWhile (· != SP) with
  | nil => exact Or.inl rfl
  | cons c cs =>
    have hc := List.head_dropWhile_not (l := b) (· != SP) (by simp [hd])
    exact Or.inr (by simpa [hd] using hc)

theorem delimited_of_spaceSeparator {next rest : Bytes} {tok : StringPiece}
    (h : spaceSeparator next = some (tok, rest)) : Delimited tok := by
  have hne := asString_of_spaceSeparator h
  unfold spaceSeparator at h
  split at h
  · cases h
  · next c cs _ =>
    cases h
    have hword : (c :: cs).take ((c :: cs).takeWhile (· != SP)).length = (c :: cs).takeWhile (· != SP) :=
      (List.prefix_iff_eq_take.mp (List.takeWhile_prefix _)).symm
    refine ⟨⟨hne, ?_⟩, ⟨(c :: cs).dropWhile (· != SP), ?_, head_dropWhile_word _⟩, ?_⟩
    · rw [StringPiece.asString, hword]
      intro hsp
      simpa using List.mem_takeWhile_imp hsp
    · rw [StringPiece.asString, hword, List.takeWhile_append_dropWhile]
    · rw [StringPiece.asString, hword]

theorem delimited_of_mem {request : Bytes} {tok : StringPiece} (h : tok ∈ tokens request) : Delimited tok :=
  tokenizer.forall_mem_toList (fun _ _ _ => delimited_of_spaceSeparator) request tok h

/-- The `int` that `Reader::read` gets from a token. -/
def tokenValue (tok : StringPiece) : Option ℤ :=
  let r := strtoull (tok.data ++ [CR])
  if r.2 = tok.length then some (toInt r.1) else none

theorem readInt_cons (tok : StringPiece) (toks : List StringPiece) :
    readInt (tok :: toks) = (tokenValue tok).map fun n => (n, toks) := by
  simp only [readInt, tokenValue]
  split <;> rfl

theorem Delimited.data_cr {tok : StringPiece} (h : Delimited tok) :
    ∃ t tail, tok.data ++ [CR] = tok.asString ++ t :: tail ∧ isdigit t = false := by
  obtain ⟨behind, hdata, hbehind⟩ := h.data
  rcases hbehind with rfl | hbehind
  · exact ⟨CR, [], by rw [hdata, List.append_nil], by decide⟩
  · obtain ⟨tail, rfl⟩ := List.head?_eq_some_iff.mp hbehind
    exact ⟨SP, tail ++ [CR], by rw [hdata, List.append_assoc]; rfl, by decide⟩

theorem tokenValue_number {tok : StringPiece} (ht : Delimited tok) {white sign digits : Bytes}
    (htext : tok.asString = white ++ sign ++ digits) (hn : NumberText white sign digits) :
    tokenValue tok = some (toInt (unsignedValue sign (ofDecimal digits))) := by
  obtain ⟨t, tail, hdata, hdigit⟩ := ht.data_cr
  rw [tokenValue, hdata, htext, strtoull_number hn hdigit, ← htext]
  exact if_pos ht.length

theorem numberText_of_tokenValue {tok : StringPiece} (ht : Delimited tok) {n : ℤ} (hv : tokenValue tok = some n) :
    ∃ white sign digits, tok.asString = white ++ sign ++ digits ∧ NumberText white sign digits := by
  obtain ⟨t, tail, hdata, _⟩ := ht.data_cr
  simp only [tokenValue, hdata, Option.ite_none_right_eq_some] at hv
  exact numberText_of_strtoull ht.word.1 (hv.1.trans ht.length.symm)

theorem toInt_unsignedValue (sign : Bytes) (v bound : ℕ) (hb : bound ≤ 2 ^ 31) :
    0 ≤ toInt (unsignedValue sign v) ∧ toInt (unsignedValue sign v) < bound ↔
      v < 2 ^ 64 ∧ signedValue sign v % 2 ^ 32 < bound := by
  unfold toInt unsignedValue signedValue
  rw [Int.bmod_def]
  split_ifs <;> omega

theorem toInt_lt (x : ℕ) : toInt x < 2 ^ 31 := by
  unfold toInt
  rw [Int.bmod_def]
  split_ifs <;> omega

theorem tokenValue_lt {tok : StringPiece} {n : ℤ} (h : tokenValue tok = some n) : n < 2 ^ 31 := by
  unfold tokenValue at h
  dsimp only at h
  split at h
  · exact Option.some.inj h ▸ toInt_lt (strtoull (tok.data ++ [CR])).1
  · cases h

/-- A token brings its `int` into range exactly when its number is congruent to one. -/
theorem tokenValue_range {tok : StringPiece} (ht : Delimited tok) {bound : ℕ} (hb : bound ≤ 2 ^ 31) :
    (∃ n, tokenValue tok = some n ∧ 0 ≤ n ∧ n < bound) ↔ Congruent bound tok.asString := by
  constructor
  · rintro ⟨n, hv, hn⟩
    obtain ⟨white, sign, digits, htext, hnum⟩ := numberText_of_tokenValue ht hv
    rw [tokenValue_number ht htext hnum, Option.some.injEq] at hv
    subst hv
    exact ⟨white, sign, digits, htext, hnum, (toInt_unsignedValue sign _ bound hb).mp hn⟩
  · rintro ⟨white, sign, digits, htext, hnum, hn⟩
    exact ⟨_, tokenValue_number ht htext hnum, (toInt_unsignedValue sign _ bound hb).mpr hn⟩

theorem IsNumeral.numberText {bound : ℕ} {text : Bytes} (h : IsNumeral bound text) : NumberText [] [] text :=
  ⟨List.forall_mem_nil _, Or.inl rfl, h.ne_nil, h.digits⟩

theorem IsNumeral.tokenValue {bound : ℕ} {tok : StringPiece} (h : IsNumeral bound tok.asString)
    (hb : bound ≤ 2 ^ 31) (ht : Delimited tok) : tokenValue tok = some (ofDecimal tok.asString : ℤ) := by
  have hlt := h.lt
  have hvalue : unsignedValue [] (ofDecimal tok.asString) = ofDecimal tok.asString := by
    simp only [unsignedValue, List.nil_eq, reduceCtorEq, if_false]
    rw [if_neg (by omega)]
  rw [tokenValue_number ht rfl h.numberText, hvalue, toInt_of_lt (by omega)]

end Tokens

section Update

theorem readNumbers_of_values {a b c : StringPiece} {flag exptime valueLen : ℤ} (ha : tokenValue a = some flag)
    (hb : tokenValue b = some exptime) (hc : tokenValue c = some valueLen) (more : List StringPiece) (s : Session) :
    readNumbers (a :: b :: c :: more) s =
      (true, { s with curFlag := flag, curExptime := exptime, curValueLen := valueLen }) := by
  simp only [readNumbers, readInt_cons, ha, hb, hc, Option.map_some]

theorem readInt_eq_some {words rest : List StringPiece} {n : ℤ} (h : readInt words = some (n, rest)) :
    ∃ tok, words = tok :: rest ∧ tokenValue tok = some n := by
  cases words with
  | nil => cases h
  | cons tok toks =>
    rw [readInt_cons, Option.map_eq_some_iff] at h
    obtain ⟨m, hm, he⟩ := h
    cases he
    exact ⟨tok, rfl, hm⟩

theorem values_of_readNumbers {words : List StringPiece} {s : Session} (h : (readNumbers words s).1 = true) :
    ∃ a b c more flag exptime valueLen, words = a :: b :: c :: more ∧ tokenValue a = some flag ∧
      tokenValue b = some exptime ∧ tokenValue c = some valueLen := by
  unfold readNumbers at h
  split at h
  · cases h
  · next flag words₁ h₁ =>
    obtain ⟨a, rfl, ha⟩ := readInt_eq_some h₁
    dsimp only at h
    split at h
    · cases h
    · next exptime words₂ h₂ =>
      obtain ⟨b, rfl, hb⟩ := readInt_eq_some h₂
      split at h
      · cases h
      · next valueLen words₃ h₃ =>
        obtain ⟨c, rfl, hc⟩ := readInt_eq_some h₃
        exact ⟨a, b, c, words₃, flag, exptime, valueLen, rfl, ha, hb, hc⟩

/-- What `doUpdate` makes of four tokens, a short key and three that `strtoull` converts. -/
theorem doUpdate_of_values {key a b c : StringPiece} {flag exptime valueLen : ℤ}
    (hkey : key.asString.length ≤ 250) (ha : tokenValue a = some flag) (hb : tokenValue b = some exptime)
    (hc : tokenValue c = some valueLen) (more : List StringPiece) (w : World) :
    ((doUpdate (key :: a :: b :: c :: more) w).1 = true ↔
      0 ≤ flag ∧ 0 ≤ exptime ∧ 0 ≤ valueLen ∧ valueLen < 1048576) ∧
    (doUpdate (key :: a :: b :: c :: more) w).2.session = { w.session with
      curKey := key.asString, curFlag := flag, curExptime := exptime, curValueLen := valueLen } := by
  have hlong : key.asString.length ≤ kLongestKeySize := hkey
  have hfields : updateFields key (a :: b :: c :: more) w.session = (true, { w.session with
      curKey := key.asString, curFlag := flag, curExptime := exptime, curValueLen := valueLen }) := by
    simp only [updateFields, hlong, decide_true, if_true, readNumbers_of_values ha hb hc]
  rw [doUpdate_cons key _ w hfields]
  split
  · next h =>
    refine ⟨?_, rfl⟩
    simp only [Bool.true_and, Bool.not_eq_true', Bool.and_eq_false_iff, decide_eq_false_iff_not] at h
    simp only [Bool.false_eq_true, false_iff]
    omega
  · next h =>
    simp only [Bool.true_and, Bool.not_eq_true', Bool.not_eq_false, Bool.and_eq_true, decide_eq_true_eq] at h
    split
    · next hlarge =>
      have hlarge' : 1024 * 1024 ≤ valueLen := hlarge
      refine ⟨?_, rfl⟩
      simp only [Bool.false_eq_true, false_iff]
      omega
    · next hsmall =>
      have hsmall' : ¬1024 * 1024 ≤ valueLen := hsmall
      refine ⟨?_, rfl⟩
      simp only [true_iff]
      omega

theorem values_of_doUpdate {words : List StringPiece} {w : World} (h : (doUpdate words w).1 = true) :
    ∃ key a b c more flag exptime valueLen, words = key :: a :: b :: c :: more ∧ key.asString.length ≤ 250 ∧
      tokenValue a = some flag ∧ tokenValue b = some exptime ∧ tokenValue c = some valueLen := by
  cases words with
  | nil => cases h
  | cons key words =>
    cases hf : updateFields key words w.session with
    | mk good s =>
      have hgood : good = true := by
        rw [doUpdate_cons key words w hf] at h
        cases good with
        | false => cases h
        | true => rfl
      subst hgood
      have hkey := (updateFields_frame hf).2 rfl
      simp only [updateFields, hkey, decide_true, if_true] at hf
      obtain ⟨a, b, c, more, flag, exptime, valueLen, rfl, hv⟩ := values_of_readNumbers (congrArg Prod.fst hf)
      exact ⟨key, a, b, c, more, flag, exptime, valueLen, rfl, hkey, hv⟩

/-- The tokens that `doUpdate` accepts: a short key and three numbers congruent to numbers in range. -/
theorem doUpdate_iff {key a b c : StringPiece} (ha : Delimited a) (hb : Delimited b) (hc : Delimited c)
    (more : List StringPiece) (w : World) : (doUpdate (key :: a :: b :: c :: more) w).1 = true ↔
      key.asString.length ≤ 250 ∧ Congruent (2 ^ 31) a.asString ∧ Congruent (2 ^ 31) b.asString ∧
        Congruent 1048576 c.asString := by
  rw [← tokenValue_range ha (Nat.le_refl _), ← tokenValue_range hb (Nat.le_refl _),
    ← tokenValue_range hc (by norm_num)]
  constructor
  · intro h
    obtain ⟨key, a, b, c, more, flag, exptime, valueLen, he, hkey, hva, hvb, hvc⟩ := values_of_doUpdate h
    obtain ⟨rfl, rfl, rfl, rfl, rfl⟩ : _ ∧ _ ∧ _ ∧ _ ∧ _ := by simpa using he
    obtain ⟨hflag, hexp, hval⟩ := (doUpdate_of_values hkey hva hvb hvc _ w).1.mp h
    have hflag' := tokenValue_lt hva
    have hexp' := tokenValue_lt hvb
    exact ⟨hkey, ⟨flag, hva, hflag, by omega⟩, ⟨exptime, hvb, hexp, by omega⟩, ⟨valueLen, hvc, hval⟩⟩
  · rintro ⟨hkey, ⟨flag, hva, hflag, -⟩, ⟨exptime, hvb, hexp, -⟩, ⟨valueLen, hvc, hval⟩⟩
    exact (doUpdate_of_values hkey hva hvb hvc more w).1.mpr ⟨hflag, hexp, hval⟩

theorem SetGrammar.reads {words : List StringPiece} (hwords : ∀ tok ∈ words, Delimited tok) (w : World)
    {key : Bytes} {flag exptime valueLen : ℕ} (h : SetGrammar words key flag exptime valueLen) :
    (doUpdate words w).1 = true ∧ (doUpdate words w).2.session.curKey = key ∧
    (doUpdate words w).2.session.curFlag = flag ∧ (doUpdate words w).2.session.curExptime = exptime ∧
    (doUpdate words w).2.session.curValueLen = valueLen := by
  cases h with
  | @mk key a b c more _ hkey ha hb hc =>
    simp only [List.forall_mem_cons] at hwords
    obtain ⟨-, hda, hdb, hdc, -⟩ := hwords
    have hlt := hc.lt
    obtain ⟨haccept, hs⟩ := doUpdate_of_values hkey (ha.tokenValue (Nat.le_refl _) hda)
      (hb.tokenValue (Nat.le_refl _) hdb) (hc.tokenValue (by norm_num) hdc) more w
    exact ⟨haccept.mpr (by omega), by rw [hs]; exact ⟨rfl, rfl, rfl, rfl⟩⟩

theorem Misread.not_grammar {words : List StringPiece} (h : Misread words) {key : Bytes} {flag exptime valueLen : ℕ} :
    ¬SetGrammar words key flag exptime valueLen := by
  intro hg
  cases h with
  | mk _ _ _ _ hnot =>
    cases hg with
    | mk _ _ ha hb hc => exact hnot ⟨ha, hb, hc⟩

theorem acceptsGrammar_of_words {words : List StringPiece} (hwords : ∀ tok ∈ words, Delimited tok) (w : World) :
    AcceptsGrammar words w ↔ ¬Misread words := by
  constructor
  · intro h hm
    have hgood : (doUpdate words w).1 = true := by
      cases hm with
      | mk hkey ha hb hc _ =>
        simp only [List.forall_mem_cons] at hwords
        obtain ⟨-, hda, hdb, hdc, -⟩ := hwords
        exact (doUpdate_iff hda hdb hdc _ w).mpr ⟨hkey, ha, hb, hc⟩
    obtain ⟨key, flag, exptime, valueLen, hg⟩ := h.accepts.mp hgood
    exact hm.not_grammar hg
  · intro hm
    refine ⟨⟨fun hgood => ?_, ?_⟩, fun hg => (hg.reads hwords w).2⟩
    · obtain ⟨key, a, b, c, more, flag, exptime, valueLen, rfl, hkey, -⟩ := values_of_doUpdate hgood
      simp only [List.forall_mem_cons] at hwords
      obtain ⟨hdkey, hda, hdb, hdc, -⟩ := hwords
      obtain ⟨-, ha, hb, hc⟩ := (doUpdate_iff hda hdb hdc more w).mp hgood
      by_contra hno
      refine hm (.mk hkey ha hb hc ?_)
      rintro ⟨hna, hnb, hnc⟩
      exact hno ⟨_, _, _, _, .mk (List.length_pos_of_ne_nil hdkey.word.1) hkey hna hnb hnc⟩
    · rintro ⟨key, flag, exptime, valueLen, hg⟩
      exact (hg.reads hwords w).1

end Update

section
variable [Muduo] [Freed] (hashRange : Bytes → ℕ)

/-- On a line whose first word is `set`, `doUpdate` is called with the words behind it; it follows the grammar
exactly when they are not misread. -/
theorem acceptsGrammar_iff {request : Bytes} {set : StringPiece} {words : List StringPiece}
    (ht : tokens request = set :: words) (hset : set.asString = ascii "set") (w : World) :
    (doRequestCommand hashRange request w = .ok (doUpdate words (w.setCommandType .kSet)) ∧
      AcceptsGrammar words (w.setCommandType .kSet)) ↔ ¬Misread words := by
  have hc : commandType set.asString = some .kSet := by rw [hset]; rfl
  have hcall : doRequestCommand hashRange request w = .ok (doUpdate words (w.setCommandType .kSet)) := by
    simp only [doRequestCommand, ht, hc]
  have hwords : ∀ tok ∈ words, Delimited tok :=
    fun tok h => delimited_of_mem (ht ▸ List.mem_cons_of_mem _ h)
  rw [acceptsGrammar_of_words hwords]
  exact and_iff_right hcall

end

/-- A line whose length has a leading zero. -/
theorem acceptsGrammar_leading_zero : ∃ set words, tokens (ascii "set k 0 0 01") = set :: words ∧
    ((@doRequestCommand Muduo.reference Freed.untouched (fun _ => 0) (ascii "set k 0 0 01") (World.fresh .init) =
        .ok (doUpdate words ((World.fresh .init).setCommandType .kSet)) ∧
      AcceptsGrammar words ((World.fresh .init).setCommandType .kSet)) ↔ ¬Misread words) := by
  let M := Muduo.reference
  let F := Freed.untouched
  have ht : tokens (ascii "set k 0 0 01") = _ := rfl
  exact ⟨_, _, ht, acceptsGrammar_iff (fun _ => 0) ht (by decide) _⟩

/-- A length of 2^32 + 1 is accepted as one byte. -/
theorem length_truncated : ¬∀ (request : Bytes) (set : StringPiece) (words : List StringPiece) (w : World),
    tokens request = set :: words → set.asString = ascii "set" → AcceptsGrammar words w := by
  intro h
  have haccept := (h (ascii "set k 0 0 4294967297") _ _ (World.fresh .init) rfl (by decide)).accepts
  obtain ⟨key, flag, exptime, valueLen, hg⟩ := haccept.mp (by decide)
  cases hg with
  | mk _ _ _ _ hlen => exact absurd hlen.lt (by decide)

end LinuxSocket.Memcached
