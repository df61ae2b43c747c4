import Mathlib.Data.List.Basic
import Mathlib.Data.Nat.Find
import Mathlib.Tactic.Common

/-! # Byte strings and their CR LF terminated lines

`FirstCrlf` is the relation a search for a line end computes. It is stable under
appended bytes, and resuming it behind bytes that hold no line end is the full
search unless the cut lies between a CR and its LF.
-/
namespace LinuxSocket

abbrev Bytes := List UInt8

def CR : UInt8 := 13
def LF : UInt8 := 10
def SP : UInt8 := 32
def CRLF : Bytes := [CR, LF]

/-- The bytes of a string literal of the source. -/
def ascii (s : String) : Bytes := s.toList.map (fun c => UInt8.ofNat c.toNat)

/-- `isspace` of the C locale. -/
def isspace (c : UInt8) : Bool := c == 32 || (9 ≤ c && c ≤ 13)

def isdigit (c : UInt8) : Bool := 48 ≤ c && c ≤ 57

def CrlfAt (b : Bytes) (i : ℕ) : Prop := b[i]? = some CR ∧ b[i + 1]? = some LF

instance (b : Bytes) (i : ℕ) : Decidable (CrlfAt b i) := inferInstanceAs (Decidable (_ ∧ _))

def NoCrlf (b : Bytes) : Prop := ∀ i, ¬CrlfAt b i

/-- `i` is the first position at or after `p` where a CR LF starts. -/
structure FirstCrlf (b : Bytes) (p i : ℕ) : Prop where
  le : p ≤ i
  found : CrlfAt b i
  first : ∀ j, p ≤ j → j < i → ¬CrlfAt b j

theorem CrlfAt.lt_length {b : Bytes} {i : ℕ} (h : CrlfAt b i) : i + 1 < b.length :=
  (List.getElem?_eq_some_iff.mp h.2).1

theorem crlfAt_append_left {b : Bytes} (c : Bytes) {i : ℕ} (h : i + 1 < b.length) :
    CrlfAt (b ++ c) i ↔ CrlfAt b i := by
  unfold CrlfAt
  rw [List.getElem?_append_left (by omega), List.getElem?_append_left h]

theorem crlfAt_append_right (b c : Bytes) (i : ℕ) : CrlfAt (b ++ c) (b.length + i) ↔ CrlfAt c i := by
  unfold CrlfAt
  rw [List.getElem?_append_right (by omega), List.getElem?_append_right (by omega)]
  simp [show b.length + i + 1 - b.length = i + 1 by omega]

theorem CrlfAt.append {b : Bytes} {i : ℕ} (h : CrlfAt b i) (c : Bytes) : CrlfAt (b ++ c) i :=
  (crlfAt_append_left c h.lt_length).mpr h

theorem crlfAt_append_cut {b c : Bytes} {i : ℕ} (hi : i + 1 = b.length) :
    CrlfAt (b ++ c) i ↔ b.getLast? = some CR ∧ c.head? = some LF := by
  unfold CrlfAt
  rw [List.getElem?_append_left (by omega), List.getElem?_append_right (by omega), hi,
    List.getLast?_eq_getElem?, ← hi, Nat.add_sub_cancel, Nat.sub_self, List.head?_eq_getElem?]

theorem exists_firstCrlf {b : Bytes} {p : ℕ} (h : ∃ i, p ≤ i ∧ CrlfAt b i) : ∃ i, FirstCrlf b p i := by
  refine ⟨Nat.find h, (Nat.find_spec h).1, (Nat.find_spec h).2, ?_⟩
  intro j hp hj hc
  exact Nat.find_min h hj ⟨hp, hc⟩

theorem FirstCrlf.append {b : Bytes} {p i : ℕ} (h : FirstCrlf b p i) (c : Bytes) :
    FirstCrlf (b ++ c) p i := by
  have hlt := h.found.lt_length
  refine ⟨h.le, h.found.append c, ?_⟩
  intro j hp hj hc
  exact h.first j hp hj ((crlfAt_append_left c (by omega)).mp hc)

theorem NoCrlf.nil : NoCrlf [] := by
  intro i h
  simpa using h.lt_length

theorem NoCrlf.of_not_mem {b : Bytes} (h : CR ∉ b) : NoCrlf b := by
  intro i hi
  exact h (List.mem_of_getElem? hi.1)

/-- A line without CR LF, its terminator and anything behind: the search stops at the terminator. -/
theorem firstCrlf_line {l : Bytes} (h : NoCrlf l) (rest : Bytes) :
    FirstCrlf (l ++ CR :: LF :: rest) 0 l.length := by
  refine ⟨Nat.zero_le _, ?_, ?_⟩
  · have := (crlfAt_append_right l (CR :: LF :: rest) 0).mpr ⟨rfl, rfl⟩
    simpa using this
  · intro j _ hj hc
    rcases Nat.lt_or_ge (j + 1) l.length with hlt | hge
    · exact h j ((crlfAt_append_left _ hlt).mp hc)
    · have hcut := (crlfAt_append_cut (by omega)).mp hc
      simp [CR, LF] at hcut

theorem FirstCrlf.noCrlf_take {b : Bytes} {i : ℕ} (h : FirstCrlf b 0 i) : NoCrlf (b.take i) := by
  intro j hj
  have hlt := hj.lt_length
  rw [List.length_take] at hlt
  have hb : CrlfAt b j := by
    have := hj.append (b.drop i)
    rwa [List.take_append_drop] at this
  exact h.first j (Nat.zero_le _) (by omega) hb

theorem FirstCrlf.split {b : Bytes} {i : ℕ} (h : FirstCrlf b 0 i) :
    b = b.take i ++ CR :: LF :: b.drop (i + 2) := by
  have hlt := h.found.lt_length
  obtain ⟨h0, hc⟩ := List.getElem?_eq_some_iff.mp h.found.1
  obtain ⟨h1, hl⟩ := List.getElem?_eq_some_iff.mp h.found.2
  rw [← hc, ← hl, List.getElem_cons_drop h1, List.getElem_cons_drop h0, List.take_append_drop]

/-- Behind `u`, which holds no line end, the search can resume unless the cut is inside a CR LF. -/
theorem firstCrlf_resume {u c : Bytes} (hu : NoCrlf u) (hcut : ¬(u.getLast? = some CR ∧ c.head? = some LF))
    (i : ℕ) : FirstCrlf (u ++ c) u.length i ↔ FirstCrlf (u ++ c) 0 i := by
  have hno : ∀ j, j < u.length → ¬CrlfAt (u ++ c) j := by
    intro j hj hc
    rcases Nat.lt_or_ge (j + 1) u.length with hlt | hge
    · exact hu j ((crlfAt_append_left c hlt).mp hc)
    · exact hcut ((crlfAt_append_cut (by omega)).mp hc)
  constructor
  · intro h
    refine ⟨Nat.zero_le _, h.found, ?_⟩
    intro j _ hj
    rcases Nat.lt_or_ge j u.length with hlt | hge
    · exact hno j hlt
    · exact h.first j hge hj
  · intro h
    have hle : u.length ≤ i := Nat.le_of_not_lt fun hlt => hno i hlt h.found
    exact ⟨hle, h.found, fun j _ hj => h.first j (Nat.zero_le _) hj⟩

/-- Cut inside a CR LF, the line end lies in front of the point of resumption. -/
theorem firstCrlf_cut {u c : Bytes} (hu : NoCrlf u) (hcut : u.getLast? = some CR ∧ c.head? = some LF) :
    FirstCrlf (u ++ c) 0 (u.length - 1) := by
  have hpos : u ≠ [] := by
    rintro rfl
    simp at hcut
  have hlen := List.length_pos_of_ne_nil hpos
  refine ⟨Nat.zero_le _, (crlfAt_append_cut (by omega)).mpr hcut, ?_⟩
  intro j _ hj hc
  exact hu j ((crlfAt_append_left c (by omega)).mp hc)

/-- `std::find` on bytes that hold a separator. -/
theorem idxOf_separator {u : Bytes} {c : UInt8} (h : c ∉ u) (v : Bytes) :
    (u ++ c :: v).idxOf c = u.length ∧ (u ++ c :: v).take u.length = u ∧
      (u ++ c :: v).drop (u.length + 1) = v ∧
      u.length ≠ (u ++ c :: v).length := by
  refine ⟨?_, List.take_left .., ?_, by simp⟩
  · rw [List.idxOf_append_of_notMem h, List.idxOf_cons_self, Nat.add_zero]
  · rw [← List.drop_drop, List.drop_left]
    rfl

theorem append_separator_inj {u u' v v' : Bytes} {c : UInt8} (hu : c ∉ u) (hu' : c ∉ u')
    (h : u ++ c :: v = u' ++ c :: v') : u = u' ∧ v = v' := by
  have hlen : u.length = u'.length := by
    rw [← (idxOf_separator hu v).1, h, (idxOf_separator hu' v').1]
  obtain ⟨hleft, hright⟩ := List.append_inj h hlen
  exact ⟨hleft, (List.cons.inj hright).2⟩

/-- The position of the first CR LF at or after `p`, by scanning. -/
def crlfFrom (b : Bytes) (p : ℕ) : Option ℕ :=
  (List.range b.length).find? fun i => decide (p ≤ i ∧ CrlfAt b i)

theorem crlfFrom_eq_some {b : Bytes} {p i : ℕ} : crlfFrom b p = some i ↔ FirstCrlf b p i := by
  simp only [crlfFrom, List.find?_range_eq_some, decide_eq_true_eq, List.mem_range, Bool.not_eq_true',
    decide_eq_false_iff_not, not_and]
  constructor
  · rintro ⟨⟨hp, hc⟩, -, hfirst⟩
    exact ⟨hp, hc, fun j hj hlt => hfirst j hlt hj⟩
  · intro h
    exact ⟨⟨h.le, h.found⟩, by have := h.found.lt_length; omega, fun j hlt hj => h.first j hj hlt⟩

end LinuxSocket
