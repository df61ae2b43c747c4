import Mathlib.Data.List.Basic
import Mathlib.Tactic.Common

/-! # Words between separators

A word is a run of elements that are no separators and that cannot be made longer. `squeeze` keeps of the separators
one between two words.
-/
namespace LinuxSocket.Words
variable {α : Type*}

section Search
variable {p : α → Bool} {xs : List α} {c : α} {i k : ℕ}

/-- The first index from `k` on whose element has the property, or the end. -/
def findFrom (p : α → Bool) (xs : List α) (k : ℕ) : ℕ := k + (xs.drop k).findIdx p

theorem le_findFrom (p : α → Bool) (xs : List α) (k : ℕ) : k ≤ findFrom p xs k := Nat.le_add_right _ _

theorem findFrom_le (h : k ≤ xs.length) : findFrom p xs k ≤ xs.length := by
  have hle : (xs.drop k).findIdx p ≤ (xs.drop k).length := List.findIdx_le_length
  rw [List.length_drop] at hle
  unfold findFrom
  omega

theorem of_findFrom (h : xs[findFrom p xs k]? = some c) : p c = true := by
  rw [findFrom, ← List.getElem?_drop] at h
  exact List.findIdx_of_getElem?_eq_some h

theorem not_of_lt_findFrom (hk : k ≤ i) (hi : i < findFrom p xs k) : ∃ c, xs[i]? = some c ∧ p c = false := by
  have hlt : i - k < (xs.drop k).findIdx p := by
    unfold findFrom at hi
    omega
  have hlen := Nat.lt_of_lt_of_le hlt List.findIdx_le_length
  refine ⟨(xs.drop k)[i - k], ?_, by simpa using List.not_of_lt_findIdx hlt⟩
  rw [← List.getElem?_eq_getElem hlen, List.getElem?_drop, Nat.add_sub_cancel' hk]

theorem findFrom_succ (h : xs[k]? = some c) (hc : p c = false) : findFrom p xs (k + 1) = findFrom p xs k := by
  obtain ⟨hk, rfl⟩ := List.getElem?_eq_some_iff.mp h
  rw [findFrom, findFrom, List.drop_eq_getElem_cons hk, List.findIdx_cons, hc, cond_false]
  omega

theorem findFrom_here (h : xs[k]? = some c) (hc : p c = true) : findFrom p xs k = k := by
  obtain ⟨hk, rfl⟩ := List.getElem?_eq_some_iff.mp h
  rw [findFrom, List.drop_eq_getElem_cons hk, List.findIdx_cons, hc]
  rfl

theorem findFrom_length (p : α → Bool) (xs : List α) : findFrom p xs xs.length = xs.length := by
  rw [findFrom, List.drop_length]
  rfl

end Search

section Runs
variable [DecidableEq α] {sep : α} {xs : List α} {a b k x y : ℕ}

/-- The elements from index `a` to before index `b` are a word. -/
structure IsRun (sep : α) (xs : List α) (a b : ℕ) : Prop where
  lt : a < b
  le : b ≤ xs.length
  ne_sep : ∀ i, a ≤ i → i < b → xs[i]? ≠ some sep
  before : a = 0 ∨ xs[a - 1]? = some sep
  behind : b = xs.length ∨ xs[b]? = some sep

/-- No word goes on from before `k` to behind it. -/
def IsGap (sep : α) (xs : List α) (k : ℕ) : Prop := k = 0 ∨ k = xs.length ∨ xs[k]? = some sep

/-- The next word from `k` on begins and ends. -/
structure NextRun (sep : α) (xs : List α) (k a b : ℕ) : Prop where
  gap : IsGap sep xs k
  le : k ≤ xs.length
  start : findFrom (· != sep) xs k = a
  lt : a < xs.length
  stop : findFrom (· == sep) xs a = b

theorem NextRun.lt_stop (h : NextRun sep xs k a b) : a < b := by
  obtain ⟨c, hc⟩ : ∃ c, xs[a]? = some c := ⟨_, List.getElem?_eq_getElem h.lt⟩
  have hne : (c != sep) = true := by
    rw [← h.start] at hc
    exact of_findFrom (p := (· != sep)) hc
  have hle := h.stop ▸ le_findFrom (· == sep) xs a
  refine Nat.lt_of_le_of_ne hle fun heq => ?_
  have hsep : (c == sep) = true := by
    rw [heq, ← h.stop] at hc
    exact of_findFrom (p := (· == sep)) hc
  rw [bne, hsep] at hne
  exact Bool.noConfusion hne

theorem NextRun.stop_le (h : NextRun sep xs k a b) : b ≤ xs.length := h.stop ▸ findFrom_le (Nat.le_of_lt h.lt)

theorem NextRun.le_start (h : NextRun sep xs k a b) : k ≤ a := h.start ▸ le_findFrom _ xs k

theorem NextRun.skipped (h : NextRun sep xs k a b) {i : ℕ} (hk : k ≤ i) (hi : i < a) : xs[i]? = some sep := by
  obtain ⟨c, hc, hsep⟩ := not_of_lt_findFrom hk (h.start.symm ▸ hi)
  have heq : c = sep := by simpa using hsep
  exact heq ▸ hc

theorem NextRun.ne_sep (h : NextRun sep xs k a b) {i : ℕ} (ha : a ≤ i) (hi : i < b) : xs[i]? ≠ some sep := by
  obtain ⟨c, hc, hsep⟩ := not_of_lt_findFrom ha (h.stop.symm ▸ hi)
  rw [hc]
  intro heq
  rw [Option.some.inj heq] at hsep
  simp at hsep

theorem isGap_stop (h : NextRun sep xs k a b) : b = xs.length ∨ xs[b]? = some sep := by
  rcases Nat.lt_or_ge b xs.length with hlt | hge
  · refine .inr ?_
    have hb : xs[b]? = some xs[b] := List.getElem?_eq_getElem hlt
    have hsep : (xs[b] == sep) = true := by
      have hfound := hb
      simp only [← h.stop] at hfound ⊢
      exact of_findFrom (p := (· == sep)) hfound
    rw [hb, eq_of_beq hsep]
  · exact .inl (Nat.le_antisymm h.stop_le hge)

theorem NextRun.isRun (h : NextRun sep xs k a b) : IsRun sep xs a b := by
  refine ⟨h.lt_stop, h.stop_le, fun i => h.ne_sep, ?_, isGap_stop h⟩
  rcases Nat.lt_or_ge k a with hlt | hge
  · exact .inr (h.skipped (by omega) (by omega))
  · have heq : k = a := Nat.le_antisymm h.le_start hge
    have hlt := h.lt
    have hne := h.ne_sep (Nat.le_refl a) h.lt_stop
    rcases h.gap with hzero | hend | hsep
    · exact .inl (heq ▸ hzero)
    · omega
    · exact absurd (heq ▸ hsep) hne

/-- The next word is the first one. -/
theorem NextRun.first (h : NextRun sep xs k a b) (hr : IsRun sep xs x y) (hx : k ≤ x) :
    x = a ∧ y = b ∨ b < x := by
  have hab := h.lt_stop
  have hax : a ≤ x := by
    by_contra hlt
    exact hr.ne_sep x (Nat.le_refl x) hr.lt (h.skipped hx (by omega))
  rcases Nat.lt_or_ge a x with hlt | hge
  · -- in front of this word there is a separator, and none in the next word
    have hsep : xs[x - 1]? = some sep := hr.before.resolve_left (by omega)
    have hbx : ¬x - 1 < b := fun hin => h.ne_sep (by omega) hin hsep
    exact .inr (by omega)
  · obtain rfl : x = a := Nat.le_antisymm hge hax
    refine .inl ⟨rfl, Nat.le_antisymm ?_ ?_⟩
    · by_contra hlt
      rcases isGap_stop h with hend | hsep
      · have := hr.le
        omega
      · exact hr.ne_sep b (by omega) (by omega) hsep
    · by_contra hlt
      rcases hr.behind with hend | hsep
      · have := h.stop_le
        omega
      · exact h.ne_sep (Nat.le_of_lt hr.lt) (by omega) hsep

theorem not_isRun (h : findFrom (· != sep) xs k = xs.length) (hx : k ≤ x) : ¬IsRun sep xs x y := by
  intro hr
  have hlt := Nat.lt_of_lt_of_le hr.lt hr.le
  obtain ⟨c, hc, hsep⟩ := not_of_lt_findFrom hx (h.symm ▸ hlt)
  have heq : c = sep := by simpa using hsep
  exact hr.ne_sep x (Nat.le_refl x) hr.lt (heq ▸ hc)

end Runs

section Squeeze
variable [DecidableEq α] {sep : α} {xs w rest : List α} {a b k : ℕ}

/-- Without the separators in front of another separator or of the end. -/
def trim (sep : α) : List α → List α
  | [] => []
  | c :: cs => if c = sep ∧ (cs = [] ∨ cs.head? = some sep) then trim sep cs else c :: trim sep cs

/-- Without leading, trailing and repeated separators. -/
def squeeze (sep : α) (xs : List α) : List α := trim sep (xs.dropWhile (· == sep))

/-- The elements from index `a` to before index `b`. -/
def slice (xs : List α) (a b : ℕ) : List α := (xs.drop a).take (b - a)

theorem trim_append (hw : sep ∉ w) (rest : List α) : trim sep (w ++ rest) = w ++ trim sep rest := by
  induction w with
  | nil => rfl
  | cons c w ih =>
    obtain ⟨hc, hw⟩ := not_or.mp (mt List.mem_cons.mpr hw)
    rw [List.cons_append, trim, if_neg fun h => hc h.1.symm, ih hw, List.cons_append]

theorem squeeze_cons_sep (xs : List α) : squeeze sep (sep :: xs) = squeeze sep xs := by
  rw [squeeze, List.dropWhile_cons, if_pos (beq_self_eq_true sep), squeeze]

theorem squeeze_cons_ne {c : α} (hc : c ≠ sep) (xs : List α) : squeeze sep (c :: xs) = trim sep (c :: xs) := by
  rw [squeeze, List.dropWhile_cons, if_neg (by simpa using hc)]

/-- Separators between words are trimmed to one, those behind the last word to none. -/
theorem trim_gap (h : rest = [] ∨ rest.head? = some sep) :
    (squeeze sep rest = [] → trim sep rest = []) ∧
      (squeeze sep rest ≠ [] → trim sep rest = sep :: squeeze sep rest) := by
  induction rest with
  | nil => exact ⟨fun _ => rfl, fun hne => absurd rfl hne⟩
  | cons c cs ih =>
    obtain rfl : c = sep := by simpa using h
    rw [squeeze_cons_sep, trim]
    by_cases hcs : cs = [] ∨ cs.head? = some c
    · rw [if_pos ⟨rfl, hcs⟩]
      exact ih hcs
    · obtain ⟨d, ds, rfl⟩ := List.exists_cons_of_ne_nil (not_or.mp hcs).1
      have hd : d ≠ c := by simpa using (not_or.mp hcs).2
      have hne : trim c (d :: ds) = d :: trim c ds := by rw [trim, if_neg fun h => hd h.1]
      rw [if_neg fun h => hcs h.2, squeeze_cons_ne hd, hne]
      exact ⟨fun hnil => absurd hnil (List.cons_ne_nil _ _), fun _ => rfl⟩

theorem dropWhile_drop (xs : List α) (k : ℕ) :
    (xs.drop k).dropWhile (· == sep) = xs.drop (findFrom (· != sep) xs k) := by
  rw [List.dropWhile_eq_drop_findIdx_not, List.drop_drop]
  rfl

theorem squeeze_of_no_run (h : findFrom (· != sep) xs k = xs.length) : squeeze sep (xs.drop k) = [] := by
  rw [squeeze, dropWhile_drop, h, List.drop_length, trim]

theorem NextRun.drop_start (h : NextRun sep xs k a b) : xs.drop a = slice xs a b ++ xs.drop b := by
  have hle := Nat.le_of_lt h.lt_stop
  rw [slice, ← Nat.add_sub_cancel' hle, Nat.add_sub_cancel_left, ← List.drop_drop, List.take_append_drop]

theorem NextRun.sep_not_mem (h : NextRun sep xs k a b) : sep ∉ slice xs a b := by
  intro hmem
  obtain ⟨i, hi, heq⟩ := List.getElem_of_mem hmem
  have hlen := hi
  rw [slice, List.length_take] at hlen
  have hget : xs[a + i]? = some sep := by
    rw [← heq, ← List.getElem?_eq_getElem hi, slice, List.getElem?_take_of_lt (by omega), List.getElem?_drop]
  exact h.ne_sep (Nat.le_add_right a i) (by omega) hget

/-- What is left begins with the next word. -/
theorem NextRun.squeeze (h : NextRun sep xs k a b) :
    squeeze sep (xs.drop k) = slice xs a b ++ trim sep (xs.drop b) := by
  rw [Words.squeeze, dropWhile_drop, h.start, h.drop_start, trim_append h.sep_not_mem]

theorem head?_drop_stop (h : NextRun sep xs k a b) : xs.drop b = [] ∨ (xs.drop b).head? = some sep := by
  rw [List.drop_eq_nil_iff, List.head?_drop]
  exact (isGap_stop h).imp_left fun heq => Nat.le_of_eq heq.symm

theorem NextRun.slice_ne_nil (h : NextRun sep xs k a b) : slice xs a b ≠ [] := by
  have hlt := h.lt_stop
  have hle := h.stop_le
  refine List.ne_nil_of_length_pos ?_
  rw [slice, List.length_take, List.length_drop]
  omega

end Squeeze

section All
variable [DecidableEq α]

/-- All words from `k` on, one after the other. -/
inductive RunsFrom (sep : α) (xs : List α) : ℕ → List (ℕ × ℕ) → Prop
  | stop {k} : findFrom (· != sep) xs k = xs.length → RunsFrom sep xs k []
  | run {k a b spans} : NextRun sep xs k a b → RunsFrom sep xs b spans → RunsFrom sep xs k ((a, b) :: spans)

variable {sep : α} {xs : List α} {k : ℕ} {spans : List (ℕ × ℕ)}

theorem RunsFrom.mem_iff (h : RunsFrom sep xs k spans) (a b : ℕ) : (a, b) ∈ spans ↔ IsRun sep xs a b ∧ k ≤ a := by
  induction h with
  | stop hno => exact iff_of_false List.not_mem_nil fun hr => not_isRun hno hr.2 hr.1
  | run hnext _ ih =>
    rw [List.mem_cons, ih, Prod.mk.injEq]
    constructor
    · rintro (⟨rfl, rfl⟩ | ⟨hr, hle⟩)
      · exact ⟨hnext.isRun, hnext.le_start⟩
      · have hlt := hnext.lt_stop
        have hfrom := hnext.le_start
        exact ⟨hr, by omega⟩
    · rintro ⟨hr, hle⟩
      exact (hnext.first hr hle).imp id fun hlt => ⟨hr, Nat.le_of_lt hlt⟩

/-- The words are in order and apart from each other. -/
theorem RunsFrom.ordered (h : RunsFrom sep xs k spans) : spans.Pairwise fun x y => x.2 < y.1 := by
  induction h with
  | stop => exact .nil
  | @run k a b spans hnext hrest ih =>
    refine .cons (fun y hy => ?_) ih
    obtain ⟨hr, hle⟩ := (hrest.mem_iff y.1 y.2).mp hy
    have hlt := hnext.lt_stop
    have hfrom := hnext.le_start
    refine (hnext.first hr (Nat.le_trans hfrom (Nat.le_of_lt (Nat.lt_of_lt_of_le hlt hle)))).resolve_left ?_
    rintro ⟨heq, -⟩
    exact absurd (heq ▸ hle) (Nat.not_le.mpr hlt)

/-- Joining the words gives what is left without superfluous separators. -/
theorem RunsFrom.join_eq (h : RunsFrom sep xs k spans) :
    [sep].intercalate (spans.map fun x => slice xs x.1 x.2) = squeeze sep (xs.drop k) := by
  induction h with
  | stop hno => exact (squeeze_of_no_run hno).symm
  | @run k a b spans hnext hrest ih =>
    obtain ⟨hnil, hcons⟩ := trim_gap (head?_drop_stop hnext)
    rw [hnext.squeeze, List.map_cons]
    cases hrest with
    | stop =>
      rw [hnil ih.symm, List.append_nil]
      exact List.intercalate_singleton
    | run hnext' _ =>
      have hne : Words.squeeze sep (xs.drop b) ≠ [] := by
        rw [hnext'.squeeze]
        exact List.append_ne_nil_of_left_ne_nil hnext'.slice_ne_nil _
      rw [hcons hne, ← ih, List.map_cons, List.intercalate_cons_cons, List.append_assoc, List.singleton_append]

end All

end LinuxSocket.Words
