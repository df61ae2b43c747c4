import LinuxSocket.Lib.Loop
import LinuxSocket.Lib.Words
import LinuxSocket.Memcached.Tokenizer

/-! # The tokens of a request as positions

The pointers of `SpaceSeparator` are indices into the request, and a read at an index outside of it is `none`. The
tokens that the calls yield are the words of the request, and the session reads the same ones.
-/
namespace LinuxSocket.Memcached
open Words

/-- The loop that skips spaces, from `next` on. -/
def skipSpaces (request : Bytes) : Loop.Body ℕ (Option ℕ) where
  step next :=
    if next ≠ request.length then
      match request[next]? with
      | none => .inr none
      | some c => if c = SP then .inl (next + 1) else .inr (some next)
    else .inr (some next)
  variant next := request.length - next
  decreases {s t} h := by
    split at h
    · split at h
      · cases h
      · next c hc =>
        have hlt := (List.getElem?_eq_some_iff.mp hc).1
        split at h
        · cases h
          omega
        · cases h
    · cases h

def memchr (block : Bytes) (c : UInt8) : Option ℕ := block.findIdx? (· == c)

/-- `SpaceSeparator::operator()`, which returns false or sets the token from one index to another and `next` to the
latter; `none` is a read outside of the request. -/
def separate (request : Bytes) (next : ℕ) : Option (Option (ℕ × ℕ)) := do
  let start ← (skipSpaces request).run next
  if start = request.length then some none
  else
    match memchr (request.drop start) SP with
    | some sp => some (some (start, start + sp))
    | none => some (some (start, request.length))

/-- The calls of `boost::tokenizer` from a cursor on, up to the one that returns false, with their tokens. -/
inductive Calls (request : Bytes) : ℕ → List (ℕ × ℕ) → Prop
  | stop {next} : separate request next = some none → Calls request next []
  | token {next start stop spans} : separate request next = some (some (start, stop)) → Calls request stop spans →
      Calls request next ((start, stop) :: spans)

def pieceLength (span : ℕ × ℕ) : ℤ := toInt (span.2 - span.1)

structure Tokenizes (request : Bytes) (spans : List (ℕ × ℕ)) : Prop where
  mem_iff : ∀ a b, (a, b) ∈ spans ↔ IsRun SP request a b
  ordered : spans.Pairwise fun x y => x.2 < y.1
  /-- `next` behind each call -/
  next_le : ∀ x ∈ spans, x.2 ≤ request.length
  join_eq : [SP].intercalate (spans.map fun x => slice request x.1 x.2) = squeeze SP request
  /-- the session works on these tokens -/
  tokens_eq : tokens request = spans.map fun x => ⟨request.drop x.1, x.2 - x.1⟩
  /-- the length of a token is exact where a `StringPiece` can hold the request -/
  pieceLength_eq : request.length < 2 ^ 31 → ∀ x ∈ spans, pieceLength x = (x.2 - x.1 : ℕ)

variable {request : Bytes} {next start stop : ℕ} {spans : List (ℕ × ℕ)}

section Calls

theorem skipSpaces_run (h : next ≤ request.length) :
    (skipSpaces request).run next = some (findFrom (· != SP) request next) := by
  induction next using (skipSpaces request).induction with
  | h next ih =>
    by_cases hend : next = request.length
    · rw [Loop.Body.run_exit _ (if_neg (not_not.mpr hend)), hend, findFrom_length]
    · have hlt : next < request.length := Nat.lt_of_le_of_ne h hend
      obtain ⟨c, hget⟩ : ∃ c, request[next]? = some c := ⟨_, List.getElem?_eq_getElem hlt⟩
      by_cases hc : c = SP
      · have hstep : (skipSpaces request).step next = .inl (next + 1) := by
          simp only [skipSpaces, if_pos hend, hget, if_pos hc]
        rw [Loop.Body.run_next _ hstep, ih _ hstep (by omega), findFrom_succ hget (by simpa using hc)]
      · have hstep : (skipSpaces request).step next = .inr (some next) := by
          simp only [skipSpaces, if_pos hend, hget, if_neg hc]
        rw [Loop.Body.run_exit _ hstep, findFrom_here hget (by simpa using hc)]

theorem separate_of_no_run (h : next ≤ request.length) (hno : findFrom (· != SP) request next = request.length) :
    separate request next = some none := by
  rw [separate, skipSpaces_run h, hno]
  exact if_pos rfl

theorem separate_of_nextRun (h : NextRun SP request next start stop) :
    separate request next = some (some (start, stop)) := by
  have hstop := h.stop
  rw [separate, skipSpaces_run h.le, h.start, Option.bind_eq_bind, Option.bind_some, if_neg (Nat.ne_of_lt h.lt), memchr]
  rw [findFrom] at hstop
  cases hfind : (request.drop start).findIdx? (· == SP) with
  | some sp =>
    rw [(List.findIdx?_eq_some_iff_findIdx_eq.mp hfind).2] at hstop
    dsimp only
    rw [hstop]
  | none =>
    rw [List.findIdx?_eq_none_iff_findIdx_eq.mp hfind, List.length_drop] at hstop
    have hlt := h.lt
    have heq : request.length = stop := by omega
    dsimp only
    rw [heq]

/-- A call from a gap returns false behind the last word, or sets the next word. -/
theorem separate_cases (hle : next ≤ request.length) (hgap : IsGap SP request next) :
    (findFrom (· != SP) request next = request.length ∧ separate request next = some none) ∨
      ∃ start stop, NextRun SP request next start stop ∧ separate request next = some (some (start, stop)) := by
  by_cases hno : findFrom (· != SP) request next = request.length
  · exact .inl ⟨hno, separate_of_no_run hle hno⟩
  · have hlt : findFrom (· != SP) request next < request.length :=
      Nat.lt_of_le_of_ne (findFrom_le hle) hno
    have hnext : NextRun SP request next _ _ := ⟨hgap, hle, rfl, hlt, rfl⟩
    exact .inr ⟨_, _, hnext, separate_of_nextRun hnext⟩

/-- `next` stays in the request, and no call reads outside of it. -/
theorem exists_calls (hle : next ≤ request.length) (hgap : IsGap SP request next) :
    ∃ spans, Calls request next spans := by
  induction hn : request.length - next using Nat.strongRecOn generalizing next with
  | ind n ih =>
    rcases separate_cases hle hgap with ⟨-, hfalse⟩ | ⟨start, stop, hnext, htoken⟩
    · exact ⟨[], .stop hfalse⟩
    · have hprogress := hnext.lt_stop
      have hfrom := hnext.le_start
      have hto := hnext.stop_le
      obtain ⟨spans, hspans⟩ := ih (request.length - stop) (by omega) hto (.inr (isGap_stop hnext)) rfl
      exact ⟨_, .token htoken hspans⟩

theorem Calls.runsFrom (h : Calls request next spans) (hle : next ≤ request.length) (hgap : IsGap SP request next) :
    RunsFrom SP request next spans := by
  induction h with
  | stop hfalse =>
    rcases separate_cases hle hgap with ⟨hno, -⟩ | ⟨start, stop, -, htoken⟩
    · exact .stop hno
    · cases hfalse.symm.trans htoken
  | token htoken _ ih =>
    rcases separate_cases hle hgap with ⟨-, hfalse⟩ | ⟨start, stop, hnext, htoken'⟩
    · cases hfalse.symm.trans htoken
    · obtain ⟨rfl, rfl⟩ := Prod.mk.inj (Option.some.inj (Option.some.inj (htoken.symm.trans htoken')))
      exact .run hnext (ih hnext.stop_le (.inr (isGap_stop hnext)))

end Calls

section Words

/-- What the session makes of the request from a cursor on. -/
theorem spaceSeparator_of_nextRun (h : NextRun SP request next start stop) :
    spaceSeparator (request.drop next) = some (⟨request.drop start, stop - start⟩, request.drop stop) := by
  have hstop := h.stop
  have hlen : ((request.drop start).takeWhile (· != SP)).length = stop - start := by
    rw [findFrom] at hstop
    rw [List.takeWhile_eq_take_findIdx_not, List.length_take_of_le List.findIdx_le_length]
    simp only [bne, Bool.not_not]
    omega
  have hle := Nat.le_of_lt h.lt_stop
  unfold spaceSeparator
  rw [dropWhile_drop, h.start]
  cases hs : request.drop start with
  | nil => exact absurd (List.drop_eq_nil_iff.mp hs) (Nat.not_le.mpr h.lt)
  | cons c cs =>
    dsimp only
    rw [← hs, hlen, List.drop_drop, Nat.add_sub_cancel' hle]

theorem tokens_of_runsFrom (h : RunsFrom SP request next spans) :
    tokens (request.drop next) = spans.map fun x => ⟨request.drop x.1, x.2 - x.1⟩ := by
  induction h with
  | @stop next hno =>
    refine tokens_of_none ?_
    unfold spaceSeparator
    rw [dropWhile_drop, hno, List.drop_length]
  | run hnext _ ih => rw [tokens_of_some (spaceSeparator_of_nextRun hnext), ih, List.map_cons]

theorem tokenizes_of_runsFrom (h : RunsFrom SP request 0 spans) : Tokenizes request spans := by
  have htokens := tokens_of_runsFrom h
  have hjoin := h.join_eq
  rw [List.drop_zero] at htokens hjoin
  have hle : ∀ x ∈ spans, x.2 ≤ request.length := fun x hx => ((h.mem_iff x.1 x.2).mp hx).1.le
  refine ⟨fun a b => ?_, h.ordered, hle, hjoin, htokens, fun hlt x hx => ?_⟩
  · rw [h.mem_iff]
    exact and_iff_left (Nat.zero_le a)
  · have := hle x hx
    exact toInt_of_lt (by omega)

end Words

/-- On every request the calls come to an end, no call reads outside of the request, and the tokens are the words of
the request. -/
theorem separator_tokenizes (request : Bytes) :
    (∃ spans, Calls request 0 spans) ∧ ∀ spans, Calls request 0 spans → Tokenizes request spans := by
  have hgap : IsGap SP request 0 := .inl rfl
  refine ⟨exists_calls (Nat.zero_le _) hgap, fun spans h => ?_⟩
  exact tokenizes_of_runsFrom (h.runsFrom (Nat.zero_le _) hgap)

end LinuxSocket.Memcached
