import LinuxSocket.Http.Segmentation
import LinuxSocket.Http.Servers

/-! # How many requests a stream holds

The parser stops behind every request. The requests of a stream are counted by calling
`parse_request` and `reset` until nothing is complete; the count can be taken up where it stopped.
-/
namespace LinuxSocket.Http

def ParseOutcome.gotAll : ParseOutcome → Bool
  | .returned _ context _ => context.gotAll
  | .aborted => false

section Outcomes
variable [Muduo] [Boost] {context context' : HttpContext} {b b' : Bytes} {ok : Bool}

theorem parse_append (h : parseRequest (context, b) = .returned ok context' b') (c : Bytes) :
    parseRequest (context, b ++ c) = parseRequest (context', b' ++ c) := by
  have := parse_resumable.run_append (x := (context, b)) trivial c
  exact this.symm.trans (congrArg (appendAndParse · c) h)

theorem parse_gotAll_append (h : parseRequest (context, b) = .returned ok context' b')
    (hg : context'.gotAll = true) (c : Bytes) :
    parseRequest (context, b ++ c) = .returned true context' (b' ++ c) := by
  rw [parse_append h c, parseRequest_gotAll (eq_of_beq hg)]

theorem parse_aborted_append (h : parseRequest (context, b) = .aborted) (c : Bytes) :
    parseRequest (context, b ++ c) = .aborted := by
  have := parse_resumable.run_append (x := (context, b)) trivial c
  exact this.symm.trans (congrArg (appendAndParse · c) h)

theorem parse_exits {r : ParseOutcome} (h : parseRequest (context, b) = r) :
    ∃ t, parseRequestBody.Visits (context, b) t ∧ parseRequestStep t = .inr r := by
  obtain ⟨t, hv, he⟩ := parseRequestBody.exists_exit (context, b)
  exact ⟨t, hv, he.trans (congrArg Sum.inr h)⟩

/-- A rejected request line is rejected again, whatever follows it. -/
theorem parse_rejected (h : parseRequest (context, b) = .returned false context' b') (c : Bytes) :
    context'.gotAll = false ∧ parseRequest (context, b ++ c) = .returned false context' (b' ++ c) := by
  rw [parse_append h c]
  obtain ⟨⟨s, u⟩, -, he⟩ := parse_exits h
  cases parseRequestStep_exit he with
  | @rejected crlf _ _ hf hp =>
    refine ⟨rfl, parseRequest_exit (parseRequestStep_reject rfl (findCRLF_append hf c) ?_)⟩
    rw [findCRLF_take_append hf, ← hp]
    have hagain := parseFirstLine_again (b'.take crlf) s.request
    rwa [hp] at hagain ⊢
  | body _ hr =>
    obtain ⟨-, -, hok, -⟩ := parseBody_returned hr
    cases hok

def parseMeasure (p : HttpContext × Bytes) : ℕ :=
  2 * p.2.length + if p.1.state = .kExpectRequestLine then 0 else 1

theorem parseMeasure_le (h : parseRequest (context, b) = .returned ok context' b') :
    parseMeasure (context', b') ≤ parseMeasure (context, b) := by
  obtain ⟨⟨s, u⟩, hv, he⟩ := parse_exits h
  have hle : parseMeasure (s, u) ≤ parseMeasure (context, b) := by
    refine hv.invariant (I := fun p => parseMeasure p ≤ parseMeasure (context, b)) ?_ (Nat.le_refl _)
    rintro ⟨s, u⟩ ⟨t, v⟩ hs hstep
    obtain ⟨crlf, hf, rfl, -⟩ := parseRequestStep_next hstep
    have := findCRLF_lt hf
    refine Nat.le_trans ?_ hs
    simp only [parseMeasure, List.length_drop]
    split <;> split <;> omega
  refine Nat.le_trans ?_ hle
  cases parseRequestStep_exit he with
  | incomplete _ _ => exact Nat.le_refl _
  | rejected hs _ _ => simp [parseMeasure, hs]
  | noBody hs _ _ _ =>
    simp only [parseMeasure, hs, List.length_drop]
    simp
  | body hs hr =>
    obtain ⟨k, -, -, rfl, rfl⟩ := parseBody_returned hr
    simp only [parseMeasure, hs, List.length_drop]
    split <;> simp
  | gotAll _ => exact Nat.le_refl _

end Outcomes

section Counting
variable [Muduo] [Boost] (respond : Respond)

/-- The number of complete requests in a stream, and what is left to read a next one from. Nothing
follows a request that is answered by closing, a rejected line or the end of the process. -/
inductive Counted
  | waiting (context : HttpContext) (n : ℕ) (buf : Bytes)
  | stopped (n : ℕ)

def Counted.count : Counted → ℕ
  | .waiting _ n _ => n
  | .stopped n => n

inductive CountCase (context : HttpContext) (n : ℕ) (b : Bytes) : Prop
  | aborted : parseRequest (context, b) = .aborted → CountCase context n b
  | closed {context' b'} : parseRequest (context, b) = .returned true context' b' →
      context'.gotAll = true → (respond n context'.request).closeConnection = true → CountCase context n b
  | answered {context' b'} : parseRequest (context, b) = .returned true context' b' →
      context'.gotAll = true → (respond n context'.request).closeConnection = false → CountCase context n b
  | waiting {context' b'} : parseRequest (context, b) = .returned true context' b' →
      context'.gotAll = false → CountCase context n b
  | rejected {context' b'} : parseRequest (context, b) = .returned false context' b' →
      context'.gotAll = false → CountCase context n b

theorem countCase (context : HttpContext) (n : ℕ) (b : Bytes) : CountCase respond context n b := by
  cases hp : parseRequest (context, b) with
  | aborted => exact .aborted hp
  | returned ok context' b' =>
    cases ok with
    | false => exact .rejected hp (parse_rejected hp []).1
    | true =>
      cases hg : context'.gotAll with
      | false => exact .waiting hp hg
      | true =>
        cases hc : (respond n context'.request).closeConnection with
        | true => exact .closed hp hg hc
        | false => exact .answered hp hg hc

/-- One call of `parse_request`, with `reset` behind a complete request. -/
def countStep (p : (HttpContext × ℕ) × Bytes) : ((HttpContext × ℕ) × Bytes) ⊕ Counted :=
  let ((context, n), buf) := p
  match parseRequest (context, buf) with
  | .aborted => .inr (.stopped n)
  | .returned ok context buf =>
    if context.gotAll then
      if (respond n context.request).closeConnection then .inr (.stopped (n + 1))
      else .inl ((context.reset, n + 1), buf)
    else if ok then .inr (.waiting context n buf)
    else .inr (.stopped n)

variable {respond} in
theorem countStep_next {context : HttpContext} {n : ℕ} {b : Bytes} {t : (HttpContext × ℕ) × Bytes}
    (h : countStep respond ((context, n), b) = .inl t) :
    ∃ context' b', parseRequest (context, b) = .returned true context' b' ∧ context'.gotAll = true ∧
      (respond n context'.request).closeConnection = false ∧ t = ((context'.reset, n + 1), b') := by
  cases countCase respond context n b with
  | aborted hp => simp [countStep, hp] at h
  | closed hp hg hc => simp [countStep, hp, hg, hc] at h
  | answered hp hg hc =>
    simp only [countStep, hp, hg, hc, if_true, Bool.false_eq_true, if_false] at h
    cases h
    exact ⟨_, _, hp, hg, hc, rfl⟩
  | waiting hp hg => simp [countStep, hp, hg] at h
  | rejected hp hg => simp [countStep, hp, hg] at h

def countBody : Loop.Body ((HttpContext × ℕ) × Bytes) Counted where
  step := countStep respond
  variant p := parseMeasure (p.1.1, p.2)
  decreases := by
    rintro ⟨⟨context, n⟩, b⟩ t h
    obtain ⟨context', b', hp, hg, -, rfl⟩ := countStep_next h
    have hle := parseMeasure_le hp
    have hs : context'.state = .kGotAll := eq_of_beq hg
    simp only [parseMeasure, hs, reduceCtorEq, if_false] at hle
    simp only [parseMeasure, HttpContext.reset, if_true]
    omega

def countRequests (p : (HttpContext × ℕ) × Bytes) : Counted := (countBody respond).run p

def requestCount (stream : Bytes) : ℕ := (countRequests respond (({}, 0), stream)).count

def Counted.resume : Counted → Bytes → Counted
  | .waiting context n buf, c => countRequests respond ((context, n), buf ++ c)
  | .stopped n, _ => .stopped n

variable {respond} {context context' : HttpContext} {n : ℕ} {b b' : Bytes}

theorem count_aborted (hp : parseRequest (context, b) = .aborted) (n : ℕ) :
    countRequests respond ((context, n), b) = .stopped n := by
  apply Loop.Body.run_exit
  simp only [countBody, countStep, hp]

theorem count_closed (hp : parseRequest (context, b) = .returned true context' b')
    (hg : context'.gotAll = true) (hc : (respond n context'.request).closeConnection = true) :
    countRequests respond ((context, n), b) = .stopped (n + 1) := by
  apply Loop.Body.run_exit
  simp only [countBody, countStep, hp, hg, hc, if_true]

theorem count_answered (hp : parseRequest (context, b) = .returned true context' b')
    (hg : context'.gotAll = true) (hc : (respond n context'.request).closeConnection = false) :
    countRequests respond ((context, n), b) = countRequests respond ((context'.reset, n + 1), b') := by
  apply Loop.Body.run_next
  simp only [countBody, countStep, hp, hg, hc, if_true, Bool.false_eq_true, if_false]

theorem count_waiting (hp : parseRequest (context, b) = .returned true context' b')
    (hg : context'.gotAll = false) (n : ℕ) :
    countRequests respond ((context, n), b) = .waiting context' n b' := by
  apply Loop.Body.run_exit
  simp only [countBody, countStep, hp, hg, if_true, Bool.false_eq_true, if_false]

theorem count_rejected (hp : parseRequest (context, b) = .returned false context' b')
    (hg : context'.gotAll = false) (n : ℕ) :
    countRequests respond ((context, n), b) = .stopped n := by
  apply Loop.Body.run_exit
  simp only [countBody, countStep, hp, hg, Bool.false_eq_true, if_false]

/-- A count that has ended can be taken up when the stream goes on. -/
theorem countStep_exit_append {r : Counted} (h : countStep respond ((context, n), b) = .inr r) (c : Bytes) :
    r.resume respond c = countRequests respond ((context, n), b ++ c) := by
  obtain rfl : countRequests respond ((context, n), b) = r := Loop.Body.run_exit _ h
  cases countCase respond context n b with
  | aborted hp => rw [count_aborted hp, count_aborted (parse_aborted_append hp c), Counted.resume]
  | closed hp hg hc =>
    rw [count_closed hp hg hc, count_closed (parse_gotAll_append hp hg c) hg hc, Counted.resume]
  | answered hp hg hc => simp [countStep, hp, hg, hc] at h
  | waiting hp hg =>
    rw [count_waiting hp hg, Counted.resume]
    apply Loop.Body.run_of_step_eq
    simp only [countBody, countStep, parse_append hp c]
  | rejected hp hg =>
    obtain ⟨hg, hp'⟩ := parse_rejected hp c
    rw [count_rejected hp hg, count_rejected hp' hg, Counted.resume]

theorem count_resumable : Loop.Resumable (countBody respond) (Counted.resume respond) fun _ => True where
  keep _ _ := trivial
  step_append c _ h := by
    obtain ⟨context', b', hp, hg, hc, he⟩ := countStep_next h
    cases he
    simp only [countBody, countStep, parse_gotAll_append hp hg c, hg, hc, if_true, Bool.false_eq_true,
      if_false]
  exit_append c _ h := countStep_exit_append h c

variable (respond) in
theorem count_append (p : (HttpContext × ℕ) × Bytes) (c : Bytes) :
    (countRequests respond p).resume respond c = countRequests respond (p.1, p.2 ++ c) :=
  count_resumable.run_append trivial c

variable (respond) in
theorem le_count (p : (HttpContext × ℕ) × Bytes) : p.1.2 ≤ (countRequests respond p).count := by
  induction p using (countBody respond).induction with
  | h p ih =>
    obtain ⟨⟨context, n⟩, b⟩ := p
    cases countCase respond context n b with
    | aborted hp => exact (congrArg Counted.count (count_aborted hp n)).ge
    | closed hp hg hc => exact (Nat.le_succ n).trans (congrArg Counted.count (count_closed hp hg hc)).ge
    | @answered context' b' hp hg hc =>
      have hstep : (countBody respond).step ((context, n), b) = .inl ((context'.reset, n + 1), b') := by
        simp only [countBody, countStep, hp, hg, hc, if_true, Bool.false_eq_true, if_false]
      have hnext : n + 1 ≤ (countRequests respond ((context'.reset, n + 1), b')).count := ih _ hstep
      rw [count_answered hp hg hc]
      exact Nat.le_of_succ_le hnext
    | waiting hp hg => exact (congrArg Counted.count (count_waiting hp hg n)).ge
    | rejected hp hg => exact (congrArg Counted.count (count_rejected hp hg n)).ge

theorem count_waiting_again (hp : parseRequest (context, b) = .returned true context' b')
    (hg : context'.gotAll = false) (n : ℕ) :
    countRequests respond ((context', n), b') = .waiting context' n b' := by
  have h := count_append respond ((context, n), b) []
  rw [count_waiting hp hg, Counted.resume, List.append_nil, List.append_nil, count_waiting hp hg] at h
  exact h

variable (respond) in
/-- Nothing is added to the count exactly when the next call of the parser completes no request. -/
theorem count_eq_iff (context : HttpContext) (n : ℕ) (b : Bytes) :
    (countRequests respond ((context, n), b)).count = n ↔ (parseRequest (context, b)).gotAll = false := by
  cases countCase respond context n b with
  | aborted hp => simp [count_aborted hp, hp, Counted.count, ParseOutcome.gotAll]
  | closed hp hg hc => simp [count_closed hp hg hc, hp, Counted.count, ParseOutcome.gotAll, hg]
  | @answered context' b' hp hg hc =>
    have : n + 1 ≤ (countRequests respond ((context'.reset, n + 1), b')).count :=
      le_count respond ((context'.reset, n + 1), b')
    rw [count_answered hp hg hc, hp, ParseOutcome.gotAll, hg]
    simp only [Bool.true_eq_false, iff_false]
    omega
  | waiting hp hg => simp [count_waiting hp hg, hp, Counted.count, ParseOutcome.gotAll, hg]
  | rejected hp hg => simp [count_rejected hp hg, hp, Counted.count, ParseOutcome.gotAll, hg]

end Counting

end LinuxSocket.Http
