import LinuxSocket.Http.HttpContext

/-! # Accounting for the bytes of a body

The length of a body comes from the text of a header. Its accounts are in order in every run in
which no header block ends with a negative length.
-/
namespace LinuxSocket.Http

section Invariant
variable [Boost]

def lengthTaken (remainBodyLen : ℤ) (buf : Bytes) : ℤ :=
  if remainBodyLen < buf.length then remainBodyLen else buf.length

/-- The assertions of `kExpectBody` hold, the length it takes lies in the buffer, and a complete body
is as long as announced. -/
structure BodyAccounts (context : HttpContext) (buf : Bytes) : Prop where
  expecting : context.state = .kExpectBody → ∃ remainBodyLen left,
    context.request.getRemainBodyLen = some remainBodyLen ∧
    0 ≤ lengthTaken remainBodyLen buf ∧ lengthTaken remainBodyLen buf ≤ buf.length ∧
    (context.request.appendBody (buf.take (lengthTaken remainBodyLen buf).toNat)).getRemainBodyLen =
      some left ∧
    (remainBodyLen < buf.length → left = 0)
  complete : context.state = .kGotAll → context.request.getHeader HttpRequest.contentLength ≠ [] →
    (context.request.body.length : ℤ) = context.request.getExpectBodyLen

/-- The body never exceeds its announced length, and is empty until its header block has ended. -/
structure BodyInv (context : HttpContext) : Prop where
  head : context.readsLine → context.request.body = []
  expecting : context.state = .kExpectBody →
    (context.request.body.length : ℤ) ≤ context.request.getExpectBodyLen
  complete : context.state = .kGotAll → context.request.getHeader HttpRequest.contentLength ≠ [] →
    (context.request.body.length : ℤ) = context.request.getExpectBodyLen

variable {context context' : HttpContext} {b : Bytes}

theorem BodyInv.fresh : BodyInv {} :=
  ⟨fun _ => rfl, fun h => (nomatch h), fun h => (nomatch h)⟩

theorem BodyInv.accounts (h : BodyInv context) (buf : Bytes) : BodyAccounts context buf := by
  refine ⟨fun hs => ?_, h.complete⟩
  obtain ⟨k, hk⟩ := Int.le.dest (h.expecting hs)
  have hremain : context.request.getRemainBodyLen = some (k : ℤ) := by
    simp only [HttpRequest.getRemainBodyLen, ← hk]
    rw [if_pos (by omega), add_sub_cancel_left]
  have htaken : lengthTaken k buf = (min k buf.length : ℕ) := by
    unfold lengthTaken
    split <;> omega
  refine ⟨k, (k - buf.length : ℕ), hremain, by omega, by omega, ?_, by omega⟩
  simp only [htaken, Int.toNat_natCast, HttpRequest.getRemainBodyLen, HttpRequest.getExpectBodyLen_appendBody,
    HttpRequest.body_appendBody, List.length_append, List.length_take, ← hk]
  rw [if_pos (by omega)]
  congr 1
  omega

/-- A request line or header leaves the body alone; the end of the header block is harmless unless the
announced length is negative. -/
theorem BodyInv.line (h : BodyInv context) {line : Bytes} (hl : LineStep context line context')
    (hpos : context'.state = .kExpectBody → 0 ≤ context.request.getExpectBodyLen) : BodyInv context' := by
  cases hl with
  | requestLine hs hp =>
    have hbody := h.head (Or.inl hs)
    exact ⟨fun _ => (parseFirstLine_body hp).trans hbody, fun h => (nomatch h), fun h => (nomatch h)⟩
  | header hs hc => exact ⟨fun _ => h.head (Or.inr hs), fun h => (nomatch h), fun h => (nomatch h)⟩
  | body hs hc hcl =>
    refine ⟨fun h => h.elim (fun h => (nomatch h)) (fun h => (nomatch h)), fun _ => ?_, fun h => (nomatch h)⟩
    change (context.request.body.length : ℤ) ≤ context.request.getExpectBodyLen
    rw [h.head (Or.inr hs)]
    exact hpos rfl

theorem BodyInv.parseBody (h : BodyInv context) (hs : context.state = .kExpectBody) {ok : Bool} {b' : Bytes}
    (hr : parseBody context b = .returned ok context' b') : BodyInv context' := by
  obtain ⟨k, hk⟩ := Int.le.dest (h.expecting hs)
  rw [parseBody_eq hk.symm] at hr
  cases hr
  have hlen : ((context.request.body ++ b.take k).length : ℤ) ≤ context.request.getExpectBodyLen := by
    rw [List.length_append, List.length_take, ← hk]
    omega
  refine ⟨fun hr => ?_, fun _ => hlen, fun hg _ => ?_⟩
  · unfold HttpContext.readsLine at hr
    dsimp only at hr
    rw [hs] at hr
    split at hr <;> rcases hr with hr | hr <;> cases hr
  · have hle : k ≤ b.length := by
      by_contra hgt
      dsimp only at hg
      rw [if_neg hgt, hs] at hg
      cases hg
    change ((context.request.body ++ b.take k).length : ℤ) = context.request.getExpectBodyLen
    rw [List.length_append, List.length_take, ← hk]
    omega

end Invariant

section Runs
variable [Muduo] [Boost]

inductive ParseOp
  | append (chunk : Bytes)
  | parseRequest
  | reset

/-- `none` is the end of the process. -/
def ParseOp.exec (p : HttpContext × Bytes) : ParseOp → Option (HttpContext × Bytes)
  | .append chunk => some (p.1, p.2 ++ chunk)
  | .parseRequest =>
    match Http.parseRequest p with
    | .returned _ context buf => some (context, buf)
    | .aborted => none
  | .reset => some (p.1.reset, p.2)

/-- The states at the head of the parser's loop in a run. -/
inductive LoopHead : HttpContext × Bytes → List ParseOp → HttpContext × Bytes → Prop
  | here {p q ops} : parseRequestBody.Visits p q → LoopHead p (.parseRequest :: ops) q
  | later {p p' q op ops} : ParseOp.exec p op = some p' → LoopHead p' ops q → LoopHead p (op :: ops) q

/-- The states of a run: between the calls and at the head of the parser's loop. -/
inductive Occurs : HttpContext × Bytes → List ParseOp → HttpContext × Bytes → Prop
  | between {p ops} : Occurs p ops p
  | head {p q ops} : LoopHead p ops q → Occurs p ops q
  | later {p p' q op ops} : ParseOp.exec p op = some p' → Occurs p' ops q → Occurs p (op :: ops) q

def NegativeLength (p : HttpContext × Bytes) : Prop :=
  p.1.state = .kExpectHeaders ∧ p.1.request.getExpectBodyLen < 0 ∧
    ∃ crlf, Muduo.findCRLF p.2 0 = some crlf ∧ COLON ∉ p.2.take crlf

variable {p q : HttpContext × Bytes} {ops : List ParseOp}

theorem BodyInv.step (h : BodyInv p.1) (hneg : ¬NegativeLength p) (hs : parseRequestStep p = .inl q) :
    BodyInv q.1 := by
  obtain ⟨context, b⟩ := p
  obtain ⟨context', b'⟩ := q
  obtain ⟨crlf, hf, -, hl⟩ := parseRequestStep_next hs
  refine h.line hl fun hq => ?_
  cases hl with
  | requestLine _ _ => cases hq
  | header _ _ => cases hq
  | body hstate hc _ => exact not_lt.mp fun hlt => hneg ⟨hstate, hlt, crlf, hf, hc⟩

theorem BodyInv.visits (h : BodyInv p.1) (hv : parseRequestBody.Visits p q)
    (hneg : ∀ t, parseRequestBody.Visits p t → ¬NegativeLength t) : BodyInv q.1 := by
  induction hv with
  | refl => exact h
  | tail hv hs ih => exact ih.step (hneg _ hv) hs

theorem BodyInv.parseRequest (h : BodyInv p.1) (hneg : ∀ t, parseRequestBody.Visits p t → ¬NegativeLength t)
    {ok : Bool} {context : HttpContext} {buf : Bytes} (hr : parseRequest p = .returned ok context buf) :
    BodyInv context := by
  obtain ⟨t, hv, he⟩ := parseRequestBody.exists_exit p
  have ht := h.visits hv hneg
  obtain ⟨ct, bt⟩ := t
  change parseRequestStep (ct, bt) = .inr (Http.parseRequest p) at he
  rw [hr] at he
  cases parseRequestStep_exit he with
  | incomplete _ _ => exact ht
  | rejected hs _ hp =>
    exact ⟨fun _ => (parseFirstLine_body hp).trans (ht.head (Or.inl hs)), fun h => (nomatch h),
      fun h => (nomatch h)⟩
  | noBody _ _ _ hcl =>
    exact ⟨fun h => h.elim (fun h => (nomatch h)) (fun h => (nomatch h)), fun h => (nomatch h),
      fun _ hne => absurd hcl hne⟩
  | body hs hr => exact ht.parseBody hs hr
  | gotAll _ => exact ht

theorem BodyInv.exec (h : BodyInv p.1) {op : ParseOp}
    (hneg : ∀ t, LoopHead p (op :: ops) t → ¬NegativeLength t) (hs : ParseOp.exec p op = some q) : BodyInv q.1 := by
  cases op with
  | append chunk =>
    cases hs
    exact h
  | reset =>
    cases hs
    exact .fresh
  | parseRequest =>
    simp only [ParseOp.exec] at hs
    split at hs
    · next hr =>
      cases hs
      exact h.parseRequest (fun t ht => hneg t (.here ht)) hr
    · cases hs

theorem BodyInv.loopHead (h : BodyInv p.1) (hneg : ∀ t, LoopHead p ops t → ¬NegativeLength t)
    (hq : LoopHead p ops q) : BodyInv q.1 := by
  induction hq with
  | here hv => exact h.visits hv fun t ht => hneg t (.here ht)
  | later hs _ ih => exact ih (h.exec hneg hs) fun t ht => hneg t (.later hs ht)

theorem BodyInv.occurs (h : BodyInv p.1) (hneg : ∀ t, LoopHead p ops t → ¬NegativeLength t)
    (hq : Occurs p ops q) : BodyInv q.1 := by
  induction hq with
  | between => exact h
  | head hh => exact h.loopHead hneg hh
  | later hs _ ih => exact ih (h.exec hneg hs) fun t ht => hneg t (.later hs ht)

theorem LoopHead.next (h : LoopHead p ops q) {t : HttpContext × Bytes} (hs : parseRequestStep q = .inl t) :
    LoopHead p ops t := by
  induction h with
  | here hv => exact .here (hv.next hs)
  | later he _ ih => exact .later he (ih hs)

omit [Muduo] in
theorem contentLength_of_negative {r : HttpRequest} (h : r.getExpectBodyLen < 0) :
    r.getHeader HttpRequest.contentLength ≠ [] := by
  intro he
  unfold HttpRequest.getExpectBodyLen at h
  rw [he] at h
  cases hc : Boost.lexicalCast [] with
  | none => simp [hc] at h
  | some n =>
    obtain ⟨digits, hne, -, hs, -⟩ := Boost.lexicalCast_eq_some.mp hc
    rcases hs with ⟨hs | hs, -⟩ | ⟨hs, -⟩
    · exact hne hs.symm
    · cases hs
    · cases hs

omit [Muduo] in
theorem not_bodyAccounts_of_negative {r : HttpRequest} (hneg : r.getExpectBodyLen < 0) (buf : Bytes) :
    ¬BodyAccounts ⟨.kExpectBody, r⟩ buf := by
  intro h
  obtain ⟨remain, -, hr, -⟩ := h.expecting rfl
  unfold HttpRequest.getRemainBodyLen at hr
  dsimp only at hr
  rw [if_neg (by omega)] at hr
  cases hr

/-- The accounts are in order throughout a run exactly when the parser never ends a header block that
announces a negative length. -/
theorem bodyAccounts_iff (ops : List ParseOp) :
    (∀ q, Occurs ({}, []) ops q → BodyAccounts q.1 q.2) ↔
      ∀ q, LoopHead ({}, []) ops q → ¬NegativeLength q := by
  constructor
  · rintro h ⟨context, buf⟩ hq ⟨hs, hneg, crlf, hf, hc⟩
    dsimp only at hs hneg hf hc
    have hstep := parseRequestStep_line hf (.body hs hc (contentLength_of_negative hneg))
    exact not_bodyAccounts_of_negative hneg _ (h _ (.head (hq.next hstep)))
  · intro hneg q hq
    have hfresh : BodyInv ({}, ([] : Bytes)).1 := BodyInv.fresh
    exact (hfresh.occurs hneg hq).accounts q.2

end Runs

/-- A header block that announces a body of minus one bytes. -/
theorem bodyAccounts_minus_one : ¬∀ (_ : Muduo) (_ : Boost) (ops : List ParseOp) (q : HttpContext × Bytes),
    Occurs ({}, []) ops q → BodyAccounts q.1 q.2 := by
  intro h
  let M := Muduo.reference
  let B := Boost.reference
  let line : HttpContext := ⟨.kExpectHeaders, { method := .kPost, path := ascii "/", version := .kHttp11 }⟩
  let head : HttpContext := ⟨.kExpectHeaders, line.request.addHeader (ascii "Content-Length: -1") 14⟩
  have h1 : parseRequestBody.step ({}, ascii "POST / HTTP/1.1\r\nContent-Length: -1\r\n\r\n") =
      .inl (line, ascii "Content-Length: -1\r\n\r\n") := by decide
  have h2 : parseRequestBody.step (line, ascii "Content-Length: -1\r\n\r\n") =
      .inl (head, ascii "\r\n") := by decide
  have h3 : parseRequestBody.step (head, ascii "\r\n") =
      .inl ({ head with state := .kExpectBody }, []) := by decide
  have hv := (((parseRequestBody.visits_self _).next h1).next h2).next h3
  have hocc := h M B [.append (ascii "POST / HTTP/1.1\r\nContent-Length: -1\r\n\r\n"), .parseRequest] _
    (.head (.later rfl (.here hv)))
  exact not_bodyAccounts_of_negative (by decide) _ hocc

end LinuxSocket.Http
