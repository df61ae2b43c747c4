import LinuxSocket.Http.BodyAccounting
import LinuxSocket.Http.RequestLine

/-! # Calls of the parser only move forward

A call can reject only in its first iteration: behind the request line no state returns false. So a rejecting
call has consumed nothing, and the line it has rejected is rejected again.
-/
namespace LinuxSocket.Http

def HttpRequestParseState.order : HttpRequestParseState → ℕ
  | .kExpectRequestLine => 0
  | .kExpectHeaders => 1
  | .kExpectBody => 2
  | .kGotAll => 3

section Calls
variable [Muduo] [Boost] {p q : HttpContext × Bytes} {context context' : HttpContext} {buf : Bytes} {ok : Bool}

/-- Calls one behind the other; `none` is the end of the process. -/
def ParseOp.execAll (p : HttpContext × Bytes) (ops : List ParseOp) : Option (HttpContext × Bytes) :=
  ops.foldlM ParseOp.exec p

/-- What a call of `parse_request` that returns has done, and what calls behind it can do. -/
structure Progress (p : HttpContext × Bytes) (ok : Bool) (context : HttpContext) (buf : Bytes) : Prop where
  suffix : buf <:+ p.2
  forward : p.1.state.order ≤ context.state.order
  gotAll : p.1.state = .kGotAll → ok = true ∧ context = p.1 ∧ buf = p.2
  unchanged : ok = false → buf = p.2 ∧ context.state = p.1.state ∧
    context.request.headers = p.1.request.headers ∧ context.request.body = p.1.request.body
  /-- the calls behind a rejection append bytes, parse or reset; only the owner of the buffer takes bytes away -/
  rejects : ok = false → ∀ ops q, ParseOp.execAll (context, buf) ops = some q →
    ∃ context', parseRequest q = .returned false context' q.2

omit [Muduo] [Boost] in
theorem LineStep.forward {line : Bytes} (h : LineStep context line context') :
    context.state.order ≤ context'.state.order ∧ context'.state ≠ .kExpectRequestLine := by
  cases h with
  | requestLine hs _ => exact ⟨by simp [hs, HttpRequestParseState.order], by simp⟩
  | header hs _ => exact ⟨by rw [hs], by simp⟩
  | body hs _ _ => exact ⟨by simp [hs, HttpRequestParseState.order], by simp⟩

theorem parse_forward (h : parseRequest p = .returned ok context buf) :
    buf <:+ p.2 ∧ p.1.state.order ≤ context.state.order := by
  obtain ⟨⟨s, u⟩, hv, he⟩ := parseRequestBody.exists_exit p
  change parseRequestStep (s, u) = .inr (parseRequest p) at he
  have hsu : u <:+ p.2 ∧ p.1.state.order ≤ s.state.order := by
    refine hv.invariant (I := fun t => t.2 <:+ p.2 ∧ p.1.state.order ≤ t.1.state.order) ?_
      ⟨List.suffix_refl _, Nat.le_refl _⟩
    rintro ⟨s, u⟩ ⟨t, v⟩ ⟨hsuffix, hle⟩ hstep
    obtain ⟨crlf, -, rfl, hl⟩ := parseRequestStep_next hstep
    exact ⟨(List.drop_suffix _ _).trans hsuffix, hle.trans hl.forward.1⟩
  rw [h] at he
  cases parseRequestStep_exit he with
  | incomplete _ _ => exact hsu
  | rejected hs _ _ => exact ⟨hsu.1, hs ▸ hsu.2⟩
  | noBody hs _ _ _ => exact ⟨(List.drop_suffix _ _).trans hsu.1, hsu.2.trans (by simp [hs, HttpRequestParseState.order])⟩
  | body hs hr =>
    obtain ⟨k, -, -, rfl, rfl⟩ := parseBody_returned hr
    refine ⟨(List.drop_suffix _ _).trans hsu.1, hsu.2.trans ?_⟩
    dsimp only
    split
    · simp [hs, HttpRequestParseState.order]
    · exact Nat.le_refl _
  | gotAll _ => exact hsu

/-- Behind the request line no call returns false. -/
theorem parse_accepts (hp : p.1.state ≠ .kExpectRequestLine) (h : parseRequest p = .returned ok context buf) :
    ok = true := by
  obtain ⟨⟨s, u⟩, hv, he⟩ := parseRequestBody.exists_exit p
  change parseRequestStep (s, u) = .inr (parseRequest p) at he
  have hs : s.state ≠ .kExpectRequestLine := by
    refine hv.invariant (I := fun t => t.1.state ≠ .kExpectRequestLine) ?_ hp
    rintro ⟨s, u⟩ ⟨t, v⟩ - hstep
    obtain ⟨crlf, -, -, hl⟩ := parseRequestStep_next hstep
    exact hl.forward.2
  rw [h] at he
  cases parseRequestStep_exit he with
  | incomplete _ _ => rfl
  | rejected hline _ _ => exact absurd hline hs
  | noBody _ _ _ _ => rfl
  | body _ hr => exact (parseBody_returned hr).choose_spec.2.1
  | gotAll _ => rfl

/-- The buffer starts with a complete line that is no request line, and a request line is expected. -/
structure BadLine (p : HttpContext × Bytes) : Prop where
  state : p.1.state = .kExpectRequestLine
  line : ∃ crlf, Muduo.findCRLF p.2 0 = some crlf ∧ ∀ r, (parseFirstLine (p.2.take crlf) r).1 = false

/-- A call that returns false finds a bad line in its first iteration. -/
theorem badLine_of_parse (h : parseRequest p = .returned false context buf) : BadLine p ∧ buf = p.2 ∧
    context.state = p.1.state ∧ context.request.headers = p.1.request.headers ∧
    context.request.body = p.1.request.body := by
  obtain ⟨c, b⟩ := p
  cases hstep : parseRequestStep (c, b) with
  | inl q =>
    obtain ⟨crlf, -, -, hl⟩ := parseRequestStep_next hstep
    rw [parseRequest_next hstep] at h
    cases parse_accepts hl.forward.2 h
  | inr r =>
    rw [parseRequest_exit hstep] at h
    subst h
    cases parseRequestStep_exit hstep with
    | @rejected crlf request hs hf hp =>
      obtain ⟨hheaders, hbody⟩ := parseFirstLine_frame hp
      exact ⟨⟨hs, crlf, hf, parseFirstLine_rejects hp⟩, rfl, hs.symm, hheaders, hbody⟩
    | body _ hr =>
      obtain ⟨-, -, hok, -⟩ := parseBody_returned hr
      cases hok

theorem BadLine.parse (h : BadLine p) : ∃ request, parseRequest p =
    .returned false ⟨.kExpectRequestLine, request⟩ p.2 := by
  obtain ⟨crlf, hf, hline⟩ := h.line
  exact ⟨_, parseRequest_exit (parseRequestStep_reject h.state hf (Prod.ext (hline p.1.request) rfl))⟩

theorem BadLine.exec (h : BadLine p) {op : ParseOp} (hop : op.exec p = some q) : BadLine q := by
  obtain ⟨crlf, hf, hline⟩ := h.line
  cases op with
  | append chunk =>
    obtain rfl := Option.some.inj hop
    refine ⟨h.state, crlf, findCRLF_append hf chunk, ?_⟩
    rwa [findCRLF_take_append hf]
  | parseRequest =>
    obtain ⟨request, hr⟩ := h.parse
    rw [ParseOp.exec, hr] at hop
    obtain rfl := Option.some.inj hop
    exact ⟨rfl, crlf, hf, hline⟩
  | reset =>
    obtain rfl := Option.some.inj hop
    exact ⟨rfl, crlf, hf, hline⟩

theorem BadLine.execAll (h : BadLine p) {ops : List ParseOp} (hops : ParseOp.execAll p ops = some q) :
    BadLine q := by
  induction ops generalizing p with
  | nil =>
    obtain rfl := Option.some.inj hops
    exact h
  | cons op ops ih =>
    rw [ParseOp.execAll, List.foldlM_cons] at hops
    obtain ⟨p', hop, hops⟩ := Option.bind_eq_some_iff.mp hops
    exact ih (h.exec hop) hops

/-- Whatever calls have led to `p`, a call of `parse_request` that returns has only moved forward, and a
rejection has left everything as it was and lasts. -/
theorem parse_progress (h : parseRequest p = .returned ok context buf) : Progress p ok context buf := by
  obtain ⟨hsuffix, hforward⟩ := parse_forward h
  refine ⟨hsuffix, hforward, fun hs => ?_, fun hok => ?_, fun hok ops q hops => ?_⟩
  · rw [← Prod.mk.eta (p := p), parseRequest_gotAll hs] at h
    cases h
    exact ⟨rfl, rfl, rfl⟩
  · subst hok
    exact (badLine_of_parse h).2
  · subst hok
    obtain ⟨hbad, rfl, hstate, -⟩ := badLine_of_parse h
    have hbad' : BadLine (context, p.2) := ⟨hstate.trans hbad.state, hbad.line⟩
    obtain ⟨request, hr⟩ := (hbad'.execAll hops).parse
    exact ⟨_, hr⟩

end Calls

/-- A line with an unknown method. -/
theorem parse_progress_bad_line : ∃ request,
    @Progress Muduo.reference Boost.reference ({}, ascii "GRAB / HTTP/1.1\r\n") false
      ⟨.kExpectRequestLine, request⟩ (ascii "GRAB / HTTP/1.1\r\n") := by
  let M := Muduo.reference
  let B := Boost.reference
  have h : parseRequest ({}, ascii "GRAB / HTTP/1.1\r\n") =
      .returned false ⟨.kExpectRequestLine, { method := .kInvalid }⟩ (ascii "GRAB / HTTP/1.1\r\n") := by decide
  exact ⟨_, parse_progress h⟩

end LinuxSocket.Http
