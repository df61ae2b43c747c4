import LinuxSocket.Http.HttpRequest
import LinuxSocket.Lib.Incremental

/-! # The HTTP parser

`parse_request` is a loop over the four states of the context. `parseRequestStep_next` and
`parseRequestStep_exit` say all that one iteration can do.
-/
namespace LinuxSocket.Http

inductive HttpRequestParseState
  | kExpectRequestLine
  | kExpectHeaders
  | kExpectBody
  | kGotAll
  deriving DecidableEq

structure HttpContext where
  state : HttpRequestParseState := .kExpectRequestLine
  request : HttpRequest := {}
  deriving DecidableEq

def HttpContext.gotAll (context : HttpContext) : Bool := context.state == .kGotAll

def HttpContext.reset (_ : HttpContext) : HttpContext := {}

/-- The path and the query of a target; the query keeps its question mark. -/
def HttpRequest.setTarget (r : HttpRequest) (target : Bytes) : HttpRequest :=
  let question := target.idxOf QUESTION
  if question ≠ target.length then { r with path := target.take question, query := target.drop question }
  else { r with path := target }

/-- The version that ends a request line, `none` if the line is to be rejected. -/
def versionOf (text : Bytes) : Option Version :=
  if ¬(text.length = 8 ∧ text.take 7 = ascii "HTTP/1.") then none
  else if text.getLast? = some 49 then some .kHttp11
  else if text.getLast? = some 48 then some .kHttp10
  else none

def HttpRequest.setVersionText (r : HttpRequest) (text : Bytes) : Bool × HttpRequest :=
  match versionOf text with
  | none => (false, r)
  | some version => (true, { r with version })

/-- `parse_first_line` on the request it fills: a rejected line may leave a part of its fields set. -/
def parseFirstLine (line : Bytes) (r : HttpRequest) : Bool × HttpRequest :=
  let space := line.idxOf SP
  if space = line.length then (false, r)
  else
    let m := r.setMethod (line.take space)
    if !m.1 then (false, m.2)
    else
      let start := line.drop (space + 1)
      let space := start.idxOf SP
      if space = start.length then (false, m.2)
      else (m.2.setTarget (start.take space)).setVersionText (start.drop (space + 1))

theorem parseFirstLine_of_not_mem {line : Bytes} (h : SP ∉ line) (r : HttpRequest) :
    parseFirstLine line r = (false, r) := by
  simp only [parseFirstLine, List.idxOf_eq_length h, if_true]

theorem parseFirstLine_parts {m target version : Bytes} (hm : SP ∉ m) (ht : SP ∉ target) (r : HttpRequest) :
    parseFirstLine (m ++ SP :: (target ++ SP :: version)) r =
      if methodOf m = .kInvalid then (false, { r with method := .kInvalid })
      else ({ r with method := methodOf m }.setTarget target).setVersionText version := by
  obtain ⟨hi, htake, hdrop, hne⟩ := idxOf_separator hm (target ++ SP :: version)
  obtain ⟨hi', htake', hdrop', hne'⟩ := idxOf_separator ht version
  simp only [parseFirstLine, HttpRequest.setMethod, hi, htake, hdrop, if_neg hne, hi', htake', hdrop',
    if_neg hne']
  by_cases hk : methodOf m = .kInvalid
  · simp [hk]
  · simp [hk]

theorem parseFirstLine_one_part {m start : Bytes} (hm : SP ∉ m) (hs : SP ∉ start) (r : HttpRequest) :
    parseFirstLine (m ++ SP :: start) r = (false, { r with method := methodOf m }) := by
  obtain ⟨hi, htake, hdrop, hne⟩ := idxOf_separator hm start
  simp only [parseFirstLine, HttpRequest.setMethod, hi, htake, hdrop, if_neg hne,
    List.idxOf_eq_length hs, if_true, ite_self]

theorem line_forms (line : Bytes) : SP ∉ line ∨ ∃ m start, line = m ++ SP :: start ∧ SP ∉ m ∧
    (SP ∉ start ∨ ∃ target version, start = target ++ SP :: version ∧ SP ∉ target) := by
  by_cases h : SP ∈ line
  · obtain ⟨m, start, rfl, hm⟩ := List.eq_append_cons_of_mem h
    refine Or.inr ⟨m, start, rfl, hm, ?_⟩
    by_cases hs : SP ∈ start
    · obtain ⟨target, version, rfl, ht⟩ := List.eq_append_cons_of_mem hs
      exact Or.inr ⟨target, version, rfl, ht⟩
    · exact Or.inl hs
  · exact Or.inl h

/-- Reading a request line leaves the headers and the body alone. -/
theorem parseFirstLine_frame {line : Bytes} {r r' : HttpRequest} {ok : Bool}
    (h : parseFirstLine line r = (ok, r')) : r'.headers = r.headers ∧ r'.body = r.body := by
  obtain rfl : r' = (parseFirstLine line r).2 := by rw [h]
  rcases line_forms line with h | ⟨m, start, rfl, hm, hs | ⟨target, version, rfl, ht⟩⟩
  · rw [parseFirstLine_of_not_mem h]
    exact ⟨rfl, rfl⟩
  · rw [parseFirstLine_one_part hm hs]
    exact ⟨rfl, rfl⟩
  · rw [parseFirstLine_parts hm ht]
    split
    · exact ⟨rfl, rfl⟩
    · unfold HttpRequest.setVersionText HttpRequest.setTarget
      split <;> dsimp only <;> split <;> exact ⟨rfl, rfl⟩

theorem parseFirstLine_body {line : Bytes} {r r' : HttpRequest} {ok : Bool}
    (h : parseFirstLine line r = (ok, r')) : r'.body = r.body := (parseFirstLine_frame h).2

/-- How a call of `parse_request` ends: it returns, or an assertion fails or an exception leaves it. -/
inductive ParseOutcome
  | returned (ok : Bool) (context : HttpContext) (buf : Bytes)
  | aborted
  deriving DecidableEq

section Parser
variable [Muduo] [Boost]

/-- How many bytes the body takes of the buffer, as both branches of `kExpectBody` compute it. -/
def bodyCut (remainBodyLen : ℤ) (buf : Bytes) : ℕ :=
  if remainBodyLen < buf.length then remainBodyLen.toNat else buf.length

def parseBody (context : HttpContext) (buf : Bytes) : ParseOutcome :=
  match context.request.getRemainBodyLen with
  | none => .aborted
  | some remainBodyLen =>
    let n := bodyCut remainBodyLen buf
    let request := context.request.appendBody (buf.take n)
    match request.getRemainBodyLen with
    | none => .aborted
    | some left =>
      if remainBodyLen < buf.length ∧ left ≠ 0 then .aborted
      else .returned true ⟨if left = 0 then .kGotAll else context.state, request⟩ (buf.drop n)

/-- One iteration of the loop of `parse_request`. -/
def parseRequestStep (p : HttpContext × Bytes) : (HttpContext × Bytes) ⊕ ParseOutcome :=
  let (context, buf) := p
  match context.state with
  | .kExpectRequestLine =>
    match Muduo.findCRLF buf 0 with
    | some crlf =>
      let r := parseFirstLine (buf.take crlf) context.request
      if r.1 then .inl (⟨.kExpectHeaders, r.2⟩, buf.drop (crlf + 2))
      else .inr (.returned false { context with request := r.2 } buf)
    | none => .inr (.returned true context buf)
  | .kExpectHeaders =>
    match Muduo.findCRLF buf 0 with
    | some crlf =>
      let line := buf.take crlf
      let colon := line.idxOf COLON
      if colon ≠ line.length then
        .inl ({ context with request := context.request.addHeader line colon }, buf.drop (crlf + 2))
      else if context.request.getHeader (ascii "Content-Length") ≠ [] then
        .inl ({ context with state := .kExpectBody }, buf.drop (crlf + 2))
      else .inr (.returned true { context with state := .kGotAll } (buf.drop (crlf + 2)))
    | none => .inr (.returned true context buf)
  | .kExpectBody => .inr (parseBody context buf)
  | .kGotAll => .inr (.returned true context buf)

def HttpContext.readsLine (context : HttpContext) : Prop :=
  context.state = .kExpectRequestLine ∨ context.state = .kExpectHeaders

/-- What a complete line does in state `kExpectRequestLine` or `kExpectHeaders`. -/
inductive LineStep (context : HttpContext) (line : Bytes) : HttpContext → Prop
  | requestLine {r} : context.state = .kExpectRequestLine → parseFirstLine line context.request = (true, r) →
      LineStep context line ⟨.kExpectHeaders, r⟩
  | header : context.state = .kExpectHeaders → COLON ∈ line →
      LineStep context line ⟨.kExpectHeaders, context.request.addHeader line (line.idxOf COLON)⟩
  | body : context.state = .kExpectHeaders → COLON ∉ line →
      context.request.getHeader HttpRequest.contentLength ≠ [] →
      LineStep context line { context with state := .kExpectBody }

/-- The ways of leaving the loop. -/
inductive ParseExit (context : HttpContext) (b : Bytes) : ParseOutcome → Prop
  | incomplete : context.readsLine → Muduo.findCRLF b 0 = none → ParseExit context b (.returned true context b)
  | rejected {crlf request} : context.state = .kExpectRequestLine → Muduo.findCRLF b 0 = some crlf →
      parseFirstLine (b.take crlf) context.request = (false, request) →
      ParseExit context b (.returned false ⟨.kExpectRequestLine, request⟩ b)
  | noBody {crlf} : context.state = .kExpectHeaders → Muduo.findCRLF b 0 = some crlf → COLON ∉ b.take crlf →
      context.request.getHeader HttpRequest.contentLength = [] →
      ParseExit context b (.returned true { context with state := .kGotAll } (b.drop (crlf + 2)))
  | body {r} : context.state = .kExpectBody → parseBody context b = r → ParseExit context b r
  | gotAll : context.state = .kGotAll → ParseExit context b (.returned true context b)

variable {context context' : HttpContext} {b b' : Bytes} {r : ParseOutcome}

theorem parseRequestStep_next (h : parseRequestStep (context, b) = .inl (context', b')) :
    ∃ crlf, Muduo.findCRLF b 0 = some crlf ∧ b' = b.drop (crlf + 2) ∧
      LineStep context (b.take crlf) context' := by
  unfold parseRequestStep at h
  dsimp only at h
  cases hs : context.state with
  | kExpectRequestLine =>
    simp only [hs] at h
    cases hf : Muduo.findCRLF b 0 with
    | none => simp [hf] at h
    | some crlf =>
      simp only [hf] at h
      split at h
      · next hok =>
        cases h
        exact ⟨crlf, rfl, rfl, .requestLine hs (Prod.ext hok rfl)⟩
      · cases h
  | kExpectHeaders =>
    simp only [hs] at h
    cases hf : Muduo.findCRLF b 0 with
    | none => simp [hf] at h
    | some crlf =>
      simp only [hf] at h
      split at h
      · next hc =>
        cases h
        have hmem : COLON ∈ b.take crlf := not_not.mp (mt List.idxOf_eq_length_iff.mpr hc)
        exact ⟨crlf, rfl, rfl, .header hs hmem⟩
      · next hc =>
        have hmem : COLON ∉ b.take crlf := List.idxOf_eq_length_iff.mp (not_not.mp hc)
        split at h
        · next hl =>
          cases h
          exact ⟨crlf, rfl, rfl, .body hs hmem hl⟩
        · cases h
  | kExpectBody => simp [hs] at h
  | kGotAll => simp [hs] at h

theorem parseRequestStep_exit (h : parseRequestStep (context, b) = .inr r) : ParseExit context b r := by
  unfold parseRequestStep at h
  dsimp only at h
  cases hs : context.state with
  | kExpectRequestLine =>
    simp only [hs] at h
    cases hf : Muduo.findCRLF b 0 with
    | none =>
      simp only [hf, Sum.inr.injEq] at h
      exact h ▸ .incomplete (Or.inl hs) hf
    | some crlf =>
      simp only [hf] at h
      split at h
      · cases h
      · next hok =>
        cases h
        exact .rejected hs hf (Prod.ext (by simpa using hok) rfl)
  | kExpectHeaders =>
    simp only [hs] at h
    cases hf : Muduo.findCRLF b 0 with
    | none =>
      simp only [hf, Sum.inr.injEq] at h
      exact h ▸ .incomplete (Or.inr hs) hf
    | some crlf =>
      simp only [hf] at h
      split at h
      · cases h
      · next hc =>
        have hmem : COLON ∉ b.take crlf := List.idxOf_eq_length_iff.mp (not_not.mp hc)
        split at h
        · cases h
        · next hl =>
          cases h
          exact .noBody hs hf hmem (not_not.mp hl)
  | kExpectBody =>
    simp only [hs, Sum.inr.injEq] at h
    exact .body hs h
  | kGotAll =>
    simp only [hs, Sum.inr.injEq] at h
    exact h ▸ .gotAll hs

theorem parseRequestStep_line {crlf : ℕ} (hf : Muduo.findCRLF b 0 = some crlf)
    (hl : LineStep context (b.take crlf) context') :
    parseRequestStep (context, b) = .inl (context', b.drop (crlf + 2)) := by
  cases hl with
  | requestLine hs hp => simp only [parseRequestStep, hs, hf, hp, if_true]
  | header hs hc =>
    have hne := mt List.idxOf_eq_length_iff.mp (not_not.mpr hc)
    simp only [parseRequestStep, hs, hf, if_pos hne]
  | body hs hc hl =>
    have hne := not_not.mpr (List.idxOf_eq_length_iff.mpr hc)
    simp only [parseRequestStep, hs, hf, if_neg hne]
    exact if_pos hl

theorem parseRequestStep_reject {crlf : ℕ} {request : HttpRequest} (hs : context.state = .kExpectRequestLine)
    (hf : Muduo.findCRLF b 0 = some crlf)
    (hp : parseFirstLine (b.take crlf) context.request = (false, request)) :
    parseRequestStep (context, b) = .inr (.returned false ⟨.kExpectRequestLine, request⟩ b) := by
  simp only [parseRequestStep, hs, hf, hp, Bool.false_eq_true, if_false]

theorem parseRequestStep_noBody {crlf : ℕ} (hs : context.state = .kExpectHeaders)
    (hf : Muduo.findCRLF b 0 = some crlf) (hc : COLON ∉ b.take crlf)
    (hl : context.request.getHeader HttpRequest.contentLength = []) : parseRequestStep (context, b) =
      .inr (.returned true { context with state := .kGotAll } (b.drop (crlf + 2))) := by
  have hne := not_not.mpr (List.idxOf_eq_length_iff.mpr hc)
  simp only [parseRequestStep, hs, hf, if_neg hne]
  exact if_neg (not_not.mpr hl)

theorem parseRequestStep_shrinks {p q : HttpContext × Bytes} (h : parseRequestStep p = .inl q) :
    q.2.length < p.2.length := by
  obtain ⟨context, b⟩ := p
  obtain ⟨context', b'⟩ := q
  obtain ⟨crlf, hf, rfl, -⟩ := parseRequestStep_next h
  have hlt := findCRLF_lt hf
  simp only [List.length_drop]
  omega

def parseRequestBody : Loop.Body (HttpContext × Bytes) ParseOutcome where
  step := parseRequestStep
  variant p := p.2.length
  decreases := parseRequestStep_shrinks

def parseRequest (p : HttpContext × Bytes) : ParseOutcome := parseRequestBody.run p

theorem parseRequest_exit {p : HttpContext × Bytes} (h : parseRequestStep p = .inr r) : parseRequest p = r :=
  parseRequestBody.run_exit h

theorem parseRequest_next {p q : HttpContext × Bytes} (h : parseRequestStep p = .inl q) :
    parseRequest p = parseRequest q :=
  parseRequestBody.run_next h

theorem parseRequest_line {line : Bytes} (hn : NoCrlf line) (hl : LineStep context line context')
    (rest : Bytes) : parseRequest (context, line ++ CRLF ++ rest) = parseRequest (context', rest) := by
  have hbuf : line ++ CRLF ++ rest = line ++ CR :: LF :: rest := by simp [CRLF]
  have htake : (line ++ CR :: LF :: rest).take line.length = line := List.take_left ..
  have hdrop : (line ++ CR :: LF :: rest).drop (line.length + 2) = rest := by simp [List.drop_append]
  have hstep := parseRequestStep_line (findCRLF_line hn rest) (htake.symm ▸ hl)
  rw [hdrop] at hstep
  rw [hbuf, parseRequest_next hstep]

theorem parseRequest_gotAll (h : context.state = .kGotAll) :
    parseRequest (context, b) = .returned true context b := by
  apply parseRequest_exit
  simp only [parseRequestStep, h]

theorem parseRequest_body (h : context.state = .kExpectBody) :
    parseRequest (context, b) = parseBody context b := by
  apply parseRequest_exit
  simp only [parseRequestStep, h]

end Parser

section Body
variable [Boost] {context : HttpContext} {b : Bytes}

theorem parseBody_aborted (h : context.request.getExpectBodyLen < context.request.body.length) :
    parseBody context b = .aborted := by
  simp only [parseBody, HttpRequest.getRemainBodyLen, if_neg (Int.not_le.mpr h)]

/-- With `k` bytes missing the body takes at most `k` bytes, and the request is complete when it gets
them all. -/
theorem parseBody_eq {k : ℕ} (h : context.request.getExpectBodyLen = context.request.body.length + k) :
    parseBody context b = .returned true
      ⟨if k ≤ b.length then .kGotAll else context.state, context.request.appendBody (b.take k)⟩
      (b.drop k) := by
  have hremain : context.request.getRemainBodyLen = some (k : ℤ) := by
    simp only [HttpRequest.getRemainBodyLen, h]
    rw [if_pos (by omega), add_sub_cancel_left]
  have hcut : bodyCut k b = min k b.length := by
    unfold bodyCut
    split <;> omega
  have htake : b.take (min k b.length) = b.take k := by
    rw [← List.take_take, List.take_length]
  have hdrop : b.drop (min k b.length) = b.drop k := by
    rcases Nat.le_total k b.length with hle | hle
    · rw [Nat.min_eq_left hle]
    · rw [Nat.min_eq_right hle, List.drop_length, List.drop_eq_nil_of_le hle]
  have hleft : (context.request.appendBody (b.take k)).getRemainBodyLen = some ((k - b.length : ℕ) : ℤ) := by
    simp only [HttpRequest.getRemainBodyLen, HttpRequest.getExpectBodyLen_appendBody, h,
      HttpRequest.body_appendBody, List.length_append, List.length_take]
    rw [if_pos (by omega)]
    congr 1
    omega
  simp only [parseBody, hremain, hcut, htake, hdrop, hleft]
  by_cases hk : k ≤ b.length
  · have h0 : k - b.length = 0 := by omega
    simp [hk, h0]
  · have h0 : (k - b.length : ℕ) ≠ 0 := by omega
    rw [if_neg (by omega), if_neg (by exact_mod_cast h0), if_neg hk]

theorem parseBody_returned {context' : HttpContext} {b' : Bytes} {ok : Bool}
    (h : parseBody context b = .returned ok context' b') :
    ∃ k : ℕ, context.request.getExpectBodyLen = context.request.body.length + k ∧ ok = true ∧ b' = b.drop k ∧
      context' =
        ⟨if k ≤ b.length then .kGotAll else context.state, context.request.appendBody (b.take k)⟩ := by
  rcases lt_or_ge context.request.getExpectBodyLen context.request.body.length with hneg | hpos
  · rw [parseBody_aborted hneg] at h
    cases h
  · obtain ⟨k, hk⟩ := Int.le.dest hpos
    rw [parseBody_eq hk.symm] at h
    cases h
    exact ⟨k, hk.symm, rfl, rfl, rfl⟩

end Body

end LinuxSocket.Http
