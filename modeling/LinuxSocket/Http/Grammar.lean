import LinuxSocket.Http.RequestLine
import LinuxSocket.Http.Segmentation
import LinuxSocket.Lib.Lines

/-! # What the HTTP parser accepts

Every request the parser accepts is a request line, header lines and a line without a colon, then
the body. Only where that line is empty are the consumed bytes in the grammar of requests.
-/
namespace LinuxSocket.Http

structure IsRequestLine (line : Bytes) : Prop where
  noCrlf : NoCrlf line
  parts : ∃ m target d, m ≠ Method.kInvalid ∧ SP ∉ target ∧ (d = 48 ∨ d = 49) ∧
    line = m.str ++ SP :: (target ++ SP :: (ascii "HTTP/1." ++ [d]))

structure IsHeaderLine (line : Bytes) : Prop where
  noCrlf : NoCrlf line
  colon : COLON ∈ line

structure EndsHeaders (line : Bytes) : Prop where
  noCrlf : NoCrlf line
  colon : COLON ∉ line

/-- The lines of a request, the last of which ends the header block, and its body. -/
def requestText (line : Bytes) (headers : List Bytes) (last body : Bytes) : Bytes :=
  line ++ CRLF ++ (headers.flatMap (· ++ CRLF) ++ (last ++ CRLF ++ body))

/-- The length of the body that goes with the headers of a request. -/
def announcedLength [Boost] (r : HttpRequest) : ℤ :=
  if r.getHeader HttpRequest.contentLength ≠ [] then r.getExpectBodyLen else 0

def Accepted [Boost] (r : HttpRequest) (bytes : Bytes) : Prop :=
  ∃ line headers body, IsRequestLine line ∧ (∀ h ∈ headers, IsHeaderLine h) ∧
    (body.length : ℤ) = announcedLength r ∧ bytes = requestText line headers [] body

/-- The first line behind the request line that has no colon. -/
def headerEnd (b : Bytes) : Option Bytes := (crlfLines b).tail.find? fun l => decide (COLON ∉ l)

theorem endsHeaders_nil : EndsHeaders [] := ⟨NoCrlf.nil, List.not_mem_nil⟩

theorem headerEnd_requestText {line last : Bytes} {headers : List Bytes} (hline : NoCrlf line)
    (hheaders : ∀ h ∈ headers, IsHeaderLine h) (hlast : EndsHeaders last) (body : Bytes) :
    headerEnd (requestText line headers last body) = some last := by
  have hfind : headers.find? (fun l => decide (COLON ∉ l)) = none := by
    rw [List.find?_eq_none]
    intro h hh
    simpa using (hheaders h hh).colon
  rw [headerEnd, requestText, crlfLines_line hline, crlfLines_flatMap fun h hh => (hheaders h hh).noCrlf,
    crlfLines_line hlast.noCrlf, List.tail_cons, List.find?_append, hfind, Option.none_or,
    List.find?_cons_of_pos (by simpa using hlast.colon)]

theorem requestText_append (line : Bytes) (headers : List Bytes) (last body rest : Bytes) :
    requestText line headers last body ++ rest = requestText line headers last (body ++ rest) := by
  simp only [requestText, List.append_assoc]

theorem headerEnd_of_accepted [Boost] {r : HttpRequest} {bytes : Bytes} (h : Accepted r bytes) (rest : Bytes) :
    headerEnd (bytes ++ rest) = some [] := by
  obtain ⟨line, headers, body, hline, hheaders, -, rfl⟩ := h
  rw [requestText_append]
  exact headerEnd_requestText hline.noCrlf hheaders endsHeaders_nil _

theorem parseFirstLine_isRequestLine {line : Bytes} {r r' : HttpRequest} (hn : NoCrlf line)
    (h : parseFirstLine line r = (true, r')) : IsRequestLine line := by
  obtain ⟨m, target, d, hline⟩ := (parseFirstLine_accepts line r).mp (by rw [h])
  exact ⟨hn, m, target, d, hline.method, hline.target, hline.digit, hline.line_eq⟩

section Run
variable [Muduo] [Boost]

theorem parse_body_gotAll (context : HttpContext) {context' : HttpContext} {b rest : Bytes} {ok : Bool}
    (hs : context.state = .kExpectBody) (hbody : context.request.body = [])
    (hcl : context.request.getHeader HttpRequest.contentLength ≠ [])
    (h : parseRequest (context, b) = .returned ok context' rest) (hg : context'.gotAll = true) :
    ∃ body : Bytes, (body.length : ℤ) = announcedLength context'.request ∧ b = body ++ rest := by
  rw [parseRequest_body hs] at h
  obtain ⟨k, hk, -, rfl, rfl⟩ := parseBody_returned h
  have hle : k ≤ b.length := by
    by_contra hgt
    simp [HttpContext.gotAll, hgt, hs] at hg
  refine ⟨b.take k, ?_, (List.take_append_drop k b).symm⟩
  rw [hbody] at hk
  simp only [announcedLength, HttpRequest.getHeader_appendBody, HttpRequest.getExpectBodyLen_appendBody,
    if_pos hcl, hk, List.length_take, Nat.min_eq_left hle]
  simp

theorem parse_headers_gotAll (p : HttpContext × Bytes) {context' : HttpContext} {rest : Bytes} {ok : Bool}
    (hs : p.1.state = .kExpectHeaders) (hbody : p.1.request.body = [])
    (h : parseRequest p = .returned ok context' rest) (hg : context'.gotAll = true) :
    ∃ (headers : List Bytes) (last body : Bytes), (∀ h ∈ headers, IsHeaderLine h) ∧ EndsHeaders last ∧
      (body.length : ℤ) = announcedLength context'.request ∧
      p.2 = headers.flatMap (· ++ CRLF) ++ (last ++ CRLF ++ body) ++ rest := by
  induction p using parseRequestBody.induction with
  | h p ih =>
    obtain ⟨context, b⟩ := p
    dsimp only at hs hbody ⊢
    cases hstep : parseRequestStep (context, b) with
    | inl q =>
      obtain ⟨context₁, b₁⟩ := q
      rw [parseRequest_next hstep] at h
      obtain ⟨crlf, hf, rfl, hl⟩ := parseRequestStep_next hstep
      obtain ⟨hn, hb⟩ := findCRLF_split hf
      cases hl with
      | requestLine hs' _ =>
        rw [hs] at hs'
        cases hs'
      | header _ hc =>
        obtain ⟨headers, last, body, hheaders, hlast, hlen, hrest⟩ := ih _ hstep rfl hbody h
        refine ⟨b.take crlf :: headers, last, body, ?_, hlast, hlen, ?_⟩
        · intro l hl
          rcases List.mem_cons.mp hl with rfl | hl
          · exact ⟨hn, hc⟩
          · exact hheaders l hl
        · dsimp only at hrest
          rw [List.flatMap_cons, List.append_assoc, List.append_assoc, ← List.append_assoc (headers.flatMap _),
            ← hrest]
          exact hb
      | body _ hc hcl =>
        obtain ⟨body, hlen, hrest⟩ := parse_body_gotAll ⟨.kExpectBody, context.request⟩ rfl hbody hcl h hg
        refine ⟨[], b.take crlf, body, List.forall_mem_nil _, ⟨hn, hc⟩, hlen, ?_⟩
        rw [List.flatMap_nil, List.nil_append, List.append_assoc, ← hrest]
        exact hb
    | inr r =>
      rw [parseRequest_exit hstep] at h
      subst h
      cases parseRequestStep_exit hstep with
      | incomplete _ _ => simp [HttpContext.gotAll, hs] at hg
      | rejected hs' _ _ => simp [hs] at hs'
      | @noBody crlf _ hf hc hcl =>
        obtain ⟨hn, hb⟩ := findCRLF_split hf
        refine ⟨[], b.take crlf, [], List.forall_mem_nil _, ⟨hn, hc⟩, ?_, ?_⟩
        · simp [announcedLength, hcl]
        · rw [List.flatMap_nil, List.nil_append, List.append_nil]
          exact hb
      | body hs' _ => simp [hs] at hs'
      | gotAll hs' => simp [hs] at hs'

theorem parse_gotAll {context : HttpContext} {b rest : Bytes} {ok : Bool}
    (h : parseRequest ({}, b) = .returned ok context rest) (hg : context.gotAll = true) :
    ∃ line headers last body, IsRequestLine line ∧ (∀ h ∈ headers, IsHeaderLine h) ∧ EndsHeaders last ∧
      (body.length : ℤ) = announcedLength context.request ∧
      b = requestText line headers last body ++ rest := by
  cases hstep : parseRequestStep ({}, b) with
  | inl q =>
    obtain ⟨context₁, b₁⟩ := q
    rw [parseRequest_next hstep] at h
    obtain ⟨crlf, hf, rfl, hl⟩ := parseRequestStep_next hstep
    obtain ⟨hn, hb⟩ := findCRLF_split hf
    cases hl with
    | @requestLine r _ hp =>
      have hbody : r.body = [] := parseFirstLine_body hp
      obtain ⟨headers, last, body, hheaders, hlast, hlen, hrest⟩ := parse_headers_gotAll _ rfl hbody h hg
      refine ⟨b.take crlf, headers, last, body, parseFirstLine_isRequestLine hn hp, hheaders, hlast, hlen, ?_⟩
      dsimp only at hrest
      rw [requestText, List.append_assoc, ← hrest]
      exact hb
    | header hs _ => cases hs
    | body hs _ _ => cases hs
  | inr r =>
    rw [parseRequest_exit hstep] at h
    subst h
    cases parseRequestStep_exit hstep with
    | incomplete _ _ => cases hg
    | rejected _ _ _ => cases hg
    | noBody hs _ _ _ => cases hs
    | body hs _ => cases hs
    | gotAll hs => cases hs

/-- However a stream is cut, the bytes consumed by an accepted request are in the grammar exactly when
the first line without a colon behind the request line is empty. -/
theorem accepted_iff {chunk : Bytes} {chunks : List Bytes} {ok : Bool} {context : HttpContext} {rest : Bytes}
    (h : chunks.foldl appendAndParse (parseRequest ({}, chunk)) = .returned ok context rest)
    (hg : context.gotAll = true) : ∃ consumed, (chunk :: chunks).flatten = consumed ++ rest ∧
      (Accepted context.request consumed ↔ headerEnd (chunk :: chunks).flatten = some []) := by
  have hfold : chunks.foldl appendAndParse (parseRequest ({}, chunk)) =
      parseRequest ({}, chunk ++ chunks.flatten) :=
    parse_resumable.foldl_resume trivial chunk chunks
  rw [hfold] at h
  obtain ⟨line, headers, last, body, hline, hheaders, hlast, hlen, hb⟩ := parse_gotAll h hg
  refine ⟨_, hb, fun hacc => ?_, fun hend => ?_⟩
  · rw [List.flatten_cons, hb]
    exact headerEnd_of_accepted hacc rest
  · rw [List.flatten_cons, hb, requestText_append, headerEnd_requestText hline.noCrlf hheaders hlast] at hend
    cases hend
    exact ⟨line, headers, body, hline, hheaders, hlen, rfl⟩

end Run

/-- A request cut inside the CR LF of its request line. -/
theorem accepted_get : ∃ (context : HttpContext) (consumed : Bytes),
    ascii "GET / HTTP/1.1\r\nHost: a\r\n\r\nrest" = consumed ++ ascii "rest" ∧
    (@Accepted Boost.reference context.request consumed ↔
      headerEnd (ascii "GET / HTTP/1.1\r\nHost: a\r\n\r\nrest") = some []) := by
  let M := Muduo.reference
  let B := Boost.reference
  let request : HttpRequest := { method := .kGet, path := ascii "/", version := .kHttp11 }
  have h : [ascii "\nHost: a\r\n\r\nrest"].foldl appendAndParse (parseRequest ({}, ascii "GET / HTTP/1.1\r")) =
      .returned true ⟨.kGotAll, request.addHeader (ascii "Host: a") 4⟩ (ascii "rest") := by decide
  exact ⟨_, accepted_iff h rfl⟩

/-- A line without a colon ends the header block although it is not empty. -/
theorem accepted_colonless : ¬∀ (_ : Muduo) (_ : Boost) (b rest : Bytes) (ok : Bool) (context : HttpContext),
    parseRequest ({}, b) = .returned ok context rest → context.gotAll = true →
      ∃ consumed, b = consumed ++ rest ∧ Accepted context.request consumed := by
  intro h
  let M := Muduo.reference
  let B := Boost.reference
  have hrun : parseRequest ({}, ascii "GET / HTTP/1.1\r\nfoo\r\n") =
      .returned true ⟨.kGotAll, { method := .kGet, path := ascii "/", version := .kHttp11 }⟩ [] := by decide
  obtain ⟨consumed, hb, hacc⟩ := h M B _ _ _ _ hrun rfl
  have hend := headerEnd_of_accepted hacc []
  rw [← hb] at hend
  revert hend
  decide

end LinuxSocket.Http
