import LinuxSocket.Http.DocumentRoot
import LinuxSocket.Http.RequestLine
import LinuxSocket.Http.Segmentation
import LinuxSocket.Lib.Environ

/-! # The environment of a CGI program

The variables are printed into buffers of 255 bytes. The length of a body always fits; the query of a request
is cut behind 241 bytes.
-/
namespace LinuxSocket.Http

def envSize : ℕ := 255

/-- What the child of `server_cgi` puts into its environment before `execl`; `none` is the failed assertion. -/
def cgiEnviron (environ : List Bytes) (request : HttpRequest) : Option (List Bytes) :=
  let environ := putenv environ (snprintf envSize (ascii "REQUEST_METHOD=" ++ request.method.str))
  if request.method = .kGet then
    if request.query.length > 0 then
      let req := request.query.drop 1
      some (putenv environ (snprintf envSize (ascii "QUERY_STRING=" ++ cStr req)))
    else none
  else if request.method = .kPost then
    some (putenv environ (snprintf envSize (ascii "CONTENT_LENGTH=" ++ decimal request.body.length)))
  else some environ

def cgiVariable (environ : List Bytes) (request : HttpRequest) (name : Bytes) : Option Bytes :=
  (cgiEnviron environ request).bind fun environ => getenv environ name

structure QueryLine (line path q : Bytes) (d : UInt8) : Prop where
  line_eq : line = Method.kGet.str ++ SP :: (path ++ QUESTION :: q ++ SP :: (ascii "HTTP/1." ++ [d]))
  noCrlf : NoCrlf line
  path : SP ∉ path ∧ QUESTION ∉ path
  query : SP ∉ q ∧ CR ∉ q ∧ LF ∉ q ∧ (0 : UInt8) ∉ q
  digit : d = 48 ∨ d = 49

section Child
variable {request : HttpRequest} {q : Bytes}

theorem snprintf_append {size : ℕ} {name : Bytes} (h : name.length ≤ size - 1) (value : Bytes) :
    snprintf size (name ++ value) = name ++ value.take (size - 1 - name.length) := by
  rw [snprintf, List.take_append, List.take_of_length_le h]

/-- Behind `QUERY_STRING=` there is room for 241 bytes. -/
theorem cgiVariable_query (environ : List Bytes) (hm : request.method = .kGet) (hq : request.query = QUESTION :: q)
    (hnul : (0 : UInt8) ∉ q) : cgiVariable environ request (ascii "QUERY_STRING") = some (q.take 241) := by
  have hpos : request.query.length > 0 := by simp [hq]
  have hprint : snprintf envSize (ascii "QUERY_STRING=" ++ q) =
      ascii "QUERY_STRING" ++ EQUALS :: q.take 241 := snprintf_append (by decide) q
  rw [cgiVariable, cgiEnviron]
  dsimp only
  rw [if_pos hm, if_pos hpos, hq, List.drop_one, List.tail_cons, cStr_of_not_mem hnul, hprint]
  exact getenv_putenv (by decide) _ _

/-- The length of a body that a `string` can hold fits behind `CONTENT_LENGTH=`. -/
theorem cgiVariable_length (environ : List Bytes) (hm : request.method = .kPost)
    (hlen : request.body.length < 2 ^ 63) :
    cgiVariable environ request (ascii "CONTENT_LENGTH") = some (decimal request.body.length) := by
  have hget : ¬request.method = .kGet := by simp [hm]
  have hdigits := length_decimal_le (Nat.lt_trans hlen (by norm_num : 2 ^ 63 < 10 ^ 19)) (by decide)
  have hprint : snprintf envSize (ascii "CONTENT_LENGTH=" ++ decimal request.body.length) =
      ascii "CONTENT_LENGTH" ++ EQUALS :: decimal request.body.length := by
    refine (snprintf_append (by decide) _).trans ?_
    rw [List.take_of_length_le (Nat.le_trans hdigits (by decide))]
    rfl
  rw [cgiVariable, cgiEnviron]
  dsimp only
  rw [if_neg hget, if_pos hm, hprint]
  exact getenv_putenv (by decide) _ _

end Child

section Accepted
variable [Muduo] [Boost]

/-- What the parser keeps behind the request line: the request line, and a body that a `string` can hold. -/
structure Kept (r : HttpRequest) (context : HttpContext) : Prop where
  state : context.state ≠ .kExpectRequestLine
  method : context.request.method = r.method
  query : context.request.query = r.query
  body : (context.request.body.length : ℤ) < 2 ^ 63

omit [Muduo] in
theorem getExpectBodyLen_lt (r : HttpRequest) : r.getExpectBodyLen < 2 ^ 63 := by
  unfold HttpRequest.getExpectBodyLen
  cases h : Boost.lexicalCast (r.getHeader HttpRequest.contentLength) with
  | none => decide
  | some n =>
    obtain ⟨-, -, -, -, -, hlt⟩ := Boost.lexicalCast_eq_some.mp h
    exact hlt

theorem Kept.parse {r : HttpRequest} {p : HttpContext × Bytes} {context : HttpContext} {rest : Bytes} {ok : Bool}
    (hp : Kept r p.1) (h : parseRequest p = .returned ok context rest) : Kept r context := by
  obtain ⟨⟨s, u⟩, hv, he⟩ := parseRequestBody.exists_exit p
  have hs : Kept r s := by
    refine hv.invariant (I := fun t => Kept r t.1) ?_ hp
    rintro ⟨s, u⟩ ⟨t, v⟩ hs hstep
    obtain ⟨crlf, -, -, hl⟩ := parseRequestStep_next hstep
    cases hl with
    | requestLine hline _ => exact absurd hline hs.state
    | header _ _ => exact ⟨by simp, hs.method, hs.query, hs.body⟩
    | body _ _ _ => exact ⟨by simp, hs.method, hs.query, hs.body⟩
  change parseRequestStep (s, u) = .inr (parseRequest p) at he
  rw [h] at he
  cases parseRequestStep_exit he with
  | incomplete _ _ => exact hs
  | rejected hline _ _ => exact absurd hline hs.state
  | noBody _ _ _ _ => exact ⟨by simp, hs.method, hs.query, hs.body⟩
  | body hline hr =>
    obtain ⟨k, hk, -, -, rfl⟩ := parseBody_returned hr
    refine ⟨?_, hs.method, hs.query, ?_⟩
    · dsimp only
      split
      · simp
      · simp [hline]
    · have hlt := getExpectBodyLen_lt s.request
      dsimp only
      rw [HttpRequest.body_appendBody, List.length_append, List.length_take]
      omega
  | gotAll _ => exact hs

/-- An accepted request has kept what its first line was parsed to. -/
theorem kept_of_gotAll {b rest : Bytes} {context : HttpContext} {ok : Bool}
    (h : parseRequest ({}, b) = .returned ok context rest) (hg : context.gotAll = true) :
    ∃ crlf r, Muduo.findCRLF b 0 = some crlf ∧ parseFirstLine (b.take crlf) {} = (true, r) ∧ Kept r context := by
  cases hstep : parseRequestStep ({}, b) with
  | inl q =>
    obtain ⟨context₁, b₁⟩ := q
    rw [parseRequest_next hstep] at h
    obtain ⟨crlf, hf, rfl, hl⟩ := parseRequestStep_next hstep
    cases hl with
    | @requestLine r _ hp =>
      have hbody : r.body = [] := parseFirstLine_body hp
      have hkept : Kept r ⟨.kExpectHeaders, r⟩ := ⟨by simp, rfl, rfl, by simp [hbody]⟩
      exact ⟨crlf, r, hf, hp, hkept.parse h⟩
    | header hs _ => cases hs
    | body hs _ _ => cases hs
  | inr r =>
    rw [parseRequest_exit hstep] at h
    subst h
    cases parseRequestStep_exit hstep with
    | incomplete _ _ => cases hg
    | rejected _ _ _ => cases hg
    | noBody hs _ _ _ => cases hs
    | body hs _ => cases hs
    | gotAll hs => cases hs

variable {line path q more : Bytes} {d : UInt8}

omit [Muduo] [Boost] in
theorem QueryLine.parse (h : QueryLine line path q d) : parseFirstLine line {} =
    (true, { method := .kGet, path, query := QUESTION :: q, version := digitVersion d }) := by
  have htarget : SP ∉ path ++ QUESTION :: q := by
    simp only [List.mem_append, List.mem_cons, not_or]
    exact ⟨h.path.1, by decide, h.query.1⟩
  obtain ⟨hi, htake, -, hne⟩ := idxOf_separator h.path.2 q
  rw [RequestLine.parse ⟨h.line_eq, by decide, htarget, h.digit⟩]
  simp only [HttpRequest.setTarget, hi, if_pos hne, htake, List.drop_left]

theorem QueryLine.query_eq (hline : QueryLine line path q d) {rest : Bytes} {context : HttpContext} {ok : Bool}
    (h : parseRequest ({}, line ++ CRLF ++ more) = .returned ok context rest) (hg : context.gotAll = true) :
    context.request.method = .kGet ∧ context.request.query = QUESTION :: q := by
  obtain ⟨crlf, r, hf, hp, hkept⟩ := kept_of_gotAll h hg
  have hbuf : line ++ CRLF ++ more = line ++ CR :: LF :: more := by simp [CRLF]
  rw [hbuf, findCRLF_line hline.noCrlf] at hf
  obtain rfl := Option.some.inj hf
  rw [hbuf, List.take_left, hline.parse] at hp
  obtain rfl := (Prod.mk.inj hp).2
  exact ⟨hkept.method, hkept.query⟩

/-- However an accepted stream is cut, the program that is run gets the query of its request line exactly when that
has at most 241 bytes, and the length of a posted body in any case. -/
theorem cgiVariables_iff (environ : List Bytes) {chunk : Bytes} {chunks : List Bytes} {ok : Bool}
    {context : HttpContext} {rest : Bytes}
    (h : chunks.foldl appendAndParse (parseRequest ({}, chunk)) = .returned ok context rest)
    (hg : context.gotAll = true) :
    (∀ line path q d more, QueryLine line path q d → (chunk :: chunks).flatten = line ++ CRLF ++ more →
      (cgiVariable environ context.request (ascii "QUERY_STRING") = some q ↔ q.length ≤ 241)) ∧
    (context.request.method = .kPost → cgiVariable environ context.request (ascii "CONTENT_LENGTH") =
      some (decimal context.request.body.length)) := by
  rw [parse_chunks] at h
  constructor
  · intro line path q d more hline hstream
    rw [hstream] at h
    obtain ⟨hm, hq⟩ := hline.query_eq h hg
    rw [cgiVariable_query environ hm hq hline.query.2.2.2, Option.some.injEq, List.take_eq_self_iff]
  · intro hm
    obtain ⟨crlf, r, -, -, hkept⟩ := kept_of_gotAll h hg
    exact cgiVariable_length environ hm (by exact_mod_cast hkept.body)

/-- A request without headers. -/
theorem QueryLine.accepted (h : QueryLine line path q d) : ∃ context,
    parseRequest ({}, line ++ CRLF ++ CRLF) = .returned true context [] ∧ context.gotAll = true := by
  let request : HttpRequest := { method := .kGet, path, query := QUESTION :: q, version := digitVersion d }
  have hend : parseRequest (⟨.kExpectHeaders, request⟩, CRLF) = .returned true ⟨.kGotAll, request⟩ [] :=
    parseRequest_exit (parseRequestStep_noBody rfl (findCRLF_line NoCrlf.nil []) List.not_mem_nil rfl)
  exact ⟨_, (parseRequest_line h.noCrlf (.requestLine rfl h.parse) CRLF).trans hend, rfl⟩

end Accepted

/-- A path and a query of `n` letters. -/
theorem queryLine_letters (n : ℕ) : QueryLine (Method.kGet.str ++ SP :: (ascii "/color.cgi" ++
    QUESTION :: List.replicate n 97 ++ SP :: (ascii "HTTP/1." ++ [49]))) (ascii "/color.cgi") (List.replicate n 97) 49 where
  line_eq := rfl
  noCrlf := by
    apply NoCrlf.of_not_mem
    simp only [List.mem_append, List.mem_cons, List.mem_replicate, not_or]
    exact ⟨by decide, by decide, ⟨by decide, by decide, fun h => absurd h.2 (by decide)⟩, by decide, by decide⟩
  path := by decide
  query := by simp [List.mem_replicate, SP, CR, LF]
  digit := Or.inr rfl

/-- A query of three bytes. -/
theorem cgiVariables_iff_short : ∃ context : HttpContext, cgiVariable [] context.request (ascii "QUERY_STRING") =
    some (List.replicate 3 97) ↔ (List.replicate 3 (97 : UInt8)).length ≤ 241 := by
  let M := Muduo.reference
  let B := Boost.reference
  have hline := queryLine_letters 3
  obtain ⟨context, hrun, hg⟩ := hline.accepted
  have hrun' : [].foldl appendAndParse (parseRequest ({}, _)) = .returned true context [] := hrun
  exact ⟨context, (cgiVariables_iff [] hrun' hg).1 _ _ _ _ _ hline (List.append_nil _)⟩

/-- A query of 242 bytes loses its last byte. -/
theorem long_query_cut : ¬∀ (_ : Muduo) (_ : Boost) (environ : List Bytes) (b rest : Bytes) (ok : Bool)
    (context : HttpContext) (line path q : Bytes) (d : UInt8) (more : Bytes),
    parseRequest ({}, b) = .returned ok context rest → context.gotAll = true →
      QueryLine line path q d → b = line ++ CRLF ++ more →
        cgiVariable environ context.request (ascii "QUERY_STRING") = some q := by
  intro h
  let M := Muduo.reference
  let B := Boost.reference
  have hline := queryLine_letters 242
  obtain ⟨context, hrun, hg⟩ := hline.accepted
  obtain ⟨hm, hq⟩ := hline.query_eq hrun hg
  have hvalue := h M B [] _ _ _ _ _ _ _ _ _ hrun hg hline rfl
  rw [cgiVariable_query [] hm hq hline.query.2.2.2, Option.some.injEq, List.take_eq_self_iff,
    List.length_replicate] at hvalue
  omega

end LinuxSocket.Http
