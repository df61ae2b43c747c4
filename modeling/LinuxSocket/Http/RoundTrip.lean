import LinuxSocket.Http.HttpContext

/-! # Decoding an encoded request

Requests are written one behind the other and read back with a call of `parse_request` and of `reset`
for each. The first space, the first question mark, the first colon and the announced length are
where the encoding has put them, so every request ends where the next one starts.
-/
namespace LinuxSocket.Http

/-- A header line of a client: blanks may stand around the value. -/
structure HeaderField where
  name : Bytes
  before : Bytes
  value : Bytes
  after : Bytes

structure Request where
  method : Method
  path : Bytes
  query : Bytes
  version : Version
  headers : List HeaderField
  body : Bytes

def Version.str : Version → Bytes
  | .kHttp10 => ascii "HTTP/1.0"
  | .kHttp11 => ascii "HTTP/1.1"
  | .kUnKnown => []

def HeaderField.line (f : HeaderField) : Bytes := f.name ++ COLON :: (f.before ++ f.value ++ f.after)

namespace Request

def line (q : Request) : Bytes := q.method.str ++ SP :: (q.path ++ q.query ++ SP :: q.version.str)

def encode (q : Request) : Bytes :=
  q.line ++ CRLF ++ (q.headers.flatMap (fun f => f.line ++ CRLF) ++ ([] ++ CRLF ++ q.body))

def headerMap (q : Request) : HeaderMap := .ofList (q.headers.map fun f => (f.name, f.value)) compare

def parsed (q : Request) : HttpRequest := ⟨q.method, q.path, q.query, q.body, q.version, q.headerMap⟩

end Request

def IsBlank (b : Bytes) : Prop := ∀ c ∈ b, isspace c = true ∧ c ≠ CR ∧ c ≠ LF

instance (b : Bytes) : Decidable (IsBlank b) := inferInstanceAs (Decidable (∀ c ∈ b, _))

structure HeaderField.WellFormed (f : HeaderField) : Prop where
  name : COLON ∉ f.name ∧ CR ∉ f.name ∧ LF ∉ f.name
  value : CR ∉ f.value ∧ LF ∉ f.value
  before : IsBlank f.before
  after : IsBlank f.after
  trimmed : (∀ c ∈ f.value.head?, isspace c = false) ∧ ∀ c ∈ f.value.getLast?, isspace c = false

/-- A body is announced by its length. No `string` holds 2^63 bytes or more. -/
structure Request.WellFormed (q : Request) : Prop where
  method : q.method ≠ .kInvalid
  path : SP ∉ q.path ∧ QUESTION ∉ q.path ∧ CR ∉ q.path ∧ LF ∉ q.path
  query : q.query = [] ∨ q.query.head? = some QUESTION
  query_line : SP ∉ q.query ∧ CR ∉ q.query ∧ LF ∉ q.query
  version : q.version ≠ .kUnKnown
  headers : ∀ f ∈ q.headers, f.WellFormed
  distinct : q.headers.Pairwise fun f g => f.name ≠ g.name
  body : ((∀ f ∈ q.headers, f.name ≠ HttpRequest.contentLength) ∧ q.body = []) ∨
    ∃ f ∈ q.headers, f.name = HttpRequest.contentLength ∧ f.value = decimal q.body.length
  body_length : q.body.length < 2 ^ 63

section Lines

theorem versionOf_str {v : Version} (h : v ≠ .kUnKnown) : versionOf v.str = some v := by
  cases v with
  | kUnKnown => exact absurd rfl h
  | kHttp10 => decide
  | kHttp11 => decide

theorem cr_not_mem_version (v : Version) : CR ∉ v.str := by
  cases v <;> decide

theorem setTarget_encode {path query : Bytes} (hp : QUESTION ∉ path)
    (hq : query = [] ∨ query.head? = some QUESTION) {r : HttpRequest} (hr : r.query = []) :
    r.setTarget (path ++ query) = { r with path := path, query := query } := by
  rcases hq with rfl | hq
  · rw [List.append_nil, HttpRequest.setTarget, if_neg (not_not.mpr (List.idxOf_eq_length hp)), ← hr]
  · obtain ⟨tail, rfl⟩ := List.head?_eq_some_iff.mp hq
    obtain ⟨hi, htake, -, hne⟩ := idxOf_separator hp tail
    simp only [HttpRequest.setTarget, hi, if_pos hne, htake, List.drop_left]

variable {q : Request} {f : HeaderField}

theorem Request.WellFormed.line_noCrlf (h : q.WellFormed) : NoCrlf q.line := by
  apply NoCrlf.of_not_mem
  have hv := cr_not_mem_version q.version
  have hm := cr_not_mem_str q.method
  simp only [Request.line, List.mem_append, List.mem_cons, not_or]
  exact ⟨hm, by decide, ⟨h.path.2.2.1, h.query_line.2.1⟩, by decide, hv⟩

theorem Request.WellFormed.parseFirstLine (h : q.WellFormed) :
    parseFirstLine q.line {} = (true, ⟨q.method, q.path, q.query, [], q.version, ∅⟩) := by
  have ht : SP ∉ q.path ++ q.query := by
    rw [List.mem_append, not_or]
    exact ⟨h.path.1, h.query_line.1⟩
  rw [Request.line, parseFirstLine_parts (sp_not_mem_str _) ht, methodOf_str h.method, if_neg h.method,
    setTarget_encode h.path.2.1 h.query rfl, HttpRequest.setVersionText, versionOf_str h.version]

theorem HeaderField.WellFormed.line_noCrlf (h : f.WellFormed) : NoCrlf f.line := by
  apply NoCrlf.of_not_mem
  simp only [HeaderField.line, List.mem_append, List.mem_cons, not_or]
  exact ⟨h.name.2.1, by decide, ⟨fun hb => (h.before CR hb).2.1 rfl, h.value.1⟩,
    fun ha => (h.after CR ha).2.1 rfl⟩

theorem dropWhile_of_head {b : Bytes} (h : ∀ c ∈ b.head?, isspace c = false) :
    b.dropWhile isspace = b := by
  cases b with
  | nil => rfl
  | cons c cs => simp [h c rfl]

/-- Trimming takes away the blanks and nothing of a value that neither starts nor ends with one. -/
theorem trim_value {before value after : Bytes} (hb : ∀ c ∈ before, isspace c = true)
    (ha : ∀ c ∈ after, isspace c = true)
    (ht : (∀ c ∈ value.head?, isspace c = false) ∧ ∀ c ∈ value.getLast?, isspace c = false) :
    HttpRequest.trim (before ++ value ++ after) = value := by
  have hlast : value.reverse.dropWhile isspace = value.reverse := by
    apply dropWhile_of_head
    intro c hc
    rw [List.head?_reverse] at hc
    exact ht.2 c hc
  have ha' : ∀ c ∈ after.reverse, isspace c = true := fun c hc => ha c (List.mem_reverse.mp hc)
  have hright : (value ++ after).rdropWhile isspace = value := by
    rw [List.rdropWhile, List.reverse_append, List.dropWhile_append_of_pos ha', hlast, List.reverse_reverse]
  rw [HttpRequest.trim, List.append_assoc, List.dropWhile_append_of_pos hb]
  cases value with
  | nil =>
    have hnil : after.dropWhile isspace = [] := List.dropWhile_eq_nil_iff.mpr ha
    rw [List.nil_append, hnil]
    rfl
  | cons c cs =>
    have hhead : (c :: cs ++ after).dropWhile isspace = c :: cs ++ after := by
      simp [ht.1 c rfl]
    rw [hhead, hright]

theorem HeaderField.WellFormed.addHeader (h : f.WellFormed) (r : HttpRequest) :
    r.addHeader f.line (f.line.idxOf COLON) = { r with headers := r.headers.insert f.name f.value } := by
  obtain ⟨hi, htake, hdrop, -⟩ := idxOf_separator h.name.1 (f.before ++ f.value ++ f.after)
  simp only [HttpRequest.addHeader, HeaderField.line, hi, htake, hdrop,
    trim_value (fun c hc => (h.before c hc).1) (fun c hc => (h.after c hc).1) h.trimmed]

end Lines

section Headers

theorem foldl_insert (headers : List HeaderField) (m : HeaderMap) :
    headers.foldl (fun m f => m.insert f.name f.value) m =
      m.insertMany (headers.map fun f => (f.name, f.value)) := by
  induction headers generalizing m with
  | nil => simp
  | cons f headers ih => rw [List.foldl_cons, ih, List.map_cons, Std.ExtTreeMap.insertMany_cons]

variable {q : Request}

theorem Request.headerMap_eq (q : Request) :
    q.headers.foldl (fun m f => m.insert f.name f.value) ∅ = q.headerMap := by
  rw [foldl_insert, Request.headerMap, Std.ExtTreeMap.ofList_eq_insertMany_empty]

theorem Request.WellFormed.getElem_headerMap (h : q.WellFormed) {f : HeaderField} (hf : f ∈ q.headers) :
    q.headerMap[f.name]? = some f.value := by
  have hd : (q.headers.map fun f => (f.name, f.value)).Pairwise fun a b => ¬compare a.1 b.1 = .eq := by
    rw [List.pairwise_map]
    exact h.distinct.imp fun hne he => hne (Std.LawfulEqCmp.eq_of_compare he)
  exact Std.ExtTreeMap.getElem?_ofList_of_mem Std.ReflCmp.compare_self hd (List.mem_map_of_mem hf)

theorem Request.getElem_headerMap_of_not_mem {name : Bytes} (h : ∀ f ∈ q.headers, f.name ≠ name) :
    q.headerMap[name]? = none := by
  apply Std.ExtTreeMap.getElem?_ofList_of_contains_eq_false
  simpa using h

end Headers

section Run
variable [Muduo] [Boost]

theorem parse_headers {headers : List HeaderField} (h : ∀ f ∈ headers, f.WellFormed) (r : HttpRequest)
    (rest : Bytes) : parseRequest (⟨.kExpectHeaders, r⟩, headers.flatMap (fun f => f.line ++ CRLF) ++ rest) =
      parseRequest (⟨.kExpectHeaders, { r with
        headers := headers.foldl (fun m f => m.insert f.name f.value) r.headers }⟩, rest) := by
  induction headers generalizing r with
  | nil => rfl
  | cons f headers ih =>
    have hf := h f List.mem_cons_self
    have hc : COLON ∈ f.line := List.mem_append_right _ List.mem_cons_self
    have hstep : LineStep ⟨.kExpectHeaders, r⟩ f.line _ := .header rfl hc
    rw [List.flatMap_cons, List.append_assoc, parseRequest_line hf.line_noCrlf hstep, hf.addHeader,
      ih fun g hg => h g (List.mem_cons_of_mem _ hg)]
    rfl

theorem parse_end {r : HttpRequest} {body : Bytes} (hr : r.body = []) (hlen : body.length < 2 ^ 63)
    (h : r.getHeader HttpRequest.contentLength = [] ∧ body = [] ∨
      r.getHeader HttpRequest.contentLength = decimal body.length) (rest : Bytes) :
    parseRequest (⟨.kExpectHeaders, r⟩, [] ++ CRLF ++ (body ++ rest)) =
      .returned true ⟨.kGotAll, r.appendBody body⟩ rest := by
  rcases h with ⟨hcl, rfl⟩ | hcl
  · have hf := findCRLF_line NoCrlf.nil rest
    have hstep := @parseRequestStep_noBody _ _ ⟨.kExpectHeaders, r⟩ _ _ rfl hf (by simp) hcl
    rw [HttpRequest.appendBody, List.append_nil]
    exact parseRequest_exit hstep
  · have hne : r.getHeader HttpRequest.contentLength ≠ [] := hcl ▸ decimal_ne_nil _
    have hline : LineStep ⟨.kExpectHeaders, r⟩ [] ⟨.kExpectBody, r⟩ := .body rfl List.not_mem_nil hne
    have hexpect : (HttpContext.mk .kExpectBody r).request.getExpectBodyLen =
        (HttpContext.mk .kExpectBody r).request.body.length + body.length := by
      simp only [HttpRequest.getExpectBodyLen, hcl, lexicalCast_decimal hlen, hr]
      simp
    have hle : body.length ≤ (body ++ rest).length := by
      rw [List.length_append]
      omega
    rw [parseRequest_line NoCrlf.nil hline, parseRequest_body rfl, parseBody_eq hexpect, if_pos hle,
      List.take_left, List.drop_left]

theorem Request.WellFormed.parse {q : Request} (h : q.WellFormed) (rest : Bytes) :
    parseRequest ({}, q.encode ++ rest) = .returned true ⟨.kGotAll, q.parsed⟩ rest := by
  have hline : LineStep {} q.line _ := .requestLine rfl h.parseFirstLine
  have henc : q.encode ++ rest = q.line ++ CRLF ++
      (q.headers.flatMap (fun f => f.line ++ CRLF) ++ ([] ++ CRLF ++ (q.body ++ rest))) := by
    simp only [Request.encode, List.append_assoc]
  rw [henc, parseRequest_line h.line_noCrlf hline, parse_headers h.headers]
  dsimp only
  rw [Request.headerMap_eq]
  have hcl : (⟨q.method, q.path, q.query, [], q.version, q.headerMap⟩ : HttpRequest).getHeader
      HttpRequest.contentLength = [] ∧ q.body = [] ∨
      (⟨q.method, q.path, q.query, [], q.version, q.headerMap⟩ : HttpRequest).getHeader
        HttpRequest.contentLength = decimal q.body.length := by
    unfold HttpRequest.getHeader
    rcases h.body with ⟨hno, hbody⟩ | ⟨f, hf, hname, hvalue⟩
    · exact Or.inl ⟨by rw [Request.getElem_headerMap_of_not_mem hno]; rfl, hbody⟩
    · exact Or.inr (by rw [← hname, h.getElem_headerMap hf, hvalue]; rfl)
  exact parse_end rfl h.body_length hcl rest

def decode : ℕ → HttpContext × Bytes → Option (List HttpRequest × Bytes)
  | 0, p => some ([], p.2)
  | n + 1, p =>
    match parseRequest p with
    | .returned ok context buf =>
      if ok && context.gotAll then
        (decode n (context.reset, buf)).map fun r => (context.request :: r.1, r.2)
      else none
    | .aborted => none

/-- Well-formed requests are read back one by one, and the bytes behind them are left unread. -/
theorem decode_encode (reqs : List Request) (h : ∀ q ∈ reqs, q.WellFormed) (t : Bytes) :
    decode reqs.length ({}, reqs.flatMap Request.encode ++ t) = some (reqs.map Request.parsed, t) := by
  induction reqs with
  | nil => rfl
  | cons q reqs ih =>
    have hq := (h q List.mem_cons_self).parse (reqs.flatMap Request.encode ++ t)
    rw [List.flatMap_cons, List.append_assoc, List.length_cons, decode, hq]
    have hreset : (HttpContext.mk .kGotAll q.parsed).reset = {} := rfl
    simp only [HttpContext.gotAll, BEq.rfl, Bool.and_self, if_true, hreset,
      ih fun q hq => h q (List.mem_cons_of_mem _ hq), Option.map_some, List.map_cons]

end Run

/-- A body that looks like a request, and a request behind it. -/
theorem decode_encode_two :
    let post : Request := ⟨.kPost, ascii "/a", ascii "?b=?", .kHttp11,
      [⟨ascii "Content-Length", ascii " ", ascii "9", ascii "\t "⟩, ⟨ascii "Host", [], ascii "x y", []⟩],
      ascii "GET / \r\n\r"⟩
    let get : Request := ⟨.kGet, ascii "/", [], .kHttp10, [], []⟩
    @decode Muduo.reference Boost.reference 2 ({}, [post, get].flatMap Request.encode ++ ascii "rest") =
      some ([post.parsed, get.parsed], ascii "rest") := by
  intro post get
  refine @decode_encode Muduo.reference Boost.reference [post, get] (fun q hq => ?_) (ascii "rest")
  rcases List.mem_pair.mp hq with rfl | rfl
  · have hlength : HeaderField.WellFormed ⟨ascii "Content-Length", ascii " ", ascii "9", ascii "\t "⟩ :=
      ⟨by decide, by decide, by decide +kernel, by decide +kernel, by decide +kernel⟩
    have hhost : HeaderField.WellFormed ⟨ascii "Host", [], ascii "x y", []⟩ :=
      ⟨by decide, by decide, by decide +kernel, by decide +kernel, by decide +kernel⟩
    refine ⟨by decide, by decide, by decide, by decide, by decide, ?_, by decide, Or.inr ?_, by decide⟩
    · intro f hf
      rcases List.mem_pair.mp hf with rfl | rfl
      · exact hlength
      · exact hhost
    · exact ⟨_, List.mem_cons_self, rfl, by decide⟩
  · exact ⟨by decide, by decide, by decide, by decide, by decide, List.forall_mem_nil _, List.Pairwise.nil,
      Or.inl ⟨List.forall_mem_nil _, rfl⟩, by decide⟩

end LinuxSocket.Http
