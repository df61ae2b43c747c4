import LinuxSocket.Http.HttpResponse
import LinuxSocket.Http.RoundTrip

/-! # Reading a response back

The header lines of a response have the syntax of those of a request, so the header and body
states of the parser read a persistent response back and stop behind its body.
-/
namespace LinuxSocket.Http

/-- A persistent response: legal header fields and status message, and a body whose length fits in
the line that announces it. -/
structure HttpResponse.Persistent (r : HttpResponse) : Prop where
  keepAlive : r.closeConnection = false
  status : CR ∉ r.statusMessage ∧ LF ∉ r.statusMessage
  names : ∀ p ∈ r.headers.toList, COLON ∉ p.1 ∧ CR ∉ p.1 ∧ LF ∉ p.1
  distinct : HttpRequest.contentLength ∉ r.headers ∧ ascii "Connection" ∉ r.headers
  values : ∀ p ∈ r.headers.toList, CR ∉ p.2 ∧ LF ∉ p.2
  trimmed : ∀ p ∈ r.headers.toList,
    (∀ c ∈ p.2.head?, isspace c = false) ∧ ∀ c ∈ p.2.getLast?, isspace c = false
  body : r.body.length < 10 ^ 13

/-- The bytes behind the first line. -/
def afterStatusLine [Muduo] (b : Bytes) : Option Bytes := (Muduo.findCRLF b 0).map fun crlf => b.drop (crlf + 2)

/-- What a reader of the response is to find: its headers and the two the server adds, and its body. -/
def HttpResponse.parsed (r : HttpResponse) : HttpRequest where
  headers := (r.headers.insert HttpRequest.contentLength (decimal r.body.length)).insert
    (ascii "Connection") (ascii "Keep-Alive")
  body := r.body

namespace HttpResponse
variable {r : HttpResponse}

def field (p : Bytes × Bytes) : HeaderField := ⟨p.1, ascii " ", p.2, []⟩

def fields (r : HttpResponse) : List HeaderField :=
  field (HttpRequest.contentLength, decimal r.body.length) :: field (ascii "Connection", ascii "Keep-Alive") ::
    r.headers.toList.map field

def statusLine (r : HttpResponse) : Bytes :=
  ascii "HTTP/1.1 " ++ decimal r.statusCode.toNat ++ ascii " " ++ r.statusMessage

theorem snprintf32_of_le {text : Bytes} (h : text.length ≤ 31) : snprintf32 text = text :=
  List.take_of_length_le h

theorem snprintf32_status (code : HttpStatusCode) :
    snprintf32 (ascii "HTTP/1.1 " ++ decimal code.toNat ++ ascii " ") =
      ascii "HTTP/1.1 " ++ decimal code.toNat ++ ascii " " := by
  apply snprintf32_of_le
  have hlt : code.toNat < 10 ^ 3 := by cases code <;> decide
  have hcode := length_decimal_le hlt (by omega)
  have h1 : (ascii "HTTP/1.1 ").length = 9 := rfl
  have h2 : (ascii " ").length = 1 := rfl
  simp only [List.length_append]
  omega

/-- Below 10^13 bytes the line of the length fits in the 31 bytes that `snprintf` leaves for it. -/
theorem snprintf32_length {n : ℕ} (hn : n < 10 ^ 13) :
    snprintf32 (ascii "Content-Length: " ++ decimal n ++ ascii "\r\n") =
      ascii "Content-Length: " ++ decimal n ++ ascii "\r\n" := by
  apply snprintf32_of_le
  have hlen := length_decimal_le hn (by omega)
  have h1 : (ascii "Content-Length: ").length = 16 := rfl
  have h2 : (ascii "\r\n").length = 2 := rfl
  simp only [List.length_append]
  omega

theorem field_line (p : Bytes × Bytes) : (field p).line ++ CRLF = p.1 ++ ascii ": " ++ p.2 ++ ascii "\r\n" := by
  have hcolon : ascii ": " = COLON :: ascii " " := rfl
  have hcrlf : ascii "\r\n" = CRLF := rfl
  simp [HeaderField.line, field, hcolon, hcrlf]

theorem Persistent.appendToBuffer (h : r.Persistent) : r.appendToBuffer =
    r.statusLine ++ CRLF ++ (r.fields.flatMap (fun f => f.line ++ CRLF) ++ ([] ++ CRLF ++ r.body)) := by
  have hlength : (field (HttpRequest.contentLength, decimal r.body.length)).line ++ CRLF =
      ascii "Content-Length: " ++ decimal r.body.length ++ ascii "\r\n" := field_line _
  have hconnection : (field (ascii "Connection", ascii "Keep-Alive")).line ++ CRLF =
      ascii "Connection: Keep-Alive\r\n" := field_line _
  have hheaders : (r.headers.toList.map field).flatMap (fun f => f.line ++ CRLF) =
      r.headers.toList.flatMap fun p => p.1 ++ ascii ": " ++ p.2 ++ ascii "\r\n" := by
    rw [List.flatMap_map]
    congr 1
    funext p
    exact field_line p
  have hcrlf : ascii "\r\n" = CRLF := rfl
  rw [HttpResponse.appendToBuffer, snprintf32_status, snprintf32_length h.body, h.keepAlive, fields,
    List.flatMap_cons, List.flatMap_cons, hlength, hconnection, hheaders, statusLine]
  simp [hcrlf]

theorem Persistent.statusLine_noCrlf (h : r.Persistent) : NoCrlf r.statusLine := by
  apply NoCrlf.of_not_mem
  have h1 : CR ∉ ascii "HTTP/1.1 " := by decide
  have h2 : CR ∉ ascii " " := by decide
  have hcode : CR ∉ decimal r.statusCode.toNat := fun hc => absurd (isdigit_of_mem_decimal hc) (by decide)
  simp [statusLine, h1, h2, hcode, h.status.1]

theorem field_wellFormed {p : Bytes × Bytes} (hname : COLON ∉ p.1 ∧ CR ∉ p.1 ∧ LF ∉ p.1)
    (hvalue : CR ∉ p.2 ∧ LF ∉ p.2)
    (htrim : (∀ c ∈ p.2.head?, isspace c = false) ∧ ∀ c ∈ p.2.getLast?, isspace c = false) :
    (field p).WellFormed := by
  have hblank : IsBlank (ascii " ") := by
    intro c hc
    obtain rfl : c = 32 := List.mem_singleton.mp hc
    decide
  exact ⟨hname, hvalue, hblank, List.forall_mem_nil _, htrim⟩

theorem Persistent.fields_wellFormed (h : r.Persistent) : ∀ f ∈ r.fields, f.WellFormed := by
  have hlength : ∀ c ∈ decimal r.body.length, isspace c = false :=
    fun c hc => not_isspace_of_isdigit (isdigit_of_mem_decimal hc)
  intro f hf
  rcases List.mem_cons.mp hf with rfl | hf
  · have hname : COLON ∉ HttpRequest.contentLength ∧ CR ∉ HttpRequest.contentLength ∧
        LF ∉ HttpRequest.contentLength := by decide
    apply field_wellFormed hname
    · exact ⟨fun hc => absurd (hlength _ hc) (by decide), fun hc => absurd (hlength _ hc) (by decide)⟩
    · exact ⟨fun c hc => hlength c (List.mem_of_head? hc), fun c hc => hlength c (List.mem_of_getLast? hc)⟩
  · rcases List.mem_cons.mp hf with rfl | hf
    · refine field_wellFormed (by decide) (by decide) ⟨fun c hc => ?_, fun c hc => ?_⟩
      · obtain rfl : 75 = c := Option.some.inj hc
        decide
      · obtain rfl : 101 = c := Option.some.inj hc
        decide
    · obtain ⟨p, hp, rfl⟩ := List.mem_map.mp hf
      exact field_wellFormed (h.names p hp) (h.values p hp) (h.trimmed p hp)

theorem getElem_insertMany_toList (m headers : HeaderMap) (k : Bytes) :
    (m.insertMany headers.toList)[k]? = headers[k]?.or m[k]? := by
  cases hk : headers[k]? with
  | some v =>
    have hmem := Std.ExtTreeMap.mem_toList_iff_getElem?_eq_some.mpr hk
    exact Std.ExtTreeMap.getElem?_insertMany_list_of_mem Std.ReflCmp.compare_self
      Std.ExtTreeMap.distinct_keys_toList hmem
  | none =>
    apply Std.ExtTreeMap.getElem?_insertMany_list_of_contains_eq_false
    rw [Std.ExtTreeMap.map_fst_toList_eq_keys]
    simpa using hk

/-- The order in which the headers are read does not matter. -/
theorem Persistent.headers_eq (h : r.Persistent) :
    r.fields.foldl (fun m f => m.insert f.name f.value) ∅ = r.parsed.headers := by
  have hmap : (r.headers.toList.map field).map (fun f => (f.name, f.value)) = r.headers.toList := by
    rw [List.map_map]
    exact List.map_id _
  rw [fields, List.foldl_cons, List.foldl_cons, foldl_insert, hmap]
  apply Std.ExtTreeMap.ext_getElem?
  intro k
  rw [getElem_insertMany_toList]
  simp only [parsed, field, Std.ExtTreeMap.getElem?_insert]
  have hlength : compare HttpRequest.contentLength k = .eq → r.headers[k]? = none := by
    intro he
    rw [← Std.LawfulEqCmp.eq_of_compare he]
    simpa using h.distinct.1
  have hconnection : compare (ascii "Connection") k = .eq → r.headers[k]? = none := by
    intro he
    rw [← Std.LawfulEqCmp.eq_of_compare he]
    simpa using h.distinct.2
  split
  · next he => rw [hconnection he, Option.none_or]
  · split
    · next he => rw [hlength he, Option.none_or]
    · simp

end HttpResponse

section
variable [Muduo] [Boost] {r : HttpResponse}

/-- Behind its first line a persistent response is read to its end and no further. -/
theorem parse_response (h : r.Persistent) (rest : Bytes) : ∃ b, afterStatusLine r.appendToBuffer = some b ∧
    parseRequest (⟨.kExpectHeaders, {}⟩, b ++ rest) = .returned true ⟨.kGotAll, r.parsed⟩ rest := by
  refine ⟨r.fields.flatMap (fun f => f.line ++ CRLF) ++ ([] ++ CRLF ++ r.body), ?_, ?_⟩
  · have hbuf (fields : Bytes) : r.statusLine ++ CRLF ++ fields = r.statusLine ++ CR :: LF :: fields := by
      simp [CRLF]
    rw [h.appendToBuffer, hbuf, afterStatusLine, findCRLF_line h.statusLine_noCrlf, Option.map_some]
    simp [List.drop_append]
  · rw [List.append_assoc, List.append_assoc, parse_headers h.fields_wellFormed, h.headers_eq]
    have hvalue : ({ headers := r.parsed.headers } : HttpRequest).getHeader HttpRequest.contentLength =
        decimal r.body.length := by
      have hne : ¬compare (ascii "Connection") HttpRequest.contentLength = .eq := by decide
      simp only [HttpRequest.getHeader, HttpResponse.parsed, Std.ExtTreeMap.getElem?_insert, if_neg hne,
        Std.ReflCmp.compare_self, if_true, Option.getD_some]
    have hlt := h.body
    exact parse_end rfl (by omega) (Or.inr hvalue) rest

end

/-- A body that holds the end of a header, and a response behind it. -/
theorem parse_response_binary_body :
    let r := ((HttpResponse.mk ∅ (ascii "a\r\n\r\nb") [] .kUnKnown false).setStatus .k200Ok
      (ascii "OK")).setContentType (ascii "text/plain")
    ∃ b, @afterStatusLine Muduo.reference r.appendToBuffer = some b ∧
      @parseRequest Muduo.reference Boost.reference (⟨.kExpectHeaders, {}⟩, b ++ ascii "HTTP/1.1 200 OK\r\n") =
        .returned true ⟨.kGotAll, r.parsed⟩ (ascii "HTTP/1.1 200 OK\r\n") := by
  intro r
  refine @parse_response Muduo.reference Boost.reference r ?_ _
  exact ⟨rfl, by decide, by decide, by decide, by decide, by decide +kernel, by decide⟩

end LinuxSocket.Http
