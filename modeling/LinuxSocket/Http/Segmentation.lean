import LinuxSocket.Http.HttpContext

/-! # The HTTP parser does not depend on how the stream is cut

Every iteration reads one complete line, so bytes behind it do not matter; every way of returning
leaves a context from which the next call goes on.
-/
namespace LinuxSocket.Http

theorem setTarget_setVersionText_again (r : HttpRequest) (m : Method) (target version : Bytes) :
    ({ (({ r with method := m }.setTarget target).setVersionText version).2 with method := m }.setTarget
      target).setVersionText version = ({ r with method := m }.setTarget target).setVersionText version := by
  unfold HttpRequest.setTarget HttpRequest.setVersionText
  dsimp only
  by_cases hq : target.idxOf QUESTION ≠ target.length
  · simp only [if_pos hq]
    cases versionOf version <;> rfl
  · simp only [if_neg hq]
    cases versionOf version <;> rfl

/-- Reading a request line again into the request it has filled changes nothing. -/
theorem parseFirstLine_again (line : Bytes) (r : HttpRequest) :
    parseFirstLine line (parseFirstLine line r).2 = parseFirstLine line r := by
  rcases line_forms line with h | ⟨m, start, rfl, hm, hs | ⟨target, version, rfl, ht⟩⟩
  · simp only [parseFirstLine_of_not_mem h]
  · simp only [parseFirstLine_one_part hm hs]
  · simp only [parseFirstLine_parts hm ht]
    split
    · rfl
    · exact setTarget_setVersionText_again r _ target version

theorem parseBody_append [Boost] {context : HttpContext} {k : ℕ}
    (h : context.request.getExpectBodyLen = context.request.body.length + k) (b c : Bytes) :
    (if k ≤ b.length then
      ParseOutcome.returned true ⟨.kGotAll, context.request.appendBody (b.take k)⟩ (b.drop k ++ c)
    else parseBody { context with request := context.request.appendBody (b.take k) } (b.drop k ++ c)) =
      parseBody context (b ++ c) := by
  split
  · next hle =>
    rw [parseBody_eq h, if_pos (by rw [List.length_append]; omega), List.take_append_of_le_length hle,
      List.drop_append_of_le_length hle]
  · next hgt =>
    have hlt := Nat.lt_of_not_le hgt
    have htake : b.take k = b := List.take_of_length_le (Nat.le_of_lt hlt)
    have hdrop : b.drop k = [] := List.drop_eq_nil_of_le (Nat.le_of_lt hlt)
    have hrest : (context.request.appendBody b).getExpectBodyLen =
        (context.request.appendBody b).body.length + ((k - b.length : ℕ) : ℤ) := by
      simp only [HttpRequest.getExpectBodyLen_appendBody, HttpRequest.body_appendBody, h, List.length_append]
      omega
    rw [htake, hdrop, List.nil_append, parseBody_eq h, parseBody_eq hrest, List.take_append, List.drop_append,
      htake, hdrop, List.nil_append]
    have hiff : k - b.length ≤ c.length ↔ k ≤ (b ++ c).length := by
      rw [List.length_append]
      omega
    simp only [hiff, HttpRequest.appendBody, List.append_assoc]

variable [Muduo] [Boost]

def appendAndParse : ParseOutcome → Bytes → ParseOutcome
  | .returned _ context buf, chunk => parseRequest (context, buf ++ chunk)
  | .aborted, _ => .aborted

theorem parse_step_append {context context' : HttpContext} {b b' : Bytes} (c : Bytes)
    (h : parseRequestStep (context, b) = .inl (context', b')) :
    parseRequestStep (context, b ++ c) = .inl (context', b' ++ c) := by
  obtain ⟨crlf, hf, rfl, hl⟩ := parseRequestStep_next h
  have hlt := findCRLF_lt hf
  rw [← findCRLF_take_append hf c] at hl
  rw [parseRequestStep_line (findCRLF_append hf c) hl, List.drop_append_of_le_length (by omega)]

theorem parse_exit_append {context : HttpContext} {b : Bytes} {r : ParseOutcome} (c : Bytes)
    (h : parseRequestStep (context, b) = .inr r) : appendAndParse r c = parseRequest (context, b ++ c) := by
  cases parseRequestStep_exit h with
  | incomplete _ _ => rfl
  | @rejected crlf _ hs hf hp =>
    have hf' := findCRLF_append hf c
    rw [← findCRLF_take_append hf c] at hp
    have hagain := parseFirstLine_again ((b ++ c).take crlf) context.request
    rw [hp] at hagain
    rw [appendAndParse, parseRequest_exit (parseRequestStep_reject hs hf' hp)]
    exact parseRequest_exit (parseRequestStep_reject rfl hf' hagain)
  | noBody hs hf hc hl =>
    have hlt := findCRLF_lt hf
    rw [← findCRLF_take_append hf c] at hc
    rw [appendAndParse, parseRequest_gotAll rfl, parseRequest_exit (parseRequestStep_noBody hs
      (findCRLF_append hf c) hc hl), List.drop_append_of_le_length (by omega)]
  | body hs hr =>
    rw [← hr, parseRequest_body hs]
    rcases lt_or_ge context.request.getExpectBodyLen context.request.body.length with hneg | hpos
    · rw [parseBody_aborted hneg, parseBody_aborted hneg, appendAndParse]
    · obtain ⟨k, hk⟩ := Int.le.dest hpos
      rw [parseBody_eq hk.symm, appendAndParse, ← parseBody_append hk.symm b c]
      split
      · exact parseRequest_gotAll rfl
      · exact parseRequest_body hs
  | gotAll _ => rw [appendAndParse]

theorem parse_resumable : Loop.Resumable parseRequestBody appendAndParse fun _ => True where
  keep _ _ := trivial
  step_append c _ h := parse_step_append c h
  exit_append c _ h := parse_exit_append c h

/-- Parsing after every chunk of a stream ends as one parse of the whole stream does. -/
theorem parse_chunks (context : HttpContext) (chunk : Bytes) (chunks : List Bytes) :
    chunks.foldl appendAndParse (parseRequest (context, chunk)) =
      parseRequest (context, (chunk :: chunks).flatten) := by
  rw [List.flatten_cons]
  exact parse_resumable.foldl_resume trivial chunk chunks

end LinuxSocket.Http
