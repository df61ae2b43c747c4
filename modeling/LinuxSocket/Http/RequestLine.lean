import LinuxSocket.Http.HttpContext

/-! # The grammar of request lines

The verdict of `parse_first_line` depends on the line alone, and a line it accepts is split at its first
space, its first question mark and its second space.
-/
namespace LinuxSocket.Http

structure RequestLine (line : Bytes) (m : Method) (target : Bytes) (d : UInt8) : Prop where
  line_eq : line = m.str ++ SP :: (target ++ SP :: (ascii "HTTP/1." ++ [d]))
  method : m ≠ .kInvalid
  target : SP ∉ target
  digit : d = 48 ∨ d = 49

def digitVersion (d : UInt8) : Version := if d = 49 then .kHttp11 else .kHttp10

/-- The fields of a request that `parse_first_line` fills. -/
structure SplitsLine (r : HttpRequest) (m : Method) (target : Bytes) (d : UInt8) : Prop where
  method : r.method = m
  version : r.version = digitVersion d
  target : r.path ++ r.query = target
  path : QUESTION ∉ r.path
  query : r.query = [] ∨ r.query.head? = some QUESTION

section Version
variable {text : Bytes} {d : UInt8}

theorem versionOf_digit (hd : d = 48 ∨ d = 49) : versionOf (ascii "HTTP/1." ++ [d]) = some (digitVersion d) := by
  rcases hd with rfl | rfl <;> decide

theorem versionOf_eq_some {v : Version} (h : versionOf text = some v) :
    ∃ d, (d = 48 ∨ d = 49) ∧ text = ascii "HTTP/1." ++ [d] := by
  unfold versionOf at h
  split at h
  · cases h
  · next hform =>
    obtain ⟨hlen, hpre⟩ := not_not.mp hform
    have hlast (d : UInt8) (hd : text.getLast? = some d) : text = ascii "HTTP/1." ++ [d] := by
      obtain ⟨pre, rfl⟩ := List.getLast?_eq_some_iff.mp hd
      have hpre' : pre.length = 7 := by simpa using hlen
      have htake : (pre ++ [d]).take 7 = pre := by
        rw [← hpre', List.take_left]
      exact congrArg (· ++ [d]) (htake.symm.trans hpre)
    split at h
    · next hd => exact ⟨49, Or.inr rfl, hlast 49 hd⟩
    · split at h
      · next hd => exact ⟨48, Or.inl rfl, hlast 48 hd⟩
      · cases h

end Version

section Target
variable {r : HttpRequest}

@[simp] theorem method_setTarget (r : HttpRequest) (target : Bytes) : (r.setTarget target).method = r.method := by
  unfold HttpRequest.setTarget
  dsimp only
  split <;> rfl

/-- A target is cut in front of its first question mark. -/
theorem setTarget_split (target : Bytes) (hq : r.query = []) : (r.setTarget target).path ++ (r.setTarget target).query = target ∧
    QUESTION ∉ (r.setTarget target).path ∧
    ((r.setTarget target).query = [] ∨ (r.setTarget target).query.head? = some QUESTION) := by
  by_cases h : QUESTION ∈ target
  · obtain ⟨path, tail, rfl, hpath⟩ := List.eq_append_cons_of_mem h
    obtain ⟨hi, htake, -, hne⟩ := idxOf_separator hpath tail
    simp only [HttpRequest.setTarget, hi, if_pos hne, htake, List.drop_left]
    exact ⟨trivial, hpath, Or.inr rfl⟩
  · rw [HttpRequest.setTarget, if_neg (not_not.mpr (List.idxOf_eq_length h)), hq, List.append_nil]
    exact ⟨rfl, h, Or.inl rfl⟩

end Target

section Line
variable {line target : Bytes} {m : Method} {d : UInt8} {r : HttpRequest}

theorem RequestLine.parse (h : RequestLine line m target d) (r : HttpRequest) : parseFirstLine line r =
    (true, { { r with method := m }.setTarget target with version := digitVersion d }) := by
  rw [h.line_eq, parseFirstLine_parts (sp_not_mem_str m) h.target, methodOf_str h.method, if_neg h.method,
    HttpRequest.setVersionText, versionOf_digit h.digit]

/-- The lines that are accepted do not depend on the request. -/
theorem parseFirstLine_accepts (line : Bytes) (r : HttpRequest) :
    (parseFirstLine line r).1 = true ↔ ∃ m target d, RequestLine line m target d := by
  constructor
  · intro h
    rcases line_forms line with hs | ⟨m, start, rfl, hm, hs | ⟨target, version, rfl, ht⟩⟩
    · rw [parseFirstLine_of_not_mem hs] at h
      cases h
    · rw [parseFirstLine_one_part hm hs] at h
      cases h
    · rw [parseFirstLine_parts hm ht] at h
      split at h
      · cases h
      · next hk =>
        unfold HttpRequest.setVersionText at h
        split at h
        · cases h
        · next v hv =>
          obtain ⟨d, hd, rfl⟩ := versionOf_eq_some hv
          exact ⟨methodOf m, target, d, by rw [str_methodOf hk], hk, ht, hd⟩
  · rintro ⟨m, target, d, h⟩
    rw [h.parse]

theorem parseFirstLine_rejects {r' : HttpRequest} (h : parseFirstLine line r = (false, r')) (r₁ : HttpRequest) :
    (parseFirstLine line r₁).1 = false := by
  rw [Bool.eq_false_iff]
  intro hok
  have := (parseFirstLine_accepts line r).mpr ((parseFirstLine_accepts line r₁).mp hok)
  rw [h] at this
  cases this

/-- `parse_first_line` accepts the grammar and splits a line without loss. -/
theorem parseFirstLine_iff (line : Bytes) (context : HttpContext) (hq : context.request.query = []) :
    ((parseFirstLine line context.request).1 = true ↔ ∃ m target d, RequestLine line m target d) ∧
      ∀ m target d, RequestLine line m target d →
        SplitsLine (parseFirstLine line context.request).2 m target d := by
  refine ⟨parseFirstLine_accepts line context.request, fun m target d h => ?_⟩
  obtain ⟨htarget, hpath, hquery⟩ := setTarget_split (r := { context.request with method := m }) target hq
  rw [h.parse]
  exact ⟨method_setTarget _ _, rfl, htarget, hpath, hquery⟩

/-- A line with an empty path. -/
theorem parseFirstLine_iff_empty_path : SplitsLine (parseFirstLine (ascii "GET ?a HTTP/1.0") {}).2 .kGet
    (ascii "?a") 48 :=
  (parseFirstLine_iff (ascii "GET ?a HTTP/1.0") {} rfl).2 .kGet (ascii "?a") 48
    ⟨rfl, by decide, by decide, Or.inl rfl⟩

end Line

end LinuxSocket.Http
