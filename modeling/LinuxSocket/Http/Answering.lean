import LinuxSocket.Http.RequestCount
import LinuxSocket.Lib.Split

/-! # Which requests the read handlers answer

A handler calls the parser once for a read, so a read can add one response at most. It keeps up with
the requests that have arrived as long as no read completes more than one of them.
-/
namespace LinuxSocket.Http
variable [Muduo] [Boost]

section Handlers
variable {respond : Respond} {conn : Connection} {context : HttpContext} {b : Bytes}

theorem onMessage_aborted (hp : parseRequest (conn.context, conn.buf) = .aborted) :
    (onMessage respond conn).status = .aborted := by
  unfold onMessage
  split
  · assumption
  · simp only [hp]

theorem onMessage_answered (h : conn.status = .connected)
    (hp : parseRequest (conn.context, conn.buf) = .returned true context b) (hg : context.gotAll = true) :
    onMessage respond conn =
      { context := context.reset, buf := b,
        sent := conn.sent ++ [(respond conn.sent.length context.request).appendToBuffer],
        status := if (respond conn.sent.length context.request).closeConnection then .disconnecting
          else .connected } := by
  simp only [onMessage, h, hp, hg, Connection.send, Connection.shutdown, reduceCtorEq, if_false, if_true,
    Bool.not_true, Bool.false_eq_true]
  split <;> simp_all

theorem onMessage_waiting (h : conn.status = .connected)
    (hp : parseRequest (conn.context, conn.buf) = .returned true context b) (hg : context.gotAll = false) :
    onMessage respond conn = { conn with context, buf := b } := by
  simp only [onMessage, h, hp, hg, reduceCtorEq, if_false, Bool.not_true, Bool.false_eq_true]

theorem onMessage_rejected (h : conn.status = .connected)
    (hp : parseRequest (conn.context, conn.buf) = .returned false context b) :
    onMessage respond conn =
      { context, buf := b, sent := conn.sent ++ [badRequest], status := .disconnecting } := by
  have hg := (parse_rejected hp []).1
  simp only [onMessage, h, hp, hg, Connection.send, Connection.shutdown, reduceCtorEq, if_false, if_true,
    Bool.not_false, Bool.false_eq_true]

theorem doWithBuffer_eq_onMessage (h : conn.status = .connected) :
    (doWithBuffer respond conn).2 = onMessage respond conn := by
  cases hp : parseRequest (conn.context, conn.buf) with
  | aborted => simp only [doWithBuffer, onMessage, h, hp, reduceCtorEq, if_false]
  | returned ok context b =>
    cases ok with
    | true =>
      simp only [doWithBuffer, onMessage, h, hp, reduceCtorEq, if_false, Bool.not_true, Bool.false_eq_true]
      cases context.gotAll with
      | true => rfl
      | false => rfl
    | false =>
      have hg := (parse_rejected hp []).1
      simp only [doWithBuffer, onMessage, h, hp, hg, Connection.send, Connection.shutdown, reduceCtorEq,
        if_false, if_true, Bool.not_false, Bool.false_eq_true]

theorem onMessage_status (h : conn.status ≠ .connected) : (onMessage respond conn).status ≠ .connected := by
  unfold onMessage
  split
  · exact h
  · cases parseRequest (conn.context, conn.buf) with
    | aborted => simp
    | returned ok context b =>
      simp only [Connection.send, Connection.shutdown, h, if_false, ite_self]
      split <;> exact h

/-- A connection against the count of its stream: while it is open the count goes on from what it has
sent, and once it is shut down the count has stopped. -/
inductive Follows (respond : Respond) (counted : Counted) (conn : Connection) : Prop
  | reading : conn.status = .connected →
      countRequests respond ((conn.context, conn.sent.length), conn.buf) = counted →
      Follows respond counted conn
  | ended {k} : conn.status ≠ .connected → counted = .stopped k → Follows respond counted conn

inductive Handled (respond : Respond) (n : ℕ) (counted : Counted) (conn : Connection) : Prop
  | ended {k} : conn.status ≠ .connected → counted = .stopped k → k ≤ n + 1 → Handled respond n counted conn
  | waiting : conn.status = .connected → conn.sent.length = n → counted = .waiting conn.context n conn.buf →
      countRequests respond ((conn.context, n), conn.buf) = counted → Handled respond n counted conn
  | answered : conn.status = .connected → conn.sent.length = n + 1 →
      countRequests respond ((conn.context, n + 1), conn.buf) = counted → Handled respond n counted conn

theorem onMessage_handled (h : conn.status = .connected) :
    Handled respond conn.sent.length (countRequests respond ((conn.context, conn.sent.length), conn.buf))
      (onMessage respond conn) := by
  cases countCase respond conn.context conn.sent.length conn.buf with
  | aborted hp =>
    refine .ended ?_ (count_aborted hp _) (Nat.le_succ _)
    rw [onMessage_aborted hp]
    exact nofun
  | closed hp hg hc =>
    refine .ended ?_ (count_closed hp hg hc) (Nat.le_refl _)
    rw [onMessage_answered h hp hg, hc]
    exact nofun
  | answered hp hg hc =>
    rw [count_answered hp hg hc, onMessage_answered h hp hg, hc]
    exact .answered rfl List.length_append rfl
  | waiting hp hg =>
    rw [count_waiting hp hg, onMessage_waiting h hp hg]
    exact .waiting h rfl rfl (count_waiting_again hp hg _)
  | rejected hp hg =>
    refine .ended ?_ (count_rejected hp hg _) (Nat.le_succ _)
    rw [onMessage_rejected h hp]
    exact nofun

theorem Handled.follows {n : ℕ} {counted : Counted} (h : Handled respond n counted conn) :
    Follows respond counted conn := by
  cases h with
  | ended hs hc _ => exact .ended hs hc
  | waiting hs hn _ hc => exact .reading hs (hn ▸ hc)
  | answered hs hn hc => exact .reading hs (hn ▸ hc)

/-- An open connection has answered everything: one more call of the parser would not complete a
request, and there are as many responses as requests. -/
def Answered (requests : ℕ) (conn : Connection) : Prop :=
  conn.status = .connected →
    (parseRequest (conn.context, conn.buf)).gotAll = false ∧ conn.sent.length = requests

theorem Handled.answered_iff {n : ℕ} {counted : Counted} (h : Handled respond n counted conn) :
    Answered counted.count conn ↔ counted.count ≤ n + 1 := by
  cases h with
  | ended hs hc hk =>
    subst hc
    exact iff_of_true (fun h => absurd h hs) hk
  | waiting hs hn hw hc =>
    have hcount : counted.count = n := congrArg Counted.count hw
    have hg := (count_eq_iff respond conn.context n conn.buf).mp (by rw [hc, hcount])
    exact iff_of_true (fun _ => ⟨hg, hn.trans hcount.symm⟩) (by omega)
  | answered hs hn hc =>
    have hle := le_count respond ((conn.context, n + 1), conn.buf)
    have hiff := count_eq_iff respond conn.context (n + 1) conn.buf
    rw [hc] at hle hiff
    constructor
    · intro h
      rw [← (h hs).2, hn]
    · intro h hs
      have heq := Nat.le_antisymm h hle
      exact ⟨hiff.mp heq, hn.trans heq.symm⟩

end Handlers

section Runs
variable {handler : ReadHandler} {conn : Connection} {stream : Bytes}

theorem onRead_handled (h : conn.status = .connected) (chunk : Bytes) :
    Handled handler.respond conn.sent.length
      (countRequests handler.respond ((conn.context, conn.sent.length), conn.buf ++ chunk))
      (handler.onRead conn chunk) := by
  have hr : (conn.receive chunk).status = .connected := h
  have hon : handler.onRead conn chunk = onMessage handler.respond (conn.receive chunk) := by
    cases handler with
    | procmon env => rfl
    | httpNonblockSimple => rfl
    | httpBlockingCgi env =>
      simp only [ReadHandler.onRead, if_pos hr]
      exact doWithBuffer_eq_onMessage hr
  rw [hon]
  exact onMessage_handled hr

theorem onRead_status (h : conn.status ≠ .connected) (chunk : Bytes) :
    (handler.onRead conn chunk).status ≠ .connected := by
  have hr : (conn.receive chunk).status ≠ .connected := h
  cases handler with
  | procmon env => exact onMessage_status hr
  | httpNonblockSimple => exact onMessage_status hr
  | httpBlockingCgi env =>
    simp only [ReadHandler.onRead, if_neg hr]
    exact hr

def counted (handler : ReadHandler) (stream : Bytes) : Counted :=
  countRequests handler.respond (({}, 0), stream)

theorem counted_append (stream chunk : Bytes) :
    counted handler (stream ++ chunk) = (counted handler stream).resume handler.respond chunk :=
  (count_append handler.respond (({}, 0), stream) chunk).symm

/-- One read keeps the connection in step with the count, whatever has been answered. -/
theorem follows_onRead (h : Follows handler.respond (counted handler stream) conn) (chunk : Bytes) :
    Follows handler.respond (counted handler (stream ++ chunk)) (handler.onRead conn chunk) := by
  rw [counted_append]
  cases h with
  | reading hs hc =>
    rw [← hc, count_append]
    exact (onRead_handled hs chunk).follows
  | ended hs hc =>
    rw [hc]
    exact .ended (onRead_status hs chunk) rfl

/-- Everything is answered again exactly when a read completes one request at most. -/
theorem answered_onRead_iff (h : Follows handler.respond (counted handler stream) conn)
    (ha : Answered (counted handler stream).count conn) (chunk : Bytes) :
    Answered (counted handler (stream ++ chunk)).count (handler.onRead conn chunk) ↔
      (counted handler (stream ++ chunk)).count ≤ (counted handler stream).count + 1 := by
  rw [counted_append]
  cases h with
  | reading hs hc =>
    rw [← (ha hs).2, ← hc, count_append]
    exact (onRead_handled hs chunk).answered_iff
  | ended hs hc =>
    rw [hc]
    exact iff_of_true (fun h => absurd h (onRead_status hs chunk)) (Nat.le_succ _)

theorem answered_run_iff (reads : List Bytes) (h : Follows handler.respond (counted handler stream) conn)
    (ha : Answered (counted handler stream).count conn) :
    AtEvery (fun before chunk => Answered (counted handler (stream ++ (before ++ [chunk]).flatten)).count
        ((before ++ [chunk]).foldl handler.onRead conn)) reads ↔
      AtEvery (fun before chunk => (counted handler (stream ++ (before ++ [chunk]).flatten)).count ≤
        (counted handler (stream ++ before.flatten)).count + 1) reads := by
  induction reads generalizing conn stream with
  | nil => exact iff_of_true atEvery_nil atEvery_nil
  | cons chunk reads ih =>
    simp only [atEvery_cons, List.cons_append, List.nil_append, List.flatten_cons, List.flatten_nil,
      List.append_nil, List.foldl_cons, List.foldl_nil, ← List.append_assoc stream]
    have hiff := answered_onRead_iff h ha chunk
    rw [hiff]
    exact and_congr_right fun hle => ih (follows_onRead h chunk) (hiff.mpr hle)

/-- After every read everything is answered exactly when no read completes two requests. -/
theorem serve_answered_iff (handler : ReadHandler) (reads : List Bytes) :
    AtEvery (fun before chunk => Answered (requestCount handler.respond (before ++ [chunk]).flatten)
        (handler.serve (before ++ [chunk]))) reads ↔
      AtEvery (fun before chunk => requestCount handler.respond (before ++ [chunk]).flatten ≤
        requestCount handler.respond before.flatten + 1) reads := by
  have hf : Muduo.findCRLF [] 0 = none := findCRLF_zero_eq_none.mpr NoCrlf.nil
  have hempty : parseRequest ({}, []) = .returned true {} [] := by
    apply parseRequest_exit
    simp only [parseRequestStep, hf]
  have hcount : counted handler [] = .waiting {} 0 [] := count_waiting hempty rfl 0
  have hfollows : Follows handler.respond (counted handler []) {} := .reading rfl rfl
  have hans : Answered (counted handler []).count {} := by
    rw [hcount]
    exact fun _ => ⟨congrArg ParseOutcome.gotAll hempty, rfl⟩
  exact answered_run_iff reads hfollows hans

end Runs

omit [Muduo] [Boost] in
/-- Two requests that arrive in one read, with a single response. -/
theorem serve_unanswered : ¬∀ (_ : Muduo) (_ : Boost) (handler : ReadHandler) (reads : List Bytes),
    AtEvery (fun before chunk => Answered (requestCount handler.respond (before ++ [chunk]).flatten)
      (handler.serve (before ++ [chunk]))) reads := by
  intro h
  let M := Muduo.reference
  let B := Boost.reference
  have hans := h M B .httpNonblockSimple [ascii "GET / HTTP/1.1\r\n\r\nGET / HTTP/1.1\r\n\r\n"] [] _ [] rfl
  have hopen : (ReadHandler.httpNonblockSimple.serve
      [ascii "GET / HTTP/1.1\r\n\r\nGET / HTTP/1.1\r\n\r\n"]).status = .connected := by decide
  have hleft := (hans hopen).1
  revert hleft
  decide

end LinuxSocket.Http
