import LinuxSocket.Http.Answering

/-! # The thread of a connection

`http_blocking_cgi` serves each connection in a thread. Its calls of `read` and `write` may be interrupted, move a part
of what they were asked for, or fail, and it goes on reading behind a response that has shut the connection down.
-/
namespace LinuxSocket.Http.HttpBlockingCgi
open Transfer

inductive ReadResult
  | data (chunk : Bytes)
  | endOfFile
  | error (errno : ℤ)
  deriving DecidableEq

inductive Return
  | read (result : ReadResult)
  | write (result : CallResult)
  deriving DecidableEq

/-- What `do_with_buffer` writes: that the request is bad, or a response, which may close the connection. -/
inductive Answer
  | badRequest
  | response (closeConnection : Bool)
  deriving DecidableEq

inductive Point
  | readFd
  | writeN (answer : Answer) (buf : Bytes) (written : ℤ)
  | shutdownClose (answer : Answer)
  | returned
  /-- The process has died in a call of the parser. -/
  | aborted
  /-- The process has died in a call of `write`. -/
  | faulted
  deriving DecidableEq

structure Thread where
  context : HttpContext := {}
  buf : Bytes := []
  /-- the number of calls of `write_n` -/
  answers : ℕ := 0
  /-- the bytes that the socket has taken -/
  passed : Bytes := []
  /-- the socket is shut down for writing -/
  shut : Bool := false
  point : Point := .readFd
  deriving DecidableEq

namespace Thread

/-- `shutdown_close_fd` up to its loop. -/
def shutdownCloseFd (t : Thread) (answer : Answer) : Thread := { t with shut := true, point := .shutdownClose answer }

/-- The end of `do_with_buffer` behind a response. -/
def nextRequest (t : Thread) : Thread := { t with context := t.context.reset, point := .readFd }

/-- `do_with_buffer` behind `write_n`. -/
def written (t : Thread) : Answer → Thread
  | .badRequest => t.shutdownCloseFd .badRequest
  | .response true => t.shutdownCloseFd (.response true)
  | .response false => t.nextRequest

/-- `do_with_buffer` behind `shutdown_close_fd`. -/
def drained (t : Thread) : Answer → Thread
  | .badRequest => { t with point := .returned }
  | .response _ => t.nextRequest

/-- The thread with the loop of `write_n` in this state. -/
def inWriteN (t : Thread) (answer : Answer) (buf : Bytes) : State Bytes → Thread
  | .calling written passed => { t with passed, point := .writeN answer buf written }
  | .returned _ passed => { t with passed }.written answer
  | .faulted => { t with point := .faulted }

/-- The call of `write_n`. The size is converted to `int`. -/
def writeN (t : Thread) (answer : Answer) (buf : Bytes) : Thread :=
  { t with answers := t.answers + 1 }.inWriteN answer buf (head (toInt32 buf.length) 0 t.passed)

/-- Behind a shutdown `write` can only fail. -/
def refuses (t : Thread) : CallResult → Bool
  | .count _ => t.shut
  | .error _ => false

variable [Muduo] [Boost]

/-- `do_with_buffer` up to its first call of the system, with what `readFd` has read. -/
def doWithBuffer (respond : Respond) (t : Thread) (chunk : Bytes) : Thread :=
  match parseRequest (t.context, t.buf ++ chunk) with
  | .aborted => { t with point := .aborted }
  | .returned ok context buf =>
    let t := { t with context, buf }
    if !ok then t.writeN .badRequest Http.badRequest
    else if t.context.gotAll then
      let response := respond t.answers t.context.request
      t.writeN (.response response.closeConnection) response.appendToBuffer
    else t

/-- The thread up to its next call; `none` when its call cannot return this. -/
def step (respond : Respond) (t : Thread) : Return → Option Thread
  | .read result =>
    match t.point, result with
    | .readFd, .data chunk => if chunk ≠ [] then some (t.doWithBuffer respond chunk) else none
    | .readFd, .endOfFile => some { t with point := .returned }
    | .readFd, .error errno => some (if errno ≠ eintr then { t with point := .returned } else t)
    | .shutdownClose _, .data chunk => if chunk ≠ [] then some t else none
    | .shutdownClose answer, .endOfFile => some (t.drained answer)
    | .shutdownClose answer, .error _ => some (t.drained answer)
    | _, _ => none
  | .write result =>
    match t.point with
    | .writeN answer buf written =>
      if t.refuses result then none
      else ((writer buf).step (toInt32 buf.length) (.calling written t.passed) result).map (t.inWriteN answer buf)
    | _ => none

end Thread

def Answer.status : Answer → ConnectionStatus
  | .badRequest => .disconnecting
  | .response closeConnection => if closeConnection then .disconnecting else .connected

/-- The status of the connection, from the moment on at which `write_n` is called with its last answer. -/
def Thread.status (t : Thread) : ConnectionStatus :=
  if t.shut then .disconnecting
  else
    match t.point with
    | .writeN answer _ _ => answer.status
    | .aborted => .aborted
    | _ => .connected

def Thread.writing (t : Thread) : Bool := !t.shut && t.point matches .writeN ..

section Runs

def Thread.fed (t : Thread) : Return → List Bytes
  | .read (.data chunk) => if t.point = .readFd then [chunk] else []
  | _ => []

/-- `write_n` gives up, although the socket is not shut down. -/
def Thread.Cuts (t : Thread) : Return → Prop
  | .read _ => False
  | .write result => t.shut = false ∧ result.Stops

variable [Muduo] [Boost]

/-- The thread goes on from `t`. `readFd` gets `chunks`, and `whole` says that no `write_n` gives up. -/
inductive Run (respond : Respond) (t : Thread) : (chunks : List Bytes) → (whole : Prop) → Thread → Prop
  | start : Run respond t [] True t
  | step {chunks whole r u v} : Run respond t chunks whole u → u.step respond r = some v →
      Run respond t (chunks ++ u.fed r) (whole ∧ ¬u.Cuts r) v

end Runs

/-- The bytes are parts of the texts, from the start of each, or the texts when `whole` holds and their sizes are
values of `int`. -/
def Pieces (whole : Prop) (texts : List Bytes) (passed : Bytes) : Prop :=
  ∃ pieces : List Bytes, passed = pieces.flatten ∧ List.Forall₂ (· <+: ·) pieces texts ∧
    (whole → (∀ text ∈ texts, text.length < 2 ^ 31) → pieces = texts)

section Pieces
variable {whole whole' : Prop} {texts : List Bytes} {text piece passed : Bytes}

theorem Pieces.nil : Pieces whole [] [] := ⟨[], rfl, .nil, fun _ _ => rfl⟩

theorem Pieces.mono (h : Pieces whole texts passed) (hw : whole' → whole) : Pieces whole' texts passed := by
  obtain ⟨pieces, hpassed, hall, heq⟩ := h
  exact ⟨pieces, hpassed, hall, fun h => heq (hw h)⟩

theorem Pieces.concat (h : Pieces whole texts passed) (hp : piece <+: text)
    (hw : whole → text.length < 2 ^ 31 → piece = text) : Pieces whole (texts ++ [text]) (passed ++ piece) := by
  obtain ⟨pieces, rfl, hall, heq⟩ := h
  refine ⟨pieces ++ [piece], by simp, List.rel_append hall (.cons hp .nil), fun h hlen => ?_⟩
  have htexts := heq h fun t ht => hlen t (List.mem_append_left _ ht)
  have htext := hw h (hlen text (List.mem_append_right _ (List.mem_singleton_self _)))
  rw [htexts, htext]

theorem Pieces.parts (h : Pieces whole texts passed) :
    ∃ pieces : List Bytes, passed = pieces.flatten ∧ List.Forall₂ (· <+: ·) pieces texts := by
  obtain ⟨pieces, hpassed, hall, -⟩ := h
  exact ⟨pieces, hpassed, hall⟩

theorem Pieces.eq_flatten (h : Pieces whole texts passed) (hw : whole)
    (hlen : ∀ text ∈ texts, text.length < 2 ^ 31) : passed = texts.flatten := by
  obtain ⟨pieces, hpassed, -, heq⟩ := h
  rw [hpassed, heq hw hlen]

end Pieces

section Thread
variable {whole whole' : Prop} {conn : Connection} {t u : Thread} {answer : Answer} {text passed : Bytes}
  {texts : List Bytes} {results : List CallResult} {x : State Bytes} {r : Return} {respond : Respond}

/-- The last answer of the connection is the one that `write_n` is called with. -/
structure Answering (conn : Connection) (t : Thread) (answer : Answer) (texts : List Bytes) (text : Bytes) : Prop where
  shut : t.shut = false
  sent : conn.sent = texts ++ [text]
  status : conn.status = answer.status
  context : answer = .response false → t.context.reset = conn.context
  buf : t.buf = conn.buf
  answers : t.answers = conn.sent.length

inductive Serves (whole : Prop) (conn : Connection) (t : Thread) : Prop
  | reading : t.point = .readFd → t.shut = false → conn.status = .connected → t.context = conn.context →
      t.buf = conn.buf → t.answers = conn.sent.length → Pieces whole conn.sent t.passed → Serves whole conn t
  | writing {answer : Answer} {texts : List Bytes} {text passed : Bytes} {i : ℕ} : t.point = .writeN answer text i →
      Answering conn t answer texts text → Pieces whole texts passed → i < (toInt32 text.length).toNat →
      Wrote passed text i t.passed → Serves whole conn t
  | shut : t.shut = true → conn.status = .disconnecting → t.point ≠ .faulted → Pieces whole conn.sent t.passed →
      Serves whole conn t
  | returned : t.point = .returned → t.shut = false → conn.status = .connected → Pieces whole conn.sent t.passed →
      Serves whole conn t
  | aborted : t.point = .aborted → t.shut = false → conn.status = .aborted → Pieces whole conn.sent t.passed →
      Serves whole conn t

theorem Serves.mono (h : Serves whole conn t) (hw : whole' → whole) : Serves whole' conn t := by
  cases h with
  | reading hpoint hshut hstatus hcontext hbuf hanswers hp =>
    exact .reading hpoint hshut hstatus hcontext hbuf hanswers (hp.mono hw)
  | writing hpoint hanswering hp hi hwrote => exact .writing hpoint hanswering (hp.mono hw) hi hwrote
  | shut hshut hstatus hpoint hp => exact .shut hshut hstatus hpoint (hp.mono hw)
  | returned hpoint hshut hstatus hp => exact .returned hpoint hshut hstatus (hp.mono hw)
  | aborted hpoint hshut hstatus hp => exact .aborted hpoint hshut hstatus (hp.mono hw)

/-- Behind `write_n` the answer is complete unless a call has given up. -/
theorem Answering.written (h : Answering conn t answer texts text) (hp : Pieces whole (texts ++ [text]) t.passed) :
    Serves whole conn (t.written answer) := by
  obtain ⟨hshut, hsent, hstatus, hcontext, hbuf, hanswers⟩ := h
  rw [← hsent] at hp
  cases answer with
  | badRequest => exact .shut rfl hstatus nofun hp
  | response closeConnection =>
    cases closeConnection with
    | true => exact .shut rfl hstatus nofun hp
    | false => exact .reading rfl hshut hstatus (hcontext rfl) hbuf hanswers hp

/-- The loop of `write_n` keeps the thread in step with the connection. -/
theorem Answering.inWriteN (h : Answering conn t answer texts text) (hp : Pieces whole texts passed)
    (hm : Moved (toInt32 text.length).toNat (Wrote passed text) results x)
    (hw : whole' → whole ∧ ∀ result ∈ results, ¬result.Stops) :
    Serves whole' conn (t.inWriteN answer text x) := by
  cases hm with
  | @calling i s hi hwrote _ =>
    have hnext : Answering conn { t with passed := s, point := .writeN answer text i } answer texts text :=
      ⟨h.shut, h.sent, h.status, h.context, h.buf, h.answers⟩
    exact .writing rfl hnext (hp.mono fun h => (hw h).1) hi hwrote
  | @returned i s hi hwrote hstop =>
    have hall : Pieces whole' (texts ++ [text]) s := by
      rw [hwrote]
      refine (hp.mono fun h => (hw h).1).concat (List.take_prefix i text) fun h hlen => ?_
      rw [toInt32_natCast hlen, Int.toNat_natCast] at hi hstop
      apply List.take_of_length_le
      by_contra hlt
      obtain ⟨result, hresult, hstops⟩ := hstop (Nat.lt_of_not_le hlt)
      exact (hw h).2 result hresult hstops
    exact Answering.written (t := { t with passed := s })
      ⟨h.shut, h.sent, h.status, h.context, h.buf, h.answers⟩ hall

theorem Wrote.keeps (text passed : Bytes) :
    (writer text).Keeps (toInt32 text.length).toNat (Wrote passed text) := by
  have hle := toInt32_le text.length
  exact writer_keeps (by omega)

/-- The call of `write_n` with the next answer of the connection. -/
theorem Answering.writeN (h : Answering conn { t with answers := t.answers + 1 } answer texts text)
    (hp : Pieces whole texts t.passed) : Serves whole conn (t.writeN answer text) := by
  rw [Thread.writeN, head_toNat]
  have hm : Moved (toInt32 text.length).toNat (Wrote t.passed text) [] (head (toInt32 text.length).toNat 0 t.passed) :=
    Moved.head (Nat.zero_le _) (wrote_zero _ _) (Nat.le_refl 0)
  exact h.inWriteN hp hm fun hw => ⟨hw, List.forall_mem_nil _⟩

/-- A call of `write` returns. -/
theorem Answering.write {i : ℕ} {result : CallResult} (h : Answering conn t answer texts text)
    (hp : Pieces whole texts passed) (hi : i < (toInt32 text.length).toNat) (hwrote : Wrote passed text i t.passed)
    (hs : (writer text).step (toInt32 text.length) (.calling i t.passed) result = some x) :
    Serves (whole ∧ ¬result.Stops) conn (t.inWriteN answer text x) := by
  have hlen := toInt32_lt text.length
  have hcast : toInt32 text.length = ((toInt32 text.length).toNat : ℤ) := by omega
  rw [hcast] at hs
  have hm := (Moved.calling hi hwrote (Nat.zero_le _) : Moved _ _ [] _).step (Wrote.keeps text passed) (by omega) hs
  refine h.inWriteN hp hm fun hw => ⟨hw.1, fun result' hmem => ?_⟩
  rw [List.nil_append, List.mem_singleton] at hmem
  exact hmem ▸ hw.2

/-- What the socket has taken when the read handler has brought the connection in this state. -/
structure Delivers (whole : Prop) (conn : Connection) (t : Thread) : Prop where
  /-- a part of each answer, from its start, in their order -/
  pieces : ∃ pieces : List Bytes, t.passed = pieces.flatten ∧ List.Forall₂ (· <+: ·) pieces conn.sent
  /-- all of them, up to the one that is being written -/
  whole : whole → (∀ answer ∈ conn.sent, answer.length < 2 ^ 31) →
    t.passed <+: conn.sent.flatten ∧ (t.writing = false → t.passed = conn.sent.flatten)
  status : conn.status = t.status
  point : t.point ≠ .faulted

theorem Pieces.to_delivers (h : Pieces whole conn.sent t.passed) (hstatus : conn.status = t.status)
    (hpoint : t.point ≠ .faulted) : Delivers whole conn t where
  pieces := h.parts
  whole hw hlen := ⟨(h.eq_flatten hw hlen) ▸ List.prefix_rfl, fun _ => h.eq_flatten hw hlen⟩
  status := hstatus
  point := hpoint

theorem Serves.to_delivers (h : Serves whole conn t) : Delivers whole conn t := by
  cases h with
  | reading hpoint hshut hstatus _ _ _ hp =>
    exact hp.to_delivers (by simp [Thread.status, hshut, hpoint, hstatus]) (by simp [hpoint])
  | @writing answer texts text passed i hpoint hanswering hp hi hwrote =>
    have hsent := hanswering.sent
    refine ⟨?_, fun hw hlen => ⟨?_, fun hidle => ?_⟩, ?_, ?_⟩
    · rw [hwrote, hsent]
      have hparts : Pieces False texts passed := hp.mono False.elim
      exact (hparts.concat (List.take_prefix i text) False.elim).parts
    · have hbefore := hp.eq_flatten hw fun t ht => hlen t (hsent ▸ List.mem_append_left _ ht)
      rw [hwrote, hsent, hbefore, List.flatten_append, List.flatten_singleton]
      exact (List.prefix_append_right_inj _).mpr (List.take_prefix i text)
    · simp [Thread.writing, hanswering.shut, hpoint] at hidle
    · simp [Thread.status, hanswering.shut, hpoint, hanswering.status]
    · simp [hpoint]
  | shut hshut hstatus hpoint hp => exact hp.to_delivers (by simp [Thread.status, hshut, hstatus]) hpoint
  | returned hpoint hshut hstatus hp =>
    exact hp.to_delivers (by simp [Thread.status, hshut, hpoint, hstatus]) (by simp [hpoint])
  | aborted hpoint hshut hstatus hp =>
    exact hp.to_delivers (by simp [Thread.status, hshut, hpoint, hstatus]) (by simp [hpoint])

/-- Behind the shutdown, the bytes that the socket has taken stay. -/
structure Silent (passed : Bytes) (t : Thread) : Prop where
  shut : t.shut = true
  passed : t.passed = passed
  point : t.point ≠ .faulted

theorem Silent.drained (h : Silent passed t) (answer : Answer) : Silent passed (t.drained answer) := by
  cases answer with
  | badRequest => exact ⟨h.shut, h.passed, nofun⟩
  | response => exact ⟨h.shut, h.passed, nofun⟩

theorem Silent.inWriteN (h : Silent passed t) (answer : Answer) (buf : Bytes)
    (hx : (∃ done, x = .calling done passed) ∨ ∃ done, x = .returned done passed) :
    Silent passed (t.inWriteN answer buf x) := by
  obtain ⟨done, rfl⟩ | ⟨done, rfl⟩ := hx
  · exact ⟨h.shut, rfl, nofun⟩
  · rcases answer with _ | _ | _
    · exact ⟨rfl, rfl, nofun⟩
    · exact ⟨h.shut, rfl, nofun⟩
    · exact ⟨rfl, rfl, nofun⟩

theorem head_passed (length done : ℤ) (passed : Bytes) :
    (∃ d, head length done passed = .calling d passed) ∨ ∃ d, head length done passed = .returned d passed := by
  unfold head
  split
  · exact Or.inl ⟨_, rfl⟩
  · exact Or.inr ⟨_, rfl⟩

theorem Silent.writeN (h : Silent passed t) (answer : Answer) (buf : Bytes) :
    Silent passed (t.writeN answer buf) := by
  obtain ⟨hshut, rfl, hpoint⟩ := h
  exact Silent.inWriteN (t := { t with answers := t.answers + 1 }) ⟨hshut, rfl, hpoint⟩ answer buf (head_passed _ _ _)

theorem fed_read (t : Thread) {result : ReadResult} (h : ∀ chunk, result ≠ .data chunk) :
    t.fed (.read result) = [] := by
  cases result with
  | data chunk => exact absurd rfl (h chunk)
  | endOfFile => rfl
  | error errno => rfl

section Steps
variable [Muduo] [Boost] {env : ℕ → CgiEnvironment} {chunk b : Bytes} {chunks : List Bytes} {context : HttpContext}

theorem doWithBuffer_aborted (hp : parseRequest (t.context, t.buf ++ chunk) = .aborted) :
    t.doWithBuffer respond chunk = { t with point := .aborted } := by
  simp only [Thread.doWithBuffer, hp]

theorem doWithBuffer_rejected (hp : parseRequest (t.context, t.buf ++ chunk) = .returned false context b) :
    t.doWithBuffer respond chunk = { t with context, buf := b }.writeN .badRequest badRequest := by
  simp only [Thread.doWithBuffer, hp, Bool.not_false, if_true]

theorem doWithBuffer_answered (hp : parseRequest (t.context, t.buf ++ chunk) = .returned true context b)
    (hg : context.gotAll = true) : t.doWithBuffer respond chunk =
      { t with context, buf := b }.writeN (.response (respond t.answers context.request).closeConnection)
        (respond t.answers context.request).appendToBuffer := by
  simp only [Thread.doWithBuffer, hp, hg, Bool.not_true, Bool.false_eq_true, if_false, if_true]

theorem doWithBuffer_waiting (hp : parseRequest (t.context, t.buf ++ chunk) = .returned true context b)
    (hg : context.gotAll = false) : t.doWithBuffer respond chunk = { t with context, buf := b } := by
  simp only [Thread.doWithBuffer, hp, hg, Bool.not_true, Bool.false_eq_true, if_false]

theorem Silent.doWithBuffer (h : Silent passed t) (chunk : Bytes) :
    Silent passed (t.doWithBuffer respond chunk) := by
  cases hp : parseRequest (t.context, t.buf ++ chunk) with
  | aborted =>
    rw [doWithBuffer_aborted hp]
    exact ⟨h.shut, h.passed, nofun⟩
  | returned ok context b =>
    have hnext : Silent passed { t with context, buf := b } := ⟨h.shut, h.passed, h.point⟩
    cases ok with
    | false => exact doWithBuffer_rejected hp ▸ hnext.writeN _ _
    | true =>
      cases hg : context.gotAll with
      | true => exact doWithBuffer_answered hp hg ▸ hnext.writeN _ _
      | false => exact doWithBuffer_waiting hp hg ▸ hnext

inductive Steps (respond : Respond) (t : Thread) : Return → Thread → Prop
  | fed {chunk : Bytes} : t.point = .readFd → Steps respond t (.read (.data chunk)) (t.doWithBuffer respond chunk)
  | ended {result : ReadResult} : t.point = .readFd → (∀ chunk, result ≠ .data chunk) →
      Steps respond t (.read result) { t with point := .returned }
  | interrupted : t.point = .readFd → Steps respond t (.read (.error eintr)) t
  | ignored {answer : Answer} {chunk : Bytes} : t.point = .shutdownClose answer →
      Steps respond t (.read (.data chunk)) t
  | drained {answer : Answer} {result : ReadResult} : t.point = .shutdownClose answer →
      (∀ chunk, result ≠ .data chunk) → Steps respond t (.read result) (t.drained answer)
  | wrote {answer : Answer} {buf : Bytes} {written : ℤ} {result : CallResult} {x : State Bytes} :
      t.point = .writeN answer buf written → (t.shut = true → ∃ errno, result = .error errno) →
      (writer buf).step (toInt32 buf.length) (.calling written t.passed) result = some x →
      Steps respond t (.write result) (t.inWriteN answer buf x)

theorem steps_of_step (hs : t.step respond r = some u) : Steps respond t r u := by
  unfold Thread.step at hs
  cases r with
  | read result =>
    dsimp only at hs
    split at hs
    · next hpoint =>
      rw [Option.ite_none_right_eq_some] at hs
      exact Option.some.inj hs.2 ▸ .fed hpoint
    · next hpoint => exact Option.some.inj hs ▸ .ended hpoint nofun
    · next errno hpoint =>
      by_cases he : errno = eintr
      · rw [if_neg (not_not.mpr he)] at hs
        exact he ▸ Option.some.inj hs ▸ .interrupted hpoint
      · rw [if_pos he] at hs
        exact Option.some.inj hs ▸ .ended hpoint nofun
    · next hpoint =>
      rw [Option.ite_none_right_eq_some] at hs
      exact Option.some.inj hs.2 ▸ .ignored hpoint
    · next hpoint => exact Option.some.inj hs ▸ .drained hpoint nofun
    · next hpoint => exact Option.some.inj hs ▸ .drained hpoint nofun
    · cases hs
  | write result =>
    dsimp only at hs
    split at hs
    · next answer buf written hpoint =>
      rw [Option.ite_none_left_eq_some] at hs
      obtain ⟨hopen, hs⟩ := hs
      obtain ⟨x, hx, rfl⟩ := Option.map_eq_some_iff.mp hs
      refine .wrote hpoint (fun hshut => ?_) hx
      cases result with
      | count n => exact absurd hshut hopen
      | error errno => exact ⟨errno, rfl⟩
    · cases hs

/-- What follows a shutdown does not reach the client. -/
theorem Silent.step (h : Silent passed t) (hs : t.step respond r = some u) : Silent passed u := by
  cases steps_of_step hs with
  | fed _ => exact h.doWithBuffer _
  | ended _ _ => exact ⟨h.shut, h.passed, nofun⟩
  | interrupted _ => exact h
  | ignored _ => exact h
  | drained _ _ => exact h.drained _
  | wrote _ hopen hx =>
    obtain ⟨errno, rfl⟩ := hopen h.shut
    obtain rfl := Option.some.inj hx
    apply h.inWriteN
    rw [h.passed]
    split
    · exact Or.inr ⟨_, rfl⟩
    · exact head_passed _ _ _

/-- `do_with_buffer` keeps the thread in step with the read handler. -/
theorem Serves.doWithBuffer (hshut : t.shut = false) (hstatus : conn.status = .connected)
    (hcontext : t.context = conn.context) (hbuf : t.buf = conn.buf) (hanswers : t.answers = conn.sent.length)
    (hpoint : t.point = .readFd) (hp : Pieces whole conn.sent t.passed) (chunk : Bytes) :
    Serves whole ((ReadHandler.httpBlockingCgi env).onRead conn chunk)
      (t.doWithBuffer (ReadHandler.httpBlockingCgi env).respond chunk) := by
  have hopen : (conn.receive chunk).status = .connected := hstatus
  have hon : (ReadHandler.httpBlockingCgi env).onRead conn chunk =
      onMessage (ReadHandler.httpBlockingCgi env).respond (conn.receive chunk) := by
    simp only [ReadHandler.onRead, if_pos hopen]
    exact doWithBuffer_eq_onMessage hopen
  have hparse : parseRequest ((conn.receive chunk).context, (conn.receive chunk).buf) =
      parseRequest (t.context, t.buf ++ chunk) := by
    rw [hcontext, hbuf]
    rfl
  have hlen (text : Bytes) : t.answers + 1 = ((conn.receive chunk).sent ++ [text]).length := by
    rw [hanswers, List.length_append]
    rfl
  rw [hon]
  cases hr : parseRequest (t.context, t.buf ++ chunk) with
  | aborted =>
    have hdead : onMessage (ReadHandler.httpBlockingCgi env).respond (conn.receive chunk) =
        { conn.receive chunk with status := .aborted } := by
      simp only [onMessage, hopen, hparse.trans hr, reduceCtorEq, if_false]
    rw [doWithBuffer_aborted hr, hdead]
    exact .aborted rfl hshut rfl hp
  | returned ok context b =>
    cases ok with
    | false =>
      rw [doWithBuffer_rejected hr, onMessage_rejected hopen (hparse.trans hr)]
      exact Answering.writeN ⟨hshut, rfl, rfl, fun h => Answer.noConfusion h, rfl, hlen _⟩ hp
    | true =>
      cases hg : context.gotAll with
      | true =>
        have hcount : (conn.receive chunk).sent.length = t.answers := hanswers.symm
        rw [doWithBuffer_answered hr hg, onMessage_answered hopen (hparse.trans hr) hg, hcount]
        exact Answering.writeN ⟨hshut, rfl, rfl, fun _ => rfl, rfl, hlen _⟩ hp
      | false =>
        rw [doWithBuffer_waiting hr hg, onMessage_waiting hopen (hparse.trans hr) hg]
        exact .reading hpoint hshut hstatus rfl rfl hanswers hp

theorem onReads_disconnecting (h : conn.status = .disconnecting) (chunks : List Bytes) :
    (chunks.foldl (ReadHandler.httpBlockingCgi env).onRead conn).sent = conn.sent ∧
      (chunks.foldl (ReadHandler.httpBlockingCgi env).onRead conn).status = .disconnecting := by
  induction chunks generalizing conn with
  | nil => exact ⟨rfl, h⟩
  | cons chunk chunks ih =>
    have hclosed : (conn.receive chunk).status = .disconnecting := h
    have hon : (ReadHandler.httpBlockingCgi env).onRead conn chunk = conn.receive chunk := by
      simp only [ReadHandler.onRead, hclosed, reduceCtorEq, if_false]
    rw [List.foldl_cons, hon]
    exact ih hclosed

/-- A step of the thread is a read of its handler, or none. -/
theorem Serves.step (h : Serves whole conn t) (hs : t.step (ReadHandler.httpBlockingCgi env).respond r = some u) :
    Serves (whole ∧ ¬t.Cuts r) ((t.fed r).foldl (ReadHandler.httpBlockingCgi env).onRead conn) u := by
  have hsteps := steps_of_step hs
  cases h with
  | reading hpoint hshut hstatus hcontext hbuf hanswers hp =>
    cases hsteps with
    | @fed chunk _ =>
      have hfed : t.fed (.read (.data chunk)) = [chunk] := if_pos hpoint
      rw [hfed]
      exact (Serves.doWithBuffer hshut hstatus hcontext hbuf hanswers hpoint hp chunk).mono And.left
    | @ended result _ hend =>
      rw [fed_read t hend]
      exact .returned rfl hshut hstatus (hp.mono And.left)
    | interrupted _ => exact .reading hpoint hshut hstatus hcontext hbuf hanswers (hp.mono And.left)
    | ignored h => cases hpoint.symm.trans h
    | drained h _ => cases hpoint.symm.trans h
    | wrote h _ _ => cases hpoint.symm.trans h
  | writing hpoint hanswering hp hi hwrote =>
    cases hsteps with
    | fed h => cases hpoint.symm.trans h
    | ended h _ => cases hpoint.symm.trans h
    | interrupted h => cases hpoint.symm.trans h
    | ignored h => cases hpoint.symm.trans h
    | drained h _ => cases hpoint.symm.trans h
    | wrote h _ hx =>
      cases hpoint.symm.trans h
      apply (hanswering.write hp hi hwrote hx).mono
      exact fun hw => ⟨hw.1, fun hstop => hw.2 ⟨hanswering.shut, hstop⟩⟩
  | shut hshut hstatus hpoint hp =>
    -- the handler ignores what the loop reads behind the shutdown
    obtain ⟨hsent, hdisconnecting⟩ := onReads_disconnecting hstatus (t.fed r)
    have hsilent := Silent.step ⟨hshut, rfl, hpoint⟩ hs
    apply Serves.shut hsilent.shut hdisconnecting hsilent.point
    rw [hsent, hsilent.passed]
    exact hp.mono And.left
  | returned hpoint _ _ _ => cases hsteps <;> cases hpoint.symm.trans ‹_›
  | aborted hpoint _ _ _ => cases hsteps <;> cases hpoint.symm.trans ‹_›

/-- The run of a thread from its start. -/
theorem Run.serves (h : Run (ReadHandler.httpBlockingCgi env).respond {} chunks whole t) :
    Serves whole ((ReadHandler.httpBlockingCgi env).serve chunks) t := by
  induction h with
  | start => exact .reading rfl rfl rfl rfl rfl rfl .nil
  | @step chunks whole r u v _ hs ih =>
    have hfed : (ReadHandler.httpBlockingCgi env).serve (chunks ++ u.fed r) =
        (u.fed r).foldl (ReadHandler.httpBlockingCgi env).onRead
          ((ReadHandler.httpBlockingCgi env).serve chunks) := List.foldl_append
    rw [hfed]
    exact ih.step hs

theorem Run.silent (h : Run respond t chunks whole u) (ht : Silent passed t) : Silent passed u := by
  induction h with
  | start => exact ht
  | step _ hs ih => exact ih.step hs

/-- The thread writes what the read handler sends on the connection: whatever its calls return, the socket gets a part
of each answer, the whole answers unless a call gives up, and nothing behind the shutdown. -/
theorem acceptRequest_delivers (h : Run (ReadHandler.httpBlockingCgi env).respond {} chunks whole t) :
    Delivers whole ((ReadHandler.httpBlockingCgi env).serve chunks) t ∧
      (t.shut = true → ∀ {later whole' u}, Run (ReadHandler.httpBlockingCgi env).respond t later whole' u →
        u.passed = t.passed ∧ u.shut = true) := by
  have hdelivers := h.serves.to_delivers
  refine ⟨hdelivers, fun hshut _ _ _ hrun => ?_⟩
  have hsilent := hrun.silent ⟨hshut, rfl, hdelivers.point⟩
  exact ⟨hsilent.passed, hsilent.shut⟩

end Steps

end Thread

/-- A line with an unknown method, and a rejection that is written in two parts with an interrupt between them. -/
theorem acceptRequest_delivers_bad_line : ∃ t : Thread, t.point = .returned ∧ t.passed = badRequest ∧
    ∃ whole, @Delivers whole (@ReadHandler.serve Muduo.reference Boost.reference
      (.httpBlockingCgi fun _ => ⟨fun _ => none, fun _ => none, fun _ => none⟩) [ascii "GRAB / HTTP/1.1\r\n"]) t := by
  let M := Muduo.reference
  let B := Boost.reference
  let respond := (ReadHandler.httpBlockingCgi fun _ => ⟨fun _ => none, fun _ => none, fun _ => none⟩).respond
  let t : Thread := { buf := ascii "GRAB / HTTP/1.1\r\n", context := ⟨.kExpectRequestLine, { method := .kInvalid }⟩,
                      answers := 1 }
  have hfed : Thread.step respond {} (.read (.data (ascii "GRAB / HTTP/1.1\r\n"))) =
      some { t with point := .writeN .badRequest badRequest 0 } := by decide
  have hpart : Thread.step respond { t with point := .writeN .badRequest badRequest 0 } (.write (.count 10)) =
      some { t with passed := badRequest.take 10, point := .writeN .badRequest badRequest 10 } := by decide
  have hagain : Thread.step respond { t with passed := badRequest.take 10, point := .writeN .badRequest badRequest 10 }
      (.write (.error eintr)) =
        some { t with passed := badRequest.take 10, point := .writeN .badRequest badRequest 10 } := by decide
  have hrest : Thread.step respond { t with passed := badRequest.take 10, point := .writeN .badRequest badRequest 10 }
      (.write (.count 18)) =
        some { t with passed := badRequest, shut := true, point := .shutdownClose .badRequest } := by decide
  have hend : Thread.step respond { t with passed := badRequest, shut := true, point := .shutdownClose .badRequest }
      (.read .endOfFile) = some { t with passed := badRequest, shut := true, point := .returned } := by decide
  have hrun := ((((Run.start.step hfed).step hpart).step hagain).step hrest).step hend
  exact ⟨_, rfl, rfl, _, (acceptRequest_delivers hrun).1⟩

end LinuxSocket.Http.HttpBlockingCgi
