import LinuxSocket.Memcached.Iterations

/-! # Replies and requests

A request ends with the iteration that consumes its last byte. That iteration sends one
reply, unless the line is none of the known commands or the data block lacks its CR LF.
-/
namespace LinuxSocket.Memcached

def Call.reply? : Call → Option Bytes
  | .send message => some message
  | .storeItem _ => none
  | .getItem _ _ => none
  | .shutdown => none

def replies (calls : List Call) : List Bytes := calls.filterMap Call.reply?

theorem replies_append (calls calls' : List Call) : replies (calls ++ calls') = replies calls ++ replies calls' :=
  List.filterMap_append

section
variable [Muduo] [Freed] (hashRange : Bytes → ℕ)

def Head.sent (h : Head) : List Bytes :=
  match h.next hashRange with
  | .inl (w, _) => replies (w.calls.drop h.world.calls.length)
  | .inr _ => []

/-- The requests the iteration at `h` consumes to their end: a command line other than `quit`, unless it is a
`set` whose data block is still to come, or a data block. -/
def Head.requests (h : Head) : ℕ :=
  match h.next hashRange with
  | .inl (w, _) =>
    if w.session.receiveState = .kReadValue ∨ h.command.bind commandOf = some .kQuit then 0 else 1
  | .inr _ => 0

/-- The replies sent in a run are those of its iterations in their order, one for each request. -/
structure RepliesPaired (log : List Head) (calls : List Call) : Prop where
  order : replies calls = log.flatMap (Head.sent hashRange)
  one : ∀ h ∈ log, (h.sent hashRange).length = h.requests hashRange

/-- A blank line or an unknown command, or a data block without a CR LF behind it. -/
def Head.Silent (h : Head) : Prop :=
  (∃ request, h.command = some request ∧ commandOf request = none) ∨ h.block.isSome ∧ h.blockEnded = false

variable {hashRange} {h k : Head} {log : List Head} {w : World} {b : Bytes}

omit [Freed] in
theorem block_of_command {request : Bytes} (hc : h.command = some request) : h.block = none := by
  unfold Head.command at hc
  unfold Head.block
  cases hs : h.world.session.receiveState with
  | kReadCommandLine => rfl
  | kReadValue => simp [hs] at hc

omit [Freed] in
theorem silent_of_command {request : Bytes} (hc : h.command = some request) :
    h.Silent ↔ commandOf request = none := by
  simp [Head.Silent, hc, block_of_command hc]

omit [Freed] in
theorem command_of_block {data : Bytes} (hb : h.block = some data) : h.command = none := by
  cases hc : h.command with
  | none => rfl
  | some request =>
    rw [block_of_command hc] at hb
    cases hb

omit [Freed] in
theorem silent_of_block {data : Bytes} (hb : h.block = some data) : h.Silent ↔ h.blockEnded = false := by
  simp [Head.Silent, hb, command_of_block hb]

omit [Freed] in
theorem Iteration.paired_iff {s : ReceiveState} {calls : List Call} (hi : Iteration h s calls) :
    (replies calls).length =
      (if s = .kReadValue ∨ h.command.bind commandOf = some .kQuit then 0 else 1) ↔ ¬h.Silent := by
  cases hi with
  | command hc hh =>
    rw [silent_of_command hc, hc]
    cases hh with
    | unknown h => simp [replies, stateAfter, h]
    | refused h => simp [replies, Call.reply?, stateAfter, h]
    | accepted h => simp [replies, stateAfter, h]
    | noKey h _ => simp [replies, Call.reply?, stateAfter, h]
    | found h _ => simp [replies, Call.reply?, stateAfter, h, List.filterMap_cons]
    | quit h => simp [replies, Call.reply?, stateAfter, h]
  | stored hb he => simp [silent_of_block hb, command_of_block hb, he, replies, Call.reply?,
      List.filterMap_cons]
  | dropped hb he => simp [silent_of_block hb, command_of_block hb, he, replies]

theorem Head.sent_eq (hI : SessionInv h.world.session) (hnext : h.next hashRange = .inl (w, b)) :
    replies w.calls = replies h.world.calls ++ h.sent hashRange ∧
      ((h.sent hashRange).length = h.requests hashRange ↔ ¬h.Silent) := by
  obtain ⟨calls, hcalls, hi⟩ := iteration_of_next hI hnext
  have hsent : h.sent hashRange = replies calls := by
    simp only [Head.sent, hnext, hcalls, List.drop_left]
  refine ⟨by rw [hcalls, replies_append, hsent], ?_⟩
  rw [hsent]
  simp only [Head.requests, hnext]
  exact hi.paired_iff

theorem Run.replies (hr : Run hashRange h log k) (hI : SessionInv h.world.session) :
    replies k.world.calls = replies h.world.calls ++ log.flatMap (Head.sent hashRange) ∧
      ∀ l ∈ log, ((l.sent hashRange).length = l.requests hashRange ↔ ¬l.Silent) := by
  induction hr with
  | nil h => exact ⟨(List.append_nil _).symm, List.forall_mem_nil _⟩
  | @iterate h w b log k hnext _ ih =>
    obtain ⟨hcalls, hone⟩ := Head.sent_eq hI hnext
    obtain ⟨hrest, hall⟩ := ih (SessionInv.step hnext)
    refine ⟨?_, List.forall_mem_cons.mpr ⟨hone, hall⟩⟩
    rw [hrest, hcalls, List.flatMap_cons, List.append_assoc]
  | receive hnext _ _ ih =>
    obtain ⟨hI', hcalls⟩ := Head.return_keeps hI hnext
    rw [← hcalls]
    exact ih hI'
  | share server _ ih => exact ih hI

/-- Over every stream in any chunks, replies pair with the requests consumed exactly when no blank line, no
unknown command and no data block without its CR LF is among them. -/
theorem replies_paired_iff {server : MemcachedServer} {chunk coming : Bytes}
    (hr : Run hashRange ⟨World.fresh server, chunk, coming⟩ log k) :
    RepliesPaired hashRange log k.world.calls ↔ ∀ l ∈ log, ¬l.Silent := by
  obtain ⟨horder, hall⟩ := hr.replies SessionInv.fresh
  constructor
  · intro h l hl
    exact (hall l hl).mp (h.one l hl)
  · intro h
    exact ⟨horder, fun l hl => (hall l hl).mpr (h l hl)⟩

end

/-- A `set` line and its value in one chunk. -/
theorem replies_paired_set : ∃ log k, @Run Muduo.reference Freed.untouched (fun _ => 0)
      ⟨World.fresh .init, ascii "set k 0 0 1\r\nx\r\n", []⟩ log k ∧ log.length = 2 ∧
    @RepliesPaired Muduo.reference Freed.untouched (fun _ => 0) log k.world.calls := by
  let M := Muduo.reference
  let F := Freed.untouched
  have hr : Run (fun _ => 0) ⟨World.fresh .init, ascii "set k 0 0 1\r\nx\r\n", []⟩ _ _ :=
    .iterate rfl (.iterate rfl (.nil _))
  refine ⟨_, _, hr, rfl, (replies_paired_iff hr).mpr ?_⟩
  intro l hl
  rcases List.mem_pair.mp hl with rfl | rfl
  · rw [silent_of_command rfl]
    decide
  · rw [silent_of_block rfl]
    decide

/-- An unknown command is consumed without a reply. -/
theorem unknown_command_silent : ¬∀ (_ : Muduo) (_ : Freed) (hashRange : Bytes → ℕ) (server : MemcachedServer)
    (chunk coming : Bytes) (log : List Head) (k : Head),
      Run hashRange ⟨World.fresh server, chunk, coming⟩ log k → RepliesPaired hashRange log k.world.calls := by
  intro h
  let M := Muduo.reference
  let F := Freed.untouched
  have hr := h M F (fun _ => 0) .init (ascii "x\r\n") [] _ _ (.iterate rfl (.nil _))
  have := hr.one _ List.mem_cons_self
  revert this
  decide

end LinuxSocket.Memcached
