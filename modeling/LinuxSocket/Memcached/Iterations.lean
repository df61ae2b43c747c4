import LinuxSocket.Memcached.Runs

/-! # The calls of one iteration

`Handled` lists the ways `doRequestCommand` returns, with the calls each of them has made;
`Iteration` does the same for an iteration of a session that keeps its invariant.
-/
namespace LinuxSocket.Memcached

/-- The command a line begins with, `none` for a blank line and for an unknown command. -/
def commandOf (request : Bytes) : Option CommandType :=
  (tokens request).head?.bind fun word => commandType word.asString

inductive Handled (request : Bytes) : Bool → List Call → Prop
  | unknown : commandOf request = none → Handled request false []
  | refused {reply} : commandOf request = some .kSet → Handled request false [.send reply]
  | accepted : commandOf request = some .kSet → Handled request true []
  | noKey {reply} : commandOf request = some .kGet → (tokens request).length = 1 →
      Handled request false [.send reply]
  | found {key item reply} : commandOf request = some .kGet → 1 < (tokens request).length →
      Handled request true [.getItem key (some item), .send reply]
  | quit : commandOf request = some .kQuit → Handled request false [.shutdown]

theorem commandOf_of_tokens {request : Bytes} {word : StringPiece} {words : List StringPiece}
    (ht : tokens request = word :: words) : commandOf request = commandType word.asString := by
  simp [commandOf, ht]

theorem commandType_ne_kInvalid (command : Bytes) : commandType command ≠ some .kInvalid := by
  unfold commandType
  split
  · simp
  · split
    · simp
    · split <;> simp

theorem doUpdate_handled {request : Bytes} (hc : commandOf request = some .kSet) (words : List StringPiece)
    (w : World) : (doUpdate words w).2.session.curCommandType = w.session.curCommandType ∧
      ∃ calls, (doUpdate words w).2.calls = w.calls ++ calls ∧ Handled request (doUpdate words w).1 calls := by
  cases words with
  | nil => exact ⟨rfl, _, rfl, .refused hc⟩
  | cons word words =>
    cases hf : updateFields word words w.session with
    | mk good s =>
      obtain ⟨⟨flag, exptime, valueLen, hs⟩, -⟩ := updateFields_frame hf
      have hcommand : s.curCommandType = w.session.curCommandType := by rw [hs]
      rw [doUpdate_cons word words w hf]
      split
      · exact ⟨hcommand, _, rfl, .refused hc⟩
      · split
        · exact ⟨hcommand, _, rfl, .refused hc⟩
        · exact ⟨hcommand, [], (List.append_nil _).symm, .accepted hc⟩

/-- The state a command line leaves: an accepted `set` waits for its value. -/
def stateAfter (request : Bytes) (good : Bool) : ReceiveState :=
  if good && commandOf request == some .kSet then .kReadValue else .kReadCommandLine

theorem World.commandDone_calls (good : Bool) (w : World) : (w.commandDone good).calls = w.calls := by
  unfold commandDone
  dsimp only
  split <;> rfl

theorem World.commandDone_state {request : Bytes} {good : Bool} {w : World}
    (htype : good = true → commandOf request = some w.session.curCommandType)
    (hs : w.session.receiveState = .kReadCommandLine) :
    (w.commandDone good).session.receiveState = stateAfter request good := by
  cases good with
  | false => exact hs
  | true =>
    have hset : (commandOf request == some .kSet) = (w.session.curCommandType == .kSet) := by
      rw [htype rfl]
      rfl
    simp only [commandDone, stateAfter, hset, Bool.true_and]
    change (if (w.session.curCommandType == .kSet) = true then _ else _ : World).session.receiveState = _
    split
    · rfl
    · exact hs

def Head.block (h : Head) : Option Bytes :=
  match h.world.session.receiveState with
  | .kReadCommandLine => none
  | .kReadValue =>
    if h.world.session.valueEnd ≤ h.buf.length then some (h.buf.take h.world.session.curValueLen.toNat) else none

theorem Head.block_eq_some {h : Head} {data : Bytes} : h.block = some data ↔
    h.world.session.receiveState = .kReadValue ∧ h.world.session.valueEnd ≤ h.buf.length ∧
      h.buf.take h.world.session.curValueLen.toNat = data := by
  unfold Head.block
  cases h.world.session.receiveState <;> simp

def Head.blockEnded (h : Head) : Bool := decide ((h.buf.drop h.world.session.curValueLen.toNat).take 2 = CRLF)

section
variable [Muduo] [Freed] {hashRange : Bytes → ℕ}

theorem doRequestCommand_handled {request : Bytes} {w w' : World} {good : Bool}
    (hd : doRequestCommand hashRange request w = .ok (good, w')) :
    (good = true → commandOf request = some w'.session.curCommandType) ∧
      ∃ calls, w'.calls = w.calls ++ calls ∧ Handled request good calls := by
  unfold doRequestCommand at hd
  split at hd
  · next ht =>
    cases hd
    exact ⟨by simp, [], (List.append_nil _).symm, .unknown (by simp [commandOf, ht])⟩
  · next word words ht =>
    have hcommand := commandOf_of_tokens ht
    split at hd
    · next hc =>
      cases hd
      exact ⟨by simp, [], (List.append_nil _).symm, .unknown (hcommand.trans hc)⟩
    · next hc =>
      obtain ⟨htype, hcalls⟩ := doUpdate_handled (hcommand.trans hc) words (w.setCommandType .kSet)
      rw [Except.ok.inj hd] at htype hcalls
      refine ⟨fun _ => ?_, hcalls⟩
      rw [htype, hcommand, hc]
      rfl
    · next hc =>
      have htype := congrArg Session.curCommandType (doGet_session hd)
      refine ⟨fun _ => ?_, ?_⟩
      · rw [htype, hcommand, hc]
        rfl
      · cases words with
        | nil =>
          cases hd
          exact ⟨_, rfl, .noKey (hcommand.trans hc) (by rw [ht]; rfl)⟩
        | cons key words =>
          simp only [doGet] at hd
          split at hd
          · cases hd
          · next item hi =>
            cases hd
            refine ⟨_, List.append_assoc .., ?_⟩
            rw [hi]
            exact .found (hcommand.trans hc) (by simp [ht])
    · next c hset hget hc =>
      cases hd
      refine ⟨by simp, _, rfl, .quit ?_⟩
      rw [hcommand, hc]
      cases c with
      | kInvalid => exact absurd hc (commandType_ne_kInvalid _)
      | kSet => exact absurd rfl hset
      | kGet => exact absurd rfl hget
      | kQuit => rfl

/-- The process dies in a `get` of a key the store does not hold. -/
theorem doRequestCommand_died {request : Bytes} {w : World} {calls : List Call}
    (hd : doRequestCommand hashRange request w = .error calls) :
    commandOf request = some .kGet ∧ 1 < (tokens request).length ∧
      ∃ key, calls = w.calls ++ [.getItem key none] := by
  unfold doRequestCommand at hd
  split at hd
  · cases hd
  · next word words ht =>
    have hcommand := commandOf_of_tokens ht
    split at hd
    · cases hd
    · cases hd
    · next hc =>
      cases words with
      | nil => cases hd
      | cons key words =>
        simp only [doGet] at hd
        split at hd
        · next hi =>
          cases hd
          refine ⟨hcommand.trans hc, by simp [ht], w.behind key.asString .memcpy, ?_⟩
          rw [hi]
          rfl
        · cases hd
    · cases hd

omit [Freed] in
theorem command_of_findCRLF {h : Head} {crlf : ℕ} (hs : h.world.session.receiveState = .kReadCommandLine)
    (hf : Muduo.findCRLF h.buf h.world.session.searchStart = some crlf) (hlt : crlf < 2 ^ 31) :
    h.command = some (h.buf.take crlf) := by
  simp only [Head.command, hs, hf, if_pos hlt]

/-- The iterations of a session that keeps its invariant, with the state they leave it in and their calls. -/
inductive Iteration (h : Head) : ReceiveState → List Call → Prop
  | command {request good calls} : h.command = some request → Handled request good calls →
      Iteration h (stateAfter request good) calls
  | stored {data reply} : h.block = some data → h.blockEnded = true →
      Iteration h .kReadCommandLine [.storeItem (Item.makeItem h.world.session.curKey h.world.session.curFlag
        h.world.session.curExptime data), .send reply]
  | dropped {data} : h.block = some data → h.blockEnded = false → Iteration h .kReadCommandLine []

theorem iteration_of_next {h : Head} (hI : SessionInv h.world.session) {w : World} {b : Bytes}
    (hnext : h.next hashRange = .inl (w, b)) : ∃ calls, w.calls = h.world.calls ++ calls ∧
      Iteration h w.session.receiveState calls := by
  cases onMessageStep_next hnext with
  | @command crlf good w' hs hf hlt hd =>
    obtain ⟨htype, calls, hcalls, hhandled⟩ := doRequestCommand_handled hd
    have hstate := (doRequestCommand_spec hd).1.trans hs
    refine ⟨calls, (World.commandDone_calls good w').trans hcalls, ?_⟩
    rw [World.commandDone_state htype hstate]
    exact .command (command_of_findCRLF hs hf hlt) hhandled
  | @value terminated hs hle ht =>
    have hblock : h.block = some (h.buf.take h.world.session.curValueLen.toNat) :=
      Head.block_eq_some.mpr ⟨hs, hle, rfl⟩
    rw [World.valueDone_session]
    cases terminated with
    | true =>
      refine ⟨[.storeItem _, .send (ascii "STORED\r\n")], ?_, .stored hblock ht⟩
      have hset := (hI hs).command
      simp only [World.valueDone, if_true, World.storeData_session, hset]
      exact List.append_assoc ..
    | false => exact ⟨[], (List.append_nil _).symm, .dropped hblock ht⟩

/-- A call of the handler adds to the calls made before. -/
theorem onMessage_calls_prefix {w t : World} {b b' : Bytes} (hI : SessionInv w.session)
    (h : onMessage hashRange (w, b) = .ok (t, b')) : w.calls <+: t.calls := by
  revert h
  refine Loop.Body.run_post (L := onMessageBody hashRange Session.searchStart)
    (I := fun p => SessionInv p.1.session ∧ w.calls <+: p.1.calls)
    (Q := fun o => o = .ok (t, b') → w.calls <+: t.calls) ?_ ?_ ⟨hI, List.prefix_refl _⟩
  · rintro ⟨u, c⟩ ⟨u', c'⟩ ⟨hu, hcalls⟩ hstep
    change (Head.mk u c []).next hashRange = .inl (u', c') at hstep
    obtain ⟨calls, hcalls', -⟩ := iteration_of_next hu hstep
    rw [hcalls']
    exact ⟨SessionInv.step hstep, hcalls.trans (List.prefix_append _ _)⟩
  · rintro ⟨u, c⟩ r ⟨hu, hcalls⟩ hexit rfl
    change (Head.mk u c []).next hashRange = .inr (.ok (t, b')) at hexit
    rw [(Head.return_keeps hu hexit).2]
    exact hcalls

end

end LinuxSocket.Memcached
