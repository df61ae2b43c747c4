import LinuxSocket.Memcached.Replies
import LinuxSocket.Memcached.System

/-! # What a session does behind a `quit`

`quit` shuts the connection down for writing. The loop goes on with the bytes behind the
line, and what they ask of the store is done as before.
-/
namespace LinuxSocket.Memcached

section
variable [Muduo] [Freed] (hashRange : Bytes → ℕ)

def Head.callsAfter (h : Head) : List Call :=
  match h.next hashRange with
  | .inl (w, _) => w.calls
  | .inr (.ok (w, _)) => w.calls
  | .inr (.error calls) => calls

def Head.AsksStore (h : Head) : Prop :=
  (∃ request, h.command = some request ∧ commandOf request = some .kGet ∧ 1 < (tokens request).length) ∨
    h.block.isSome ∧ h.blockEnded = true

structure Head.Quits (h : Head) (w : World) (b : Bytes) : Prop where
  command : ∃ request, h.command = some request ∧ commandOf request = some .kQuit
  next : h.next hashRange = .inl (w, b)

/-- None of the calls is a `storeItem` or a `getItem`. -/
def LeavesStore (calls : List Call) : Prop := ∀ c ∈ calls, c.storeOp? = none

variable {hashRange} {h k : Head} {log : List Head} {w : World} {b : Bytes}

omit [Muduo] [Freed] in
theorem leavesStore_append {calls calls' : List Call} :
    LeavesStore (calls ++ calls') ↔ LeavesStore calls ∧ LeavesStore calls' := List.forall_mem_append

omit [Freed] in
theorem asksStore_of_command {request : Bytes} (hc : h.command = some request) :
    h.AsksStore ↔ commandOf request = some .kGet ∧ 1 < (tokens request).length := by
  simp [Head.AsksStore, hc, block_of_command hc]

omit [Freed] in
theorem asksStore_of_block {data : Bytes} (hb : h.block = some data) : h.AsksStore ↔ h.blockEnded = true := by
  simp [Head.AsksStore, hb, command_of_block hb]

omit [Freed] in
theorem not_asksStore (hc : h.command = none) (hb : h.block = none) : ¬h.AsksStore := by
  simp [Head.AsksStore, hc, hb]

omit [Freed] in
theorem Iteration.leavesStore_iff {s : ReceiveState} {calls : List Call} (hi : Iteration h s calls) :
    LeavesStore calls ↔ ¬h.AsksStore := by
  cases hi with
  | command hc hh =>
    rw [asksStore_of_command hc]
    cases hh with
    | unknown h => simp [LeavesStore, h]
    | refused h => simp [LeavesStore, Call.storeOp?, h]
    | accepted h => simp [LeavesStore, h]
    | noKey h hlen => simp [LeavesStore, Call.storeOp?, h, hlen]
    | found h hlen => simp [LeavesStore, Call.storeOp?, h, hlen]
    | quit h => simp [LeavesStore, Call.storeOp?, h]
  | stored hb he => simp [asksStore_of_block hb, he, LeavesStore, Call.storeOp?]
  | dropped hb he => simp [asksStore_of_block hb, he, LeavesStore]

/-- Where the handler returns nothing has been called, and nothing is complete; it dies in a `get`. -/
theorem Head.callsAfter_leaves {r : Outcome} (hnext : h.next hashRange = .inr r) :
    h.callsAfter hashRange = h.world.calls ∧ h.command = none ∧ h.block = none ∨
      ∃ key, h.callsAfter hashRange = h.world.calls ++ [.getItem key none] ∧ h.AsksStore := by
  unfold Head.callsAfter
  rw [hnext]
  cases onMessageStep_exit hnext with
  | noLine hs hf => exact Or.inl ⟨rfl, by simp only [Head.command, hs, hf], by simp only [Head.block, hs]⟩
  | tooLong hs hf hle =>
    refine Or.inl ⟨rfl, ?_, by simp only [Head.block, hs]⟩
    simp only [Head.command, hs, hf, if_neg (Nat.not_lt.mpr hle)]
  | died hs hf hlt hd =>
    obtain ⟨hget, hlen, key, hcalls⟩ := doRequestCommand_died hd
    exact Or.inr ⟨key, hcalls, (asksStore_of_command (command_of_findCRLF hs hf hlt)).mpr ⟨hget, hlen⟩⟩
  | noValue hs hlt =>
    refine Or.inl ⟨rfl, by simp only [Head.command, hs], ?_⟩
    simp only [Head.block, hs, if_neg (Nat.not_le.mpr hlt)]

theorem Head.callsAfter_eq (hI : SessionInv h.world.session) : ∃ calls,
    h.callsAfter hashRange = h.world.calls ++ calls ∧ (LeavesStore calls ↔ ¬h.AsksStore) := by
  cases hnext : h.next hashRange with
  | inl p =>
    obtain ⟨w, b⟩ := p
    obtain ⟨calls, hcalls, hi⟩ := iteration_of_next hI hnext
    exact ⟨calls, by simp only [Head.callsAfter, hnext, hcalls], hi.leavesStore_iff⟩
  | inr r =>
    rcases Head.callsAfter_leaves hnext with ⟨hcalls, hc, hb⟩ | ⟨key, hcalls, hasks⟩
    · refine ⟨[], hcalls.trans (List.append_nil _).symm, ?_⟩
      simp [LeavesStore, not_asksStore hc hb]
    · refine ⟨_, hcalls, ?_⟩
      simp [LeavesStore, Call.storeOp?, hasks]

theorem Run.callsAfter_eq (hr : Run hashRange h log k) (hI : SessionInv h.world.session) : ∃ calls,
    k.callsAfter hashRange = h.world.calls ++ calls ∧
      (LeavesStore calls ↔ ∀ l ∈ log ++ [k], ¬l.AsksStore) := by
  induction hr with
  | nil h =>
    obtain ⟨calls, hcalls, hiff⟩ : ∃ calls, h.callsAfter hashRange = _ ++ calls ∧ (LeavesStore calls ↔ _) :=
      Head.callsAfter_eq hI
    exact ⟨calls, hcalls, by simpa using hiff⟩
  | @iterate h w b log k hnext _ ih =>
    obtain ⟨calls, hcalls, hi⟩ := iteration_of_next hI hnext
    obtain ⟨calls', hcalls', hiff⟩ := ih (SessionInv.step hnext)
    refine ⟨calls ++ calls', ?_, ?_⟩
    · rw [hcalls', hcalls, List.append_assoc]
    · rw [leavesStore_append, hi.leavesStore_iff, hiff, List.cons_append, List.forall_mem_cons]
  | receive hnext _ _ ih =>
    obtain ⟨hI', hcalls⟩ := Head.return_keeps hI hnext
    rw [← hcalls]
    exact ih hI'
  | share server _ ih => exact ih hI

/-- From any state in which a `quit` line has been handled, over every stream in any chunks, the store is left
alone exactly when neither a `get` line with a key nor a complete data block with its CR LF follows. -/
theorem quit_leavesStore_iff (hq : h.Quits hashRange w b) (hr : Run hashRange ⟨w, b, h.coming⟩ log k) :
    LeavesStore ((k.callsAfter hashRange).drop w.calls.length) ↔ ∀ l ∈ log ++ [k], ¬l.AsksStore := by
  obtain ⟨calls, hcalls, hiff⟩ := hr.callsAfter_eq (SessionInv.step hq.next)
  rw [hcalls, List.drop_left]
  exact hiff

end

/-- A `get` line without a key behind the `quit`. -/
theorem quit_leavesStore_no_key : ∃ h w b log k, @Head.Quits Muduo.reference Freed.untouched (fun _ => 0) h w b ∧
    @Run Muduo.reference Freed.untouched (fun _ => 0) ⟨w, b, h.coming⟩ log k ∧ log.length = 1 ∧
    (LeavesStore ((@Head.callsAfter Muduo.reference Freed.untouched (fun _ => 0) k).drop w.calls.length) ↔
      ∀ l ∈ log ++ [k], ¬@Head.AsksStore Muduo.reference l) := by
  let M := Muduo.reference
  let F := Freed.untouched
  have hq : Head.Quits (fun _ => 0) ⟨World.fresh .init, ascii "quit\r\nget\r\n", []⟩ _ _ := ⟨⟨_, rfl, rfl⟩, rfl⟩
  have hiff := quit_leavesStore_iff hq (.iterate rfl (.nil _))
  exact ⟨_, _, _, _, _, hq, .iterate rfl (.nil _), rfl, hiff⟩

/-- A `set` in the same read as the `quit` in front of it is stored. -/
theorem quit_then_set : ¬∀ (_ : Muduo) (_ : Freed) (hashRange : Bytes → ℕ) (h k : Head) (w : World) (b : Bytes)
    (log : List Head), h.Quits hashRange w b → Run hashRange ⟨w, b, h.coming⟩ log k →
      LeavesStore ((k.callsAfter hashRange).drop w.calls.length) := by
  intro h
  let M := Muduo.reference
  let F := Freed.untouched
  have hq : Head.Quits (fun _ => 0) ⟨World.fresh .init, ascii "quit\r\nset k 0 0 1\r\nx\r\n", []⟩ _ _ :=
    ⟨⟨_, rfl, rfl⟩, rfl⟩
  have hstore := h M F (fun _ => 0) _ _ _ _ _ hq (.iterate rfl (.nil _))
  have := hstore (.storeItem ⟨ascii "k", 0, 0, ascii "x"⟩) (by decide)
  cases this

end LinuxSocket.Memcached
