import LinuxSocket.Lib.Split
import LinuxSocket.Memcached.SessionInvariant

/-! # The memcached session and the segmentation of its stream

A session that always searches from `peek()` does not depend on the cuts. The
session of the source resumes at `curSearchPos_` and behaves like it, except that
it misses a line end whose CR and LF arrive in different chunks.
-/
namespace LinuxSocket.Memcached
variable [Muduo] [Freed] (hashRange : Bytes → ℕ)

/-- The loop without the optimisation. -/
def plainBody : Loop.Body (World × Bytes) Outcome := onMessageBody hashRange fun _ => 0

def resumePlain : Outcome → Bytes → Outcome
  | .error calls, _ => .error calls
  | .ok (w, buf), chunk => (plainBody hashRange).run (w, buf ++ chunk)

def deliver : Outcome → Bytes → Outcome
  | .error calls, _ => .error calls
  | .ok (w, buf), chunk => onMessage hashRange (w, buf ++ chunk)

def observe (o : Outcome) : Except (List Call) (List Call × ReceiveState × Bytes) :=
  o.map fun p => (p.1.calls, p.1.session.receiveState, p.2)

def connected (server : MemcachedServer) : Outcome := .ok (World.fresh server, [])

section SearchPos
variable {hashRange} (p : Option ℕ)

omit [Muduo] [Freed] in
theorem readNumbers_searchPos (words : List StringPiece) (s : Session) :
    readNumbers words { s with curSearchPos := p } =
      ((readNumbers words s).1, { (readNumbers words s).2 with curSearchPos := p }) := by
  unfold readNumbers
  cases readInt words with
  | none => rfl
  | some q =>
    dsimp only
    cases readInt q.2 with
    | none => rfl
    | some q =>
      dsimp only
      cases readInt q.2 <;> rfl

omit [Muduo] [Freed] in
theorem doUpdate_searchPos (words : List StringPiece) (w : World) :
    doUpdate words (w.setSearchPos p) = ((doUpdate words w).1, (doUpdate words w).2.setSearchPos p) := by
  cases words with
  | nil => rfl
  | cons word words =>
    have hread := readNumbers_searchPos p words { w.session with curKey := word.asString }
    simp only [World.setSearchPos] at hread ⊢
    simp only [doUpdate]
    by_cases hk : word.asString.length ≤ kLongestKeySize
    · simp only [hk, decide_true, if_true, hread]
      split
      · rfl
      · split <;> rfl
    · simp only [hk, decide_false, Bool.false_eq_true, if_false, Bool.false_and, Bool.not_false, if_true]
      rfl

/-- No command handler reads or writes `curSearchPos_`. -/
theorem doRequestCommand_searchPos (request : Bytes) (w : World) :
    doRequestCommand hashRange request (w.setSearchPos p) =
      (doRequestCommand hashRange request w).map fun r => (r.1, r.2.setSearchPos p) := by
  unfold doRequestCommand
  cases tokens request with
  | nil => rfl
  | cons word words =>
    dsimp only
    cases hc : commandType word.asString with
    | none => rfl
    | some c =>
      cases c with
      | kSet =>
        change Except.ok (doUpdate words ((w.setCommandType .kSet).setSearchPos p)) = _
        rw [doUpdate_searchPos]
        rfl
      | kGet =>
        change doGet hashRange words ((w.setCommandType .kGet).setSearchPos p) = _
        cases words with
        | nil => rfl
        | cons word words =>
          cases hi : w.server.getCopied hashRange (w.behind word.asString .hashRange)
              (w.behind word.asString .memcpy) with
          | none =>
            rw [doGet_null words (w := (w.setCommandType .kGet).setSearchPos p) hi,
              doGet_null words (w := w.setCommandType .kGet) hi]
            rfl
          | some item =>
            rw [doGet_found words (w := (w.setCommandType .kGet).setSearchPos p) hi,
              doGet_found words (w := w.setCommandType .kGet) hi]
            rfl
      | kQuit => rfl
      | kInvalid => rfl

theorem plainBody_searchPos {w : World} (hs : w.session.receiveState = .kReadCommandLine) (b : Bytes) :
    (plainBody hashRange).run (w.setSearchPos p, b) = (plainBody hashRange).run (w, b) := by
  apply Loop.Body.run_of_step_eq
  change onMessageStep hashRange (fun _ => 0) (w.setSearchPos p, b) =
    onMessageStep hashRange (fun _ => 0) (w, b)
  have hs' : (w.setSearchPos p).session.receiveState = .kReadCommandLine := hs
  simp only [onMessageStep, hs, hs', doRequestCommand_searchPos]
  cases Muduo.findCRLF b 0 with
  | none => rfl
  | some crlf =>
    dsimp only
    split
    · rfl
    · cases doRequestCommand hashRange (b.take crlf) w <;> rfl

end SearchPos

section Plain
variable {hashRange}

theorem plain_step_append {start : Session → ℕ} {w t : World} {b b' : Bytes} (c : Bytes)
    (hw : SessionInv w.session) (h : onMessageStep hashRange start (w, b) = .inl (t, b')) :
    onMessageStep hashRange start (w, b ++ c) = .inl (t, b' ++ c) := by
  cases onMessageStep_next h with
  | command hs hf hlt hd =>
    have hlen := findCRLF_lt hf
    rw [← findCRLF_take_append hf c] at hd
    rw [onMessageStep_command hs (findCRLF_append hf c) hlt hd, List.drop_append_of_le_length (by omega)]
  | value hs hle ht =>
    subst ht
    have hend := (hw hs).valueEnd_eq
    have hle' : w.session.valueEnd ≤ (b ++ c).length := by
      rw [List.length_append]
      omega
    rw [onMessageStep_value hs hle', List.take_append_of_le_length (by omega),
      List.drop_append_of_le_length (by omega), List.drop_append_of_le_length (by omega),
      List.take_append_of_le_length (by rw [List.length_drop]; omega)]

theorem plain_exit_append {w : World} {b : Bytes} {r : Outcome} (c : Bytes)
    (h : onMessageStep hashRange (fun _ => 0) (w, b) = .inr r) :
    resumePlain hashRange r c = (plainBody hashRange).run (w, b ++ c) := by
  cases onMessageStep_exit h with
  | noLine hs _ => exact plainBody_searchPos _ hs (b ++ c)
  | tooLong hs hf hle =>
    symm
    apply Loop.Body.run_exit
    change onMessageStep hashRange (fun _ => 0) (w, b ++ c) = _
    simp only [onMessageStep, hs, findCRLF_append hf c, if_pos hle, resumePlain]
  | died hs hf hlt hd =>
    rw [← findCRLF_take_append hf c] at hd
    symm
    apply Loop.Body.run_exit
    change onMessageStep hashRange (fun _ => 0) (w, b ++ c) = _
    simp only [onMessageStep, hs, findCRLF_append hf c, if_neg (Nat.not_le.mpr hlt), hd, resumePlain]
  | noValue _ _ => rfl

theorem plain_resumable :
    Loop.Resumable (plainBody hashRange) (resumePlain hashRange) fun w => SessionInv w.session where
  keep := by
    intro w t b b' _ h
    change onMessageStep hashRange (fun _ => 0) (w, b) = _ at h
    exact SessionInv.step h
  step_append := by
    intro w t b b' c hw h
    change onMessageStep hashRange (fun _ => 0) (w, b) = _ at h
    exact plain_step_append c hw h
  exit_append := by
    intro w b r c _ h
    change onMessageStep hashRange (fun _ => 0) (w, b) = _ at h
    exact plain_exit_append c h

end Plain

/-- Between two calls: a session that waits for a command is fresh, or has searched all of its
unread bytes and found no line end. -/
structure Synced (w : World) (b : Bytes) : Prop where
  inv : SessionInv w.session
  searched : w.session.receiveState = .kReadCommandLine →
    w.session.curSearchPos = none ∧ b = [] ∨ w.session.curSearchPos = some b.length ∧ NoCrlf b

/-- The resumed search finds what a search from `peek()` finds. -/
def SearchAgrees (w : World) (b chunk : Bytes) : Prop :=
  w.session.receiveState = .kReadCommandLine →
    Muduo.findCRLF (b ++ chunk) w.session.searchStart = Muduo.findCRLF (b ++ chunk) 0

/-- The session waits for the end of a command line, and the chunk starts inside its CR LF. -/
def CutInCrlf (w : World) (b chunk : Bytes) : Prop :=
  w.session.receiveState = .kReadCommandLine ∧ b.getLast? = some CR ∧ chunk.head? = some LF

section Search
variable {w : World} {b : Bytes}

omit [Freed] in
theorem Synced.searchAgrees_iff (h : Synced w b) (chunk : Bytes) :
    SearchAgrees w b chunk ↔ ¬CutInCrlf w b chunk := by
  unfold SearchAgrees CutInCrlf
  by_cases hs : w.session.receiveState = .kReadCommandLine
  · simp only [hs, true_and, forall_const]
    rcases h.searched hs with ⟨hp, rfl⟩ | ⟨hp, hb⟩
    · simp [Session.searchStart, hp]
    · simp only [Session.searchStart, hp]
      constructor
      · intro he hcut
        have hfull := Muduo.findCRLF_eq_some.mpr (firstCrlf_cut (c := chunk) hb hcut)
        rw [← he] at hfull
        have hle := (Muduo.findCRLF_eq_some.mp hfull).le
        have hne : b ≠ [] := by
          rintro rfl
          simp at hcut
        have := List.length_pos_of_ne_nil hne
        omega
      · intro hcut
        exact findCRLF_congr (firstCrlf_resume hb hcut)
  · simp [hs]

omit [Muduo] [Freed] in
theorem searchStart_of_none {s : Session} (h : s.curSearchPos = none) : s.searchStart = 0 := by
  simp [Session.searchStart, h]

theorem onMessage_of_none (hp : w.session.curSearchPos = none) :
    onMessage hashRange (w, b) = (plainBody hashRange).run (w, b) := by
  refine Loop.Body.run_congr (L := onMessageBody hashRange Session.searchStart) (M := plainBody hashRange)
    (I := fun p => p.1.session.curSearchPos = none) ?_ ?_ hp
  · rintro ⟨w, b⟩ hp
    have h : onMessageStep hashRange Session.searchStart (w, b) =
        onMessageStep hashRange (fun _ => 0) (w, b) :=
      onMessageStep_congr fun _ => by rw [searchStart_of_none hp]
    exact h
  · rintro ⟨w, b⟩ ⟨t, b'⟩ hp h
    cases onMessageStep_next h with
    | command _ _ _ _ => exact World.commandDone_searchPos _ _
    | value _ _ _ =>
      rw [World.valueDone_session]
      exact hp

/-- When the first search agrees, so does the whole call: later searches start at `peek()`. -/
theorem onMessage_of_searchAgrees {chunk : Bytes} (hw : SessionInv w.session) (ha : SearchAgrees w b chunk) :
    onMessage hashRange (w, b ++ chunk) = (plainBody hashRange).run (w, b ++ chunk) := by
  have hcongr : onMessageStep hashRange Session.searchStart (w, b ++ chunk) =
      onMessageStep hashRange (fun _ => 0) (w, b ++ chunk) := onMessageStep_congr ha
  have hstep : (onMessageBody hashRange Session.searchStart).step (w, b ++ chunk) =
      (plainBody hashRange).step (w, b ++ chunk) := hcongr
  cases h : (plainBody hashRange).step (w, b ++ chunk) with
  | inr r => rw [onMessage, Loop.Body.run_exit _ (hstep.trans h), Loop.Body.run_exit _ h]
  | inl q =>
    obtain ⟨t, b'⟩ := q
    have ht : t.session.curSearchPos = none := by
      change onMessageStep hashRange (fun _ => 0) (w, b ++ chunk) = _ at h
      cases onMessageStep_next h with
      | command _ _ _ _ => exact World.commandDone_searchPos _ _
      | value hs _ _ =>
        rw [World.valueDone_session]
        exact (hw hs).searchPos
    rw [onMessage, Loop.Body.run_next _ (hstep.trans h), Loop.Body.run_next _ h]
    exact onMessage_of_none hashRange ht

/-- A call without the optimisation leaves all unread bytes of a waiting session searched. -/
theorem plain_synced {w' : World} {b' : Bytes} (hw : SessionInv w.session)
    (h : (plainBody hashRange).run (w, b) = .ok (w', b')) : Synced w' b' := by
  revert h
  refine Loop.Body.run_post (L := plainBody hashRange) (I := fun p => SessionInv p.1.session)
    (Q := fun o => o = .ok (w', b') → Synced w' b') ?_ ?_ hw
  · rintro ⟨w, b⟩ ⟨t, b'⟩ - h
    exact SessionInv.step (show onMessageStep hashRange (fun _ => 0) (w, b) = _ from h)
  · rintro ⟨w, b⟩ r hi h hr
    cases onMessageStep_exit (show onMessageStep hashRange (fun _ => 0) (w, b) = _ from h) with
    | noLine hs hf =>
      cases hr
      exact ⟨SessionInv.of_command hs, fun _ => Or.inr ⟨rfl, findCRLF_zero_eq_none.mp hf⟩⟩
    | tooLong _ _ _ => cases hr
    | died _ _ _ _ => cases hr
    | noValue hs _ =>
      cases hr
      refine ⟨hi, fun hs' => ?_⟩
      rw [hs] at hs'
      cases hs'

end Search

def AtEveryChunk (P : World → Bytes → Bytes → Prop) (o : Outcome) (chunks : List Bytes) : Prop :=
  AtEvery (fun before chunk => ∀ w b, before.foldl (deliver hashRange) o = .ok (w, b) → P w b chunk) chunks

theorem atEveryChunk_cons {P : World → Bytes → Bytes → Prop} {o : Outcome} {chunk : Bytes}
    {chunks : List Bytes} : AtEveryChunk hashRange P o (chunk :: chunks) ↔
      (∀ w b, o = .ok (w, b) → P w b chunk) ∧ AtEveryChunk hashRange P (deliver hashRange o chunk) chunks := by
  rw [AtEveryChunk, atEvery_cons]
  rfl

section Runs
variable {hashRange} {o : Outcome}

theorem deliver_of_searchAgrees {chunk : Bytes} (ho : ∀ w b, o = .ok (w, b) → Synced w b)
    (ha : ∀ w b, o = .ok (w, b) → SearchAgrees w b chunk) :
    deliver hashRange o chunk = resumePlain hashRange o chunk ∧
      ∀ w b, deliver hashRange o chunk = .ok (w, b) → Synced w b := by
  cases o with
  | error calls => exact ⟨rfl, fun w b h => by cases h⟩
  | ok q =>
    obtain ⟨w, b⟩ := q
    have hw := (ho w b rfl).inv
    have he : deliver hashRange (.ok (w, b)) chunk = resumePlain hashRange (.ok (w, b)) chunk :=
      onMessage_of_searchAgrees hashRange hw (ha w b rfl)
    refine ⟨he, fun w' b' h => ?_⟩
    rw [he] at h
    exact plain_synced hashRange hw h

theorem foldl_deliver_of_searchAgrees {chunks : List Bytes} (ho : ∀ w b, o = .ok (w, b) → Synced w b)
    (ha : AtEveryChunk hashRange SearchAgrees o chunks) :
    chunks.foldl (deliver hashRange) o = chunks.foldl (resumePlain hashRange) o := by
  induction chunks generalizing o with
  | nil => rfl
  | cons chunk chunks ih =>
    obtain ⟨hhead, htail⟩ := (atEveryChunk_cons hashRange).mp ha
    obtain ⟨he, hs⟩ := deliver_of_searchAgrees ho hhead
    rw [List.foldl_cons, List.foldl_cons, ih hs htail, he]

/-- All resumed searches of a delivery agree exactly when no chunk starts inside a command's CR LF. -/
theorem searchAgrees_iff_uncut {chunks : List Bytes} (ho : ∀ w b, o = .ok (w, b) → Synced w b) :
    AtEveryChunk hashRange SearchAgrees o chunks ↔
      AtEveryChunk hashRange (fun w b chunk => ¬CutInCrlf w b chunk) o chunks := by
  induction chunks generalizing o with
  | nil => simp [AtEveryChunk]
  | cons chunk chunks ih =>
    have hhead : (∀ w b, o = .ok (w, b) → SearchAgrees w b chunk) ↔
        ∀ w b, o = .ok (w, b) → ¬CutInCrlf w b chunk :=
      forall₂_congr fun w b => forall_congr' fun h => (ho w b h).searchAgrees_iff chunk
    rw [atEveryChunk_cons, atEveryChunk_cons, ← hhead]
    exact and_congr_right fun ha => ih (deliver_of_searchAgrees ho ha).2

end Runs

omit [Muduo] [Freed] in
theorem connected_synced (server : MemcachedServer) (w : World) (b : Bytes)
    (h : connected server = .ok (w, b)) : Synced w b := by
  cases h
  exact ⟨SessionInv.fresh, fun _ => Or.inl ⟨rfl, rfl⟩⟩

/-- Searched correctly, a stream leaves the same behind however it is cut. -/
theorem observe_foldl_deliver (server : MemcachedServer) {chunks : List Bytes}
    (ha : AtEveryChunk hashRange SearchAgrees (connected server) chunks) :
    observe (chunks.foldl (deliver hashRange) (connected server)) =
      observe (deliver hashRange (connected server) chunks.flatten) := by
  rw [foldl_deliver_of_searchAgrees (connected_synced server) ha]
  have hwhole : ∀ b, deliver hashRange (connected server) b =
      (plainBody hashRange).run (World.fresh server, b) :=
    fun b => onMessage_of_none hashRange rfl
  rw [hwhole]
  cases chunks with
  | nil =>
    have hf : Muduo.findCRLF [] 0 = none := findCRLF_zero_eq_none.mpr NoCrlf.nil
    have hexit : (plainBody hashRange).run (World.fresh server, []) =
        .ok ((World.fresh server).setSearchPos (some 0), []) := by
      apply Loop.Body.run_exit
      change onMessageStep hashRange (fun _ => 0) (World.fresh server, []) = _
      simp only [onMessageStep, World.fresh, hf]
      rfl
    rw [List.flatten_nil, hexit]
    rfl
  | cons chunk chunks =>
    exact congrArg observe (plain_resumable.foldl_resume (s := World.fresh server) SessionInv.fresh chunk chunks)

/-- A fresh session does the same for every cut of its stream, and every resumed search finds the
line end a full search finds, exactly when no chunk starts between the CR and the LF of the command
line the session waits for. -/
theorem segmentation_iff (server : MemcachedServer) (chunks : List Bytes) :
    (observe (chunks.foldl (deliver hashRange) (connected server)) =
        observe (deliver hashRange (connected server) chunks.flatten) ∧
      AtEveryChunk hashRange SearchAgrees (connected server) chunks) ↔
    AtEveryChunk hashRange (fun w b chunk => ¬CutInCrlf w b chunk) (connected server) chunks := by
  rw [← searchAgrees_iff_uncut (connected_synced server)]
  exact and_iff_right_of_imp (observe_foldl_deliver hashRange server)

omit [Muduo] [Freed] in
/-- `set k 0 0 1`, cut between the CR and the LF of the command line: the value is read as part of
the line and the client gets an error instead of `STORED`. -/
theorem segmentation_cut_in_crlf : ¬∀ (_ : Muduo) (_ : Freed) (hashRange : Bytes → ℕ) (server : MemcachedServer)
    (chunks : List Bytes), (∀ chunk ∈ chunks, chunk ≠ []) →
      observe (chunks.foldl (deliver hashRange) (connected server)) =
        observe (deliver hashRange (connected server) chunks.flatten) := by
  intro h
  have := h Muduo.reference Freed.untouched (fun _ => 0) MemcachedServer.init
    [ascii "set k 0 0 1\r", ascii "\nx\r\n"] (by decide)
  revert this
  decide

end LinuxSocket.Memcached
