import LinuxSocket.Memcached.OnMessage

/-! # What a session that waits for a value has read before

An accepted `set` leaves numbers in range and a key of legal length; no later
iteration touches them until the value has arrived.
-/
namespace LinuxSocket.Memcached

/-- The fields an accepted `set` line leaves. -/
structure SetAccepted (s : Session) : Prop where
  key : 1 ≤ s.curKey.length ∧ s.curKey.length ≤ kLongestKeySize
  flag : 0 ≤ s.curFlag
  exptime : 0 ≤ s.curExptime
  valueLen : 0 ≤ s.curValueLen ∧ s.curValueLen < 1048576

structure ValuePending (s : Session) : Prop extends SetAccepted s where
  command : s.curCommandType = .kSet
  searchPos : s.curSearchPos = none

def SessionInv (s : Session) : Prop := s.receiveState = .kReadValue → ValuePending s

theorem SessionInv.fresh : SessionInv {} := by
  intro h
  cases h

theorem SessionInv.of_command {s : Session} (h : s.receiveState = .kReadCommandLine) : SessionInv s := by
  intro h'
  rw [h] at h'
  cases h'

theorem ValuePending.valueEnd_eq {s : Session} (h : ValuePending s) :
    s.valueEnd = s.curValueLen.toNat + 2 := by
  have := h.valueLen
  unfold Session.valueEnd
  omega

theorem readNumbers_frame (words : List StringPiece) (s : Session) : ∃ flag exptime valueLen,
    (readNumbers words s).2 =
      { s with curFlag := flag, curExptime := exptime, curValueLen := valueLen } := by
  unfold readNumbers
  split
  · exact ⟨_, _, _, rfl⟩
  · dsimp only
    split
    · exact ⟨_, _, _, rfl⟩
    · split <;> exact ⟨_, _, _, rfl⟩

/-- The fields that `doUpdate` reads from the words, and whether the key was short enough to read on. -/
def updateFields (word : StringPiece) (words : List StringPiece) (s : Session) : Bool × Session :=
  let s := { s with curKey := word.asString }
  if decide (s.curKey.length ≤ kLongestKeySize) then readNumbers words s else (false, s)

theorem doUpdate_cons (word : StringPiece) (words : List StringPiece) (w : World) {good : Bool} {s : Session}
    (h : updateFields word words w.session = (good, s)) : doUpdate (word :: words) w =
      if !(good && decide (0 ≤ s.curFlag) && decide (0 ≤ s.curExptime) && decide (0 ≤ s.curValueLen)) then
        (false, { w with session := s }.sendClientError)
      else if 1024 * 1024 ≤ s.curValueLen then
        (false, { w with session := s }.send (ascii "SERVER_ERROR object too large for cache\r\n"))
      else (true, { w with session := s }) := by
  obtain ⟨rfl, rfl⟩ := Prod.mk.inj h.symm
  rfl

theorem updateFields_frame {word : StringPiece} {words : List StringPiece} {s s' : Session} {good : Bool}
    (h : updateFields word words s = (good, s')) : (∃ flag exptime valueLen,
      s' = { s with
        curKey := word.asString, curFlag := flag, curExptime := exptime, curValueLen := valueLen }) ∧
    (good = true → word.asString.length ≤ kLongestKeySize) := by
  unfold updateFields at h
  dsimp only at h
  split at h
  · next hk =>
    have hr := readNumbers_frame words { s with curKey := word.asString }
    rw [h] at hr
    exact ⟨hr, fun _ => of_decide_eq_true hk⟩
  · cases h
    exact ⟨⟨_, _, _, rfl⟩, by simp⟩

theorem doUpdate_spec {words : List StringPiece} (hwords : ∀ word ∈ words, word.asString ≠ []) (w : World) :
    (doUpdate words w).2.session.receiveState = w.session.receiveState ∧
    (doUpdate words w).2.session.curSearchPos = w.session.curSearchPos ∧
    ((doUpdate words w).1 = true → SetAccepted (doUpdate words w).2.session) := by
  cases words with
  | nil => exact ⟨rfl, rfl, by simp [doUpdate]⟩
  | cons word words =>
    have hkey := List.length_pos_of_ne_nil (hwords word List.mem_cons_self)
    cases hf : updateFields word words w.session with
    | mk good s =>
      obtain ⟨⟨flag, exptime, valueLen, hs⟩, hshort⟩ := updateFields_frame hf
      rw [doUpdate_cons word words w hf]
      split
      · exact ⟨by simp [hs], by simp [hs], by simp⟩
      · next hgood =>
        split
        · exact ⟨by simp [hs], by simp [hs], by simp⟩
        · next hlen =>
          refine ⟨by simp [hs], by simp [hs], fun _ => ?_⟩
          simp only [Bool.not_eq_true', Bool.not_eq_false, Bool.and_eq_true, decide_eq_true_eq] at hgood
          obtain ⟨⟨⟨hread, hflag⟩, hexp⟩, hval⟩ := hgood
          have hk : s.curKey = word.asString := by rw [hs]
          exact ⟨by dsimp only; rw [hk]; exact ⟨hkey, hshort hread⟩, hflag, hexp, hval, by dsimp only; omega⟩

section Handlers
variable [Muduo] [Freed] {hashRange : Bytes → ℕ}

theorem doGet_session {words : List StringPiece} {w w' : World} {good : Bool}
    (h : doGet hashRange words w = .ok (good, w')) : w'.session = w.session := by
  unfold doGet at h
  split at h
  · cases h
    rfl
  · dsimp only at h
    split at h
    · cases h
    · cases h
      rfl

theorem doRequestCommand_spec {request : Bytes} {w w' : World} {good : Bool}
    (h : doRequestCommand hashRange request w = .ok (good, w')) :
    w'.session.receiveState = w.session.receiveState ∧ w'.session.curSearchPos = w.session.curSearchPos ∧
    (good = true → w'.session.curCommandType = .kSet → SetAccepted w'.session) := by
  unfold doRequestCommand at h
  split at h
  · cases h
    exact ⟨rfl, rfl, by simp⟩
  · next word words htok =>
    split at h
    · cases h
      exact ⟨rfl, rfl, by simp⟩
    · have hwords : ∀ word ∈ words, word.asString ≠ [] := fun x hx =>
        asString_ne_nil (htok ▸ List.mem_cons_of_mem _ hx)
      have hu := doUpdate_spec hwords (w.setCommandType .kSet)
      rw [Except.ok.inj h] at hu
      exact ⟨hu.1, hu.2.1, fun hg _ => hu.2.2 hg⟩
    · have hs := doGet_session h
      rw [hs]
      refine ⟨rfl, rfl, fun _ hc => ?_⟩
      simp [World.setCommandType] at hc
    · cases h
      exact ⟨rfl, rfl, by simp⟩

theorem SessionInv.step {start : Session → ℕ} {w t : World} {b b' : Bytes}
    (h : onMessageStep hashRange start (w, b) = .inl (t, b')) : SessionInv t.session := by
  cases onMessageStep_next h with
  | command hs _ _ hd =>
    obtain ⟨hstate, -, hacc⟩ := doRequestCommand_spec hd
    intro hv
    unfold World.commandDone at hv ⊢
    dsimp only at hv ⊢
    split at hv
    · next hset =>
      rw [if_pos hset]
      simp only [Bool.and_eq_true, beq_iff_eq] at hset
      have h := hacc hset.1 hset.2
      exact ⟨⟨h.key, h.flag, h.exptime, h.valueLen⟩, hset.2, rfl⟩
    · simp [World.setSearchPos, hstate, hs] at hv
  | value _ _ _ =>
    apply SessionInv.of_command
    rw [World.valueDone_session]

end Handlers

end LinuxSocket.Memcached
