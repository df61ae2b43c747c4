import LinuxSocket.Lib.Incremental
import LinuxSocket.Memcached.Session

/-! # The loop of the memcached session and its invariant

`onMessageStep_next` and `onMessageStep_exit` say all that one iteration can do.
The invariant of a session that waits for a value follows from them.
-/
namespace LinuxSocket.Memcached
variable [Muduo] [Freed] (hashRange : Bytes → ℕ) (start : Session → ℕ)

section Step

inductive Continues (w : World) (b : Bytes) : World → Bytes → Prop
  | command {crlf good w'} : w.session.receiveState = .kReadCommandLine →
      Muduo.findCRLF b (start w.session) = some crlf → crlf < 2 ^ 31 →
      doRequestCommand hashRange (b.take crlf) w = .ok (good, w') →
      Continues w b (w'.commandDone good) (b.drop (crlf + 2))
  | value {terminated} : w.session.receiveState = .kReadValue → w.session.valueEnd ≤ b.length →
      decide ((b.drop w.session.curValueLen.toNat).take 2 = CRLF) = terminated →
      Continues w b (w.valueDone hashRange (b.take w.session.curValueLen.toNat) terminated)
        (b.drop (w.session.curValueLen.toNat + 2))

/-- The ways of leaving the loop. -/
inductive Leaves (w : World) (b : Bytes) : Outcome → Prop
  | noLine : w.session.receiveState = .kReadCommandLine → Muduo.findCRLF b (start w.session) = none →
      Leaves w b (.ok (w.setSearchPos (some b.length), b))
  | tooLong {crlf} : w.session.receiveState = .kReadCommandLine →
      Muduo.findCRLF b (start w.session) = some crlf → 2 ^ 31 ≤ crlf → Leaves w b (.error w.calls)
  | died {crlf calls} : w.session.receiveState = .kReadCommandLine →
      Muduo.findCRLF b (start w.session) = some crlf → crlf < 2 ^ 31 →
      doRequestCommand hashRange (b.take crlf) w = .error calls → Leaves w b (.error calls)
  | noValue : w.session.receiveState = .kReadValue → b.length < w.session.valueEnd → Leaves w b (.ok (w, b))

variable {hashRange start} {w t : World} {b b' : Bytes} {r : Outcome}

theorem onMessageStep_next (h : onMessageStep hashRange start (w, b) = .inl (t, b')) :
    Continues hashRange start w b t b' := by
  simp only [onMessageStep] at h
  cases hs : w.session.receiveState with
  | kReadCommandLine =>
    simp only [hs] at h
    cases hf : Muduo.findCRLF b (start w.session) with
    | none => simp [hf] at h
    | some crlf =>
      simp only [hf] at h
      split at h
      · cases h
      · next hlt =>
        cases hd : doRequestCommand hashRange (b.take crlf) w with
        | error calls => simp [hd] at h
        | ok q =>
          simp only [hd, Sum.inl.injEq, Prod.mk.injEq] at h
          obtain ⟨rfl, rfl⟩ := h
          exact .command hs hf (Nat.lt_of_not_le hlt) hd
  | kReadValue =>
    simp only [hs] at h
    split at h
    · next hle =>
      cases h
      exact .value hs hle rfl
    · cases h

theorem onMessageStep_exit (h : onMessageStep hashRange start (w, b) = .inr r) :
    Leaves hashRange start w b r := by
  simp only [onMessageStep] at h
  cases hs : w.session.receiveState with
  | kReadCommandLine =>
    simp only [hs] at h
    cases hf : Muduo.findCRLF b (start w.session) with
    | none =>
      simp only [hf, Sum.inr.injEq] at h
      exact h ▸ .noLine hs hf
    | some crlf =>
      simp only [hf] at h
      split at h
      · next hle =>
        cases h
        exact .tooLong hs hf hle
      · next hlt =>
        cases hd : doRequestCommand hashRange (b.take crlf) w with
        | error calls =>
          simp only [hd, Sum.inr.injEq] at h
          exact h ▸ .died hs hf (Nat.lt_of_not_le hlt) hd
        | ok q => simp [hd] at h
  | kReadValue =>
    simp only [hs] at h
    split at h
    · cases h
    · next hlt =>
      cases h
      exact .noValue hs (Nat.lt_of_not_le hlt)

theorem onMessageStep_command {crlf : ℕ} {good : Bool} {w' : World}
    (hs : w.session.receiveState = .kReadCommandLine) (hf : Muduo.findCRLF b (start w.session) = some crlf)
    (hlt : crlf < 2 ^ 31) (hd : doRequestCommand hashRange (b.take crlf) w = .ok (good, w')) :
    onMessageStep hashRange start (w, b) = .inl (w'.commandDone good, b.drop (crlf + 2)) := by
  simp only [onMessageStep, hs, hf, if_neg (Nat.not_le.mpr hlt), hd]

theorem onMessageStep_value (hs : w.session.receiveState = .kReadValue)
    (hle : w.session.valueEnd ≤ b.length) :
    onMessageStep hashRange start (w, b) =
      .inl (w.valueDone hashRange (b.take w.session.curValueLen.toNat)
        (decide ((b.drop w.session.curValueLen.toNat).take 2 = CRLF)),
        b.drop (w.session.curValueLen.toNat + 2)) := by
  simp only [onMessageStep, hs, if_pos hle]

theorem onMessageStep_congr {start' : Session → ℕ} (h : w.session.receiveState = .kReadCommandLine →
      Muduo.findCRLF b (start w.session) = Muduo.findCRLF b (start' w.session)) :
    onMessageStep hashRange start (w, b) = onMessageStep hashRange start' (w, b) := by
  unfold onMessageStep
  dsimp only
  cases hs : w.session.receiveState with
  | kReadCommandLine => rw [h hs]
  | kReadValue => rfl

end Step

/-- Every iteration that continues removes two bytes or leaves `kReadValue`. -/
def onMessageBody : Loop.Body (World × Bytes) Outcome where
  step := onMessageStep hashRange start
  variant p := 2 * p.2.length + if p.1.session.receiveState = .kReadValue then 1 else 0
  decreases := by
    rintro ⟨w, b⟩ ⟨t, b'⟩ h
    cases onMessageStep_next h with
    | command hs hf _ _ =>
      have hlt := findCRLF_lt hf
      simp only [hs, List.length_drop]
      split <;> simp <;> omega
    | value hs _ _ =>
      simp only [hs, World.valueDone_session, List.length_drop]
      simp

def onMessage (p : World × Bytes) : Outcome := (onMessageBody hashRange Session.searchStart).run p

variable {hashRange} in
theorem onMessage_next {p q : World × Bytes} (h : onMessageStep hashRange Session.searchStart p = .inl q) :
    onMessage hashRange p = onMessage hashRange q :=
  Loop.Body.run_next (onMessageBody hashRange Session.searchStart) h

end LinuxSocket.Memcached
