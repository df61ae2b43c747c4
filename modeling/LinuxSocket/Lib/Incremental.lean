import LinuxSocket.Lib.Loop

/-! # Loops that read a stream piecewise

A reader keeps a control state and the bytes it has not consumed. When an
iteration does not depend on bytes behind the ones it uses, and every exit can be
resumed, the result does not depend on how the stream is cut into chunks.
-/
namespace LinuxSocket.Loop
variable {σ α ρ : Type*} (L : Body (σ × List α) ρ) (resume : ρ → List α → ρ) (I : σ → Prop)

/-- Where `I` holds, iterations keep it and are stable under appended input, and exits can be resumed. -/
structure Resumable : Prop where
  keep : ∀ {s t b b'}, I s → L.step (s, b) = .inl (t, b') → I t
  step_append : ∀ {s t b b'} (c : List α), I s → L.step (s, b) = .inl (t, b') →
    L.step (s, b ++ c) = .inl (t, b' ++ c)
  exit_append : ∀ {s b r} (c : List α), I s → L.step (s, b) = .inr r → resume r c = L.run (s, b ++ c)

variable {L resume I}

/-- Two deliveries are one delivery of both chunks. -/
theorem Resumable.run_append (h : Resumable L resume I) {x : σ × List α} (hx : I x.1) (c : List α) :
    resume (L.run x) c = L.run (x.1, x.2 ++ c) := by
  induction x using L.induction with
  | h x ih =>
    cases hs : L.step x with
    | inr r => rw [L.run_exit hs, h.exit_append c hx hs]
    | inl y => rw [L.run_next hs, ih y hs (h.keep hx hs), L.run_next (h.step_append c hx hs)]

/-- Any number of deliveries are one delivery of the whole stream. -/
theorem Resumable.foldl_resume (h : Resumable L resume I) {s : σ} (hs : I s) (b : List α)
    (chunks : List (List α)) :
    chunks.foldl resume (L.run (s, b)) = L.run (s, b ++ chunks.flatten) := by
  induction chunks generalizing b with
  | nil => simp
  | cons c cs ih =>
    rw [List.foldl_cons, h.run_append (x := (s, b)) hs c, ih]
    simp

end LinuxSocket.Loop
