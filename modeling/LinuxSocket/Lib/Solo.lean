import LinuxSocket.Lib.Duplex

/-! # A process on an input that ends

The process has no partner: its reads get the input in pieces and then the end of the stream, its writes are
taken in pieces. What it writes and how it ends does not depend on the pieces when a function of its state and of
the rest of the input predicts both.
-/
namespace LinuxSocket.Duplex
variable {α σ ρ : Type*}

/-- A run up to the exit of the process, with what it has written on the way. -/
inductive Solo (P : Process α σ) : σ → List α → List α → σ → Prop
  | exit {x inp} : P.call x = .exit → Solo P x inp [] x
  | write {x xs k inp out y} : P.call x = .write xs → 0 < k → k ≤ xs.length → Solo P (P.onWrite x k) inp out y →
      Solo P x inp (xs.take k ++ out) y
  | read {x count bytes inp out y} : P.call x = .read count → bytes ≠ [] → bytes.length ≤ count →
      Solo P (P.onRead x bytes) inp out y → Solo P x (bytes ++ inp) out y
  | eof {x count out y} : P.call x = .read count → Solo P (P.onRead x []) [] out y → Solo P x [] out y
  | interrupted {x inp out y} : P.call x ≠ .exit → Solo P (P.onInterrupt x) inp out y → Solo P x inp out y

/-- In the states of `I`, which calls do not leave, `F` predicts the output and the result. -/
structure Predicts (P : Process α σ) (I : σ → Prop) (F : σ → List α → List α × ρ) (result : σ → ρ) : Prop where
  exit : ∀ {x inp}, I x → P.call x = .exit → F x inp = ([], result x)
  write : ∀ {x xs k} (inp), I x → P.call x = .write xs → 0 < k → k ≤ xs.length → I (P.onWrite x k) ∧
    F x inp = (xs.take k ++ (F (P.onWrite x k) inp).1, (F (P.onWrite x k) inp).2)
  read : ∀ {x count bytes} (inp), I x → P.call x = .read count → bytes ≠ [] → bytes.length ≤ count →
    I (P.onRead x bytes) ∧ F x (bytes ++ inp) = F (P.onRead x bytes) inp
  eof : ∀ {x count}, I x → P.call x = .read count → I (P.onRead x []) ∧ F x [] = F (P.onRead x []) []
  interrupt : ∀ x, P.onInterrupt x = x

/-- Calls move something, and `size`, of the state and the number of elements to come, bounds their number. -/
structure Shrinks (P : Process α σ) (I : σ → Prop) (size : σ → ℕ → ℕ) : Prop where
  proper : ∀ {x}, I x → (P.call x).Proper
  write : ∀ {x xs n}, I x → P.call x = .write xs → size (P.onWrite x xs.length) n < size x n
  read : ∀ {x count bytes n}, I x → P.call x = .read count → bytes ≠ [] → bytes.length ≤ count →
    size (P.onRead x bytes) n < size x (n + bytes.length)
  eof : ∀ {x count}, I x → P.call x = .read count → size (P.onRead x []) 0 < size x 0

/-- The states that a process comes to while its calls return as they like. -/
inductive Reached (P : Process α σ) (x₀ : σ) : σ → Prop
  | start : Reached P x₀ x₀
  | write {x xs k} : Reached P x₀ x → P.call x = .write xs → 0 < k → k ≤ xs.length → Reached P x₀ (P.onWrite x k)
  | broken {x xs} : Reached P x₀ x → P.call x = .write xs → Reached P x₀ (P.onBroken x)
  | read {x count bytes} : Reached P x₀ x → P.call x = .read count → bytes ≠ [] → bytes.length ≤ count →
      Reached P x₀ (P.onRead x bytes)
  | eof {x count} : Reached P x₀ x → P.call x = .read count → Reached P x₀ (P.onRead x [])
  | interrupted {x} : Reached P x₀ x → P.call x ≠ .exit → Reached P x₀ (P.onInterrupt x)

variable {P : Process α σ} {I : σ → Prop} {F : σ → List α → List α × ρ} {result : σ → ρ} {x y : σ}
  {inp out : List α}

theorem Solo.predicted (h : Solo P x inp out y) (hP : Predicts P I F result) (hx : I x) :
    F x inp = (out, result y) := by
  induction h with
  | exit hc => exact hP.exit hx hc
  | write hc hk hle _ ih =>
    obtain ⟨hI, he⟩ := hP.write _ hx hc hk hle
    rw [he, ih hI]
  | read hc hne hle _ ih =>
    obtain ⟨hI, he⟩ := hP.read _ hx hc hne hle
    rw [he, ih hI]
  | eof hc _ ih =>
    obtain ⟨hI, he⟩ := hP.eof hx hc
    rw [he, ih hI]
  | interrupted _ _ ih =>
    rw [hP.interrupt] at ih
    exact ih hx

/-- The run in which every call moves as much as it can. -/
theorem exists_solo {size : σ → ℕ → ℕ} (hP : Predicts P I F result) (hS : Shrinks P I size) (hx : I x)
    (inp : List α) : ∃ out y, Solo P x inp out y := by
  induction hn : size x inp.length using Nat.strongRecOn generalizing x inp with
  | ind n ih =>
    cases hc : P.call x with
    | exit => exact ⟨[], x, .exit hc⟩
    | write xs =>
      have hproper := hS.proper hx
      rw [hc] at hproper
      have hpos := List.length_pos_of_ne_nil hproper
      obtain ⟨out, y, h⟩ := ih _ (hn ▸ hS.write hx hc) (hP.write inp hx hc hpos (Nat.le_refl _)).1 inp rfl
      exact ⟨_, y, .write hc hpos (Nat.le_refl _) h⟩
    | read count =>
      have hproper := hS.proper hx
      rw [hc] at hproper
      cases inp with
      | nil =>
        obtain ⟨out, y, h⟩ := ih _ (hn ▸ hS.eof hx hc) (hP.eof hx hc).1 [] rfl
        exact ⟨out, y, .eof hc h⟩
      | cons a inp =>
        have hle : ((a :: inp).take count).length ≤ count := List.length_take_le _ _
        have hne : (a :: inp).take count ≠ [] :=
          mt List.take_eq_nil_iff.mp (not_or_intro (Nat.ne_of_gt hproper) (List.cons_ne_nil a inp))
        have hlt := hS.read (n := ((a :: inp).drop count).length) hx hc hne hle
        rw [Nat.add_comm, ← List.length_append, List.take_append_drop] at hlt
        obtain ⟨out, y, h⟩ := ih _ (hn ▸ hlt) (hP.read [] hx hc hne hle).1 _ rfl
        refine ⟨out, y, ?_⟩
        rw [← List.take_append_drop count (a :: inp)]
        exact .read hc hne hle h

end LinuxSocket.Duplex
