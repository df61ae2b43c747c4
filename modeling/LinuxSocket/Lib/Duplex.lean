import Mathlib.Data.List.Infix
import Mathlib.Tactic.Common

/-! # Two processes joined by two bounded channels

A process is always in a call that writes or reads, and a call moves a part of what it is asked for. When each
process writes one stream while it reads the other, this holds in every interleaving, and the two can only be
stuck while both write to full channels or both read from empty ones.
-/
namespace LinuxSocket.Duplex

/-- A channel of `cap` cells, with all that was put into it and how much of this was taken. -/
structure Channel (α : Type*) (cap : ℕ) where
  sent : List α
  taken : ℕ
  taken_le : taken ≤ sent.length
  le_cap : sent.length ≤ taken + cap

namespace Channel
variable {α : Type*} {cap : ℕ}

def empty : Channel α cap := ⟨[], 0, Nat.le_refl 0, Nat.zero_le _⟩

/-- What is in the channel. -/
def content (c : Channel α cap) : List α := c.sent.drop c.taken

def received (c : Channel α cap) : List α := c.sent.take c.taken

def put (c : Channel α cap) (xs : List α) : Option (Channel α cap) :=
  if h : c.sent.length + xs.length ≤ c.taken + cap then
    some ⟨c.sent ++ xs, c.taken, by
      rw [List.length_append]
      exact Nat.le_add_right_of_le c.taken_le, by rwa [List.length_append]⟩
  else none

def take (c : Channel α cap) (k : ℕ) : Option (List α × Channel α cap) :=
  if h : c.taken + k ≤ c.sent.length then
    some (c.content.take k, ⟨c.sent, c.taken + k, h, by
      have := c.le_cap
      omega⟩)
  else none

theorem put_eq_some {c d : Channel α cap} {xs : List α} (h : c.put xs = some d) :
    d.sent = c.sent ++ xs ∧ d.taken = c.taken := by
  unfold put at h
  split at h
  · obtain rfl := Option.some.inj h
    exact ⟨rfl, rfl⟩
  · cases h

theorem put_isSome {c : Channel α cap} {xs : List α} (h : c.sent.length + xs.length ≤ c.taken + cap) :
    ∃ d, c.put xs = some d := ⟨_, dif_pos h⟩

theorem take_eq_some {c d : Channel α cap} {k : ℕ} {xs : List α} (h : c.take k = some (xs, d)) :
    c.taken + k ≤ c.sent.length ∧ xs = c.content.take k ∧ d.sent = c.sent ∧ d.taken = c.taken + k := by
  unfold take at h
  split at h
  · next hle =>
    obtain ⟨rfl, rfl⟩ := Prod.mk.inj (Option.some.inj h)
    exact ⟨hle, rfl, rfl, rfl⟩
  · cases h

theorem take_isSome {c : Channel α cap} {k : ℕ} (h : c.taken + k ≤ c.sent.length) :
    ∃ xs d, c.take k = some (xs, d) := ⟨_, _, dif_pos h⟩

/-- A channel from which all was taken is empty. -/
theorem content_eq_nil {c : Channel α cap} (h : c.taken = c.sent.length) : c.content = [] := by
  rw [content, h, List.drop_length]

end Channel

inductive Pending (α : Type*)
  | write (xs : List α)
  | read (count : ℕ)
  | exit

/-- A call that asks for something to be moved. -/
def Pending.Proper {α : Type*} : Pending α → Prop
  | .write xs => xs ≠ []
  | .read count => 0 < count
  | .exit => True

/-- A process by the call it is in and by what it does when the call returns: after a write of a part of the
data, after a read of some data or of `[]` at the end of the stream, after a write that nobody can read any
more, and after an interrupt. -/
structure Process (α σ : Type*) where
  call : σ → Pending α
  onWrite : σ → ℕ → σ
  onRead : σ → List α → σ
  onBroken : σ → σ
  onInterrupt : σ → σ

inductive Return
  | moved (k : ℕ)
  | closed
  | interrupted
  deriving DecidableEq

structure Link (α σ τ : Type*) (m n : ℕ) where
  left : σ
  right : τ
  toRight : Channel α m
  toLeft : Channel α n

inductive Side
  | left
  | right

namespace Link
variable {α σ τ : Type*} {m n : ℕ}

def start (x : σ) (y : τ) : Link α σ τ m n := ⟨x, y, .empty, .empty⟩

/-- The same link seen from the other side. -/
def swap (s : Link α σ τ m n) : Link α τ σ n m := ⟨s.right, s.left, s.toLeft, s.toRight⟩

/-- The call of the left process returns. -/
def stepLeft (P : Process α σ) (Q : Process α τ) (s : Link α σ τ m n) : Return → Option (Link α σ τ m n)
  | .moved k =>
    match P.call s.left with
    | .write xs =>
      if 0 < k ∧ k ≤ xs.length then
        (s.toRight.put (xs.take k)).map fun c => { s with left := P.onWrite s.left k, toRight := c }
      else none
    | .read count =>
      if 0 < k ∧ k ≤ count then
        (s.toLeft.take k).map fun p => { s with left := P.onRead s.left p.1, toLeft := p.2 }
      else none
    | .exit => none
  | .closed =>
    match P.call s.left, Q.call s.right with
    | .write _, .exit => some { s with left := P.onBroken s.left }
    | .read _, .exit =>
      if s.toLeft.taken = s.toLeft.sent.length then some { s with left := P.onRead s.left [] } else none
    | _, _ => none
  | .interrupted =>
    match P.call s.left with
    | .exit => none
    | _ => some { s with left := P.onInterrupt s.left }

def step (P : Process α σ) (Q : Process α τ) (s : Link α σ τ m n) : Side → Return → Option (Link α σ τ m n)
  | .left, e => s.stepLeft P Q e
  | .right, e => (s.swap.stepLeft Q P e).map swap

def run (P : Process α σ) (Q : Process α τ) (s : Link α σ τ m n) : List (Side × Return) → Option (Link α σ τ m n)
  | [] => some s
  | (side, r) :: schedule => (s.step P Q side r).bind fun s' => run P Q s' schedule

inductive Reachable (P : Process α σ) (Q : Process α τ) (s₀ : Link α σ τ m n) : Link α σ τ m n → Prop
  | refl : Reachable P Q s₀ s₀
  | step {s s' side e} : Reachable P Q s₀ s → s.step P Q side e = some s' → Reachable P Q s₀ s'

theorem Reachable.run {P : Process α σ} {Q : Process α τ} {s₀ s s' : Link α σ τ m n} {schedule : List (Side × Return)}
    (h : Reachable P Q s₀ s) (hrun : s.run P Q schedule = some s') : Reachable P Q s₀ s' := by
  induction schedule generalizing s with
  | nil => rwa [← Option.some.inj hrun]
  | cons e schedule ih =>
    obtain ⟨t, ht, hrest⟩ := Option.bind_eq_some_iff.mp hrun
    exact ih (h.step ht) hrest

def Stuck (P : Process α σ) (Q : Process α τ) (s : Link α σ τ m n) : Prop :=
  ∀ side e, e ≠ .interrupted → s.step P Q side e = none

end Link

section Parts
variable {α : Type*} {xs ys : List α} {b k : ℕ}

theorem drop_ne_nil (h : b < xs.length) : xs.drop b ≠ [] := mt List.drop_eq_nil_iff.mp (Nat.not_le.mpr h)

theorem length_take_drop (h : b + k ≤ xs.length) : ((xs.drop b).take k).length = k := by
  rw [List.length_take, List.length_drop]
  omega

/-- What comes first where the rest of `xs` comes first. -/
theorem prefix_take_eq (h : xs.drop b <+: ys) (hk : b + k ≤ xs.length) : ys.take k = (xs.drop b).take k := by
  obtain ⟨t, rfl⟩ := h
  exact List.take_append_of_le_length (by rw [List.length_drop]; omega)

/-- The next part of a list prolongs the part that is there. -/
theorem prefix_append_take (h : xs <+: ys) {zs : List α} (hzs : zs <+: ys.drop xs.length) :
    xs ++ zs.take k <+: ys := by
  obtain ⟨t, rfl⟩ := h
  rw [List.drop_left] at hzs
  exact (List.prefix_append_right_inj xs).mpr ((List.take_prefix k zs).trans hzs)

end Parts

section Streams
variable {α σ τ : Type*} {m n a b k count : ℕ} {out inp xs : List α} {P : Process α σ} {Q : Process α τ}
variable {L : σ → ℕ → ℕ → Prop} {R : τ → ℕ → ℕ → Prop} {s s' s₀ : Link α σ τ m n} {x : σ}

/-- While the process reads the stream `inp` it writes the stream `out`; `L x a b` holds of its states after
`a` elements written and `b` read. -/
structure Streams (P : Process α σ) (out inp : List α) (L : σ → ℕ → ℕ → Prop) : Prop where
  proper : ∀ {x a b}, L x a b → (P.call x).Proper
  write : ∀ {x a b xs}, L x a b → P.call x = .write xs → xs <+: out.drop a ∧
    ∀ k, 0 < k → k ≤ xs.length → L (P.onWrite x k) (a + k) b
  read : ∀ {x a b count}, L x a b → P.call x = .read count → ∀ k, 0 < k → k ≤ count → b + k ≤ inp.length →
    L (P.onRead x ((inp.drop b).take k)) a (b + k)
  eof : ∀ {x a count}, L x a inp.length → P.call x = .read count → L (P.onRead x []) a inp.length
  interrupt : ∀ {x a b}, L x a b → P.call x ≠ .exit → L (P.onInterrupt x) a b
  exit : ∀ {x a b}, L x a b → P.call x = .exit → a = out.length ∧ b = inp.length

/-- Each process is where its stream is, and the channels hold parts of the streams. -/
structure Matched (out inp : List α) (L : σ → ℕ → ℕ → Prop) (R : τ → ℕ → ℕ → Prop) (s : Link α σ τ m n) :
    Prop where
  left : L s.left s.toRight.sent.length s.toLeft.taken
  right : R s.right s.toLeft.sent.length s.toRight.taken
  toRight : s.toRight.sent <+: out
  toLeft : s.toLeft.sent <+: inp

theorem Matched.swap (h : Matched out inp L R s) : Matched inp out R L s.swap :=
  ⟨h.right, h.left, h.toLeft, h.toRight⟩

/-- A process writes no more than its stream. -/
theorem Streams.write_lt (hP : Streams P out inp L) (hx : L x a b) (hcall : P.call x = .write xs) :
    a < out.length := by
  have hne : xs ≠ [] := by
    have := hP.proper hx
    rwa [hcall] at this
  have hlen := (hP.write hx hcall).1.length_le
  have hpos := List.length_pos_iff.mpr hne
  rw [List.length_drop] at hlen
  omega

theorem Matched.wrote (hP : Streams P out inp L) (h : Matched out inp L R s) (hcall : P.call s.left = .write xs)
    (hk : 0 < k ∧ k ≤ xs.length) {c : Channel α m} (hput : s.toRight.put (xs.take k) = some c) :
    Matched out inp L R { s with left := P.onWrite s.left k, toRight := c } := by
  obtain ⟨hsent, htaken⟩ := Channel.put_eq_some hput
  obtain ⟨hpre, hnext⟩ := hP.write h.left hcall
  refine ⟨?_, ?_, ?_, h.toLeft⟩
  · have := hnext k hk.1 hk.2
    rwa [hsent, List.length_append, List.length_take_of_le hk.2]
  · rw [htaken]
    exact h.right
  · rw [hsent]
    exact prefix_append_take h.toRight hpre

theorem Matched.read (hP : Streams P out inp L) (h : Matched out inp L R s) (hcall : P.call s.left = .read count)
    (hk : 0 < k ∧ k ≤ count) {c : Channel α n} (htake : s.toLeft.take k = some (xs, c)) :
    Matched out inp L R { s with left := P.onRead s.left xs, toLeft := c } := by
  obtain ⟨hle, rfl, hsent, htaken⟩ := Channel.take_eq_some htake
  refine ⟨?_, ?_, h.toRight, ?_⟩
  · have := hP.read h.left hcall k hk.1 hk.2 (Nat.le_trans hle h.toLeft.length_le)
    have hpre := h.toLeft.drop s.toLeft.taken
    rwa [htaken, Channel.content, ← prefix_take_eq hpre hle]
  · rw [hsent]
    exact h.right
  · rw [hsent]
    exact h.toLeft

/-- A process that still writes has a reader. -/
theorem Matched.not_broken (hP : Streams P out inp L) (hQ : Streams Q inp out R) (h : Matched out inp L R s)
    (hcall : P.call s.left = .write xs) : Q.call s.right ≠ .exit := by
  intro hexit
  have hall := (hQ.exit h.right hexit).2
  have hlt := hP.write_lt h.left hcall
  have hle := s.toRight.taken_le
  omega

theorem Matched.eof (hP : Streams P out inp L) (hQ : Streams Q inp out R) (h : Matched out inp L R s)
    (hcall : P.call s.left = .read count) (hexit : Q.call s.right = .exit)
    (hempty : s.toLeft.taken = s.toLeft.sent.length) :
    Matched out inp L R { s with left := P.onRead s.left [] } := by
  have hall := (hQ.exit h.right hexit).1
  have hleft := h.left
  rw [hempty, hall] at hleft
  refine ⟨?_, h.right, h.toRight, h.toLeft⟩
  rw [hempty, hall]
  exact hP.eof hleft hcall

theorem Matched.stepLeft (hP : Streams P out inp L) (hQ : Streams Q inp out R) (h : Matched out inp L R s)
    {r : Return} (hs : s.stepLeft P Q r = some s') : Matched out inp L R s' := by
  cases r with
  | moved k =>
    simp only [Link.stepLeft] at hs
    split at hs
    · next xs hcall =>
      split at hs
      · next hk =>
        obtain ⟨c, hput, rfl⟩ := Option.map_eq_some_iff.mp hs
        exact h.wrote hP hcall hk hput
      · cases hs
    · next count hcall =>
      split at hs
      · next hk =>
        obtain ⟨⟨xs, c⟩, htake, rfl⟩ := Option.map_eq_some_iff.mp hs
        exact h.read hP hcall hk htake
      · cases hs
    · cases hs
  | closed =>
    simp only [Link.stepLeft] at hs
    split at hs
    · next hcall hexit => exact absurd hexit (h.not_broken hP hQ hcall)
    · next hcall hexit =>
      split at hs
      · next hempty =>
        obtain rfl := Option.some.inj hs
        exact h.eof hP hQ hcall hexit hempty
      · cases hs
    · cases hs
  | interrupted =>
    simp only [Link.stepLeft] at hs
    split at hs
    · cases hs
    · next hcall =>
      obtain rfl := Option.some.inj hs
      exact ⟨hP.interrupt h.left hcall, h.right, h.toRight, h.toLeft⟩

/-- The two processes write their streams in every interleaving. -/
theorem Matched.of_reachable (hP : Streams P out inp L) (hQ : Streams Q inp out R) (h₀ : Matched out inp L R s₀)
    (h : Link.Reachable P Q s₀ s) : Matched out inp L R s := by
  induction h with
  | refl => exact h₀
  | @step s s' side r _ hs ih =>
    cases side with
    | left => exact ih.stepLeft hP hQ hs
    | right =>
      obtain ⟨t, ht, rfl⟩ := Option.map_eq_some_iff.mp hs
      exact (ih.swap.stepLeft hQ hP ht).swap

theorem Matched.start (hL : L x 0 0) {y : τ} (hR : R y 0 0) :
    Matched out inp L R (Link.start x y : Link α σ τ m n) := ⟨hL, hR, List.nil_prefix, List.nil_prefix⟩

/-- When both processes have finished, the streams have been written and read. -/
theorem Matched.exit (hP : Streams P out inp L) (hQ : Streams Q inp out R) (h : Matched out inp L R s)
    (hleft : P.call s.left = .exit) (hright : Q.call s.right = .exit) :
    (s.toRight.received = out ∧ s.toRight.content = []) ∧ s.toLeft.received = inp ∧ s.toLeft.content = [] := by
  obtain ⟨ha, hb⟩ := hP.exit h.left hleft
  obtain ⟨hd, hc⟩ := hQ.exit h.right hright
  have hright := h.toRight.eq_of_length ha
  have hleft := h.toLeft.eq_of_length hd
  refine ⟨⟨?_, Channel.content_eq_nil (hc.trans ha.symm)⟩, ?_, Channel.content_eq_nil (hb.trans hd.symm)⟩
  · rw [Channel.received, hright, hc, List.take_length]
  · rw [Channel.received, hleft, hb, List.take_length]

end Streams

section Deadlock
variable {α σ τ : Type*} {m n k count : ℕ} {out inp xs ys : List α} {P : Process α σ} {Q : Process α τ}
variable {L : σ → ℕ → ℕ → Prop} {R : τ → ℕ → ℕ → Prop} {s s₀ : Link α σ τ m n}

/-- A writer with room in its channel. -/
theorem Link.stepLeft_write (hcall : P.call s.left = .write xs) (hk : 0 < k ∧ k ≤ xs.length)
    (hroom : s.toRight.sent.length + k ≤ s.toRight.taken + m) :
    ∃ c, s.stepLeft P Q (.moved k) = some { s with left := P.onWrite s.left k, toRight := c } ∧
      c.sent = s.toRight.sent ++ xs.take k ∧ c.taken = s.toRight.taken := by
  have hput : s.toRight.sent.length + (xs.take k).length ≤ s.toRight.taken + m := by
    rwa [List.length_take_of_le hk.2]
  obtain ⟨c, hput⟩ := Channel.put_isSome hput
  refine ⟨c, ?_, Channel.put_eq_some hput⟩
  simp only [Link.stepLeft, hcall, if_pos hk, hput, Option.map_some]

/-- A reader with data in its channel. -/
theorem Link.stepLeft_read (hcall : P.call s.left = .read count) (hk : 0 < k ∧ k ≤ count)
    (hdata : s.toLeft.taken + k ≤ s.toLeft.sent.length) :
    ∃ c, s.stepLeft P Q (.moved k) = some { s with left := P.onRead s.left (s.toLeft.content.take k), toLeft := c } ∧
      c.sent = s.toLeft.sent ∧ c.taken = s.toLeft.taken + k := by
  obtain ⟨ys, c, htake⟩ := Channel.take_isSome hdata
  obtain ⟨-, rfl, hc⟩ := Channel.take_eq_some htake
  refine ⟨c, ?_, hc⟩
  simp only [Link.stepLeft, hcall, if_pos hk, htake, Option.map_some]

theorem Link.Reachable.left {s' : Link α σ τ m n} {r : Return} (h : Link.Reachable P Q s₀ s)
    (hstep : s.stepLeft P Q r = some s') : Link.Reachable P Q s₀ s' := by
  have hleft : s.step P Q .left r = some s' := hstep
  exact h.step hleft

theorem Link.Reachable.right {t : Link α τ σ n m} {r : Return} (h : Link.Reachable P Q s₀ s)
    (hstep : s.swap.stepLeft Q P r = some t) : Link.Reachable P Q s₀ t.swap := by
  have hright : s.step P Q .right r = some t.swap := Option.map_eq_some_iff.mpr ⟨t, hstep, rfl⟩
  exact h.step hright

theorem Link.Stuck.swap (h : s.Stuck P Q) : s.swap.Stuck Q P := by
  rintro (_ | _) r hr
  · exact Option.map_eq_none_iff.mp (h .right r hr)
  · exact Option.map_eq_none_iff.mpr (h .left r hr)

/-- A stuck writer has filled its channel. -/
theorem Link.Stuck.full (h : s.Stuck P Q) (hcall : P.call s.left = .write xs) (hne : xs ≠ []) :
    s.toRight.sent.length = s.toRight.taken + m := by
  refine Nat.le_antisymm s.toRight.le_cap (Nat.le_of_not_lt fun hroom => ?_)
  obtain ⟨c, hstep, -⟩ :=
    Link.stepLeft_write (Q := Q) hcall ⟨Nat.one_pos, List.length_pos_iff.mpr hne⟩ hroom
  exact Option.some_ne_none _ (hstep.symm.trans (h .left (.moved 1) (by decide)))

/-- A stuck reader has emptied its channel, and the other process may still write. -/
theorem Link.Stuck.empty (h : s.Stuck P Q) (hcall : P.call s.left = .read count) (hpos : 0 < count) :
    s.toLeft.taken = s.toLeft.sent.length ∧ Q.call s.right ≠ .exit := by
  have hempty : s.toLeft.taken = s.toLeft.sent.length := by
    refine Nat.le_antisymm s.toLeft.taken_le (Nat.le_of_not_lt fun hlt => ?_)
    obtain ⟨c, hstep, -⟩ := Link.stepLeft_read (Q := Q) hcall ⟨Nat.one_pos, hpos⟩ hlt
    exact Option.some_ne_none _ (hstep.symm.trans (h .left (.moved 1) (by decide)))
  refine ⟨hempty, fun hexit => ?_⟩
  have hnone := h .left .closed (by decide)
  simp only [Link.step, Link.stepLeft, hcall, hexit, if_pos hempty, reduceCtorEq] at hnone

/-- A writer cannot move anything into a full channel. -/
theorem Link.stepLeft_full (hcall : P.call s.left = .write xs) (hopen : Q.call s.right ≠ .exit)
    (hfull : s.toRight.sent.length = s.toRight.taken + m) {r : Return} (hr : r ≠ .interrupted) :
    s.stepLeft P Q r = none := by
  cases r with
  | moved k =>
    simp only [Link.stepLeft, hcall]
    split
    · next hk =>
      have hput : s.toRight.put (xs.take k) = none := by
        refine dif_neg ?_
        rw [List.length_take_of_le hk.2]
        omega
      rw [hput, Option.map_none]
    · rfl
  | closed =>
    simp only [Link.stepLeft, hcall]
    cases hright : Q.call s.right with
    | exit => exact absurd hright hopen
    | write => rfl
    | read => rfl
  | interrupted => exact absurd rfl hr

/-- Two writers with full channels are stuck. -/
theorem Link.stuck_of_full (hl : P.call s.left = .write xs) (hr : Q.call s.right = .write ys)
    (hright : s.toRight.sent.length = s.toRight.taken + m) (hleft : s.toLeft.sent.length = s.toLeft.taken + n) :
    s.Stuck P Q := by
  have hopen : Q.call s.right ≠ .exit := by simp [hr]
  have hopen' : P.call s.left ≠ .exit := by simp [hl]
  rintro (_ | _) r hne
  · exact stepLeft_full hl hopen hright hne
  · exact Option.map_eq_none_iff.mpr (stepLeft_full (s := s.swap) hr hopen' hleft hne)

/-- The two processes are stuck only when both have finished, both write to full channels, or both read from
empty ones. -/
theorem Matched.stuck (hP : Streams P out inp L) (hQ : Streams Q inp out R) (hm : 0 < m) (hn : 0 < n)
    (h : Matched out inp L R s) (hstuck : s.Stuck P Q) :
    (P.call s.left = .exit ∧ Q.call s.right = .exit) ∨
    (∃ xs ys, P.call s.left = .write xs ∧ Q.call s.right = .write ys ∧
      s.toRight.sent.length = s.toRight.taken + m ∧ s.toLeft.sent.length = s.toLeft.taken + n) ∨
    (∃ i j, P.call s.left = .read i ∧ Q.call s.right = .read j ∧
      s.toRight.taken = s.toRight.sent.length ∧ s.toLeft.taken = s.toLeft.sent.length) := by
  have hproperL := hP.proper h.left
  have hproperR := hQ.proper h.right
  cases hl : P.call s.left with
  | write xs =>
    rw [hl] at hproperL
    have hfull := hstuck.full hl hproperL
    cases hr : Q.call s.right with
    | write ys =>
      rw [hr] at hproperR
      exact .inr (.inl ⟨xs, ys, rfl, rfl, hfull, hstuck.swap.full hr hproperR⟩)
    | read j =>
      rw [hr] at hproperR
      have hempty : s.toRight.taken = s.toRight.sent.length := (hstuck.swap.empty hr hproperR).1
      omega
    | exit => exact absurd hr (h.not_broken hP hQ hl)
  | read i =>
    rw [hl] at hproperL
    obtain ⟨hempty, hopen⟩ := hstuck.empty hl hproperL
    cases hr : Q.call s.right with
    | write ys =>
      rw [hr] at hproperR
      have hfull : s.toLeft.sent.length = s.toLeft.taken + n := hstuck.swap.full hr hproperR
      omega
    | read j =>
      rw [hr] at hproperR
      exact .inr (.inr ⟨i, j, rfl, rfl, (hstuck.swap.empty hr hproperR).1, hempty⟩)
    | exit => exact absurd hr hopen
  | exit =>
    cases hr : Q.call s.right with
    | write ys => exact absurd hl (h.swap.not_broken hQ hP hr)
    | read j =>
      rw [hr] at hproperR
      exact absurd hl (hstuck.swap.empty hr hproperR).2
    | exit => exact .inl ⟨rfl, rfl⟩

end Deadlock

end LinuxSocket.Duplex
