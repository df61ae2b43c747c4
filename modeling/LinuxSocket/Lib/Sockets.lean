import LinuxSocket.Lib.Duplex
import Mathlib.Data.Nat.Init
import Mathlib.Order.Basic

/-! # Two processes with a socket each

A process may have several calls to choose from: it has threads, or it waits in `poll`. What it has written and
read by then is kept in its account. When each process only waits for the other one after it has shut down its
side, the two can only come to a standstill while both write to full channels, and not even then when one of them is
receptive. A process that leaves its side open may wait for ever, in calls that come to nothing.
-/
namespace LinuxSocket.Sockets
open Duplex

inductive Call (α σ : Type*)
  /-- returns when the socket is readable or writable as asked for; a step of its own asks for neither -/
  | wait (pollin pollout : Bool) (next : σ)
  /-- a blocking write of a part of the data -/
  | write (data : List α) (next : ℕ → σ)
  /-- a non-blocking write, which writes 0 elements when the channel is full -/
  | tryWrite (data : List α) (next : ℕ → σ)
  | read (count : ℕ) (next : List α → σ)
  /-- comes to nothing: it returns, and the process is where it was -/
  | idle

/-- A process by the calls that it may be in, and whether its side of the connection is shut down. -/
structure Endpoint (α ι σ : Type*) where
  call : σ → ι → Option (Call α σ)
  shut : σ → Bool

/-- The process is in no call any more. -/
def Endpoint.Gone {α ι σ : Type*} (P : Endpoint α ι σ) (x : σ) : Prop := ∀ i, P.call x i = none

section Step
variable {α ι κ σ τ : Type*} {m n : ℕ}

/-- A read of the left process would return. -/
def Readable (Q : Endpoint α κ τ) (s : Link α σ τ m n) : Prop :=
  s.toLeft.taken < s.toLeft.sent.length ∨ Q.shut s.right = true

/-- A write of the left process would return. -/
def Room (s : Link α σ τ m n) : Prop := s.toRight.sent.length < s.toRight.taken + m

instance (Q : Endpoint α κ τ) (s : Link α σ τ m n) : Decidable (Readable Q s) := inferInstanceAs (Decidable (_ ∨ _))

instance (s : Link α σ τ m n) : Decidable (Room s) := inferInstanceAs (Decidable (_ < _))

/-- The left process writes `k` elements of the data. -/
def putLeft (s : Link α σ τ m n) (data : List α) (next : ℕ → σ) (k : ℕ) : Option (Link α σ τ m n) :=
  if 0 < k ∧ k ≤ data.length then
    (s.toRight.put (data.take k)).map fun c => { s with left := next k, toRight := c }
  else none

/-- The call `i` of the left process returns, after `k` elements when it reads or writes. -/
def stepLeft (P : Endpoint α ι σ) (Q : Endpoint α κ τ) (s : Link α σ τ m n) (i : ι) (k : ℕ) :
    Option (Link α σ τ m n) :=
  match P.call s.left i with
  | none => none
  | some (.wait pollin pollout next) =>
    if (pollin = true → Readable Q s) ∧ (pollout = true → Room s) then some { s with left := next } else none
  | some (.write data next) => putLeft s data next k
  | some (.tryWrite data next) =>
    if k = 0 then if Room s then none else some { s with left := next 0 } else putLeft s data next k
  | some (.read count next) =>
    if k = 0 then if Readable Q s ∧ s.toLeft.taken = s.toLeft.sent.length then some { s with left := next [] } else none
    else if k ≤ count then (s.toLeft.take k).map fun p => { s with left := next p.1, toLeft := p.2 }
    else none
  | some .idle => some s

def step (P : Endpoint α ι σ) (Q : Endpoint α κ τ) (s : Link α σ τ m n) : ι ⊕ κ → ℕ → Option (Link α σ τ m n)
  | .inl i, k => stepLeft P Q s i k
  | .inr j, k => (stepLeft Q P s.swap j k).map Link.swap

def run (P : Endpoint α ι σ) (Q : Endpoint α κ τ) (s : Link α σ τ m n) :
    List ((ι ⊕ κ) × ℕ) → Option (Link α σ τ m n)
  | [] => some s
  | (i, k) :: schedule => (step P Q s i k).bind fun s' => run P Q s' schedule

def Stuck (P : Endpoint α ι σ) (Q : Endpoint α κ τ) (s : Link α σ τ m n) : Prop := ∀ i k, step P Q s i k = none

/-- No call comes to anything any more. -/
def Settled (P : Endpoint α ι σ) (Q : Endpoint α κ τ) (s : Link α σ τ m n) : Prop :=
  ∀ i k s', step P Q s i k = some s' → s' = s

def Call.isIdle : Call α σ → Bool
  | .idle => true
  | _ => false

def idle (P : Endpoint α ι σ) (Q : Endpoint α κ τ) (s : Link α σ τ m n) : ι ⊕ κ → Bool
  | .inl i => (P.call s.left i).any Call.isIdle
  | .inr j => (Q.call s.right j).any Call.isIdle

/-- The number of calls in a schedule that come to something. -/
def effective (P : Endpoint α ι σ) (Q : Endpoint α κ τ) (s : Link α σ τ m n) : List ((ι ⊕ κ) × ℕ) → ℕ
  | [] => 0
  | (i, k) :: schedule =>
    (if idle P Q s i = true then 0 else 1) + (step P Q s i k).elim 0 fun s' => effective P Q s' schedule

theorem step_swap {P : Endpoint α ι σ} {Q : Endpoint α κ τ} {s : Link α σ τ m n} (i : ι ⊕ κ) (k : ℕ) :
    step Q P s.swap i.swap k = (step P Q s i k).map Link.swap := by
  cases i with
  | inl i => rfl
  | inr j =>
    change stepLeft Q P s.swap j k = ((stepLeft Q P s.swap j k).map Link.swap).map Link.swap
    rw [Option.map_map]
    exact (congrFun Option.map_id _).symm

/-- The same run seen from the other side. -/
theorem run_swap {P : Endpoint α ι σ} {Q : Endpoint α κ τ} {s s' : Link α σ τ m n}
    {schedule : List ((ι ⊕ κ) × ℕ)} (h : run P Q s schedule = some s') :
    run Q P s.swap (schedule.map fun e => (e.1.swap, e.2)) = some s'.swap := by
  induction schedule generalizing s with
  | nil => rw [← Option.some.inj h]; rfl
  | cons e schedule ih =>
    obtain ⟨t, ht, hrest⟩ := Option.bind_eq_some_iff.mp h
    rw [List.map_cons, run, step_swap, ht]
    exact ih hrest

theorem run_append {P : Endpoint α ι σ} {Q : Endpoint α κ τ} {s : Link α σ τ m n}
    (schedule rest : List ((ι ⊕ κ) × ℕ)) :
    run P Q s (schedule ++ rest) = (run P Q s schedule).bind fun s' => run P Q s' rest := by
  induction schedule generalizing s with
  | nil => rfl
  | cons e schedule ih =>
    obtain ⟨i, k⟩ := e
    rw [List.cons_append, run, run, Option.bind_assoc]
    simp only [ih]

end Step

/-- What a process has done with its socket: all that it wrote and read, whether it came to the end of the stream,
and what `poll` has reported and the process has not used since. `work` measures what is left to do. -/
structure Account (α : Type*) where
  written : List α
  got : List α
  ended : Bool
  polledIn : Bool
  polledOut : Bool
  work : ℕ

section Contract
variable {α ι κ σ τ : Type*}

/-- A call that writes `xs` and reads `ys` leads from `x` to `y`. There is less to do but for what has been read, of
which each element may make work for `w` calls. -/
structure Advances (P : Endpoint α ι σ) (acct : σ → Account α) (w : ℕ) (x : σ) (xs ys : List α) (y : σ) : Prop where
  written : (acct y).written = (acct x).written ++ xs
  got : (acct y).got = (acct x).got ++ ys
  shut : P.shut x = true → P.shut y = true
  work : (acct y).work + w * xs.length < (acct x).work + w * ys.length

/-- In the states of `I`, which calls do not leave, the account is right. A process does not write when its side is
shut down, and it is in calls until it came to the end of the stream and has shut down its side. -/
structure Honours (P : Endpoint α ι σ) (I : σ → Prop) (acct : σ → Account α) (w : ℕ) : Prop where
  wait : ∀ {x i pollin pollout y}, I x → P.call x i = some (.wait pollin pollout y) → I y ∧
    Advances P acct w x [] [] y ∧ (acct y).ended = (acct x).ended ∧
    ((acct y).polledIn = true → (acct x).polledIn = true ∨ pollin = true) ∧
    ((acct y).polledOut = true → (acct x).polledOut = true ∨ pollout = true)
  write : ∀ {x i data next}, I x → P.call x i = some (.write data next) → P.shut x = false ∧
    ∀ k, 0 < k → k ≤ data.length → I (next k) ∧ Advances P acct w x (data.take k) [] (next k) ∧
      (acct (next k)).ended = (acct x).ended ∧
      ((acct (next k)).polledIn = true → (acct x).polledIn = true) ∧ (acct (next k)).polledOut = false
  tryWrite : ∀ {x i data next}, I x → P.call x i = some (.tryWrite data next) → P.shut x = false ∧
    ∀ k, (k = 0 → (acct x).polledOut = false) → k ≤ data.length → I (next k) ∧
      Advances P acct w x (data.take k) [] (next k) ∧ (acct (next k)).ended = (acct x).ended ∧
      ((acct (next k)).polledIn = true → (acct x).polledIn = true) ∧ (acct (next k)).polledOut = false
  read : ∀ {x i count next}, I x → P.call x i = some (.read count next) → ∀ ys : List α, ys.length ≤ count →
    I (next ys) ∧ Advances P acct w x [] ys (next ys) ∧
      ((acct (next ys)).ended = true → (acct x).ended = true ∨ ys = []) ∧ (acct (next ys)).polledIn = false ∧
      ((acct (next ys)).polledOut = true → (acct x).polledOut = true)
  gone : ∀ {x}, I x → P.Gone x → (acct x).ended = true ∧ P.shut x = true

end Contract

section Joined
variable {α ι κ σ τ : Type*} {m n w : ℕ} {P : Endpoint α ι σ} {Q : Endpoint α κ τ} {I : σ → Prop} {J : τ → Prop}
  {acct : σ → Account α} {acct' : τ → Account α} {s s' : Link α σ τ m n} {xs ys : List α}

/-- The account of the left process agrees with the channels. -/
structure Half (Q : Endpoint α κ τ) (I : σ → Prop) (acct : σ → Account α) (s : Link α σ τ m n) : Prop where
  inv : I s.left
  written : (acct s.left).written = s.toRight.sent
  got : (acct s.left).got = s.toLeft.received
  ended : (acct s.left).ended = true → Q.shut s.right = true ∧ s.toLeft.taken = s.toLeft.sent.length
  polledIn : (acct s.left).polledIn = true → Readable Q s
  polledOut : (acct s.left).polledOut = true → Room s

structure Joined (P : Endpoint α ι σ) (Q : Endpoint α κ τ) (I : σ → Prop) (J : τ → Prop) (acct : σ → Account α)
    (acct' : τ → Account α) (s : Link α σ τ m n) : Prop where
  left : Half Q I acct s
  right : Half P J acct' s.swap

theorem Joined.swap (h : Joined P Q I J acct acct' s) : Joined Q P J I acct' acct s.swap := ⟨h.right, h.left⟩

/-- What a step of the left process does: it writes `xs` and reads `ys`. -/
structure Moves (P : Endpoint α ι σ) (Q : Endpoint α κ τ) (acct : σ → Account α) (w : ℕ) (s s' : Link α σ τ m n)
    (xs ys : List α) : Prop where
  right : s'.right = s.right
  sent : s'.toRight.sent = s.toRight.sent ++ xs
  taken : s'.toRight.taken = s.toRight.taken
  sent_left : s'.toLeft.sent = s.toLeft.sent
  taken_left : s'.toLeft.taken = s.toLeft.taken + ys.length
  ys_eq : ys = s.toLeft.content.take ys.length
  advances : Advances P acct w s.left xs ys s'.left
  /-- a process whose side is shut down does not write -/
  quiet : P.shut s.left = true → xs = []
  ended : (acct s'.left).ended = true → (acct s.left).ended = true ∨
    Q.shut s.right = true ∧ s.toLeft.taken = s.toLeft.sent.length
  polledIn : (acct s'.left).polledIn = true → ys = [] ∧ ((acct s.left).polledIn = true ∨ Readable Q s)
  polledOut : (acct s'.left).polledOut = true → xs = [] ∧ ((acct s.left).polledOut = true ∨ Room s)

theorem putLeft_eq_some {data : List α} {next : ℕ → σ} {k : ℕ} (h : putLeft s data next k = some s') :
    0 < k ∧ k ≤ data.length ∧ s'.left = next k ∧ s'.right = s.right ∧ s'.toLeft = s.toLeft ∧
      s'.toRight.sent = s.toRight.sent ++ data.take k ∧ s'.toRight.taken = s.toRight.taken := by
  unfold putLeft at h
  split at h
  · next hk =>
    obtain ⟨c, hput, rfl⟩ := Option.map_eq_some_iff.mp h
    exact ⟨hk.1, hk.2, rfl, rfl, rfl, Channel.put_eq_some hput⟩
  · cases h

/-- A part of the data has been written. -/
theorem moves_of_put {data : List α} {next : ℕ → σ} {k : ℕ} (hshut : P.shut s.left = false)
    (h : putLeft s data next k = some s') (hadv : Advances P acct w s.left (data.take k) [] (next k))
    (hended : (acct (next k)).ended = (acct s.left).ended)
    (hin : (acct (next k)).polledIn = true → (acct s.left).polledIn = true)
    (hout : (acct (next k)).polledOut = false) : Moves P Q acct w s s' (data.take k) [] := by
  obtain ⟨-, -, hleft, hright, hto, hsent, htaken⟩ := putLeft_eq_some h
  refine ⟨hright, hsent, htaken, by rw [hto], by rw [hto]; rfl, rfl, hleft ▸ hadv, ?_, ?_, ?_, ?_⟩
  · intro hs
    rw [hshut] at hs
    cases hs
  · rw [hleft, hended]
    exact .inl
  · rw [hleft]
    exact fun hp => ⟨rfl, .inl (hin hp)⟩
  · rw [hleft, hout]
    intro hp
    cases hp

/-- A step of the process that leaves the channels alone. -/
theorem moves_of_left {y : σ} (hadv : Advances P acct w s.left [] [] y)
    (hended : (acct y).ended = true → (acct s.left).ended = true ∨
      Q.shut s.right = true ∧ s.toLeft.taken = s.toLeft.sent.length)
    (hin : (acct y).polledIn = true → (acct s.left).polledIn = true ∨ Readable Q s)
    (hout : (acct y).polledOut = true → (acct s.left).polledOut = true ∨ Room s) :
    Moves P Q acct w s { s with left := y } [] [] :=
  ⟨rfl, (List.append_nil _).symm, rfl, rfl, rfl, rfl, hadv, fun _ => rfl, hended, fun h => ⟨rfl, hin h⟩,
    fun h => ⟨rfl, hout h⟩⟩

/-- A part of what is in the channel has been read. -/
theorem moves_of_take {k : ℕ} {c : Channel α n} {y : σ} (hk : k ≠ 0) (h : s.toLeft.take k = some (ys, c))
    (hadv : Advances P acct w s.left [] ys y)
    (hended : (acct y).ended = true → (acct s.left).ended = true ∨ ys = []) (hin : (acct y).polledIn = false)
    (hout : (acct y).polledOut = true → (acct s.left).polledOut = true) :
    Moves P Q acct w s { s with left := y, toLeft := c } [] ys := by
  obtain ⟨hdata, rfl, hsent, htaken⟩ := Channel.take_eq_some h
  have hlen : (s.toLeft.content.take k).length = k := by rw [Channel.content, length_take_drop hdata]
  have hne : s.toLeft.content.take k ≠ [] := List.ne_nil_of_length_pos (by omega)
  refine ⟨rfl, (List.append_nil _).symm, rfl, hsent, ?_, ?_, hadv, fun _ => rfl, ?_, ?_, ?_⟩
  · rw [htaken, hlen]
  · rw [hlen]
  · exact fun hp => .inl ((hended hp).resolve_right hne)
  · rw [hin]
    intro hp
    cases hp
  · exact fun hp => ⟨rfl, .inl (hout hp)⟩

theorem readable_of_empty (h : Readable Q s) (hempty : s.toLeft.taken = s.toLeft.sent.length) :
    Q.shut s.right = true := by
  rcases h with hlt | hshut
  · exact absurd hempty (Nat.ne_of_lt hlt)
  · exact hshut

/-- What the call `i` may do. -/
theorem stepLeft_moves (hP : Honours P I acct w) (h : Half Q I acct s) {i : ι} {k : ℕ}
    (hs : stepLeft P Q s i k = some s') :
    P.call s.left i = some .idle ∧ s' = s ∨ I s'.left ∧ ∃ xs ys, Moves P Q acct w s s' xs ys := by
  unfold stepLeft at hs
  split at hs
  · cases hs
  · next pollin pollout y hcall =>
    obtain ⟨hI, hadv, hended, hin, hout⟩ := hP.wait h.inv hcall
    split at hs
    · next hready =>
      obtain rfl := Option.some.inj hs
      refine .inr ⟨hI, [], [], moves_of_left hadv ?_ ?_ ?_⟩
      · rw [hended]
        exact .inl
      · exact fun hp => (hin hp).imp_right hready.1
      · exact fun hp => (hout hp).imp_right hready.2
    · cases hs
  · next data next hcall =>
    obtain ⟨hshut, hnext⟩ := hP.write h.inv hcall
    obtain ⟨hpos, hle, hleft, -⟩ := putLeft_eq_some hs
    obtain ⟨hI, hadv, hended, hin, hout⟩ := hnext k hpos hle
    exact .inr ⟨hleft ▸ hI, _, _, moves_of_put hshut hs hadv hended hin hout⟩
  · next data next hcall =>
    obtain ⟨hshut, hnext⟩ := hP.tryWrite h.inv hcall
    split at hs
    · split at hs
      · cases hs
      · next hroom =>
        obtain rfl := Option.some.inj hs
        have hout₀ : (acct s.left).polledOut = false := Bool.eq_false_iff.mpr (mt h.polledOut hroom)
        obtain ⟨hI, hadv, hended, hin, hout⟩ := hnext 0 (fun _ => hout₀) (Nat.zero_le _)
        refine .inr ⟨hI, [], [], moves_of_left hadv ?_ (fun hp => .inl (hin hp)) ?_⟩
        · rw [hended]
          exact .inl
        · rw [hout]
          intro hp
          cases hp
    · next hk =>
      obtain ⟨-, hle, hleft, -⟩ := putLeft_eq_some hs
      obtain ⟨hI, hadv, hended, hin, hout⟩ := hnext k (absurd · hk) hle
      exact .inr ⟨hleft ▸ hI, _, _, moves_of_put hshut hs hadv hended hin hout⟩
  · next count next hcall =>
    have hnext := hP.read h.inv hcall
    split at hs
    · split at hs
      · next hend =>
        obtain rfl := Option.some.inj hs
        obtain ⟨hI, hadv, hended, hin, hout⟩ := hnext [] (Nat.zero_le _)
        refine .inr ⟨hI, [], [], moves_of_left hadv ?_ ?_ (fun hp => .inl (hout hp))⟩
        · exact fun hp => (hended hp).imp_right fun _ => ⟨readable_of_empty hend.1 hend.2, hend.2⟩
        · rw [hin]
          intro hp
          cases hp
      · cases hs
    · next hk =>
      split at hs
      · next hle =>
        obtain ⟨⟨ys, c⟩, htake, rfl⟩ := Option.map_eq_some_iff.mp hs
        have hlen : ys.length ≤ k := by
          rw [(Channel.take_eq_some htake).2.1]
          exact List.length_take_le _ _
        obtain ⟨hI, hadv, hended, hin, hout⟩ := hnext ys (hlen.trans hle)
        exact .inr ⟨hI, [], ys, moves_of_take hk htake hadv hended hin hout⟩
      · cases hs
  · next hcall =>
    obtain rfl := Option.some.inj hs
    exact .inl ⟨hcall, rfl⟩

theorem Moves.ys_length_le (h : Moves P Q acct w s s' xs ys) :
    s.toLeft.taken + ys.length ≤ s.toLeft.sent.length := by
  rw [← h.taken_left, ← h.sent_left]
  exact s'.toLeft.taken_le

/-- The account stays right in a step of its own process. -/
theorem Half.own (h : Half Q I acct s) (hI : I s'.left) (hm : Moves P Q acct w s s' xs ys) : Half Q I acct s' := by
  have hys : s.toLeft.taken = s.toLeft.sent.length → ys = [] := by
    intro hall
    have hle := hm.ys_length_le
    exact List.eq_nil_of_length_eq_zero (by omega)
  refine ⟨hI, ?_, ?_, ?_, ?_, ?_⟩
  · rw [hm.advances.written, h.written, hm.sent]
  · rw [hm.advances.got, h.got, Channel.received, Channel.received, hm.sent_left, hm.taken_left, List.take_add]
    conv_lhs => rw [hm.ys_eq]
    rfl
  · intro hend
    have hend' : Q.shut s.right = true ∧ s.toLeft.taken = s.toLeft.sent.length := (hm.ended hend).elim h.ended id
    rw [hm.right, hm.sent_left, hm.taken_left, hys hend'.2]
    exact hend'
  · intro hp
    obtain ⟨hys, hready⟩ := hm.polledIn hp
    have hready : Readable Q s := hready.elim h.polledIn id
    rw [Readable, hm.right, hm.sent_left, hm.taken_left, hys]
    exact hready
  · intro hp
    obtain ⟨hxs, hroom⟩ := hm.polledOut hp
    have hroom : Room s := hroom.elim h.polledOut id
    rw [Room, hm.sent, hm.taken, hxs, List.append_nil]
    exact hroom

/-- The account stays right in a step of the other process. -/
theorem Half.other {K : τ → Prop} (h : Half P K acct' s.swap) (hm : Moves P Q acct w s s' xs ys) :
    Half P K acct' s'.swap := by
  have hle := s.toRight.taken_le
  refine ⟨?_, ?_, ?_, ?_, ?_, ?_⟩
  · have := h.inv
    rwa [Link.swap, ← hm.right] at this
  · have := h.written
    rw [Link.swap, ← hm.right] at this
    exact this.trans hm.sent_left.symm
  · have := h.got
    rw [Link.swap, ← hm.right] at this
    refine this.trans ?_
    change s.toRight.received = s'.toRight.received
    rw [Channel.received, Channel.received, hm.sent, hm.taken, List.take_append_of_le_length hle]
  · intro hend
    rw [Link.swap, hm.right] at hend
    obtain ⟨hshut, hall⟩ := h.ended hend
    have hxs := hm.quiet hshut
    refine ⟨hm.advances.shut hshut, ?_⟩
    change s'.toRight.taken = s'.toRight.sent.length
    rw [hm.sent, hm.taken, hxs, List.append_nil]
    exact hall
  · intro hp
    rw [Link.swap, hm.right] at hp
    rcases h.polledIn hp with hlt | hshut
    · left
      change s'.toRight.taken < s'.toRight.sent.length
      rw [hm.sent, hm.taken, List.length_append]
      exact Nat.lt_add_right _ hlt
    · exact .inr (hm.advances.shut hshut)
  · intro hp
    rw [Link.swap, hm.right] at hp
    have hroom : s.toLeft.sent.length < s.toLeft.taken + n := h.polledOut hp
    change s'.toLeft.sent.length < s'.toLeft.taken + n
    rw [hm.sent_left, hm.taken_left]
    omega

theorem Joined.stepLeft (hP : Honours P I acct w) (h : Joined P Q I J acct acct' s) {i : ι} {k : ℕ}
    (hs : stepLeft P Q s i k = some s') : Joined P Q I J acct acct' s' := by
  rcases stepLeft_moves hP h.left hs with ⟨-, rfl⟩ | ⟨hI, xs, ys, hm⟩
  · exact h
  · exact ⟨h.left.own hI hm, h.right.other hm⟩

theorem Joined.step (hP : Honours P I acct w) (hQ : Honours Q J acct' w) (h : Joined P Q I J acct acct' s)
    {i : ι ⊕ κ} {k : ℕ} (hs : step P Q s i k = some s') : Joined P Q I J acct acct' s' := by
  cases i with
  | inl i => exact h.stepLeft hP hs
  | inr j =>
    obtain ⟨t, ht, rfl⟩ := Option.map_eq_some_iff.mp hs
    exact (h.swap.stepLeft hQ ht).swap

/-- The accounts are right in every interleaving. -/
theorem Joined.run (hP : Honours P I acct w) (hQ : Honours Q J acct' w) (h : Joined P Q I J acct acct' s)
    {schedule : List ((ι ⊕ κ) × ℕ)} (hs : run P Q s schedule = some s') : Joined P Q I J acct acct' s' := by
  induction schedule generalizing s with
  | nil => rwa [← Option.some.inj hs]
  | cons e schedule ih =>
    obtain ⟨t, ht, hrest⟩ := Option.bind_eq_some_iff.mp hs
    exact ih (h.step hP hQ ht) hrest

/-- A process that shuts down its side only at the end of the other one. -/
def StaysOpen (P : Endpoint α ι σ) (I : σ → Prop) (acct : σ → Account α) : Prop :=
  ∀ {x}, I x → P.shut x = true → (acct x).ended = true

theorem Joined.stepLeft_open (hP : Honours P I acct w) (hopen : StaysOpen P I acct) (h : Joined P Q I J acct acct' s)
    (hleft : P.shut s.left = false) (hright : Q.shut s.right = false) {i : ι} {k : ℕ}
    (hs : Sockets.stepLeft P Q s i k = some s') : P.shut s'.left = false ∧ Q.shut s'.right = false := by
  have hjoined := h.stepLeft hP hs
  rcases stepLeft_moves hP h.left hs with ⟨-, rfl⟩ | ⟨-, xs, ys, hm⟩
  · exact ⟨hleft, hright⟩
  · have hright' : Q.shut s'.right = false := hm.right ▸ hright
    refine ⟨Bool.eq_false_iff.mpr fun hshut => ?_, hright'⟩
    have hended := hjoined.left.ended (hopen hjoined.left.inv hshut)
    cases hended.1.symm.trans hright'

/-- Two such processes never shut down their sides: each one waits for the other. -/
theorem Joined.run_open (hP : Honours P I acct w) (hQ : Honours Q J acct' w) (hopen : StaysOpen P I acct)
    (hopen' : StaysOpen Q J acct') (h : Joined P Q I J acct acct' s) (hleft : P.shut s.left = false)
    (hright : Q.shut s.right = false) {schedule : List ((ι ⊕ κ) × ℕ)} (hs : Sockets.run P Q s schedule = some s') :
    P.shut s'.left = false ∧ Q.shut s'.right = false := by
  induction schedule generalizing s with
  | nil =>
    rw [← Option.some.inj hs]
    exact ⟨hleft, hright⟩
  | cons e schedule ih =>
    obtain ⟨t, ht, hrest⟩ := Option.bind_eq_some_iff.mp hs
    have hjoined := h.step hP hQ ht
    obtain ⟨i | j, k⟩ := e
    · obtain ⟨hl, hr⟩ := h.stepLeft_open hP hopen hleft hright ht
      exact ih hjoined hl hr hrest
    · obtain ⟨u, hu, rfl⟩ := Option.map_eq_some_iff.mp ht
      obtain ⟨hr, hl⟩ := h.swap.stepLeft_open hQ hopen' hright hleft hu
      exact ih hjoined hl hr hrest

/-- What is left to do, with what is in the channels. -/
def work (acct : σ → Account α) (acct' : τ → Account α) (w : ℕ) (s : Link α σ τ m n) : ℕ :=
  (acct s.left).work + (acct' s.right).work + w * s.toRight.content.length + w * s.toLeft.content.length

theorem work_swap : work acct' acct w s.swap = work acct acct' w s := by
  simp only [work, Link.swap]
  omega

theorem Moves.work_lt (h : Moves P Q acct w s s' xs ys) : work acct acct' w s' < work acct acct' w s := by
  have hwork := h.advances.work
  have hys := h.ys_length_le
  have hle := s.toRight.taken_le
  have hto : s'.toRight.content.length = s.toRight.content.length + xs.length := by
    simp only [Channel.content, List.length_drop, h.sent, h.taken, List.length_append]
    omega
  have hfrom : s'.toLeft.content.length + ys.length = s.toLeft.content.length := by
    simp only [Channel.content, List.length_drop, h.sent_left, h.taken_left]
    omega
  have hmul : w * s.toLeft.content.length = w * s'.toLeft.content.length + w * ys.length := by
    rw [← hfrom, Nat.mul_add]
  simp only [work, h.right, hto, hmul, Nat.mul_add]
  omega

variable (acct') in
theorem stepLeft_work (hP : Honours P I acct w) (h : Half Q I acct s) {i : ι} {k : ℕ}
    (hs : Sockets.stepLeft P Q s i k = some s') :
    P.call s.left i = some .idle ∧ s' = s ∨ work acct acct' w s' < work acct acct' w s := by
  rcases stepLeft_moves hP h hs with hidle | ⟨-, xs, ys, hm⟩
  · exact .inl hidle
  · exact .inr hm.work_lt

/-- A call that comes to something leaves less to do. -/
theorem Joined.step_work (hP : Honours P I acct w) (hQ : Honours Q J acct' w) (h : Joined P Q I J acct acct' s)
    {i : ι ⊕ κ} {k : ℕ} (hs : Sockets.step P Q s i k = some s') :
    idle P Q s i = true ∧ s' = s ∨ work acct acct' w s' < work acct acct' w s := by
  cases i with
  | inl i =>
    refine (stepLeft_work acct' hP h.left hs).imp_left fun hidle => ⟨?_, hidle.2⟩
    rw [idle, hidle.1]
    rfl
  | inr j =>
    obtain ⟨t, ht, rfl⟩ := Option.map_eq_some_iff.mp hs
    have hwork := stepLeft_work acct hQ h.right ht
    rw [work_swap, ← work_swap (s := t)] at hwork
    refine hwork.imp_left fun hidle => ⟨?_, congrArg Link.swap hidle.2⟩
    have hcall : Q.call s.right j = some .idle := hidle.1
    rw [idle, hcall]
    rfl

/-- No run has more calls that come to something than there is work. -/
theorem Joined.run_effective (hP : Honours P I acct w) (hQ : Honours Q J acct' w) (h : Joined P Q I J acct acct' s)
    {schedule : List ((ι ⊕ κ) × ℕ)} (hs : Sockets.run P Q s schedule = some s') :
    effective P Q s schedule + work acct acct' w s' ≤ work acct acct' w s := by
  induction schedule generalizing s with
  | nil =>
    obtain rfl := Option.some.inj hs
    exact (Nat.zero_add _).le
  | cons e schedule ih =>
    obtain ⟨i, k⟩ := e
    obtain ⟨t, ht, hrest⟩ := Option.bind_eq_some_iff.mp hs
    have hle := ih (h.step hP hQ ht) hrest
    rw [effective, ht, Option.elim_some]
    rcases h.step_work hP hQ ht with ⟨hidle, rfl⟩ | hlt
    · rw [if_pos hidle, Nat.zero_add]
      exact hle
    · split
      · omega
      · omega

theorem Joined.got (h : Joined P Q I J acct acct' s) : (acct s.left).got <+: (acct' s.right).written := by
  have hw := h.right.written
  rw [h.left.got]
  change (acct' s.right).written = s.toLeft.sent at hw
  rw [hw]
  exact List.take_prefix _ _

/-- A process that came to the end of the stream has got all that the other one has written. -/
theorem Joined.got_all (h : Joined P Q I J acct acct' s) (hend : (acct s.left).ended = true) :
    (acct s.left).got = (acct' s.right).written ∧ Q.shut s.right = true := by
  obtain ⟨hshut, hall⟩ := h.left.ended hend
  have hw : (acct' s.right).written = s.toLeft.sent := h.right.written
  refine ⟨?_, hshut⟩
  rw [h.left.got, hw, Channel.received, hall, List.take_length]

end Joined

section Progress
variable {α ι κ σ τ : Type*} {m n w : ℕ} {P : Endpoint α ι σ} {Q : Endpoint α κ τ} {I : σ → Prop} {J : τ → Prop}
  {acct : σ → Account α} {acct' : τ → Account α} {s s' : Link α σ τ m n} {i : ι} {c : Call α σ}

/-- The call returns whatever the other process does. -/
def Call.Prompt (a : Account α) : Call α σ → Prop
  | .wait pollin pollout _ => pollin = false ∧ pollout = false
  | .write _ _ => False
  | .tryWrite data _ => data ≠ []
  | .read count _ => 0 < count ∧ a.polledIn = true
  | .idle => False

/-- The call returns when there is room in the channel. -/
def Call.Sends : Call α σ → Prop
  | .wait pollin _ _ => pollin = false
  | .write data _ => data ≠ []
  | .tryWrite _ _ => False
  | .read _ _ => False
  | .idle => False

/-- The call returns when there is something to read. -/
def Call.Receives : Call α σ → Prop
  | .wait _ pollout _ => pollout = false
  | .write _ _ => False
  | .tryWrite _ _ => False
  | .read count _ => 0 < count
  | .idle => False

/-- Only a process whose side is shut down waits for the other one to write, unless it is one that may leave its side
open. -/
def Lively (P : Endpoint α ι σ) (I : σ → Prop) (acct : σ → Account α) (leavesOpen : Prop) : Prop :=
  ∀ {x}, I x → P.Gone x ∨ ∃ i c, P.call x i = some c ∧
    (c.Prompt (acct x) ∨ c.Sends ∧ P.shut x = false ∨
      c.Receives ∧ (P.shut x = true ∨ leavesOpen ∧ ∃ j, P.call x j = some .idle))

/-- There is always a call that reads what comes. -/
def Receptive (P : Endpoint α ι σ) (I : σ → Prop) (acct : σ → Account α) : Prop :=
  ∀ {x}, I x → P.Gone x ∨ ∃ i c, P.call x i = some c ∧ (c.Prompt (acct x) ∨ c.Receives)

theorem exists_putLeft {data : List α} (hdata : data ≠ []) (hroom : Room s) (next : ℕ → σ) :
    ∃ s', putLeft s data next 1 = some s' := by
  have hlen : 1 ≤ data.length := List.length_pos_of_ne_nil hdata
  obtain ⟨d, hput⟩ : ∃ d, s.toRight.put (data.take 1) = some d := by
    apply Channel.put_isSome
    rwa [List.length_take_of_le hlen]
  exact ⟨_, by rw [putLeft, if_pos ⟨Nat.one_pos, hlen⟩, hput, Option.map_some]⟩

theorem exists_stepLeft_read {count : ℕ} {next : List α → σ} (hcall : P.call s.left i = some (.read count next))
    (hcount : 0 < count) (hready : Readable Q s) : ∃ k s', stepLeft P Q s i k = some s' := by
  by_cases hempty : s.toLeft.taken = s.toLeft.sent.length
  · refine ⟨0, { s with left := next [] }, ?_⟩
    rw [stepLeft, hcall]
    exact if_pos (And.intro hready hempty)
  · have hle := s.toLeft.taken_le
    obtain ⟨ys, d, htake⟩ := Channel.take_isSome (c := s.toLeft) (k := 1) (by omega)
    refine ⟨1, { s with left := next ys, toLeft := d }, ?_⟩
    rw [stepLeft, hcall]
    dsimp only
    rw [if_neg Nat.one_ne_zero, if_pos (by omega : 1 ≤ count), htake, Option.map_some]

theorem stepLeft_wait {pollin pollout : Bool} {y : σ} (hcall : P.call s.left i = some (.wait pollin pollout y))
    (hin : pollin = true → Readable Q s) (hout : pollout = true → Room s) :
    stepLeft P Q s i 0 = some { s with left := y } := by
  rw [stepLeft, hcall]
  exact if_pos ⟨hin, hout⟩

theorem exists_stepLeft_receives (hcall : P.call s.left i = some c) (hc : c.Receives) (hready : Readable Q s) :
    ∃ k s', stepLeft P Q s i k = some s' := by
  cases c with
  | wait pollin pollout y =>
    have hout : pollout = false := hc
    exact ⟨0, _, stepLeft_wait hcall (fun _ => hready) (by simp [hout])⟩
  | write => exact hc.elim
  | tryWrite => exact hc.elim
  | read count next => exact exists_stepLeft_read hcall hc hready
  | idle => exact hc.elim

theorem exists_stepLeft_sends (hcall : P.call s.left i = some c) (hc : c.Sends) (hroom : Room s) :
    ∃ k s', stepLeft P Q s i k = some s' := by
  cases c with
  | wait pollin pollout y =>
    have hin : pollin = false := hc
    exact ⟨0, _, stepLeft_wait hcall (by simp [hin]) (fun _ => hroom)⟩
  | write data next =>
    obtain ⟨s', hs⟩ := exists_putLeft hc hroom next
    exact ⟨1, s', by rw [stepLeft, hcall]; exact hs⟩
  | tryWrite => exact hc.elim
  | read => exact hc.elim
  | idle => exact hc.elim

theorem exists_stepLeft_prompt (h : Half Q I acct s) (hcall : P.call s.left i = some c)
    (hc : c.Prompt (acct s.left)) : ∃ k s', stepLeft P Q s i k = some s' := by
  cases c with
  | wait pollin pollout y =>
    obtain ⟨rfl, rfl⟩ := hc
    exact ⟨0, _, stepLeft_wait hcall (by simp) (by simp)⟩
  | write => exact hc.elim
  | tryWrite data next =>
    by_cases hroom : Room s
    · obtain ⟨s', hs⟩ := exists_putLeft hc hroom next
      refine ⟨1, s', ?_⟩
      rw [stepLeft, hcall]
      exact hs
    · refine ⟨0, { s with left := next 0 }, ?_⟩
      rw [stepLeft, hcall]
      exact if_neg hroom
  | read count next => exact exists_stepLeft_read hcall hc.1 (h.polledIn hc.2)
  | idle => exact hc.elim

theorem Settled.swap (h : Settled P Q s) : Settled Q P s.swap := by
  rintro (j | i) k t ht
  · exact congrArg Link.swap (h (.inr j) k t.swap (Option.map_eq_some_iff.mpr ⟨t, ht, rfl⟩))
  · obtain ⟨u, hu, rfl⟩ := Option.map_eq_some_iff.mp ht
    exact congrArg Link.swap (h (.inl i) k u hu)

/-- Only a call that comes to nothing returns. -/
theorem Settled.not_exists (h : Settled P Q s) (hP : Honours P I acct w) (hhalf : Half Q I acct s)
    (hcall : P.call s.left i = some c) (hc : c ≠ .idle) : ¬∃ k s', Sockets.stepLeft P Q s i k = some s' := by
  rintro ⟨k, s', hs⟩
  obtain rfl := h (.inl i) k s' hs
  rcases stepLeft_work (fun _ => ⟨[], [], false, false, false, 0⟩) hP hhalf hs with ⟨hidle, -⟩ | hlt
  · exact hc (Option.some.inj (hcall.symm.trans hidle))
  · exact Nat.lt_irrefl _ hlt

theorem Stuck.settled (h : Stuck P Q s) : Settled P Q s := by
  intro i k s' hs
  cases (h i k).symm.trans hs

theorem Stuck.not_idle (h : Stuck P Q s) : P.call s.left i ≠ some .idle := by
  intro hcall
  have hs : stepLeft P Q s i 0 = some s := by rw [stepLeft, hcall]
  cases (h (.inl i) 0).symm.trans hs

/-- Where a process is when nothing comes of its calls any more: it has left, it waits for room, or it waits for
data. -/
theorem Half.settled {leavesOpen : Prop} (hP : Honours P I acct w) (hlive : Lively P I acct leavesOpen)
    (h : Half Q I acct s) (hsettled : Settled P Q s) :
    P.Gone s.left ∨
    (P.shut s.left = false ∧ s.toRight.sent.length = s.toRight.taken + m ∧
      ∃ i c, P.call s.left i = some c ∧ c.Sends ∧ ¬c.Prompt (acct s.left)) ∨
    ((P.shut s.left = true ∨ leavesOpen ∧ ∃ j, P.call s.left j = some .idle) ∧
      s.toLeft.taken = s.toLeft.sent.length ∧ Q.shut s.right = false) := by
  rcases hlive h.inv with hgone | ⟨i, c, hcall, hc⟩
  · exact .inl hgone
  have hnot : c ≠ .idle → ¬∃ k s', stepLeft P Q s i k = some s' := hsettled.not_exists hP h hcall
  rcases hc with hprompt | ⟨hsends, hopen⟩ | ⟨hreceives, hshut⟩
  · exact absurd (exists_stepLeft_prompt h hcall hprompt) (hnot fun hidle => by rw [hidle] at hprompt; exact hprompt)
  · have hbusy : c ≠ .idle := fun hidle => by rw [hidle] at hsends; exact hsends
    have hfull : ¬Room s := fun hroom => hnot hbusy (exists_stepLeft_sends hcall hsends hroom)
    have hle := s.toRight.le_cap
    unfold Room at hfull
    refine .inr (.inl ⟨hopen, by omega, i, c, hcall, hsends, fun hprompt => ?_⟩)
    exact hnot hbusy (exists_stepLeft_prompt h hcall hprompt)
  · have hbusy : c ≠ .idle := fun hidle => by rw [hidle] at hreceives; exact hreceives
    have hempty : ¬Readable Q s := fun hready => hnot hbusy (exists_stepLeft_receives hcall hreceives hready)
    obtain ⟨hdata, hopen⟩ := not_or.mp hempty
    have hle := s.toLeft.taken_le
    exact .inr (.inr ⟨hshut, by omega, Bool.eq_false_iff.mpr hopen⟩)

variable {leavesOpen leavesOpen' : Prop}

/-- The two processes settle only when both have left, when both wait for room in full channels, or when both leave
their sides open. -/
theorem Joined.settled (hP : Honours P I acct w) (hQ : Honours Q J acct' w) (hlive : Lively P I acct leavesOpen)
    (hlive' : Lively Q J acct' leavesOpen') (hm : 0 < m) (hn : 0 < n) (h : Joined P Q I J acct acct' s)
    (hsettled : Settled P Q s) :
    (P.Gone s.left ∧ Q.Gone s.right) ∨
    ((s.toRight.sent.length = s.toRight.taken + m ∧
      ∃ i c, P.call s.left i = some c ∧ c.Sends ∧ ¬c.Prompt (acct s.left)) ∧
    s.toLeft.sent.length = s.toLeft.taken + n ∧
      ∃ j d, Q.call s.right j = some d ∧ d.Sends ∧ ¬d.Prompt (acct' s.right)) ∨
    (leavesOpen ∧ leavesOpen' ∧ (∃ i, P.call s.left i = some .idle) ∧ ∃ j, Q.call s.right j = some .idle) := by
  have hgone : P.Gone s.left → Q.shut s.right = true := fun hg => (h.left.ended (hP.gone h.left.inv hg).1).1
  have hgone' : Q.Gone s.right → P.shut s.left = true := fun hg => (h.right.ended (hQ.gone h.right.inv hg).1).1
  have hright : Q.Gone s.right ∨
      (Q.shut s.right = false ∧ s.toLeft.sent.length = s.toLeft.taken + n ∧
        ∃ j d, Q.call s.right j = some d ∧ d.Sends ∧ ¬d.Prompt (acct' s.right)) ∨
      ((Q.shut s.right = true ∨ leavesOpen' ∧ ∃ j, Q.call s.right j = some .idle) ∧
        s.toRight.taken = s.toRight.sent.length ∧ P.shut s.left = false) :=
    Half.settled hQ hlive' h.right hsettled.swap
  rcases Half.settled hP hlive h.left hsettled with hl | ⟨hopen, hfull, hsends⟩ | ⟨hshut, hempty, hopen⟩
  · have hshut := hgone hl
    have hshutl := (hP.gone h.left.inv hl).2
    rcases hright with hr | ⟨hopen', -⟩ | ⟨-, -, hopen'⟩
    · exact .inl ⟨hl, hr⟩
    · cases hshut.symm.trans hopen'
    · cases hshutl.symm.trans hopen'
  · rcases hright with hr | ⟨-, hfull', hsends'⟩ | ⟨-, hempty', -⟩
    · cases (hgone' hr).symm.trans hopen
    · exact .inr (.inl ⟨⟨hfull, hsends⟩, hfull', hsends'⟩)
    · omega
  · rcases hright with hr | ⟨-, hfull', -⟩ | ⟨hshut', -, hopen'⟩
    · cases (hQ.gone h.right.inv hr).2.symm.trans hopen
    · omega
    · rcases hshut with hshut | ⟨hleaves, hidle⟩
      · cases hshut.symm.trans hopen'
      · rcases hshut' with hshut' | ⟨hleaves', hidle'⟩
        · cases hshut'.symm.trans hopen
        · exact .inr (.inr ⟨hleaves, hleaves', hidle, hidle'⟩)

/-- A receptive process and a lively one come to their ends, unless both leave their sides open. -/
theorem Joined.gone_of_settled (hP : Honours P I acct w) (hQ : Honours Q J acct' w) (hlive : Lively P I acct leavesOpen)
    (hlive' : Lively Q J acct' leavesOpen') (hm : 0 < m) (hn : 0 < n) (hrec : Receptive P I acct)
    (h : Joined P Q I J acct acct' s) (hsettled : Settled P Q s) :
    (P.Gone s.left ∧ Q.Gone s.right) ∨
      (leavesOpen ∧ leavesOpen' ∧ (∃ i, P.call s.left i = some .idle) ∧ ∃ j, Q.call s.right j = some .idle) := by
  rcases h.settled hP hQ hlive hlive' hm hn hsettled with hgone | ⟨⟨-, i, c, hcall, -⟩, hfull, -⟩ | hopen
  · exact .inl hgone
  · have hready : Readable Q s := .inl (by omega)
    rcases hrec h.left.inv with hg | ⟨j, d, hcall', hprompt | hreceives⟩
    · cases (hg i).symm.trans hcall
    · refine absurd (exists_stepLeft_prompt h.left hcall' hprompt) (hsettled.not_exists hP h.left hcall' ?_)
      rintro rfl
      exact hprompt
    · refine absurd (exists_stepLeft_receives hcall' hreceives hready) (hsettled.not_exists hP h.left hcall' ?_)
      rintro rfl
      exact hreceives
  · exact .inr hopen

/-- Every run goes on until nothing comes of the calls any more. -/
theorem Joined.exists_settled (hP : Honours P I acct w) (hQ : Honours Q J acct' w) (h : Joined P Q I J acct acct' s) :
    ∃ schedule s', Sockets.run P Q s schedule = some s' ∧ Settled P Q s' := by
  induction hw : work acct acct' w s using Nat.strongRecOn generalizing s with
  | ind v ih =>
    by_cases hsettled : Settled P Q s
    · exact ⟨[], s, rfl, hsettled⟩
    · obtain ⟨i, k, t, ht, hne⟩ : ∃ i k s', Sockets.step P Q s i k = some s' ∧ s' ≠ s := by
        simpa only [Settled, not_forall, exists_prop] using hsettled
      have hlt := (h.step_work hP hQ ht).resolve_left fun hidle => hne hidle.2
      obtain ⟨schedule, s', hrun, hend⟩ := ih _ (hw ▸ hlt) (h.step hP hQ ht) rfl
      refine ⟨(i, k) :: schedule, s', ?_, hend⟩
      rw [Sockets.run, ht]
      exact hrun

end Progress

section Relaying
variable {α ι κ σ τ : Type*} {m n w : ℕ}

/-- A process that writes its input and shuts down its side behind it, or leaves it open. Its output is what it
reads. -/
structure Relays (P : Endpoint α ι σ) (I : σ → Prop) (acct : σ → Account α) (w : ℕ) (leavesOpen : Prop)
    (inp : List α) (x₀ : σ) (output : σ → List α) : Prop where
  honours : Honours P I acct w
  lively : Lively P I acct leavesOpen
  start : I x₀
  written_start : (acct x₀).written = []
  got_start : (acct x₀).got = []
  not_ended : (acct x₀).ended = false
  not_polled : (acct x₀).polledIn = false ∧ (acct x₀).polledOut = false
  not_gone : ¬P.Gone x₀
  written : ∀ {x}, I x → (acct x).written <+: inp
  complete : ∀ {x}, I x → P.shut x = true → ¬P.Gone x → (acct x).written = inp
  output_le : ∀ {x}, I x → output x <+: (acct x).got
  output_gone : ∀ {x}, I x → P.Gone x → output x = (acct x).got

variable {P : Endpoint α ι σ} {Q : Endpoint α κ τ} {I : σ → Prop} {J : τ → Prop} {acct : σ → Account α}
  {acct' : τ → Account α} {s s' : Link α σ τ m n} {inp inp' : List α} {x₀ : σ} {y₀ : τ} {output : σ → List α}
  {output' : τ → List α} {leavesOpen leavesOpen' : Prop}

theorem Relays.half (hP : Relays P I acct w leavesOpen inp x₀ output) (y : τ) :
    Half Q I acct (Link.start x₀ y : Link α σ τ m n) where
  inv := hP.start
  written := hP.written_start
  got := hP.got_start
  ended h := by cases hP.not_ended.symm.trans h
  polledIn h := by cases hP.not_polled.1.symm.trans h
  polledOut h := by cases hP.not_polled.2.symm.trans h

theorem Relays.joined (hP : Relays P I acct w leavesOpen inp x₀ output) (hQ : Relays Q J acct' w leavesOpen' inp' y₀ output') :
    Joined P Q I J acct acct' (Link.start x₀ y₀ : Link α σ τ m n) := ⟨hP.half y₀, hQ.half x₀⟩

/-- A process that is gone has got the whole input of the other one, unless that is gone, too. -/
theorem Relays.got_all (hP : Relays P I acct w leavesOpen inp x₀ output) (hQ : Relays Q J acct' w leavesOpen' inp' y₀ output')
    (h : Joined P Q I J acct acct' s) (hgone : P.Gone s.left) (hthere : ¬Q.Gone s.right) :
    output s.left = inp' := by
  obtain ⟨hgot, hshut⟩ := h.got_all (hP.honours.gone h.left.inv hgone).1
  rw [hP.output_gone h.left.inv hgone, hgot]
  exact hQ.complete h.right.inv hshut hthere

/-- The first process that leaves has got all of the input of the other one. -/
def FirstGotAll (P : Endpoint α ι σ) (Q : Endpoint α κ τ) (inp inp' : List α) (output : σ → List α)
    (output' : τ → List α) (s : Link α σ τ m n) : Prop :=
  P.Gone s.left ∨ Q.Gone s.right →
    P.Gone s.left ∧ output s.left = inp' ∨ Q.Gone s.right ∧ output' s.right = inp

theorem FirstGotAll.swap (h : FirstGotAll P Q inp inp' output output' s) :
    FirstGotAll Q P inp' inp output' output s.swap := fun hgone => (h hgone.symm).symm

theorem FirstGotAll.stepLeft (hP : Relays P I acct w leavesOpen inp x₀ output) (hQ : Relays Q J acct' w leavesOpen' inp' y₀ output')
    (h : Joined P Q I J acct acct' s) (hfirst : FirstGotAll P Q inp inp' output output' s) {i : ι} {k : ℕ}
    (hs : stepLeft P Q s i k = some s') : FirstGotAll P Q inp inp' output output' s' := by
  have hjoined := h.stepLeft hP.honours hs
  rcases stepLeft_moves hP.honours h.left hs with ⟨-, rfl⟩ | ⟨-, xs, ys, hm⟩
  · exact hfirst
  have hthere : ¬P.Gone s.left := by
    intro hgone
    rw [Sockets.stepLeft, hgone i] at hs
    cases hs
  intro hgone
  by_cases hright : Q.Gone s.right
  · rcases hfirst (.inr hright) with ⟨hleft, -⟩ | hall
    · exact absurd hleft hthere
    · rw [hm.right]
      exact .inr hall
  · rw [hm.right] at hgone ⊢
    have hleft := hgone.resolve_right hright
    have hright' : ¬Q.Gone s'.right := hm.right ▸ hright
    exact .inl ⟨hleft, hP.got_all hQ hjoined hleft hright'⟩

theorem FirstGotAll.run (hP : Relays P I acct w leavesOpen inp x₀ output) (hQ : Relays Q J acct' w leavesOpen' inp' y₀ output')
    (h : Joined P Q I J acct acct' s) (hfirst : FirstGotAll P Q inp inp' output output' s)
    {schedule : List ((ι ⊕ κ) × ℕ)} (hs : run P Q s schedule = some s') :
    FirstGotAll P Q inp inp' output output' s' := by
  induction schedule generalizing s with
  | nil => rwa [← Option.some.inj hs]
  | cons e schedule ih =>
    obtain ⟨t, ht, hrest⟩ := Option.bind_eq_some_iff.mp hs
    refine ih (h.step hP.honours hQ.honours ht) ?_ hrest
    obtain ⟨i | j, k⟩ := e
    · exact hfirst.stepLeft hP hQ h ht
    · obtain ⟨u, hu, rfl⟩ := Option.map_eq_some_iff.mp ht
      exact (hfirst.swap.stepLeft hQ hP h.swap hu).swap

theorem Relays.firstGotAll (hP : Relays P I acct w leavesOpen inp x₀ output) (hQ : Relays Q J acct' w leavesOpen' inp' y₀ output') :
    FirstGotAll P Q inp inp' output output' (Link.start x₀ y₀ : Link α σ τ m n) := by
  rintro (hgone | hgone)
  · exact absurd hgone hP.not_gone
  · exact absurd hgone hQ.not_gone

theorem Relays.output_prefix (hP : Relays P I acct w leavesOpen inp x₀ output) (hQ : Relays Q J acct' w leavesOpen' inp' y₀ output')
    (h : Joined P Q I J acct acct' s) : output s.left <+: inp' :=
  (hP.output_le h.left.inv).trans (h.got.trans (hQ.written h.right.inv))

/-- A process does not write to one that is gone. -/
theorem Relays.shut_of_gone (hP : Relays P I acct w leavesOpen inp x₀ output) (h : Joined P Q I J acct acct' s)
    (hgone : P.Gone s.left) : Q.shut s.right = true :=
  (h.left.ended (hP.honours.gone h.left.inv hgone).1).1

end Relaying

section Full
variable {α ι κ σ τ : Type*} {m n : ℕ} {P : Endpoint α ι σ} {Q : Endpoint α κ τ} {s : Link α σ τ m n}

theorem putLeft_full (hfull : s.toRight.sent.length = s.toRight.taken + m) (data : List α) (next : ℕ → σ) (k : ℕ) :
    putLeft s data next k = none := by
  unfold putLeft
  split
  · next hk =>
    have hput : s.toRight.put (data.take k) = none := by
      refine dif_neg ?_
      rw [List.length_take_of_le hk.2]
      omega
    rw [hput, Option.map_none]
  · rfl

/-- A process that can only write is stuck behind a full channel. -/
theorem stepLeft_full (hfull : s.toRight.sent.length = s.toRight.taken + m)
    (hwrites : ∀ i c, P.call s.left i = some c → ∃ data next, c = .write data next) (i : ι) (k : ℕ) :
    stepLeft P Q s i k = none := by
  unfold stepLeft
  cases hcall : P.call s.left i with
  | none => rfl
  | some c =>
    obtain ⟨data, next, rfl⟩ := hwrites i c hcall
    exact putLeft_full hfull data next k

end Full

end LinuxSocket.Sockets
