import LinuxSocket.ProcessPool.Delivery
import Mathlib.Algebra.BigOperators.Group.Finset.Piecewise
import Mathlib.Algebra.Order.BigOperators.Group.Finset

/-! # The pool comes to rest

Each report, each signal and each child can only lead to so many steps, so that a schedule is bounded by the number of
clients and signals that it has. A signal is lost only when there are more of them than the pipe or the buffer of
`recv` can hold; otherwise nobody is left at rest after `SIGTERM` or `SIGINT`.
-/
namespace LinuxSocket.ProcessPool

/-- The signals on their way, each with a weight for the place that it has reached. -/
def SigPipe.weight (pending unread received : Sig → ℕ) (p : SigPipe) : ℕ :=
  ([Sig.chld, .term, .int].map fun sig => if p.pending sig = true then pending sig else 0).sum +
    (p.unread.map unread).sum + (p.received.map received).sum

/-- A bound for the steps that the signals on their way lead to; what the loop does about a signal costs `cost sig`. -/
def SigPipe.work (cost : Sig → ℕ) (p : SigPipe) : ℕ :=
  p.weight (fun sig => cost sig + 4) (fun sig => cost sig + 1) (fun sig => cost sig + 1) +
    2 * p.report.toNat + p.woken.toNat

def Phase.work : Phase → ℕ
  | .waiting => 0
  | .woken => 2
  | .notified => 1

def Child.work (c : Child) : ℕ := 3 * c.report.toNat + c.phase.work

def Life.work : Life → ℕ
  | .running => 7
  | .exited => 1
  | .reaped => 0

def Worker.work (w : Worker) : ℕ := w.signals.work (fun _ => 0) + w.life.work + w.requests

/-- What `run_parent` does about a signal: `SIGTERM` and `SIGINT` reach every child. -/
def parentCost (n : ℕ) : Sig → ℕ
  | .chld => 1
  | .term => 4 * n
  | .int => 4 * n

def Pool.work (s : Pool) : ℕ :=
  5 * s.report.toNat + 4 * s.dispatching.toNat +
    ∑ i ∈ Finset.range s.processNumber, (s.children i).work

def Server.work (s : Server) : ℕ :=
  s.pool.work + s.signals.work (parentCost s.pool.processNumber) + s.reaping.toNat +
    ∑ i ∈ Finset.range s.pool.processNumber, (s.workers i).work

/-- The bytes that the pipe holds or that a handler has still to write. -/
def SigPipe.held (p : SigPipe) : ℕ := p.weight (fun _ => 1) (fun _ => 1) (fun _ => 0)

def passedOn : Sig → ℕ
  | .chld => 0
  | .term => 1
  | .int => 1

def Worker.alive (w : Worker) : ℕ := if w.life = .running then 1 else 0

def Server.parentLoad (s : Server) : ℕ :=
  s.signals.held + ∑ i ∈ Finset.range s.pool.processNumber, (s.workers i).alive

def Server.childLoad (s : Server) (i : ℕ) : ℕ :=
  (s.workers i).signals.held + s.signals.weight passedOn passedOn passedOn

structure Server.NoneLost (s : Server) : Prop where
  parent : s.signals.overrun = false
  child : ∀ i, (s.workers i).signals.overrun = false

namespace Server
variable {s s' : Server} {i cap n : ℕ} {pids : ℕ → ℤ} {p q : SigPipe} {sig : Sig} {w : Worker} {a : Action}

section Pipe
variable {f g h c : Sig → ℕ}

theorem weight_raise_le (f g h : Sig → ℕ) (p : SigPipe) (sig : Sig) :
    (p.raise sig).weight f g h ≤ p.weight f g h + f sig := by
  cases sig <;> simp [SigPipe.weight, SigPipe.raise] <;> grind

theorem weight_handler (cap : ℕ) {d : ℕ} (hd : ∀ sig, g sig + d ≤ f sig) (hpending : p.pending sig = true) :
    ({ p with pending := Function.update p.pending sig false }.put cap sig).weight f g h + d ≤ p.weight f g h := by
  have hd := hd sig
  unfold SigPipe.put
  split
  · cases sig <;> simp [SigPipe.weight, hpending] <;> omega
  · cases sig <;> simp [SigPipe.weight, hpending] <;> omega

theorem weight_recv (hle : ∀ sig, h sig ≤ g sig) (hreceived : p.received = []) (overrun woken : Bool) :
    SigPipe.weight f g h { p with
      woken := woken
      received := p.unread.take sizeofSignals
      unread := p.unread.drop sizeofSignals
      overrun := overrun } ≤ p.weight f g h := by
  have hsplit : ((p.unread.take sizeofSignals).map g).sum + ((p.unread.drop sizeofSignals).map g).sum =
      (p.unread.map g).sum := by
    rw [← List.sum_append, ← List.map_append, List.take_append_drop]
  have htake : ((p.unread.take sizeofSignals).map h).sum ≤ ((p.unread.take sizeofSignals).map g).sum :=
    List.sum_le_sum fun sig _ => hle sig
  simp only [SigPipe.weight, hreceived, List.map_nil, List.sum_nil]
  omega

theorem weight_received {rest : List Sig} (hreceived : p.received = sig :: rest) :
    SigPipe.weight f g h { p with received := rest } + h sig = p.weight f g h := by
  simp only [SigPipe.weight, hreceived, List.map_cons, List.sum_cons]
  omega

theorem Moves.weight (hm : Moves cap p q) (hgf : ∀ sig, g sig ≤ f sig) (hhg : ∀ sig, h sig ≤ g sig) :
    q.weight f g h ≤ p.weight f g h := by
  cases hm with
  | handler pending => exact weight_handler cap (d := 0) hgf pending
  | wake report woken => exact le_rfl
  | recv woken received => exact weight_recv hhg received _ _

theorem Moves.work (hm : Moves cap p q) : q.work c < p.work c := by
  cases hm with
  | @handler sig pending =>
    have hweight := weight_handler cap (h := fun sig => c sig + 1) (d := 3)
      (fun sig => (by omega : c sig + 1 + 3 ≤ c sig + 4)) pending
    have hwoken : ({ p with pending := Function.update p.pending sig false }.put cap sig).woken = p.woken := by
      unfold SigPipe.put
      split <;> rfl
    simp only [SigPipe.work, hwoken]
    have hreport := Bool.toNat_le ({ p with pending := Function.update p.pending sig false }.put cap sig).report
    omega
  | wake report woken =>
    simp only [SigPipe.work, SigPipe.weight, report, woken, Bool.toNat_true, Bool.toNat_false]
    omega
  | recv woken received =>
    have hweight := weight_recv (f := fun sig => c sig + 4) (h := fun sig => c sig + 1) (fun sig => le_rfl) received
      (p.overrun || decide (sizeofSignals < p.unread.length)) false
    simp only [SigPipe.work, woken, Bool.toNat_true, Bool.toNat_false]
    omega

end Pipe

section Work

theorem sum_update {β : Type*} (F : β → ℕ) (f : ℕ → β) (x : β) (hi : i < n) :
    (∑ j ∈ Finset.range n, F (Function.update f i x j)) + F (f i) = (∑ j ∈ Finset.range n, F (f j)) + F x := by
  have hmem := Finset.mem_range.mpr hi
  have hrest : ∑ j ∈ (Finset.range n).erase i, F (Function.update f i x j) = ∑ j ∈ (Finset.range n).erase i, F (f j) :=
    Finset.sum_congr rfl fun j hj => by rw [Function.update_of_ne (Finset.ne_of_mem_erase hj)]
  rw [← Finset.add_sum_erase _ (fun j => F (Function.update f i x j)) hmem, ← Finset.add_sum_erase _ (fun j => F (f j)) hmem,
    hrest, Function.update_self]
  omega

/-- The work is less by what one worker has left behind. -/
theorem work_setWorker (hi : i < s.pool.processNumber) :
    (s.setWorker i w).work + (s.workers i).work = s.work + w.work := by
  have hsum := sum_update Worker.work s.workers w hi
  simp only [Server.work, setWorker]
  omega

theorem work_raise_le (cost : Sig → ℕ) (p : SigPipe) (sig : Sig) :
    (p.raise sig).work cost ≤ p.work cost + (cost sig + 4) := by
  have hweight := weight_raise_le (fun sig => cost sig + 4) (fun sig => cost sig + 1) (fun sig => cost sig + 1) p sig
  simp only [SigPipe.work, SigPipe.raise] at hweight ⊢
  omega

theorem work_received {c : Sig → ℕ} {rest : List Sig} (h : p.received = sig :: rest) :
    SigPipe.work c { p with received := rest } + c sig + 1 = p.work c := by
  have hweight := weight_received (f := fun sig => c sig + 4) (g := fun sig => c sig + 1)
    (h := fun sig => c sig + 1) h
  simp only [SigPipe.work]
  omega

theorem work_killAll_le (s : Server) : s.killAll.work ≤ s.work + 4 * s.pool.processNumber := by
  obtain ⟨hsame, hsignals, hworker, hrequests⟩ := killed_killAll s
  have hle : ∀ i ∈ Finset.range s.pool.processNumber, (s.killAll.workers i).work ≤ (s.workers i).work + 4 := by
    intro i _
    rcases (hworker i).2 with heq | heq
    · simp only [Worker.work, heq, hsame.life i, hrequests i]
      omega
    · have hraise := work_raise_le (fun _ => 0) (s.workers i).signals .term
      simp only [Worker.work, heq, hsame.life i, hrequests i]
      omega
  have hsum := Finset.sum_le_sum hle
  rw [Finset.sum_add_distrib, Finset.sum_const, Finset.card_range] at hsum
  have hsmul : s.pool.processNumber • 4 = s.pool.processNumber * 4 := rfl
  simp only [Server.work, hsame.pool, hsignals, hsame.reaping]
  omega

theorem work_setChild {t : Pool} {c : Child} (hi : i < t.processNumber) :
    (t.setChild i c).work + (t.children i).work = t.work + c.work := by
  have hsum := sum_update Child.work t.children c hi
  simp only [Pool.work, Pool.setChild]
  omega

theorem work_pool_step {t t' : Pool} {e : Step} (hn : t.subProcessCounter < t.processNumber) (h : t.step e = some t') :
    t'.work + (if e = .connect then 0 else 1) ≤ t.work + if e = .connect then 5 else 0 := by
  cases e with
  | connect =>
    obtain rfl := Option.some.inj h
    simp only [Pool.work, Bool.toNat_true, if_true]
    omega
  | parentWake =>
    obtain ⟨⟨hreport, hdispatching, -⟩, h⟩ := Option.ite_none_right_eq_some.mp h
    obtain rfl := Option.some.inj h
    simp only [Pool.work, hreport, hdispatching, Bool.toNat_true, Bool.toNat_false, reduceCtorEq, if_false]
    omega
  | dispatch =>
    obtain ⟨hdispatching, h⟩ := Option.ite_none_right_eq_some.mp h
    cases hturns : t.turns with
    | nil =>
      rw [onNewConnection_nil hn hturns] at h
      obtain rfl := Option.some.inj h
      simp only [Pool.work, hdispatching, Bool.toNat_true, Bool.toNat_false, reduceCtorEq, if_false]
      omega
    | cons i rest =>
      have hi := (search_of_turns hn hturns).2.1
      rw [onNewConnection_cons hn hturns] at h
      obtain rfl := Option.some.inj h
      have hsum := sum_update Child.work t.children
        { t.children i with unread := (t.children i).unread + sizeofInt, report := true } hi
      simp only [Child.work, Bool.toNat_true] at hsum
      simp only [Pool.work, Pool.sendTo, Child.work, hdispatching, Bool.toNat_true, Bool.toNat_false, reduceCtorEq, if_false]
      omega
  | childWake i =>
    obtain ⟨⟨hi, hreport, hphase⟩, h⟩ := Option.ite_none_right_eq_some.mp h
    obtain rfl := Option.some.inj h
    have hsum := work_setChild (c := { t.children i with report := false, phase := .woken }) hi
    simp only [Child.work, hreport, hphase, Phase.work, Bool.toNat_true, Bool.toNat_false] at hsum
    simp only [reduceCtorEq, if_false]
    omega
  | childRecv i =>
    obtain ⟨⟨hi, hphase⟩, h⟩ := Option.ite_none_right_eq_some.mp h
    obtain rfl := Option.some.inj h
    have hsum := work_setChild (c := { t.children i with
      unread := (t.children i).unread - min sizeofInt (t.children i).unread, phase := .notified }) hi
    simp only [Child.work, hphase, Phase.work] at hsum
    simp only [reduceCtorEq, if_false]
    omega
  | childAccept i =>
    obtain ⟨⟨hi, hphase⟩, h⟩ := Option.ite_none_right_eq_some.mp h
    obtain rfl := Option.some.inj h
    have hsum := work_setChild (c := { t.children i with phase := .waiting }) hi
    simp only [Child.work, hphase, Phase.work] at hsum
    simp only [Pool.work, Pool.setChild, reduceCtorEq, if_false] at hsum ⊢
    omega

theorem parentCost_le (hn : 0 < n) (sig : Sig) : parentCost n sig ≤ 4 * n := by
  cases sig with
  | chld => exact (by omega : 1 ≤ 4 * n)
  | term => exact le_rfl
  | int => exact le_rfl

theorem work_signals (s : Server) (p : SigPipe) : Server.work { s with signals := p } +
    s.signals.work (parentCost s.pool.processNumber) = s.work + p.work (parentCost s.pool.processNumber) := by
  simp only [Server.work]
  omega

theorem work_onSignal_le (sig : Sig) (h : s.reaping = false) :
    (s.onSignal sig).work ≤ s.work + parentCost s.pool.processNumber sig := by
  cases sig with
  | chld =>
    simp only [onSignal, parentCost, Server.work, h, Bool.toNat_true, Bool.toNat_false]
    omega
  | term => exact work_killAll_le s
  | int => exact work_killAll_le s

/-- A step of the pool's own leaves less work; a client or a signal brings some. -/
theorem effect_work (h : s.Table) (he : Effect cap s a s') :
    s'.work + (if a.own = true then 1 else 0) ≤ s.work + if a.own = true then 0 else 4 * s.pool.processNumber + 5 := by
  have hn := Nat.zero_lt_of_lt h.counter_lt
  cases he with
  | @pool e t takes step =>
    have hpool := work_pool_step h.counter_lt step
    have hnumber := (pool_step h.counter_lt step).2.1
    simp only [Server.work, hnumber]
    by_cases he : e = .connect
    · have hown : (Action.pool e).own = false := decide_eq_false (not_not.mpr he)
      simp only [he, if_true] at hpool
      simp only [hown, Bool.false_eq_true, if_false]
      omega
    · have hown : (Action.pool e).own = true := decide_eq_true he
      simp only [he, if_false] at hpool
      simp only [hown, if_true]
      omega
  | raised sig =>
    have hraise := work_raise_le (parentCost s.pool.processNumber) s.signals sig
    have hcost := parentCost_le hn sig
    have hsum := work_signals s (s.signals.raise sig)
    simp only [Action.own, Bool.false_eq_true, if_false]
    omega
  | @moved a p own moves free =>
    have hmoves := moves.work (c := parentCost s.pool.processNumber)
    have hsum := work_signals s p
    rw [if_pos own, if_pos own]
    omega
  | @signal sig rest received free waited =>
    have hreceived := work_received (c := parentCost s.pool.processNumber) received
    have hsum := work_signals s { s.signals with received := rest }
    have hcost := work_onSignal_le (s := { s with signals := { s.signals with received := rest } }) sig waited
    simp only [Action.own, if_true]
    generalize ({ s with signals := { s.signals with received := rest } } : Server).onSignal sig = t at hcost ⊢
    dsimp only at hcost hsum
    omega
  | @reaped i lt life reaping =>
    have hsum := sum_update Worker.work s.workers
      ⟨(s.workers i).signals, (s.workers i).stop, .reaped, (s.workers i).requests⟩ lt
    have hworker : Worker.work ⟨(s.workers i).signals, (s.workers i).stop, .reaped, (s.workers i).requests⟩ + 1 =
        (s.workers i).work := by
      simp only [Worker.work, life, Life.work]
      omega
    simp only [Server.work, Server.reap, Pool.work, Pool.reap, Action.own, if_true]
    omega
  | waited reaping nobody =>
    have hpool : (s.pool.onSigchld []).work = s.pool.work := rfl
    have hnumber : (s.pool.onSigchld []).processNumber = s.pool.processNumber := rfl
    simp only [Server.work, hpool, hnumber, reaping, Bool.toNat_true, Bool.toNat_false, Action.own, if_true]
    omega
  | @raisedChild i lt sig =>
    have hsum := work_setWorker (w := { s.workers i with signals := (s.workers i).signals.raise sig }) lt
    have hraise := work_raise_le (fun _ => 0) (s.workers i).signals sig
    simp only [Worker.work, Action.own, Bool.false_eq_true, if_false] at hsum ⊢
    omega
  | @movedChild a p i own lt moves free =>
    have hsum := work_setWorker (w := { s.workers i with signals := p }) lt
    have hmoves := moves.work (c := fun _ => 0)
    rw [if_pos own, if_pos own]
    simp only [Worker.work] at hsum ⊢
    omega
  | @signalChild i sig rest lt received =>
    have hsum := work_setWorker
      (w := Worker.onSignal { s.workers i with signals := { (s.workers i).signals with received := rest } } sig) lt
    have hreceived := work_received (c := fun _ => 0) received
    cases sig with
    | chld | term | int =>
      simp only [Worker.work, Worker.onSignal, Action.own, if_true] at hsum ⊢
      omega
  | @ended a i sends lt life =>
    have hsum := work_setWorker (w := { s.workers i with life := .exited }) lt
    have hraise := work_raise_le (parentCost s.pool.processNumber) s.signals .chld
    have hcost : parentCost s.pool.processNumber .chld = 1 := rfl
    have hsignals := work_signals (s.setWorker i { s.workers i with life := .exited }) (s.signals.raise .chld)
    simp only [Worker.work, life, Life.work] at hsum
    simp only [childEnds]
    simp only [setWorker] at hsum hsignals ⊢
    split <;> omega
  | @requested a n i sends lt count =>
    have hsum := work_setWorker (w := { s.workers i with requests := n }) lt
    simp only [Worker.work] at hsum
    cases hown : a.own with
    | true =>
      simp only [hown, if_true] at count ⊢
      omega
    | false =>
      simp only [hown, Bool.false_eq_true, if_false] at count ⊢
      omega

end Work

section Overrun

theorem passedOn_le (sig : Sig) : passedOn sig ≤ 1 := by cases sig <;> decide

theorem held_raise_le (p : SigPipe) (sig : Sig) : (p.raise sig).held ≤ p.held + 1 := weight_raise_le _ _ _ p sig

theorem Moves.held (h : Moves cap p q) : q.held ≤ p.held := h.weight (fun _ => le_rfl) fun _ => Nat.zero_le 1

theorem length_unread_le (p : SigPipe) : p.unread.length ≤ p.held := by
  simp [SigPipe.held, SigPipe.weight]

theorem length_unread_lt (h : p.pending sig = true) : p.unread.length < p.held := by
  cases sig <;> simp [SigPipe.held, SigPipe.weight, h]

/-- Nothing is lost while the bytes fit in the pipe and in the buffer. -/
theorem Moves.none_lost (h : Moves cap p q) (hover : p.overrun = false) (hcap : p.held ≤ cap)
    (hbuffer : p.held ≤ sizeofSignals) : q.overrun = false := by
  cases h with
  | handler pending =>
    have hroom := length_unread_lt pending
    unfold SigPipe.put
    rw [if_pos (by exact hroom.trans_le hcap)]
    exact hover
  | wake report woken => exact hover
  | recv woken received =>
    have hfits : ¬sizeofSignals < p.unread.length := Nat.not_lt.mpr ((length_unread_le p).trans hbuffer)
    simp [hover, hfits]

theorem NoneLost.setWorker (h : s.NoneLost) (hw : w.signals.overrun = false) : (s.setWorker i w).NoneLost := by
  refine ⟨h.parent, fun j => ?_⟩
  by_cases hji : j = i
  · simpa [Server.setWorker, hji] using hw
  · simpa [Server.setWorker, hji] using h.child j

theorem NoneLost.killed (h : s.NoneLost) (hk : Killed s s') : s'.NoneLost := by
  refine ⟨(congrArg SigPipe.overrun hk.signals).trans h.parent, fun i => ?_⟩
  rcases (hk.worker i).2 with heq | heq
  · rw [heq]
    exact h.child i
  · rw [heq]
    exact h.child i

theorem NoneLost.step (h : s.NoneLost) (hparent : s.parentLoad ≤ cap ∧ s.parentLoad ≤ sizeofSignals)
    (hchild : ∀ i < s.pool.processNumber, s.childLoad i ≤ cap ∧ s.childLoad i ≤ sizeofSignals)
    (he : Effect cap s a s') : s'.NoneLost := by
  cases he with
  | pool | raised | waited => exact ⟨h.parent, h.child⟩
  | moved own moves free =>
    have hle : s.signals.held ≤ s.parentLoad := Nat.le_add_right _ _
    exact ⟨moves.none_lost h.parent (hle.trans hparent.1) (hle.trans hparent.2), h.child⟩
  | @signal sig rest received free waited =>
    have hnone : NoneLost { s with signals := { s.signals with received := rest } } := ⟨h.parent, h.child⟩
    cases sig with
    | chld => exact ⟨h.parent, h.child⟩
    | term => exact hnone.killed (killed_killAll _)
    | int => exact hnone.killed (killed_killAll _)
  | @reaped i lt life reaping =>
    have hw : (s.setWorker i { s.workers i with life := .reaped }).NoneLost := h.setWorker (h.child i)
    exact ⟨h.parent, hw.child⟩
  | @raisedChild i lt sig => exact h.setWorker (h.child i)
  | @movedChild a p i own lt moves free =>
    have hle : (s.workers i).signals.held ≤ s.childLoad i := Nat.le_add_right _ _
    exact h.setWorker (moves.none_lost (h.child i) (hle.trans (hchild i lt).1) (hle.trans (hchild i lt).2))
  | @signalChild i sig rest lt received =>
    refine h.setWorker ?_
    cases sig with
    | chld | term | int => exact h.child i
  | @ended a i sends lt life =>
    have hw : (s.setWorker i { s.workers i with life := .exited }).NoneLost := h.setWorker (h.child i)
    exact ⟨h.parent, hw.child⟩
  | @requested a n i sends lt count => exact h.setWorker (h.child i)

theorem sum_alive (h : ∀ i, (s'.workers i).life = (s.workers i).life) (n : ℕ) :
    ∑ i ∈ Finset.range n, (s'.workers i).alive = ∑ i ∈ Finset.range n, (s.workers i).alive :=
  Finset.sum_congr rfl fun i _ => by rw [Worker.alive, Worker.alive, h i]

theorem parentLoad_same (h : Same s s') (hsignals : s'.signals.held ≤ s.signals.held) :
    s'.parentLoad ≤ s.parentLoad := by
  rw [parentLoad, parentLoad, h.fixed.1, sum_alive h.life]
  exact Nat.add_le_add_right hsignals _

theorem effect_parentLoad (h : s.Table) (he : Effect cap s a s') :
    s'.parentLoad ≤ s.parentLoad + if a.sends = true then 1 else 0 := by
  cases he with
  | pool takes step =>
    rw [parentLoad, (pool_step h.counter_lt step).2.1]
    exact Nat.le_add_right _ _
  | raised sig =>
    have hraise := held_raise_le s.signals sig
    simp only [parentLoad, Action.sends, if_true]
    omega
  | moved own moves free => exact (parentLoad_same (same_signals s _) moves.held).trans (Nat.le_add_right _ _)
  | @signal sig rest received free waited =>
    have hsame := same_signals s { s.signals with received := rest }
    refine le_trans ?_ (Nat.le_add_right _ _)
    have hle : Server.parentLoad { s with signals := { s.signals with received := rest } } ≤ s.parentLoad := by
      refine parentLoad_same hsame ?_
      exact (Nat.le_add_right _ _).trans_eq (weight_received received)
    cases sig with
    | chld => exact hle
    | term => exact (parentLoad_same (killed_killAll _).same (by rw [(killed_killAll _).signals])).trans hle
    | int => exact (parentLoad_same (killed_killAll _).same (by rw [(killed_killAll _).signals])).trans hle
  | @reaped i lt life reaping =>
    have hsum := sum_update Worker.alive s.workers
      ⟨(s.workers i).signals, (s.workers i).stop, .reaped, (s.workers i).requests⟩ lt
    simp only [parentLoad, Server.reap, Pool.reap]
    simp only [Worker.alive, life, reduceCtorEq, if_false] at hsum ⊢
    omega
  | waited reaping nobody => exact Nat.le_add_right _ _
  | raisedChild lt sig =>
    refine (parentLoad_same (same_setWorker ?_) le_rfl).trans (Nat.le_add_right _ _)
    rfl
  | movedChild own lt moves free =>
    refine (parentLoad_same (same_setWorker ?_) le_rfl).trans (Nat.le_add_right _ _)
    rfl
  | @signalChild i sig rest lt received =>
    refine (parentLoad_same (same_setWorker ?_) le_rfl).trans (Nat.le_add_right _ _)
    exact life_onSignal _ sig
  | @ended a i sends lt life =>
    have hraise := held_raise_le s.signals .chld
    have hsum := sum_update Worker.alive s.workers
      ⟨(s.workers i).signals, (s.workers i).stop, .exited, (s.workers i).requests⟩ lt
    simp only [parentLoad, childEnds, Server.setWorker]
    simp only [Worker.alive, life, reduceCtorEq, if_false, if_true] at hsum ⊢
    omega
  | requested sends lt count =>
    refine (parentLoad_same (same_setWorker ?_) le_rfl).trans (Nat.le_add_right _ _)
    rfl

theorem childLoad_setWorker_le {j : ℕ} (hw : w.signals.held ≤ (s.workers j).signals.held) :
    (s.setWorker j w).childLoad i ≤ s.childLoad i := by
  refine Nat.add_le_add_right ?_ _
  by_cases hij : i = j
  · simpa [Server.setWorker, hij] using hw
  · simp [Server.setWorker, hij]

theorem childLoad_killAll_le (s : Server) (i : ℕ) : s.killAll.childLoad i ≤ s.childLoad i + 1 := by
  obtain ⟨-, hsignals, hworker⟩ := killed_killAll s
  rw [childLoad, childLoad, hsignals]
  rcases (hworker i).2 with heq | heq
  · rw [heq]
    omega
  · have hraise := held_raise_le (s.workers i).signals .term
    rw [heq]
    omega

theorem childLoad_onSignal_le (s : Server) (sig : Sig) (i : ℕ) :
    (s.onSignal sig).childLoad i ≤ s.childLoad i + passedOn sig := by
  cases sig with
  | chld => exact le_rfl
  | term => exact childLoad_killAll_le s i
  | int => exact childLoad_killAll_le s i

theorem signals_worker_onSignal (w : Worker) (sig : Sig) : (w.onSignal sig).signals = w.signals := by
  cases sig <;> rfl

theorem effect_childLoad (he : Effect cap s a s') (i : ℕ) :
    s'.childLoad i ≤ s.childLoad i + if a.sends = true then 1 else 0 := by
  cases he with
  | pool | waited => exact Nat.le_add_right _ _
  | raised sig =>
    have hraise := weight_raise_le passedOn passedOn passedOn s.signals sig
    have hle := passedOn_le sig
    simp only [childLoad, Action.sends, if_true]
    omega
  | moved own moves free =>
    have hle := moves.weight (fun sig => le_refl (passedOn sig)) fun sig => le_refl (passedOn sig)
    simp only [childLoad]
    omega
  | @signal sig rest received free waited =>
    have hreceived := weight_received (f := passedOn) (g := passedOn) (h := passedOn) received
    refine (childLoad_onSignal_le _ sig i).trans ?_
    simp only [childLoad]
    omega
  | @reaped j lt life reaping =>
    have hw := childLoad_setWorker_le (s := s) (i := i) (j := j) (w := { s.workers j with life := .reaped }) le_rfl
    exact hw.trans (Nat.le_add_right _ _)
  | @raisedChild j lt sig =>
    have hraise := held_raise_le (s.workers j).signals sig
    simp only [Action.sends, if_true, childLoad, Server.setWorker]
    by_cases hij : i = j
    · subst hij
      simp only [Function.update_self]
      omega
    · simp only [Function.update_of_ne hij]
      omega
  | @movedChild a p j own lt moves free => exact (childLoad_setWorker_le moves.held).trans (Nat.le_add_right _ _)
  | @signalChild j sig rest lt received =>
    refine (childLoad_setWorker_le ?_).trans (Nat.le_add_right _ _)
    have hreceived := weight_received (f := fun _ => 1) (g := fun _ => 1) (h := fun _ => 0) received
    rw [signals_worker_onSignal]
    exact hreceived.le
  | @ended a j sends lt life =>
    have hw := childLoad_setWorker_le (s := s) (i := i) (j := j) (w := { s.workers j with life := .exited }) le_rfl
    have hraise := weight_raise_le passedOn passedOn passedOn s.signals .chld
    have hzero : passedOn .chld = 0 := rfl
    refine le_trans ?_ (hw.trans (Nat.le_add_right _ _))
    simp only [childLoad, childEnds, Server.setWorker]
    omega
  | @requested a n j sends lt count =>
    have hw := childLoad_setWorker_le (s := s) (i := i) (j := j) (w := { s.workers j with requests := n }) le_rfl
    exact hw.trans (Nat.le_add_right _ _)

end Overrun

section Runs
variable {actions : List Action}

theorem work_start (n : ℕ) (pids : ℕ → ℤ) : (start n pids).work = 7 * n := by
  have hpipe : ∀ cost, SigPipe.start.work cost = 0 := fun _ => rfl
  have hpool : (Pool.start n pids).work = 0 := by simp [Pool.work, Pool.start, Child.start, Child.work, Phase.work]
  simp [Server.work, start, hpipe, hpool, Worker.work, Life.work]
  simp [Pool.start, Nat.mul_comm]

theorem run_work (hs : Sound n pids s) (h : s.run cap actions = some s') :
    s'.work + actions.countP Action.own ≤ s.work + (4 * n + 5) * actions.countP fun a => !a.own := by
  induction actions generalizing s with
  | nil =>
    obtain rfl := Option.some.inj h
    exact le_rfl
  | cons a actions ih =>
    rw [run_cons] at h
    obtain ⟨t, ht, h⟩ := Option.bind_eq_some_iff.mp h
    have hrest := ih (hs.step ht) h
    have hstep := effect_work hs.table (effect_of_step ht)
    rw [hs.processNumber_eq] at hstep
    cases hown : a.own with
    | true =>
      rw [List.countP_cons_of_pos hown, List.countP_cons_of_neg (by simp [hown])]
      simp only [hown, if_true] at hstep
      omega
    | false =>
      rw [List.countP_cons_of_neg (by simp [hown]), List.countP_cons_of_pos (by simp [hown]), Nat.mul_add]
      simp only [hown, Bool.false_eq_true, if_false] at hstep
      omega

theorem exists_rest (cap : ℕ) (hs : Sound n pids s) :
    ∃ more s', (∀ a ∈ more, Action.own a = true) ∧ s.run cap more = some s' ∧ s'.AtRest cap := by
  induction hwork : s.work using Nat.strong_induction_on generalizing s with
  | _ work ih =>
    by_cases hrest : s.AtRest cap
    · exact ⟨[], s, fun _ hmem => absurd hmem List.not_mem_nil, rfl, hrest⟩
    · obtain ⟨a, hown, hne⟩ : ∃ a, Action.own a = true ∧ s.step cap a ≠ none := by
        simpa [AtRest] using hrest
      obtain ⟨t, ht⟩ := Option.ne_none_iff_exists'.mp hne
      have hstep := effect_work hs.table (effect_of_step ht)
      simp only [hown, if_true] at hstep
      obtain ⟨more, s', hmore, hrun, hend⟩ := ih t.work (by omega) (hs.step ht) rfl
      refine ⟨a :: more, s', List.forall_mem_cons.mpr ⟨hown, hmore⟩, ?_, hend⟩
      rw [run_cons, ht]
      exact hrun

/-- The steps that the pool takes by itself in a run are bounded by what the clients, their data, the senders of signals
and the crashes do, and after each run it can come to rest. -/
theorem own_steps_bounded (hn : 0 < n) (hpos : ∀ i < n, 0 < pids i)
    (hinj : ∀ i < n, ∀ j < n, pids i = pids j → i = j) (h : (start n pids).run cap actions = some s) :
    actions.countP Action.own ≤ 7 * n + (4 * n + 5) * (actions.countP fun a => !a.own) ∧
      ∃ more s', (∀ a ∈ more, Action.own a = true) ∧ s.run cap more = some s' ∧ s'.AtRest cap := by
  have hstart := sound_start hn hpos hinj
  refine ⟨?_, exists_rest cap (hstart.run h)⟩
  have hwork := run_work hstart h
  rw [work_start] at hwork
  omega

/-- A client with its data and `SIGTERM` for two children. -/
theorem own_steps_bounded_two : 3 ≤ 14 + 13 * 3 ∧ ∃ more s s', (∀ a ∈ more, Action.own a = true) ∧
    (start 2 fun i => 100 + i).run 1 [.pool .connect, .pool .parentWake, .pool .dispatch, .request 0, .process 0,
      .raise .term] = some s ∧
    s.run 1 more = some s' ∧ s'.AtRest 1 := by
  let s₀ := start 2 fun i => 100 + i
  let actions : List Action :=
    [.pool .connect, .pool .parentWake, .pool .dispatch, .request 0, .process 0, .raise .term]
  have hs₀ : Sound 2 (fun i => 100 + i) s₀ := sound_start (by decide) (fun i _ => by omega) fun i _ j _ h => by omega
  have hrun : (s₀.run 1 actions).isSome = true := rfl
  obtain ⟨s, hs⟩ := Option.isSome_iff_exists.mp hrun
  obtain ⟨hcount, more, s', hmore, hrun', hrest⟩ := own_steps_bounded (by decide) hs₀.table.pid_pos hs₀.table.pid_inj hs
  exact ⟨hcount, more, s, s', hmore, hs, hrun', hrest⟩

theorem none_lost_start (n : ℕ) (pids : ℕ → ℤ) : (start n pids).NoneLost := ⟨rfl, fun _ => rfl⟩

theorem NoneLost.run {m : ℕ} (hcap : m ≤ cap) (hbuffer : m ≤ sizeofSignals) (hs : Sound n pids s) (hnone : s.NoneLost)
    (hparent : s.parentLoad + actions.countP Action.sends ≤ m)
    (hchild : ∀ i, s.childLoad i + actions.countP Action.sends ≤ m) (h : s.run cap actions = some s') :
    s'.NoneLost := by
  induction actions generalizing s with
  | nil =>
    obtain rfl := Option.some.inj h
    exact hnone
  | cons a actions ih =>
    rw [run_cons] at h
    obtain ⟨t, ht, h⟩ := Option.bind_eq_some_iff.mp h
    rw [List.countP_cons] at hparent
    simp only [List.countP_cons] at hchild
    have he := effect_of_step ht
    have hparent' := effect_parentLoad hs.table he
    refine ih (hs.step ht) (hnone.step ?_ ?_ he) (by omega) (fun i => ?_) h
    · omega
    · intro i _
      have := hchild i
      omega
    · have hchild := hchild i
      have hchild' := effect_childLoad he i
      omega

theorem none_lost_run (hn : 0 < n) (hpos : ∀ i < n, 0 < pids i) (hinj : ∀ i < n, ∀ j < n, pids i = pids j → i = j)
    (h : (start n pids).run cap actions = some s) (hcap : n + actions.countP Action.sends ≤ cap)
    (hbuffer : n + actions.countP Action.sends ≤ sizeofSignals) : s.NoneLost := by
  have hparent : (start n pids).parentLoad = n := by
    have hheld : SigPipe.start.held = 0 := rfl
    simp [parentLoad, start, hheld, Worker.alive, Pool.start]
  have hchild : ∀ i, (start n pids).childLoad i = 0 := fun _ => rfl
  refine (none_lost_start n pids).run hcap hbuffer (sound_start hn hpos hinj) ?_ (fun i => ?_) h
  · rw [hparent]
  · rw [hchild i]
    omega

/-- When the signals from outside, with one for each child, fit in `sig_pipefd` and in the buffer of `recv`, no process
ever loses one. -/
theorem nothing_lost (hn : 0 < n) (hpos : ∀ i < n, 0 < pids i) (hinj : ∀ i < n, ∀ j < n, pids i = pids j → i = j)
    (h : (start n pids).run cap actions = some s) (hcap : n + actions.countP Action.sends ≤ cap)
    (hbuffer : n + actions.countP Action.sends ≤ sizeofSignals) :
    s.signals.overrun = false ∧ ∀ i < n, (s.workers i).signals.overrun = false := by
  have hnone := none_lost_run hn hpos hinj h hcap hbuffer
  exact ⟨hnone.parent, fun i _ => hnone.child i⟩

/-- The parent and the only child take one signal each. -/
theorem nothing_lost_one : ∃ s : Server, (start 1 fun i => 100 + i).run 2 [.raise .term, .handler .term, .wake, .recv,
      .signal, .handlerChild 0 .term] = some s ∧
    s.signals.overrun = false ∧ ∀ i < 1, (s.workers i).signals.overrun = false := by
  let s₀ := start 1 fun i => 100 + i
  let actions : List Action := [.raise .term, .handler .term, .wake, .recv, .signal, .handlerChild 0 .term]
  have hs₀ : Sound 1 (fun i => 100 + i) s₀ := sound_start (by decide) (fun i _ => by omega) fun i _ j _ h => by omega
  have hrun : (s₀.run 2 actions).isSome = true := rfl
  obtain ⟨s, hs⟩ := Option.isSome_iff_exists.mp hrun
  exact ⟨s, hs, nothing_lost (by decide) hs₀.table.pid_pos hs₀.table.pid_inj hs (by decide) (by decide)⟩

theorem sends_eq_false {a : Action} (h : a.own = true) : a.sends = false := by
  cases a with
  | raise => cases h
  | raiseChild => cases h
  | _ => rfl

/-- When no process of the pool has anything to do and no signal has been lost in `sig_pipefd`, the parent has waited
for every child that has ended, every child that was sent `SIGTERM` or `SIGINT` is gone, and so are all of them once the
parent was sent one. The parent has left its loop just when nobody is left. -/
theorem comes_to_rest (hn : 0 < n) (hpos : ∀ i < n, 0 < pids i) (hinj : ∀ i < n, ∀ j < n, pids i = pids j → i = j)
    (h : (start n pids).run cap actions = some s) (hrest : s.AtRest cap) (hover : s.signals.overrun = false)
    (hover' : ∀ i < n, (s.workers i).signals.overrun = false) :
    (∀ i < n, (s.workers i).life ≠ .exited) ∧
    (∀ i < n, (∃ sig ≠ .chld, .raiseChild i sig ∈ actions) → (s.workers i).life = .reaped) ∧
    ((∃ sig ≠ .chld, .raise sig ∈ actions) → ∀ i < n, (s.workers i).life = .reaped) ∧
    (s.pool.stop = true ↔ ∀ i < n, (s.workers i).life = .reaped) := by
  have hstart := sound_start hn hpos hinj
  have hs := hstart.run h
  have hlive := live_run hstart (live_start n pids) h
  have hnumber := hs.processNumber_eq
  refine ⟨fun i hi => hrest.not_exited hs hlive (hnumber ▸ hi) hover, ?_, ?_, ?_⟩
  · rintro i hi ⟨sig, hsig, hmem⟩
    exact hrest.reaped hs hlive (hnumber ▸ hi) hover (hover' i hi) (childTold_run hstart hsig hmem h)
  · rintro ⟨sig, hsig, hmem⟩ i hi
    cases hstop : s.pool.stop with
    | true => exact hs.table.stop hstop i (hnumber ▸ hi)
    | false =>
      rcases parentTold_run hstart hsig hmem h with htrue | ⟨sig, -, hholds⟩ | hall
      · cases hover.symm.trans htrue
      · exact absurd hholds (hrest.parent hs hlive hstop hover)
      · exact hrest.reaped hs hlive (hnumber ▸ hi) hover (hover' i hi) (hall i (hnumber ▸ hi))
  · constructor
    · exact fun hstop i hi => hs.table.stop hstop i (hnumber ▸ hi)
    · intro hall
      rcases hs.table.all (hnumber.symm ▸ hall) with hstop | hreaping
      · exact hstop
      · cases hrest.reaping.symm.trans hreaping

/-- Two children after `SIGTERM`. -/
theorem comes_to_rest_two : ∃ more s, (∀ a ∈ more, Action.own a = true) ∧
    (start 2 fun i => 100 + i).run 3 (.raise .term :: more) = some s ∧ s.pool.stop = true := by
  let s₀ := start 2 fun i => 100 + i
  let s₁ : Server := { s₀ with signals := s₀.signals.raise .term }
  have hs₀ : Sound 2 (fun i => 100 + i) s₀ := sound_start (by decide) (fun i _ => by omega) fun i _ j _ h => by omega
  have hstep : s₀.step 3 (.raise .term) = some s₁ := rfl
  obtain ⟨more, s, hmore, hrun, hrest⟩ := exists_rest 3 (hs₀.step hstep)
  have hrun' : s₀.run 3 (.raise .term :: more) = some s := by
    rw [run_cons, hstep]
    exact hrun
  have hsends : (Action.raise .term :: more).countP Action.sends = 1 := by
    rw [List.countP_cons_of_pos rfl, List.countP_eq_zero.mpr fun a ha => by simp [sends_eq_false (hmore a ha)]]
  have hcap : 2 + (Action.raise .term :: more).countP Action.sends ≤ 3 := by rw [hsends]
  have hnone := none_lost_run (by decide) hs₀.table.pid_pos hs₀.table.pid_inj hrun' hcap (hcap.trans (by decide))
  obtain ⟨-, -, hgone, hstop⟩ := comes_to_rest (by decide) hs₀.table.pid_pos hs₀.table.pid_inj hrun' hrest hnone.parent
    fun i _ => hnone.child i
  exact ⟨more, s, hmore, hrun', hstop.mpr (hgone ⟨.term, by decide, List.mem_cons_self⟩)⟩

end Runs

end Server

end LinuxSocket.ProcessPool
