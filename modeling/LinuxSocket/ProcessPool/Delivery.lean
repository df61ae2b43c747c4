import LinuxSocket.ProcessPool.Lifecycle

/-! # No signal is lost

A signal stays on its way until its process has looked at it, unless a handler or `recv` drops it. What a process does
about it is done by the time at which no process of the pool has anything to do.
-/
namespace LinuxSocket.ProcessPool

/-- The signal is on its way to the loop of the process. -/
def SigPipe.Holds (p : SigPipe) (sig : Sig) : Prop := p.pending sig = true ∨ sig ∈ p.unread ∨ sig ∈ p.received

def SigPipe.Alert (p : SigPipe) : Prop := p.unread = [] ∨ p.report = true ∨ p.woken = true ∨ p.overrun = true

/-- The child is about to leave its loop. -/
def Worker.Told (w : Worker) : Prop :=
  w.stop = true ∨ w.signals.overrun = true ∨ ∃ sig ≠ Sig.chld, w.signals.Holds sig

namespace Server
variable {s s' : Server} {i cap n : ℕ} {pids : ℕ → ℤ} {p q : SigPipe} {sig : Sig} {w : Worker} {a : Action}

section Pipe

theorem Moves.overrun (h : Moves cap p q) (hp : p.overrun = true) : q.overrun = true := by
  cases h with
  | handler pending =>
    unfold SigPipe.put
    split
    · exact hp
    · rfl
  | wake report woken => exact hp
  | recv woken received => simp [hp]

theorem Moves.alert (h : Moves cap p q) : q.Alert := by
  cases h with
  | handler pending =>
    unfold SigPipe.put
    split
    · exact .inr (.inl rfl)
    · exact .inr (.inr (.inr rfl))
  | wake report woken => exact .inr (.inr (.inl rfl))
  | recv woken received =>
    -- what the buffer is too short for is left behind without a report
    rcases Nat.lt_or_ge sizeofSignals p.unread.length with hlt | hge
    · exact .inr (.inr (.inr (by simp [hlt])))
    · exact .inl (List.drop_eq_nil_of_le hge)

theorem Moves.holds (h : Moves cap p q) (hp : p.Holds sig) : q.overrun = true ∨ q.Holds sig := by
  cases h with
  | @handler sig' pending =>
    unfold SigPipe.put
    split
    · right
      by_cases heq : sig = sig'
      · exact .inr (.inl (by simp [heq]))
      · rcases hp with hpending | hunread | hreceived
        · exact .inl (by simpa [heq] using hpending)
        · exact .inr (.inl (List.mem_append_left _ hunread))
        · exact .inr (.inr hreceived)
    · exact .inl rfl
  | wake report woken => exact .inr hp
  | recv woken received =>
    rcases hp with hpending | hunread | hreceived
    · exact .inr (.inl hpending)
    · rcases List.mem_append.mp ((List.take_append_drop sizeofSignals p.unread).symm ▸ hunread) with htake | hdrop
      · exact .inr (.inr (.inr htake))
      · exact .inr (.inr (.inl hdrop))
    · rw [received] at hreceived
      cases hreceived

theorem holds_raise_self (p : SigPipe) (sig : Sig) : (p.raise sig).Holds sig := .inl (by simp [SigPipe.raise])

theorem holds_raise (h : p.Holds sig) (sig' : Sig) : (p.raise sig').Holds sig := by
  rcases h with hpending | hrest
  · refine .inl ?_
    by_cases heq : sig = sig'
    · simp [SigPipe.raise, heq]
    · simpa [SigPipe.raise, heq] using hpending
  · exact .inr hrest

/-- The process has looked at its first signal. -/
theorem holds_received {rest : List Sig} {sig' : Sig} (h : p.Holds sig) (hreceived : p.received = sig' :: rest)
    (hne : sig ≠ sig') : SigPipe.Holds { p with received := rest } sig := by
  rcases h with hpending | hunread | hmem
  · exact .inl hpending
  · exact .inr (.inl hunread)
  · rw [hreceived] at hmem
    exact .inr (.inr (List.mem_of_ne_of_mem hne hmem))

theorem told_moves (h : Moves cap w.signals q) (hw : w.Told) : Worker.Told { w with signals := q } := by
  rcases hw with hstop | hover | ⟨sig, hne, hholds⟩
  · exact .inl hstop
  · exact .inr (.inl (h.overrun hover))
  · rcases h.holds hholds with hover | hholds
    · exact .inr (.inl hover)
    · exact .inr (.inr ⟨sig, hne, hholds⟩)

theorem told_raise (hw : w.Told) (sig : Sig) : Worker.Told { w with signals := w.signals.raise sig } := by
  rcases hw with hstop | hover | ⟨sig', hne, hholds⟩
  · exact .inl hstop
  · exact .inr (.inl hover)
  · exact .inr (.inr ⟨sig', hne, holds_raise hholds sig⟩)

theorem told_onSignal {rest : List Sig} (hw : w.Told) (hreceived : w.signals.received = sig :: rest) :
    (Worker.onSignal { w with signals := { w.signals with received := rest } } sig).Told := by
  cases sig with
  | chld =>
    rcases hw with hstop | hover | ⟨sig', hne, hholds⟩
    · exact .inl hstop
    · exact .inr (.inl hover)
    · exact .inr (.inr ⟨sig', hne, holds_received hholds hreceived hne⟩)
  | term => exact .inl rfl
  | int => exact .inl rfl

end Pipe

/-- What keeps the pool going: a process is told about its signals, and a child that has ended about itself. -/
structure Live (s : Server) : Prop where
  alert : s.signals.Alert
  alertChild : ∀ i, (s.workers i).signals.Alert
  ended : ∀ i < s.pool.processNumber, (s.workers i).life = .exited →
    s.reaping = true ∨ s.signals.overrun = true ∨ s.signals.Holds .chld

/-- The child leaves its loop, or has left it. -/
def ChildTold (i : ℕ) (s : Server) : Prop := (s.workers i).life = .running → (s.workers i).Told

def ParentTold (s : Server) : Prop :=
  s.signals.overrun = true ∨ (∃ sig ≠ Sig.chld, s.signals.Holds sig) ∨
    ∀ i < s.pool.processNumber, ChildTold i s

section Effects

theorem live_start (n : ℕ) (pids : ℕ → ℤ) : (start n pids).Live := by
  refine ⟨.inl rfl, fun _ => .inl rfl, fun i _ hlife => ?_⟩
  cases hlife

theorem alert_onSignal (hw : w.signals.Alert) (sig : Sig) : (w.onSignal sig).signals.Alert := by
  cases sig with
  | chld => exact hw
  | term => exact hw
  | int => exact hw

theorem Live.setWorker (h : s.Live) {w : Worker} (hw : w.signals.Alert) (hlife : w.life = (s.workers i).life) :
    (s.setWorker i w).Live := by
  refine ⟨h.alert, fun j => ?_, fun j hj hexited => h.ended j hj (((same_setWorker hlife).life j).symm.trans hexited)⟩
  by_cases hji : j = i
  · simpa [Server.setWorker, hji] using hw
  · simpa [Server.setWorker, hji] using h.alertChild j

theorem Live.killAll (h : s.Live) : s.killAll.Live := by
  obtain ⟨hsame, hsignals, hworker⟩ := killed_killAll s
  refine ⟨?_, fun i => ?_, fun i hi hexited => ?_⟩
  · rw [hsignals]
    exact h.alert
  · rcases (hworker i).2 with heq | heq
    · rw [heq]
      exact h.alertChild i
    · rw [heq]
      exact h.alertChild i
  · rw [hsame.pool] at hi
    rw [hsame.reaping, hsignals]
    exact h.ended i hi ((hsame.life i).symm.trans hexited)

theorem Live.step (h : s.Live) (ht : s.Table) (he : Effect cap s a s') : s'.Live := by
  cases he with
  | @pool e t takes step =>
    refine ⟨h.alert, h.alertChild, ?_⟩
    rw [(pool_step ht.counter_lt step).2.1]
    exact h.ended
  | raised sig =>
    refine ⟨h.alert, h.alertChild, fun i hi hexited => ?_⟩
    rcases h.ended i hi hexited with hreaping | hover | hholds
    · exact .inl hreaping
    · exact .inr (.inl hover)
    · exact .inr (.inr (holds_raise hholds sig))
  | moved own moves free =>
    refine ⟨moves.alert, h.alertChild, fun i hi hexited => ?_⟩
    rcases h.ended i hi hexited with hreaping | hover | hholds
    · exact .inl hreaping
    · exact .inr (.inl (moves.overrun hover))
    · exact .inr (moves.holds hholds)
  | @signal sig rest received free waited =>
    have hlive : sig ≠ .chld → Live { s with signals := { s.signals with received := rest } } := by
      intro hne
      refine ⟨h.alert, h.alertChild, fun i hi hexited => ?_⟩
      rcases h.ended i hi hexited with hreaping | hover | hholds
      · exact .inl hreaping
      · exact .inr (.inl hover)
      · exact .inr (.inr (holds_received hholds received hne.symm))
    cases sig with
    | chld => exact ⟨h.alert, h.alertChild, fun _ _ _ => .inl rfl⟩
    | term => exact (hlive (by decide)).killAll
    | int => exact (hlive (by decide)).killAll
  | @reaped i lt life reaping =>
    refine ⟨h.alert, fun j => ?_, fun _ _ _ => .inl reaping⟩
    by_cases hji : j = i
    · simpa [Server.reap, hji] using h.alertChild i
    · simpa [Server.reap, hji] using h.alertChild j
  | waited reaping nobody => exact ⟨h.alert, h.alertChild, fun i hi hexited => absurd hexited (nobody i hi)⟩
  | @raisedChild i lt sig => exact h.setWorker (h.alertChild i) rfl
  | movedChild own lt moves free => exact h.setWorker moves.alert rfl
  | @signalChild i sig rest lt received =>
    refine h.setWorker (alert_onSignal ?_ sig) (life_onSignal _ sig)
    exact h.alertChild i
  | @ended a i sends lt life =>
    refine ⟨h.alert, fun j => ?_, fun _ _ _ => .inr (.inr (holds_raise_self _ _))⟩
    by_cases hji : j = i
    · simpa [childEnds, Server.setWorker, hji] using h.alertChild i
    · simpa [childEnds, Server.setWorker, hji] using h.alertChild j
  | @requested a n i sends lt count => exact h.setWorker (h.alertChild i) rfl

theorem ChildTold.setWorker {j : ℕ} (h : ChildTold i s) (hlife : w.life = (s.workers j).life)
    (hw : (s.workers j).Told → w.Told) : ChildTold i (s.setWorker j w) := by
  intro hrunning
  by_cases hij : i = j
  · subst hij
    have heq : (s.setWorker i w).workers i = w := Function.update_self _ _ _
    rw [heq] at hrunning ⊢
    exact hw (h (hlife.symm.trans hrunning))
  · have heq : (s.setWorker j w).workers i = s.workers i := Function.update_of_ne hij _ _
    rw [heq] at hrunning ⊢
    exact h hrunning

theorem ChildTold.killed (h : ChildTold i s) (hk : Killed s s') : ChildTold i s' := by
  intro hrunning
  have hw := h ((hk.same.life i).symm.trans hrunning)
  obtain ⟨hstop, hsignals⟩ := hk.worker i
  rcases hsignals with heq | heq
  · simpa only [Worker.Told, hstop, heq] using hw
  · simpa only [Worker.Told, hstop, heq] using told_raise hw .term

theorem ChildTold.step (h : ChildTold i s) (he : Effect cap s a s') : ChildTold i s' := by
  cases he with
  | pool | raised | moved | waited => exact h
  | @signal sig rest received free waited =>
    cases sig with
    | chld => exact h
    | term => exact ChildTold.killed (s := { s with signals := { s.signals with received := rest } }) h (killed_killAll _)
    | int => exact ChildTold.killed (s := { s with signals := { s.signals with received := rest } }) h (killed_killAll _)
  | @reaped j lt life reaping =>
    intro hrunning
    by_cases hij : i = j
    · simp [Server.reap, hij] at hrunning
    · have heq : (s.reap j).workers i = s.workers i := Function.update_of_ne hij _ _
      rw [heq] at hrunning ⊢
      exact h hrunning
  | @raisedChild j lt sig => exact h.setWorker rfl fun hw => told_raise hw sig
  | @movedChild a t j own lt moves free => exact h.setWorker rfl fun hw => told_moves moves hw
  | @signalChild j sig rest lt received =>
    exact h.setWorker (life_onSignal _ sig) fun hw => told_onSignal hw received
  | @ended a j sends lt life =>
    intro hrunning
    by_cases hij : i = j
    · simp [childEnds, Server.setWorker, hij] at hrunning
    · have heq : (s.childEnds j).workers i = s.workers i := Function.update_of_ne hij _ _
      rw [heq] at hrunning ⊢
      exact h hrunning
  | requested sends lt count => exact h.setWorker rfl id

/-- The loop of `run_parent` reaches every child that runs. -/
theorem childTold_killAll (h : s.Table) (hi : i < s.pool.processNumber) : ChildTold i s.killAll := by
  intro hrunning
  have hlife : (s.workers i).life ≠ .reaped := by
    rw [← (killed_killAll s).same.life i, hrunning]
    decide
  have hpid : s.pool.pid i = s.pids i := (h.pid_eq i hi).trans (if_neg hlife)
  exact .inr (.inr ⟨.term, by decide, .inl (killLoop_pending (List.mem_range.mpr hi) hpid ((pid_ne_iff h hi).mpr hlife))⟩)

theorem signals_onSignal (s : Server) (sig : Sig) : (s.onSignal sig).signals = s.signals := by
  cases sig with
  | chld => rfl
  | term => exact (killed_killAll s).signals
  | int => exact (killed_killAll s).signals

theorem effect_overrun (he : Effect cap s a s') (h : s.signals.overrun = true) : s'.signals.overrun = true := by
  cases he with
  | pool | raised | reaped | waited | raisedChild | movedChild | signalChild | ended | requested => exact h
  | moved own moves free => exact moves.overrun h
  | @signal sig rest received free waited =>
    rw [signals_onSignal]
    exact h

/-- A signal stays on its way to the parent until the parent looks at it. -/
theorem effect_holds (he : Effect cap s a s') (h : s.signals.Holds sig) :
    s'.signals.overrun = true ∨ s'.signals.Holds sig ∨
      ∃ rest, s' = { s with signals := { s.signals with received := rest } }.onSignal sig := by
  cases he with
  | pool | reaped | waited | raisedChild | movedChild | signalChild | requested => exact .inr (.inl h)
  | raised sig' => exact .inr (.inl (holds_raise h sig'))
  | ended => exact .inr (.inl (holds_raise h .chld))
  | moved own moves free =>
    rcases moves.holds h with hover | hholds
    · exact .inl hover
    · exact .inr (.inl hholds)
  | @signal sig' rest received free waited =>
    by_cases heq : sig = sig'
    · exact .inr (.inr ⟨rest, by rw [heq]⟩)
    · rw [signals_onSignal]
      exact .inr (.inl (holds_received h received heq))

theorem ParentTold.step (h : s.ParentTold) (ht : s.Table) (he : Effect cap s a s') : s'.ParentTold := by
  rcases h with hover | ⟨sig, hne, hholds⟩ | hall
  · exact .inl (effect_overrun he hover)
  · rcases effect_holds he hholds with hover | hholds | ⟨rest, rfl⟩
    · exact .inl hover
    · exact .inr (.inl ⟨sig, hne, hholds⟩)
    · have htable := (same_signals s { s.signals with received := rest }).table ht
      cases sig with
      | chld => exact absurd rfl hne
      | term => exact .inr (.inr fun i hi => childTold_killAll htable ((killed_killAll _).same.fixed.1 ▸ hi))
      | int => exact .inr (.inr fun i hi => childTold_killAll htable ((killed_killAll _).same.fixed.1 ▸ hi))
  · refine .inr (.inr fun i hi => (hall i ?_).step he)
    rwa [(effect_fixed ht he).1] at hi

end Effects

section Rest
variable {actions : List Action}

theorem step_pool {e : Step} {t : Pool} (htakes : s.Takes e) (hs : s.pool.step e = some t) :
    s.step cap (.pool e) = some { s with pool := t } := by
  rw [Server.step, if_pos htakes, hs]
  rfl

def AtRest (cap : ℕ) (s : Server) : Prop := ∀ a, Action.own a = true → s.step cap a = none

theorem AtRest.no_step (h : s.AtRest cap) (ha : a.own = true) (hs : s.step cap a = some s') : False := by
  cases (h a ha).symm.trans hs

/-- Nothing is on its way when no handler runs and neither `epoll_wait` nor `recv` returns. -/
theorem not_holds (cap : ℕ) (halert : p.Alert) (hover : p.overrun = false) (hhandler : ∀ sig, p.sigHandler cap sig = none)
    (hwake : p.wake = none) (hrecv : p.recv = none) (hreceived : p.received = []) : ¬p.Holds sig := by
  have hwoken : p.woken = false := by
    by_contra hwoken
    rw [SigPipe.recv, if_pos ⟨Bool.eq_true_of_not_eq_false hwoken, hreceived⟩] at hrecv
    cases hrecv
  have hreport : p.report = false := by
    by_contra hreport
    rw [SigPipe.wake, if_pos ⟨Bool.eq_true_of_not_eq_false hreport, hwoken⟩] at hwake
    cases hwake
  have hunread : p.unread = [] := by
    rcases halert with hunread | h | h | h
    · exact hunread
    · cases hreport.symm.trans h
    · cases hwoken.symm.trans h
    · cases hover.symm.trans h
  rintro (hpending | hmem | hmem)
  · have hnone := hhandler sig
    rw [SigPipe.sigHandler, if_pos hpending] at hnone
    cases hnone
  · rw [hunread] at hmem
    cases hmem
  · rw [hreceived] at hmem
    cases hmem

theorem AtRest.reaping (h : s.AtRest cap) : s.reaping = false := by
  by_contra hreaping
  have hreaping := Bool.eq_true_of_not_eq_false hreaping
  by_cases hexited : ∃ i < s.pool.processNumber, (s.workers i).life = .exited
  · obtain ⟨i, hi, hlife⟩ := hexited
    exact h.no_step (a := .waitpid (some i)) rfl (if_pos ⟨hreaping, hi, hlife⟩)
  · have hnobody : ∀ i < s.pool.processNumber, (s.workers i).life ≠ .exited := fun i hi hlife => hexited ⟨i, hi, hlife⟩
    exact h.no_step (a := .waitpid none) rfl (if_pos ⟨hreaping, hnobody⟩)

theorem AtRest.dispatching (h : s.AtRest cap) (hs : Sound n pids s) : s.pool.dispatching = false := by
  by_contra hdispatching
  have hdispatching := Bool.eq_true_of_not_eq_false hdispatching
  have hat := hs.apart.parent hdispatching
  obtain ⟨t, ht⟩ : ∃ t, s.pool.onNewConnection = some t := by
    cases hturns : s.pool.turns with
    | nil => exact ⟨_, onNewConnection_nil hs.table.counter_lt hturns⟩
    | cons i rest => exact ⟨_, onNewConnection_cons hs.table.counter_lt hturns⟩
  exact h.no_step (a := .pool .dispatch) rfl (step_pool hat ((if_pos hdispatching).trans ht))

theorem AtRest.received (h : s.AtRest cap) (hs : Sound n pids s) : s.signals.received = [] := by
  have hnone := h .signal rfl
  rw [Server.step, if_pos ⟨h.dispatching hs, h.reaping⟩] at hnone
  split at hnone
  · next hreceived => exact hreceived
  · cases hnone

/-- Nothing is on its way to a parent at rest that waits in its loop. -/
theorem AtRest.parent (h : s.AtRest cap) (hs : Sound n pids s) (hlive : s.Live) (hstop : s.pool.stop = false)
    (hover : s.signals.overrun = false) : ¬s.signals.Holds sig := by
  refine not_holds cap hlive.alert hover (fun sig => ?_) ?_ ?_ (h.received hs)
  · exact Option.map_eq_none_iff.mp (h (.handler sig) rfl)
  · have hnone := h .wake rfl
    rw [Server.step, if_pos hstop] at hnone
    exact Option.map_eq_none_iff.mp hnone
  · have hnone := h .recv rfl
    rw [Server.step, if_pos ⟨h.dispatching hs, h.reaping⟩] at hnone
    exact Option.map_eq_none_iff.mp hnone

theorem AtRest.phase (h : s.AtRest cap) (hs : Sound n pids s) (hi : i < s.pool.processNumber)
    (hlife : (s.workers i).life = .running) : (s.pool.children i).phase = .waiting := by
  by_contra hphase
  have hat : s.ChildAtEvents i := ⟨hlife, hs.apart.child i hi hphase⟩
  cases hc : (s.pool.children i).phase with
  | waiting => exact hphase hc
  | woken => exact h.no_step (a := .pool (.childRecv i)) rfl (step_pool hat (if_pos ⟨hi, hc⟩))
  | notified => exact h.no_step (a := .pool (.childAccept i)) rfl (step_pool hat (if_pos ⟨hi, hc⟩))

theorem childSignals_eq_none {f : SigPipe → Option SigPipe} (h : s.childSignals i f = none)
    (hi : i < s.pool.processNumber) (hlife : (s.workers i).life = .running) : f (s.workers i).signals = none := by
  rw [childSignals, if_pos ⟨hi, hlife⟩] at h
  exact Option.map_eq_none_iff.mp h

/-- A child at rest that runs is not about to leave its loop. -/
theorem AtRest.child (h : s.AtRest cap) (hs : Sound n pids s) (hlive : s.Live) (hi : i < s.pool.processNumber)
    (hlife : (s.workers i).life = .running) (hover : (s.workers i).signals.overrun = false) : ¬(s.workers i).Told := by
  have hphase := h.phase hs hi hlife
  have hreceived : (s.workers i).signals.received = [] := by
    have hnone := h (.signalChild i) rfl
    rw [Server.step, if_pos ⟨hi, hlife⟩] at hnone
    split at hnone
    · next hreceived => exact hreceived
    · cases hnone
  have hstop : (s.workers i).stop = false := by
    by_contra hstop
    exact h.no_step (a := .exit i) rfl (if_pos ⟨hi, ⟨hlife, hreceived⟩, Bool.eq_true_of_not_eq_false hstop, hphase⟩)
  have hholds : ∀ sig, ¬(s.workers i).signals.Holds sig := by
    intro sig
    refine not_holds cap (hlive.alertChild i) hover (fun sig => ?_) ?_ ?_ hreceived
    · have hnone : s.childSignals i (fun p => p.sigHandler cap sig) = none := h (.handlerChild i sig) rfl
      exact childSignals_eq_none hnone hi hlife
    · have hnone := h (.wakeChild i) rfl
      rw [Server.step, if_pos hstop] at hnone
      exact childSignals_eq_none hnone hi hlife
    · have hnone := h (.recvChild i) rfl
      rw [Server.step, if_pos hphase] at hnone
      exact childSignals_eq_none hnone hi hlife
  rintro (htrue | htrue | ⟨sig, -, hsig⟩)
  · cases hstop.symm.trans htrue
  · cases hover.symm.trans htrue
  · exact hholds sig hsig

/-- At rest, the parent has waited for each child that has ended. -/
theorem AtRest.not_exited (h : s.AtRest cap) (hs : Sound n pids s) (hlive : s.Live) (hi : i < s.pool.processNumber)
    (hover : s.signals.overrun = false) : (s.workers i).life ≠ .exited := by
  intro hexited
  cases hstop : s.pool.stop with
  | true => cases hexited.symm.trans (hs.table.stop hstop i hi)
  | false =>
    rcases hlive.ended i hi hexited with hreaping | htrue | hholds
    · cases h.reaping.symm.trans hreaping
    · cases hover.symm.trans htrue
    · exact h.parent hs hlive hstop hover hholds

theorem AtRest.reaped (h : s.AtRest cap) (hs : Sound n pids s) (hlive : s.Live) (hi : i < s.pool.processNumber)
    (hover : s.signals.overrun = false) (hover' : (s.workers i).signals.overrun = false) (htold : ChildTold i s) :
    (s.workers i).life = .reaped := by
  cases hlife : (s.workers i).life with
  | running => exact absurd (htold hlife) (h.child hs hlive hi hlife hover')
  | exited => exact absurd hlife (h.not_exited hs hlive hi hover)
  | reaped => rfl

end Rest

section Runs
variable {actions : List Action} {P : Server → Prop}

/-- What every step keeps holds at the end of a run. -/
theorem run_keeps (hkeep : ∀ {t t' : Server} {b : Action}, Sound n pids t → P t → t.step cap b = some t' → P t')
    (hs : Sound n pids s) (hP : P s) (h : s.run cap actions = some s') : P s' := by
  induction actions generalizing s with
  | nil =>
    obtain rfl := Option.some.inj h
    exact hP
  | cons b actions ih =>
    rw [run_cons] at h
    obtain ⟨t, ht, h⟩ := Option.bind_eq_some_iff.mp h
    exact ih (hs.step ht) (hkeep hs hP ht) h

/-- What a step of the run brings about and every step keeps holds at its end. -/
theorem run_brings (hkeep : ∀ {t t' : Server} {b : Action}, Sound n pids t → P t → t.step cap b = some t' → P t')
    (hbring : ∀ {t t' : Server}, Sound n pids t → t.step cap a = some t' → P t') (hs : Sound n pids s)
    (hmem : a ∈ actions) (h : s.run cap actions = some s') : P s' := by
  induction actions generalizing s with
  | nil => cases hmem
  | cons b actions ih =>
    rw [run_cons] at h
    obtain ⟨t, ht, hrun⟩ := Option.bind_eq_some_iff.mp h
    rcases List.mem_cons.mp hmem with rfl | hmem
    · exact run_keeps hkeep (hs.step ht) (hbring hs ht) hrun
    · exact ih (hs.step ht) hmem hrun

theorem live_run (hs : Sound n pids s) (hlive : s.Live) (h : s.run cap actions = some s') : s'.Live :=
  run_keeps (fun hs hlive hstep => hlive.step hs.table (effect_of_step hstep)) hs hlive h

theorem childTold_run (hs : Sound n pids s) (hsig : sig ≠ .chld) (hmem : .raiseChild i sig ∈ actions)
    (h : s.run cap actions = some s') : ChildTold i s' := by
  refine run_brings (fun _ htold hstep => htold.step (effect_of_step hstep)) (fun {t t'} _ hstep => ?_) hs hmem h
  have hstep : t.childSignals i (fun p => some (p.raise sig)) = some t' := hstep
  obtain ⟨-, p, hp, rfl⟩ := childSignals_eq_some hstep
  obtain rfl := Option.some.inj hp
  intro _
  simp only [setWorker, Function.update_self]
  exact .inr (.inr ⟨sig, hsig, holds_raise_self _ sig⟩)

theorem parentTold_run (hs : Sound n pids s) (hsig : sig ≠ .chld) (hmem : .raise sig ∈ actions)
    (h : s.run cap actions = some s') : s'.ParentTold := by
  refine run_brings (fun hs htold hstep => htold.step hs.table (effect_of_step hstep)) (fun _ hstep => ?_) hs hmem h
  obtain rfl := Option.some.inj hstep
  exact .inr (.inl ⟨sig, hsig, holds_raise_self _ sig⟩)

end Runs

end Server

end LinuxSocket.ProcessPool
