import LinuxSocket.ProcessPool.RoundRobin
import LinuxSocket.ProcessPool.Signals

/-! # The table of the children

An entry of the table is -1 from the moment on in which the parent has waited for the child, and then its pipe has been
closed once. The parent stops behind the last of them.
-/
namespace LinuxSocket.ProcessPool.Server

/-- The table says which children the parent has waited for. -/
structure Table (s : Server) : Prop where
  counter_lt : s.pool.subProcessCounter < s.pool.processNumber
  pid_pos : ∀ i < s.pool.processNumber, 0 < s.pids i
  pid_inj : ∀ i < s.pool.processNumber, ∀ j < s.pool.processNumber, s.pids i = s.pids j → i = j
  pid_eq : ∀ i < s.pool.processNumber, s.pool.pid i = if (s.workers i).life = .reaped then -1 else s.pids i
  closed_eq : ∀ i < s.pool.processNumber, s.closed i = if (s.workers i).life = .reaped then 1 else 0
  stop : s.pool.stop = true → ∀ i < s.pool.processNumber, (s.workers i).life = .reaped
  all : (∀ i < s.pool.processNumber, (s.workers i).life = .reaped) → s.pool.stop = true ∨ s.reaping = true

/-- A process is in one handler at a time. -/
structure Apart (s : Server) : Prop where
  parent : s.pool.dispatching = true → s.AtEvents
  child : ∀ i < s.pool.processNumber, (s.pool.children i).phase ≠ .waiting → (s.workers i).signals.received = []

/-- The two servers differ in their signals only. -/
structure Same (s s' : Server) : Prop where
  pool : s'.pool = s.pool
  pids : s'.pids = s.pids
  reaping : s'.reaping = s.reaping
  life : ∀ i, (s'.workers i).life = (s.workers i).life
  closed : s'.closed = s.closed

variable {s s' : Server} {i cap n : ℕ} {pids : ℕ → ℤ}

theorem Same.refl (s : Server) : Same s s := ⟨rfl, rfl, rfl, fun _ => rfl, rfl⟩

theorem same_signals (s : Server) (p : SigPipe) : Same s { s with signals := p } := ⟨rfl, rfl, rfl, fun _ => rfl, rfl⟩

theorem Same.table (h : Same s s') (ht : s.Table) : s'.Table := by
  obtain ⟨hpool, hpids, hreaping, hlife, hclosed⟩ := h
  refine ⟨?_, ?_, ?_, ?_, ?_, ?_, ?_⟩
  · rw [hpool]
    exact ht.counter_lt
  · rw [hpool, hpids]
    exact ht.pid_pos
  · rw [hpool, hpids]
    exact ht.pid_inj
  · simp only [hpool, hpids, hlife]
    exact ht.pid_eq
  · simp only [hpool, hclosed, hlife]
    exact ht.closed_eq
  · simp only [hpool, hlife]
    exact ht.stop
  · simp only [hpool, hlife, hreaping]
    exact ht.all

theorem Same.fixed (h : Same s s') : s'.pool.processNumber = s.pool.processNumber ∧ s'.pids = s.pids :=
  ⟨congrArg Pool.processNumber h.pool, h.pids⟩

theorem pid_ne_iff (h : s.Table) (hi : i < s.pool.processNumber) :
    s.pool.pid i ≠ -1 ↔ (s.workers i).life ≠ .reaped := by
  have hpos := h.pid_pos i hi
  rw [h.pid_eq i hi]
  by_cases hlife : (s.workers i).life = .reaped
  · simp [hlife]
  · simp only [hlife, if_false, ne_eq, not_false_eq_true, iff_true]
    omega

/-- What a step of the pool without signals does to the table. -/
theorem pool_step {p p' : Pool} {e : Step} (hn : p.subProcessCounter < p.processNumber) (h : p.step e = some p') :
    p'.pid = p.pid ∧ p'.processNumber = p.processNumber ∧ p'.subProcessCounter < p'.processNumber ∧
      (p'.stop = p.stop ∨ p'.stop = true ∧ ∀ i < p.processNumber, p.pid i = -1) := by
  cases e with
  | connect =>
    obtain rfl := Option.some.inj h
    exact ⟨rfl, rfl, hn, .inl rfl⟩
  | parentWake =>
    obtain ⟨-, h⟩ := Option.ite_none_right_eq_some.mp h
    obtain rfl := Option.some.inj h
    exact ⟨rfl, rfl, hn, .inl rfl⟩
  | dispatch =>
    obtain ⟨-, h⟩ := Option.ite_none_right_eq_some.mp h
    cases ht : p.turns with
    | nil =>
      rw [onNewConnection_nil hn ht] at h
      obtain rfl := Option.some.inj h
      exact ⟨rfl, rfl, hn, .inr ⟨rfl, turns_eq_nil_iff.mp ht⟩⟩
    | cons i rest =>
      rw [onNewConnection_cons hn ht] at h
      obtain rfl := Option.some.inj h
      exact ⟨rfl, rfl, Nat.mod_lt _ (Nat.zero_lt_of_lt hn), .inl rfl⟩
  | childWake i =>
    obtain ⟨-, h⟩ := Option.ite_none_right_eq_some.mp h
    obtain rfl := Option.some.inj h
    exact ⟨rfl, rfl, hn, .inl rfl⟩
  | childRecv i =>
    obtain ⟨-, h⟩ := Option.ite_none_right_eq_some.mp h
    obtain rfl := Option.some.inj h
    exact ⟨rfl, rfl, hn, .inl rfl⟩
  | childAccept i =>
    obtain ⟨-, h⟩ := Option.ite_none_right_eq_some.mp h
    obtain rfl := Option.some.inj h
    exact ⟨rfl, rfl, hn, .inl rfl⟩

theorem Table.pool (h : s.Table) {e : Step} {p : Pool} (hs : s.pool.step e = some p) : Table { s with pool := p } := by
  obtain ⟨hpid, hnumber, hcounter, hstop⟩ := pool_step h.counter_lt hs
  refine ⟨hcounter, ?_, ?_, ?_, ?_, ?_, ?_⟩
  · rw [hnumber]
    exact h.pid_pos
  · rw [hnumber]
    exact h.pid_inj
  · rw [hnumber, hpid]
    exact h.pid_eq
  · rw [hnumber]
    exact h.closed_eq
  · rw [hnumber]
    rcases hstop with hsame | ⟨-, hdead⟩
    · rw [hsame]
      exact h.stop
    · intro _ i hi
      by_contra hlife
      exact (pid_ne_iff h hi).mpr hlife (hdead i hi)
  · rw [hnumber]
    intro hall
    rcases hstop with hsame | ⟨htrue, -⟩
    · rw [hsame]
      exact h.all hall
    · exact .inl htrue

theorem Apart.pool (h : s.Apart) {e : Step} {p : Pool} (htakes : s.Takes e) (hs : s.pool.step e = some p) :
    Apart { s with pool := p } := by
  have hchild : ∀ {i : ℕ} {c : Child}, (s.workers i).signals.received = [] →
      ∀ j < s.pool.processNumber, (Function.update s.pool.children i c j).phase ≠ .waiting →
        (s.workers j).signals.received = [] := by
    intro i c hnone j hj hphase
    by_cases hji : j = i
    · rw [hji]
      exact hnone
    · rw [Function.update_of_ne hji] at hphase
      exact h.child j hj hphase
  cases e with
  | connect =>
    obtain rfl := Option.some.inj hs
    exact ⟨h.parent, h.child⟩
  | parentWake =>
    obtain ⟨-, hs⟩ := Option.ite_none_right_eq_some.mp hs
    obtain rfl := Option.some.inj hs
    exact ⟨fun _ => htakes, h.child⟩
  | dispatch =>
    obtain ⟨-, hs⟩ := Option.ite_none_right_eq_some.mp hs
    refine ⟨fun _ => htakes, ?_⟩
    unfold Pool.onNewConnection at hs
    obtain ⟨i, -, hs⟩ := Option.bind_eq_some_iff.mp hs
    split at hs
    · obtain rfl := Option.some.inj hs
      exact h.child
    · obtain rfl := Option.some.inj hs
      intro j hj hphase
      refine h.child j hj ?_
      by_cases hji : j = i
      · simpa [Pool.sendTo, hji] using hphase
      · simpa [Pool.sendTo, hji] using hphase
  | childWake i =>
    obtain ⟨-, hs⟩ := Option.ite_none_right_eq_some.mp hs
    obtain rfl := Option.some.inj hs
    exact ⟨h.parent, hchild htakes.1.2⟩
  | childRecv i =>
    obtain ⟨-, hs⟩ := Option.ite_none_right_eq_some.mp hs
    obtain rfl := Option.some.inj hs
    exact ⟨h.parent, hchild htakes.2⟩
  | childAccept i =>
    obtain ⟨-, hs⟩ := Option.ite_none_right_eq_some.mp hs
    obtain rfl := Option.some.inj hs
    exact ⟨h.parent, hchild htakes.2⟩

structure Killed (s s' : Server) : Prop where
  same : Same s s'
  signals : s'.signals = s.signals
  worker : ∀ i, (s'.workers i).stop = (s.workers i).stop ∧
    ((s'.workers i).signals = (s.workers i).signals ∨ (s'.workers i).signals = (s.workers i).signals.raise .term)
  requests : ∀ i, (s'.workers i).requests = (s.workers i).requests

theorem Killed.refl (s : Server) : Killed s s := ⟨.refl s, rfl, fun _ => ⟨rfl, .inl rfl⟩, fun _ => rfl⟩

theorem raise_raise (p : SigPipe) (sig : Sig) : (p.raise sig).raise sig = p.raise sig := by
  simp [SigPipe.raise]

theorem Killed.kill (h : Killed s s') (pid : ℤ) : Killed s (s'.kill pid) := by
  refine ⟨⟨h.same.pool, h.same.pids, h.same.reaping, fun i => ?_, h.same.closed⟩, h.signals, fun i => ?_, fun i => ?_⟩
  · simp only [Server.kill]
    split
    · exact h.same.life i
    · exact h.same.life i
  · obtain ⟨hstop, hsignals⟩ := h.worker i
    simp only [Server.kill]
    split
    · refine ⟨hstop, .inr ?_⟩
      rcases hsignals with heq | heq
      · rw [heq]
      · rw [heq, raise_raise]
    · exact ⟨hstop, hsignals⟩
  · simp only [Server.kill]
    split
    · exact h.requests i
    · exact h.requests i

/-- The loop over a part of the table. -/
def killLoop (s : Server) (is : List ℕ) : Server :=
  is.foldl (fun s i => if s.pool.pid i ≠ -1 then s.kill (s.pool.pid i) else s) s

theorem killed_killLoop (h : Killed s s') (is : List ℕ) : Killed s (s'.killLoop is) := by
  induction is generalizing s' with
  | nil => exact h
  | cons i is ih =>
    rw [killLoop, List.foldl_cons]
    split
    · exact ih (h.kill _)
    · exact ih h

theorem killLoop_killed (is : List ℕ) :
    (s.killLoop is).killed = s.killed ++ (is.filter s.pool.live).map s.pool.pid := by
  induction is generalizing s with
  | nil => exact (List.append_nil _).symm
  | cons i is ih =>
    by_cases hlive : s.pool.pid i ≠ -1
    · rw [killLoop, List.foldl_cons, if_pos hlive]
      refine ih.trans ?_
      rw [List.filter_cons_of_pos (live_iff.mpr hlive), List.map_cons, ← List.singleton_append, ← List.append_assoc]
      rfl
    · rw [killLoop, List.foldl_cons, if_neg hlive]
      refine ih.trans ?_
      rw [List.filter_cons_of_neg (mt live_iff.mp hlive)]

theorem pending_killLoop {is : List ℕ} (h : (s.workers i).signals.pending .term = true) :
    ((s.killLoop is).workers i).signals.pending .term = true := by
  rcases ((killed_killLoop (.refl s) is).worker i).2 with heq | heq
  · rw [heq]
    exact h
  · rw [heq]
    simp [SigPipe.raise]

/-- A child in the table gets `SIGTERM`. -/
theorem killLoop_pending {is : List ℕ} (hmem : i ∈ is) (hpid : s.pool.pid i = s.pids i) (hlive : s.pool.pid i ≠ -1) :
    ((s.killLoop is).workers i).signals.pending .term = true := by
  induction is generalizing s with
  | nil => cases hmem
  | cons j is ih =>
    rw [killLoop, List.foldl_cons]
    rcases List.mem_cons.mp hmem with rfl | hmem
    · rw [if_pos hlive]
      apply pending_killLoop
      simp [Server.kill, hpid, SigPipe.raise]
    · split
      · exact ih hmem hpid hlive
      · exact ih hmem hpid hlive

theorem Table.reap (h : s.Table) (hi : i < s.pool.processNumber) (hlife : (s.workers i).life = .exited)
    (hreaping : s.reaping = true) : (s.reap i).Table := by
  have hpid : ∀ j < s.pool.processNumber, s.pool.pid j = s.pids i ↔ j = i := by
    intro j hj
    have hpos := h.pid_pos i hi
    constructor
    · intro heq
      have hne : s.pool.pid j ≠ -1 := by omega
      have hlive := (pid_ne_iff h hj).mp hne
      rw [h.pid_eq j hj, if_neg hlive] at heq
      exact h.pid_inj j hj i hi heq
    · rintro rfl
      rw [h.pid_eq j hj, hlife]
      rfl
  have hlives : ∀ j, ((s.reap i).workers j).life = if j = i then .reaped else (s.workers j).life := by
    intro j
    by_cases hji : j = i
    · simp [Server.reap, hji]
    · simp [Server.reap, hji]
  refine ⟨h.counter_lt, h.pid_pos, h.pid_inj, ?_, ?_, ?_, fun _ => .inr hreaping⟩
  · intro j hj
    have heq := h.pid_eq j hj
    rw [hlives]
    by_cases hji : j = i
    · simp only [Server.reap, Pool.reap, hji, if_true]
      exact if_pos ⟨hi, (hpid i hi).mpr rfl⟩
    · simp only [Server.reap, Pool.reap, hji, if_false]
      rw [if_neg fun hj' => hji ((hpid j hj).mp hj'.2)]
      exact heq
  · intro j hj
    have heq := h.closed_eq j hj
    rw [hlives]
    by_cases hji : j = i
    · subst hji
      rw [hlife] at heq
      simp only [Server.reap, if_true]
      rw [if_pos ⟨hi, (hpid j hi).mpr rfl⟩, heq]
      rfl
    · simp only [Server.reap, hji, if_false]
      rw [if_neg fun hj' => hji ((hpid j hj).mp hj'.2)]
      exact heq
  · intro hstop
    have hall := h.stop hstop i hi
    rw [hlife] at hall
    cases hall

theorem Table.childEnds (h : s.Table) (hlife : (s.workers i).life = .running) :
    (s.childEnds i).Table := by
  have hreaped : ∀ j, ((s.childEnds i).workers j).life = .reaped ↔ (s.workers j).life = .reaped := by
    intro j
    by_cases hji : j = i
    · simp [Server.childEnds, setWorker, hji, hlife]
    · simp [Server.childEnds, setWorker, hji]
  refine ⟨h.counter_lt, h.pid_pos, h.pid_inj, ?_, ?_, ?_, ?_⟩
  · simp only [hreaped]
    exact h.pid_eq
  · simp only [hreaped]
    exact h.closed_eq
  · simp only [hreaped]
    exact h.stop
  · simp only [hreaped]
    exact h.all

/-- The loop of `waitpid` ends. -/
theorem Table.waited (h : s.Table) : Table { s with pool := s.pool.onSigchld [], reaping := false } := by
  have hstop : (s.pool.onSigchld []).stop = true ↔ ∀ i < s.pool.processNumber, s.pool.pid i = -1 := by
    simp [Pool.onSigchld]
  refine ⟨h.counter_lt, h.pid_pos, h.pid_inj, h.pid_eq, h.closed_eq, ?_, ?_⟩
  · intro hs i hi
    by_contra hlife
    exact (pid_ne_iff h hi).mpr hlife (hstop.mp hs i hi)
  · intro hall
    refine .inl (hstop.mpr fun i hi => ?_)
    by_contra hpid
    exact (pid_ne_iff h hi).mp hpid (hall i hi)

/-- What a handler, `epoll_wait` and `recv` do on the way of the signals. -/
inductive Moves (cap : ℕ) (p : SigPipe) : SigPipe → Prop
  | handler {sig} (pending : p.pending sig = true) :
    Moves cap p ({ p with pending := Function.update p.pending sig false }.put cap sig)
  | wake (report : p.report = true) (woken : p.woken = false) : Moves cap p { p with report := false, woken := true }
  | recv (woken : p.woken = true) (received : p.received = []) :
    Moves cap p { p with
      woken := false
      received := p.unread.take sizeofSignals
      unread := p.unread.drop sizeofSignals
      overrun := p.overrun || decide (sizeofSignals < p.unread.length) }

inductive Effect (cap : ℕ) (s : Server) : Action → Server → Prop
  | pool {e p} (takes : s.Takes e) (step : s.pool.step e = some p) : Effect cap s (.pool e) { s with pool := p }
  | raised (sig : Sig) : Effect cap s (.raise sig) { s with signals := s.signals.raise sig }
  | moved {a p} (own : a.own = true) (moves : Moves cap s.signals p)
      (free : s.pool.dispatching = false ∨ p.received = s.signals.received) : Effect cap s a { s with signals := p }
  | signal {sig rest} (received : s.signals.received = sig :: rest) (free : s.pool.dispatching = false)
      (waited : s.reaping = false) :
    Effect cap s .signal ({ s with signals := { s.signals with received := rest } }.onSignal sig)
  | reaped {i : ℕ} (lt : i < s.pool.processNumber) (life : (s.workers i).life = .exited) (reaping : s.reaping = true) :
    Effect cap s (.waitpid (some i)) (s.reap i)
  | waited (reaping : s.reaping = true) (nobody : ∀ i < s.pool.processNumber, (s.workers i).life ≠ .exited) :
    Effect cap s (.waitpid none) { s with pool := s.pool.onSigchld [], reaping := false }
  | raisedChild {i : ℕ} (lt : i < s.pool.processNumber) (sig : Sig) :
    Effect cap s (.raiseChild i sig)
      (s.setWorker i { s.workers i with signals := (s.workers i).signals.raise sig })
  | movedChild {a p} {i : ℕ} (own : a.own = true) (lt : i < s.pool.processNumber)
      (moves : Moves cap (s.workers i).signals p)
      (free : (s.pool.children i).phase = .waiting ∨ p.received = (s.workers i).signals.received) :
    Effect cap s a (s.setWorker i { s.workers i with signals := p })
  | signalChild {i : ℕ} {sig rest} (lt : i < s.pool.processNumber) (received : (s.workers i).signals.received = sig :: rest) :
    Effect cap s (.signalChild i) (s.setWorker i
      (Worker.onSignal { s.workers i with signals := { (s.workers i).signals with received := rest } } sig))
  | ended {a} {i : ℕ} (sends : a.sends = false) (lt : i < s.pool.processNumber) (life : (s.workers i).life = .running) :
    Effect cap s a (s.childEnds i)
  | requested {a n} {i : ℕ} (sends : a.sends = false) (lt : i < s.pool.processNumber)
      (count : n + (if a.own = true then 1 else 0) = (s.workers i).requests + if a.own = true then 0 else 1) :
    Effect cap s a (s.setWorker i { s.workers i with requests := n })

section Effects
variable {a : Action} {p q : SigPipe} {sig : Sig} {f : SigPipe → Option SigPipe}

theorem moves_sigHandler (h : p.sigHandler cap sig = some q) : Moves cap p q := by
  obtain ⟨hpending, h⟩ := Option.ite_none_right_eq_some.mp h
  obtain rfl := Option.some.inj h
  exact .handler hpending

theorem received_sigHandler (h : p.sigHandler cap sig = some q) : q.received = p.received := by
  obtain ⟨-, h⟩ := Option.ite_none_right_eq_some.mp h
  obtain rfl := Option.some.inj h
  unfold SigPipe.put
  split
  · rfl
  · rfl

theorem moves_wake (h : p.wake = some q) : Moves cap p q := by
  obtain ⟨⟨hreport, hwoken⟩, h⟩ := Option.ite_none_right_eq_some.mp h
  obtain rfl := Option.some.inj h
  exact .wake hreport hwoken

theorem received_wake (h : p.wake = some q) : q.received = p.received := by
  obtain ⟨-, h⟩ := Option.ite_none_right_eq_some.mp h
  obtain rfl := Option.some.inj h
  rfl

theorem moves_recv (h : p.recv = some q) : Moves cap p q := by
  obtain ⟨⟨hwoken, hreceived⟩, h⟩ := Option.ite_none_right_eq_some.mp h
  obtain rfl := Option.some.inj h
  exact .recv hwoken hreceived

theorem childSignals_eq_some (h : s.childSignals i f = some s') : (i < s.pool.processNumber ∧
    (s.workers i).life = .running) ∧ ∃ p, f (s.workers i).signals = some p ∧
      s' = s.setWorker i { s.workers i with signals := p } := by
  obtain ⟨hi, h⟩ := Option.ite_none_right_eq_some.mp h
  obtain ⟨p, hp, rfl⟩ := Option.map_eq_some_iff.mp h
  exact ⟨hi, p, hp, rfl⟩

theorem effect_of_step (hs : s.step cap a = some s') : Effect cap s a s' := by
  cases a with
  | pool e =>
    obtain ⟨htakes, hs⟩ := Option.ite_none_right_eq_some.mp hs
    obtain ⟨p, hp, rfl⟩ := Option.map_eq_some_iff.mp hs
    exact .pool htakes hp
  | raise sig =>
    obtain rfl := Option.some.inj hs
    exact .raised sig
  | raiseChild i sig =>
    have hs : s.childSignals i (fun p => some (p.raise sig)) = some s' := hs
    obtain ⟨⟨hi, -⟩, p, hp, rfl⟩ := childSignals_eq_some hs
    obtain rfl := Option.some.inj hp
    exact .raisedChild hi sig
  | crash i =>
    obtain ⟨⟨hi, hlife⟩, hs⟩ := Option.ite_none_right_eq_some.mp hs
    obtain rfl := Option.some.inj hs
    exact .ended rfl hi hlife
  | handler sig =>
    obtain ⟨p, hp, rfl⟩ := Option.map_eq_some_iff.mp hs
    exact .moved rfl (moves_sigHandler hp) (.inr (received_sigHandler hp))
  | wake =>
    obtain ⟨-, hs⟩ := Option.ite_none_right_eq_some.mp hs
    obtain ⟨p, hp, rfl⟩ := Option.map_eq_some_iff.mp hs
    exact .moved rfl (moves_wake hp) (.inr (received_wake hp))
  | recv =>
    obtain ⟨⟨hfree, -⟩, hs⟩ := Option.ite_none_right_eq_some.mp hs
    obtain ⟨p, hp, rfl⟩ := Option.map_eq_some_iff.mp hs
    exact .moved rfl (moves_recv hp) (.inl hfree)
  | signal =>
    obtain ⟨⟨hfree, hreaping⟩, hs⟩ := Option.ite_none_right_eq_some.mp hs
    split at hs
    · cases hs
    · next hreceived =>
      obtain rfl := Option.some.inj hs
      exact .signal hreceived hfree hreaping
  | waitpid i =>
    cases i with
    | none =>
      obtain ⟨⟨hreaping, hnone⟩, hs⟩ := Option.ite_none_right_eq_some.mp hs
      obtain rfl := Option.some.inj hs
      exact .waited hreaping hnone
    | some i =>
      obtain ⟨⟨hreaping, hi, hlife⟩, hs⟩ := Option.ite_none_right_eq_some.mp hs
      obtain rfl := Option.some.inj hs
      exact .reaped hi hlife hreaping
  | handlerChild i sig =>
    have hs : s.childSignals i (fun p => p.sigHandler cap sig) = some s' := hs
    obtain ⟨⟨hi, -⟩, p, hp, rfl⟩ := childSignals_eq_some hs
    exact .movedChild rfl hi (moves_sigHandler hp) (.inr (received_sigHandler hp))
  | wakeChild i =>
    obtain ⟨-, hs⟩ := Option.ite_none_right_eq_some.mp hs
    obtain ⟨⟨hi, -⟩, p, hp, rfl⟩ := childSignals_eq_some hs
    exact .movedChild rfl hi (moves_wake hp) (.inr (received_wake hp))
  | recvChild i =>
    obtain ⟨hphase, hs⟩ := Option.ite_none_right_eq_some.mp hs
    obtain ⟨⟨hi, -⟩, p, hp, rfl⟩ := childSignals_eq_some hs
    exact .movedChild rfl hi (moves_recv hp) (.inl hphase)
  | signalChild i =>
    obtain ⟨⟨hi, -⟩, hs⟩ := Option.ite_none_right_eq_some.mp hs
    split at hs
    · cases hs
    · next hreceived =>
      obtain rfl := Option.some.inj hs
      exact .signalChild hi hreceived
  | exit i =>
    obtain ⟨⟨hi, hat, -⟩, hs⟩ := Option.ite_none_right_eq_some.mp hs
    obtain rfl := Option.some.inj hs
    exact .ended rfl hi hat.1
  | request i =>
    obtain ⟨⟨hi, -⟩, hs⟩ := Option.ite_none_right_eq_some.mp hs
    obtain rfl := Option.some.inj hs
    exact .requested rfl hi rfl
  | process i =>
    obtain ⟨⟨hi, -, -, hpos⟩, hs⟩ := Option.ite_none_right_eq_some.mp hs
    obtain rfl := Option.some.inj hs
    exact .requested rfl hi (Nat.sub_add_cancel hpos)

theorem same_setWorker {w : Worker} (h : w.life = (s.workers i).life) : Same s (s.setWorker i w) := by
  refine ⟨rfl, rfl, rfl, fun j => ?_, rfl⟩
  by_cases hji : j = i
  · simp [setWorker, hji, h]
  · simp [setWorker, hji]

theorem life_onSignal (w : Worker) (sig : Sig) : (w.onSignal sig).life = w.life := by cases sig <;> rfl

theorem killed_killAll (s : Server) : Killed s s.killAll := killed_killLoop (.refl s) _

/-- Only a child that ends or is waited for changes its state, and only the end of the loop of `waitpid` and the pool
without signals change `m_stop`. -/
theorem Table.step (h : s.Table) (he : Effect cap s a s') : s'.Table := by
  cases he with
  | pool takes step => exact h.pool step
  | raised sig => exact (same_signals s _).table h
  | moved own moves free => exact (same_signals s _).table h
  | @signal sig rest received free waited =>
    have ht := (same_signals s { s.signals with received := rest }).table h
    cases sig with
    | chld => exact ⟨h.counter_lt, h.pid_pos, h.pid_inj, h.pid_eq, h.closed_eq, h.stop, fun _ => .inr rfl⟩
    | term => exact (killed_killAll _).same.table ht
    | int => exact (killed_killAll _).same.table ht
  | reaped lt life reaping => exact h.reap lt life reaping
  | waited reaping nobody => exact h.waited
  | raisedChild lt sig =>
    refine (same_setWorker ?_).table h
    rfl
  | movedChild own lt moves free =>
    refine (same_setWorker ?_).table h
    rfl
  | @signalChild i sig rest lt received =>
    refine (same_setWorker ?_).table h
    exact life_onSignal _ sig
  | ended sends lt life => exact h.childEnds life
  | requested sends lt count =>
    refine (same_setWorker ?_).table h
    rfl

/-- The number of children and their pids do not change. -/
theorem effect_fixed (h : s.Table) (he : Effect cap s a s') :
    s'.pool.processNumber = s.pool.processNumber ∧ s'.pids = s.pids := by
  cases he with
  | pool takes step => exact ⟨(pool_step h.counter_lt step).2.1, rfl⟩
  | @signal sig rest received free waited =>
    cases sig with
    | chld => exact ⟨rfl, rfl⟩
    | term => exact (killed_killAll _).same.fixed
    | int => exact (killed_killAll _).same.fixed
  | raised | moved | reaped | waited | raisedChild | movedChild | signalChild | ended | requested => exact ⟨rfl, rfl⟩

theorem Apart.setWorker (h : s.Apart) {w : Worker}
    (hw : (s.pool.children i).phase = .waiting ∨ w.signals.received = (s.workers i).signals.received) :
    (s.setWorker i w).Apart := by
  refine ⟨h.parent, fun j hj hphase => ?_⟩
  by_cases hji : j = i
  · subst hji
    rcases hw with hwaiting | heq
    · exact absurd hwaiting hphase
    · simp only [Server.setWorker, Function.update_self, heq]
      exact h.child j hj hphase
  · simp only [Server.setWorker, Function.update_of_ne hji]
    exact h.child j hj hphase

theorem Apart.killAll (h : s.Apart) : s.killAll.Apart := by
  obtain ⟨hsame, hsignals, hworker⟩ := killed_killAll s
  refine ⟨fun hd => ?_, fun j hj hphase => ?_⟩
  · rw [hsame.pool] at hd
    rw [AtEvents, hsame.reaping, hsignals]
    exact h.parent hd
  · rw [hsame.pool] at hj hphase
    rcases (hworker j).2 with heq | heq
    · rw [heq]
      exact h.child j hj hphase
    · rw [heq]
      exact h.child j hj hphase

/-- A process stays in one handler at a time. -/
theorem Apart.step (h : s.Apart) (he : Effect cap s a s') : s'.Apart := by
  cases he with
  | pool takes step => exact h.pool takes step
  | raised sig => exact ⟨h.parent, h.child⟩
  | moved own moves free =>
    refine ⟨fun hd => ?_, h.child⟩
    rcases free with hfree | heq
    · cases hfree.symm.trans hd
    · exact ⟨(h.parent hd).1, heq.trans (h.parent hd).2⟩
  | @signal sig rest received free waited =>
    have hapart : Apart { s with signals := { s.signals with received := rest } } :=
      ⟨fun hd => (by cases free.symm.trans hd), h.child⟩
    cases sig with
    | chld => exact ⟨fun hd => (by cases free.symm.trans hd), h.child⟩
    | term => exact hapart.killAll
    | int => exact hapart.killAll
  | @reaped i lt life reaping =>
    refine ⟨h.parent, fun j hj hphase => ?_⟩
    by_cases hji : j = i
    · subst hji
      simpa [Server.reap] using h.child j hj hphase
    · simpa [Server.reap, hji] using h.child j hj hphase
  | waited reaping nobody => exact ⟨fun hd => (by cases (h.parent hd).1.symm.trans reaping), h.child⟩
  | raisedChild lt sig => exact h.setWorker (.inr rfl)
  | movedChild own lt moves free => exact h.setWorker free
  | @signalChild i sig rest lt received =>
    refine h.setWorker (.inl ?_)
    by_contra hphase
    cases (h.child i lt hphase).symm.trans received
  | @ended a i sends lt life =>
    have hw : (s.setWorker i { s.workers i with life := .exited }).Apart := h.setWorker (.inr rfl)
    exact ⟨h.parent, hw.child⟩
  | requested sends lt count => exact h.setWorker (.inr rfl)

theorem pool_step_children {t t' : Pool} {e : Step} (hn : t.subProcessCounter < t.processNumber)
    (h : t.step e = some t') (hpid : t.pid i = -1) (he : e ≠ .childWake i ∧ e ≠ .childRecv i ∧ e ≠ .childAccept i) :
    t'.children i = t.children i := by
  obtain ⟨hwake, hrecv, haccept⟩ := he
  cases e with
  | connect =>
    obtain rfl := Option.some.inj h
    rfl
  | parentWake =>
    obtain ⟨-, h⟩ := Option.ite_none_right_eq_some.mp h
    obtain rfl := Option.some.inj h
    rfl
  | dispatch =>
    obtain ⟨-, h⟩ := Option.ite_none_right_eq_some.mp h
    cases ht : t.turns with
    | nil =>
      rw [onNewConnection_nil hn ht] at h
      obtain rfl := Option.some.inj h
      rfl
    | cons j rest =>
      have hne : i ≠ j := by
        rintro rfl
        exact (search_of_turns hn ht).2.2 hpid
      rw [onNewConnection_cons hn ht] at h
      obtain rfl := Option.some.inj h
      exact Function.update_of_ne hne _ _
  | childWake j =>
    obtain ⟨-, h⟩ := Option.ite_none_right_eq_some.mp h
    obtain rfl := Option.some.inj h
    have hij : i ≠ j := by
      rintro rfl
      exact hwake rfl
    exact Function.update_of_ne hij _ _
  | childRecv j =>
    obtain ⟨-, h⟩ := Option.ite_none_right_eq_some.mp h
    obtain rfl := Option.some.inj h
    have hij : i ≠ j := by
      rintro rfl
      exact hrecv rfl
    exact Function.update_of_ne hij _ _
  | childAccept j =>
    obtain ⟨-, h⟩ := Option.ite_none_right_eq_some.mp h
    obtain rfl := Option.some.inj h
    have hij : i ≠ j := by
      rintro rfl
      exact haccept rfl
    exact Function.update_of_ne hij _ _

theorem reaped_setWorker {w : Worker} {j : ℕ} (hw : w.life = (s.workers j).life)
    (h : (s.workers i).life = .reaped) : ((s.setWorker j w).workers i).life = .reaped :=
  ((same_setWorker hw).life i).trans h

/-- A child that has been waited for stays so, and its socketpair is left alone. -/
theorem effect_reaped (h : s.Table) (he : Effect cap s a s') (hi : i < s.pool.processNumber)
    (hlife : (s.workers i).life = .reaped) :
    (s'.workers i).life = .reaped ∧ s'.pool.children i = s.pool.children i := by
  cases he with
  | @pool e t takes step =>
    have hpid : s.pool.pid i = -1 := by
      rw [h.pid_eq i hi, hlife]
      rfl
    have hruns : ¬s.ChildAtEvents i := by
      intro hat
      cases hlife.symm.trans hat.1
    refine ⟨hlife, pool_step_children h.counter_lt step hpid ⟨?_, ?_, ?_⟩⟩
    · rintro rfl
      exact hruns takes.1
    · rintro rfl
      exact hruns takes
    · rintro rfl
      exact hruns takes
  | raised sig => exact ⟨hlife, rfl⟩
  | moved own moves free => exact ⟨hlife, rfl⟩
  | @signal sig rest received free waited =>
    cases sig with
    | chld => exact ⟨hlife, rfl⟩
    | term => exact ⟨((killed_killAll _).same.life i).trans hlife, congrArg (·.children i) (killed_killAll _).same.pool⟩
    | int => exact ⟨((killed_killAll _).same.life i).trans hlife, congrArg (·.children i) (killed_killAll _).same.pool⟩
  | @reaped j lt life reaping =>
    refine ⟨?_, rfl⟩
    by_cases hij : i = j
    · simp [Server.reap, hij]
    · simpa [Server.reap, hij] using hlife
  | waited reaping nobody => exact ⟨hlife, rfl⟩
  | @raisedChild j lt sig => exact ⟨reaped_setWorker (by rfl) hlife, rfl⟩
  | @movedChild a q j own lt moves free => exact ⟨reaped_setWorker (by rfl) hlife, rfl⟩
  | @signalChild j sig rest lt received => exact ⟨reaped_setWorker (by exact life_onSignal _ sig) hlife, rfl⟩
  | @ended a j sends lt life =>
    refine ⟨?_, rfl⟩
    have hij : i ≠ j := by
      rintro rfl
      cases hlife.symm.trans life
    simpa [Server.childEnds, Server.setWorker, hij] using hlife
  | requested sends lt count => exact ⟨reaped_setWorker (by rfl) hlife, rfl⟩

/-- The parent sends signals to all children in its table, or to none. -/
theorem effect_killed (he : Effect cap s a s') : s'.killed = s.killed ∨
    s'.killed = s.killed ++ ((List.range s.pool.processNumber).filter s.pool.live).map s.pool.pid := by
  cases he with
  | @signal sig rest received free waited =>
    cases sig with
    | chld => exact .inl rfl
    | term => exact .inr (killLoop_killed _)
    | int => exact .inr (killLoop_killed _)
  | pool | raised | moved | reaped | waited | raisedChild | movedChild | signalChild | ended | requested => exact .inl rfl

end Effects

section Runs
variable {a : Action} {actions : List Action}

structure Sound (n : ℕ) (pids : ℕ → ℤ) (s : Server) : Prop where
  table : s.Table
  apart : s.Apart
  processNumber_eq : s.pool.processNumber = n
  pids_eq : s.pids = pids

theorem sound_start (hn : 0 < n) (hpos : ∀ i < n, 0 < pids i) (hinj : ∀ i < n, ∀ j < n, pids i = pids j → i = j) :
    Sound n pids (start n pids) := by
  refine ⟨⟨hn, hpos, hinj, fun _ _ => rfl, fun _ _ => rfl, ?_, ?_⟩, ⟨?_, ?_⟩, rfl, rfl⟩
  · intro hstop
    cases hstop
  · intro hall
    cases hall 0 hn
  · intro hd
    cases hd
  · exact fun _ _ _ => rfl

theorem Sound.step (h : Sound n pids s) (hs : s.step cap a = some s') : Sound n pids s' := by
  have he := effect_of_step hs
  obtain ⟨hnumber, hpids⟩ := effect_fixed h.table he
  exact ⟨h.table.step he, h.apart.step he, hnumber.trans h.processNumber_eq, hpids.trans h.pids_eq⟩

theorem run_cons (s : Server) (a : Action) (actions : List Action) :
    s.run cap (a :: actions) = (s.step cap a).bind (·.run cap actions) := List.foldlM_cons

theorem Sound.run (h : Sound n pids s) (hs : s.run cap actions = some s') : Sound n pids s' := by
  induction actions generalizing s with
  | nil =>
    obtain rfl := Option.some.inj hs
    exact h
  | cons a actions ih =>
    rw [run_cons] at hs
    obtain ⟨t, ht, hs⟩ := Option.bind_eq_some_iff.mp hs
    exact ih (h.step ht) hs

/-- In every run the table has the children that the parent has not waited for; of each other child the parent has
closed the pipe once. The parent stops when all children have been waited for, at the end of the loop of `waitpid` at
the latest, and not before. No step uses a pipe that is closed or sends a signal to a pid that the parent has waited
for: it sends one to each child that is left, or none at all. -/
theorem lifecycle (hn : 0 < n) (hpos : ∀ i < n, 0 < pids i) (hinj : ∀ i < n, ∀ j < n, pids i = pids j → i = j)
    (h : (start n pids).run cap actions = some s) :
    (∀ i < n, (s.workers i).life ≠ .reaped ∧ s.pool.pid i = pids i ∧ s.closed i = 0 ∨
      (s.workers i).life = .reaped ∧ s.pool.pid i = -1 ∧ s.closed i = 1) ∧
    (s.pool.stop = true → ∀ i < n, (s.workers i).life = .reaped) ∧
    ((∀ i < n, (s.workers i).life = .reaped) → s.pool.stop = true ∨ s.reaping = true) ∧
    ∀ a s', s.step cap a = some s' →
      (∀ i < n, (s.workers i).life = .reaped →
        (s'.workers i).life = .reaped ∧ s'.pool.children i = s.pool.children i) ∧
      (s'.killed = s.killed ∨
        s'.killed = s.killed ++ ((List.range n).filter fun i => (s.workers i).life ≠ .reaped).map pids) := by
  obtain ⟨htable, -, rfl, rfl⟩ := (sound_start hn hpos hinj).run h
  refine ⟨fun i hi => ?_, htable.stop, htable.all, fun a s' hs => ?_⟩
  · have hpid := htable.pid_eq i hi
    have hclosed := htable.closed_eq i hi
    by_cases hlife : (s.workers i).life = .reaped
    · rw [if_pos hlife] at hpid hclosed
      exact .inr ⟨hlife, hpid, hclosed⟩
    · rw [if_neg hlife] at hpid hclosed
      exact .inl ⟨hlife, hpid, hclosed⟩
  · have he := effect_of_step hs
    refine ⟨fun i hi hlife => effect_reaped htable he hi hlife, ?_⟩
    have hfilter : (List.range s.pool.processNumber).filter s.pool.live =
        (List.range s.pool.processNumber).filter fun i => (s.workers i).life ≠ .reaped := by
      refine List.filter_congr fun i hi => ?_
      rw [Bool.eq_iff_iff, live_iff, decide_eq_true_iff]
      exact pid_ne_iff htable (List.mem_range.mp hi)
    have hmap : ((List.range s.pool.processNumber).filter s.pool.live).map s.pool.pid =
        ((List.range s.pool.processNumber).filter s.pool.live).map s.pids := by
      refine List.map_congr_left fun i hi => ?_
      obtain ⟨hmem, hlive⟩ := List.mem_filter.mp hi
      have hi := List.mem_range.mp hmem
      rw [htable.pid_eq i hi, if_neg ((pid_ne_iff htable hi).mp (live_iff.mp hlive))]
    have hkilled := effect_killed he
    rw [hmap, hfilter] at hkilled
    exact hkilled

/-- Two children of which the first crashes and is waited for before `SIGTERM` arrives. -/
theorem lifecycle_two : ∃ s : Server, (start 2 fun i => 100 + i).run 1 [.crash 0, .handler .chld, .wake, .recv, .signal,
      .waitpid (some 0), .waitpid none, .raise .term, .handler .term, .wake, .recv] = some s ∧
    s.closed 0 = 1 ∧ s.pool.stop = false ∧
      ∀ s', s.step 1 .signal = some s' → s'.killed = [] ∨ s'.killed = [101] := by
  let actions : List Action := [.crash 0, .handler .chld, .wake, .recv, .signal, .waitpid (some 0), .waitpid none,
    .raise .term, .handler .term, .wake, .recv]
  have hrun : ((start 2 fun i => 100 + i).run 1 actions).isSome = true := rfl
  let s := ((start 2 fun i => 100 + i).run 1 actions).get hrun
  have hs : (start 2 fun i => 100 + i).run 1 actions = some s := (Option.some_get hrun).symm
  obtain ⟨htable, hstop, -, hstep⟩ := lifecycle (by decide) (fun i _ => by omega) (fun i _ j _ h => by omega) hs
  refine ⟨s, hs, ?_, ?_, fun s' hs' => (hstep _ s' hs').2⟩
  · obtain ⟨hlife, -⟩ | ⟨-, -, hclosed⟩ := htable 0 (by decide)
    · exact absurd rfl hlife
    · exact hclosed
  · cases h : s.pool.stop with
    | false => rfl
    | true => cases hstop h 1 (by decide)

end Runs

end LinuxSocket.ProcessPool.Server
