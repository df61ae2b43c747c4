import LinuxSocket.ListTimer.Reaper
import Mathlib.Data.List.Induction

/-! # The loop around the server

The handler of `SIGALRM` writes a byte to a pipe, the loop reads it among the events of the clients, and it sets the
next alarm only behind the tick. There is always something that leads to the next tick, and no connection stays open
when it has been idle for four time slots.
-/
namespace LinuxSocket.ListTimer
open DoublyLinked StableList SortTimerLst

inductive Sig
  | alrm
  | term
  deriving DecidableEq

def sizeofSignals : ℕ := 1024

/-- The process with the signals on their way to its loop: when the alarm comes, the signals that the kernel has for the
process, the bytes in the pipe, whether a report about them is pending or is among the events handled, and the bytes of
the last `recv` that have not been looked at. -/
structure Process (P : Type) where
  server : Server P
  alarm : Option ℤ
  pending : Sig → Bool
  pipe : List Sig
  report : Bool
  /-- the loop over the events of an `epoll_wait` -/
  handling : Bool
  woken : Bool
  received : List Sig
  stopServer : Bool
  /-- a handler has found no room for its byte, or `recv` has left bytes behind -/
  overrun : Bool

def Event.OfClient {P : Type} : Event P → Prop
  | .accept _ _ => True
  | .recv _ _ => True
  | .sigalrm => False
  | .eventsDone => False

namespace Process
variable {P : Type}

def start (users : ℕ → ClientData P) (clock : ℤ) : Process P :=
  ⟨.start users, some (clock + timeslot), fun _ => false, [], false, false, false, [], false, false⟩

/-- `sig_handler`. The pipe holds `cap` bytes. -/
def sigHandler (p : Process P) (cap : ℕ) (sig : Sig) : Process P :=
  if p.pipe.length < cap then { p with pipe := p.pipe ++ [sig], report := true } else { p with overrun := true }

/-- One byte that `recv` has returned. -/
def onSignal (p : Process P) : Sig → Process P
  | .alrm => { p with server := { p.server with timeout := true } }
  | .term => { p with stopServer := true }

/-- The steps of the process and of the kernel at time `cur`, with the calls on descriptors and timers. -/
inductive Step [DecidableEq P] (cap : ℕ) (p : Process P) (w : World) (cur : ℤ) : List (Call P) → Process P → Prop
  | ring {a} : p.alarm = some a → a ≤ cur →
      Step cap p w cur [] { p with alarm := none, pending := Function.update p.pending .alrm true }
  | kill (sig) : Step cap p w cur [] { p with pending := Function.update p.pending sig true }
  | handler {sig} : p.pending sig = true →
      Step cap p w cur [] ({ p with pending := Function.update p.pending sig false }.sigHandler cap sig)
  /-- `epoll_wait` returns, also without the report about the pipe -/
  | wait (reported : Bool) : p.handling = false → p.stopServer = false → (reported = true → p.report = true) →
      Step cap p w cur [] { p with handling := true, woken := reported, report := p.report && !reported }
  | client {ev calls s} : p.handling = true → p.received = [] → ev.OfClient → Permitted p.server w ev →
      Returns (fun fuel => p.server.step fuel cur ev) (calls, s) → Step cap p w cur calls { p with server := s }
  | recv : p.woken = true → p.received = [] →
      Step cap p w cur [] { p with
        woken := false
        received := p.pipe.take sizeofSignals
        pipe := p.pipe.drop sizeofSignals
        overrun := p.overrun || decide (sizeofSignals < p.pipe.length) }
  | signal {sig rest} : p.received = sig :: rest → Step cap p w cur [] ({ p with received := rest }.onSignal sig)
  /-- `timer_handler` also sets the alarm -/
  | eventsDone {calls s} : p.handling = true → p.woken = false → p.received = [] →
      Returns (fun fuel => p.server.step fuel cur .eventsDone) (calls, s) →
      Step cap p w cur calls { p with
        server := s
        handling := false
        alarm := if p.server.timeout then some (cur + timeslot) else p.alarm }

def Alarmed (p : Process P) : Prop :=
  p.alarm.isSome = true ∨ p.pending .alrm = true ∨ .alrm ∈ p.pipe ∨ .alrm ∈ p.received ∨ p.server.timeout = true

/-- What holds in all runs. Behind a tick, the alarm comes before a connection has been idle for four time slots. -/
structure Inv (p : Process P) (w : World) (clock : ℤ) : Prop where
  matched : ∃ l, Matched p.server w clock l
  alarmed : p.overrun = false → p.Alarmed
  noticed : p.overrun = false → p.pipe ≠ [] → p.report = true ∨ p.woken = true
  outside : p.handling = false → p.woken = false ∧ p.received = [] ∧ p.server.timeout = false
  soon : ∀ a, p.alarm = some a → a ≤ clock + timeslot ∧ ∀ fd ∈ w.openFds, a < w.last fd + 4 * timeslot

end Process

inductive LoopRun {P : Type} [DecidableEq P] (cap : ℕ) : Process P → List (Call P) → ℤ → Prop
  | start (users : ℕ → ClientData P) (clock : ℤ) : LoopRun cap (.start users clock) [] clock
  | step {p p' log calls clock cur} : LoopRun cap p log clock → clock ≤ cur →
      p.Step cap (world log) cur calls p' → LoopRun cap p' (log ++ calls) cur

section Calls
variable {P : Type} {w : World} {calls : List (Call P)} {s s' : Server P} {cur : ℤ} {fd fuel : ℕ}

def Call.At (cur : ℤ) : Call P → Prop
  | .accept _ time => time = cur
  | .read _ time => time = cur
  | .close _ => True
  | .adjustTimer _ => True
  | .delTimer _ => True

/-- What is open behind some calls was open before and not used since, or was used now. -/
theorem last_of_open (hat : ∀ c ∈ calls, c.At cur) (hopen : fd ∈ (calls.foldl World.apply w).openFds) :
    (calls.foldl World.apply w).last fd = cur ∨
      fd ∈ w.openFds ∧ (calls.foldl World.apply w).last fd = w.last fd := by
  induction calls using List.reverseRecOn with
  | nil => exact Or.inr ⟨hopen, rfl⟩
  | append_singleton calls c ih =>
    obtain ⟨hcalls, hc⟩ := List.forall_mem_append.mp hat
    rw [List.foldl_append] at hopen ⊢
    have hc := hc c (List.mem_singleton_self c)
    cases c with
    | accept connfd time =>
      obtain rfl : time = cur := hc
      by_cases hfd : fd = connfd
      · exact Or.inl (hfd ▸ Function.update_self ..)
      · have hlast := Function.update_of_ne hfd time (calls.foldl World.apply w).last
        exact (ih hcalls (hopen.resolve_left hfd)).imp hlast.trans (And.imp_right hlast.trans)
    | read fd' time =>
      obtain rfl : time = cur := hc
      by_cases hfd : fd = fd'
      · exact Or.inl (hfd ▸ Function.update_self ..)
      · have hlast := Function.update_of_ne hfd time (calls.foldl World.apply w).last
        exact (ih hcalls hopen).imp hlast.trans (And.imp_right hlast.trans)
    | close fd' => exact ih hcalls hopen.1
    | adjustTimer p => exact ih hcalls hopen
    | delTimer p => exact ih hcalls hopen

variable [DecidableEq P]

theorem onClose_calls {timer : Option P} (h : s.onClose fuel fd timer = some (calls, s')) :
    (∀ c ∈ calls, c.At cur) ∧ s'.timeout = s.timeout := by
  obtain ⟨call, hcall, h⟩ := Option.bind_eq_some_iff.mp h
  obtain ⟨user, -, hclose⟩ := Option.bind_eq_some_iff.mp hcall
  obtain rfl := Option.some.inj hclose
  cases timer with
  | none =>
    dsimp only at h
    obtain ⟨rfl, rfl⟩ := Prod.mk.inj (Option.some.inj h)
    exact ⟨by simp [Call.At], rfl⟩
  | some timer =>
    dsimp only at h
    obtain ⟨⟨_, t⟩, -, h⟩ := Option.bind_eq_some_iff.mp h
    obtain ⟨rfl, rfl⟩ := Prod.mk.inj (Option.some.inj h)
    exact ⟨by simp [Call.At], rfl⟩

/-- An event of a client leaves `timeout`. -/
theorem step_calls {ev : Event P} (hev : ev.OfClient) (h : s.step fuel cur ev = some (calls, s')) :
    (∀ c ∈ calls, c.At cur) ∧ s'.timeout = s.timeout := by
  cases ev with
  | accept connfd timer =>
    obtain ⟨user, -, h⟩ := Option.bind_eq_some_iff.mp h
    obtain ⟨⟨_, t⟩, -, h⟩ := Option.bind_eq_some_iff.mp h
    obtain ⟨rfl, rfl⟩ := Prod.mk.inj (Option.some.inj h)
    exact ⟨by simp [Call.At], rfl⟩
  | recv sockfd ret =>
    obtain ⟨user, -, h⟩ := Option.bind_eq_some_iff.mp h
    cases ret with
    | again =>
      obtain ⟨rfl, rfl⟩ := Prod.mk.inj (Option.some.inj h)
      exact ⟨List.forall_mem_nil _, rfl⟩
    | error => exact onClose_calls h
    | closed => exact onClose_calls h
    | data =>
      dsimp only at h
      cases huser : user.timer with
      | none =>
        rw [huser] at h
        obtain ⟨rfl, rfl⟩ := Prod.mk.inj (Option.some.inj h)
        exact ⟨by simp [Call.At], rfl⟩
      | some timer =>
        rw [huser] at h
        obtain ⟨⟨_, t⟩, -, h⟩ := Option.bind_eq_some_iff.mp h
        obtain ⟨rfl, rfl⟩ := Prod.mk.inj (Option.some.inj h)
        exact ⟨by simp [Call.At], rfl⟩
  | sigalrm => exact hev.elim
  | eventsDone => exact hev.elim

omit [DecidableEq P] in
theorem closes_of_mapM {fired : List (P × UtilTimer)} (h : (fired.mapM fun e => s.callBack e.2) = some calls) :
    ∃ fds : List ℕ, calls = fds.map .close := by
  induction fired generalizing calls with
  | nil =>
    obtain rfl := Option.some.inj h
    exact ⟨[], rfl⟩
  | cons e fired ih =>
    rw [List.mapM_cons] at h
    obtain ⟨call, hcall, h⟩ := Option.bind_eq_some_iff.mp h
    obtain ⟨rest, hrest, h⟩ := Option.bind_eq_some_iff.mp h
    obtain rfl := Option.some.inj h
    obtain ⟨-, hcb⟩ := Option.ite_none_right_eq_some.mp hcall
    obtain ⟨user, -, hclose⟩ := Option.bind_eq_some_iff.mp hcb
    obtain rfl := Option.some.inj hclose
    obtain ⟨fds, rfl⟩ := ih hrest
    exact ⟨user.sockfd :: fds, rfl⟩

theorem closes_of_timerHandler (h : s.timerHandler fuel cur = some (calls, s')) :
    ∃ fds : List ℕ, calls = fds.map .close := by
  obtain ⟨⟨fired, t⟩, -, h⟩ := Option.bind_eq_some_iff.mp h
  obtain ⟨calls', hcalls, h⟩ := Option.bind_eq_some_iff.mp h
  obtain ⟨rfl, -⟩ := Prod.mk.inj (Option.some.inj h)
  exact closes_of_mapM hcalls

end Calls

section Invariant
variable {P : Type} {p p' : Process P} {w : World} {calls : List (Call P)} {clock cur : ℤ} {cap : ℕ} {sig : Sig}

theorem Matched.withTimeout {s : Server P} {l : List (P × UtilTimer)} (h : Matched s w clock l) (timeout : Bool) :
    Matched { s with timeout := timeout } w clock l := ⟨h.refines, h.listed, h.served, h.limit, h.past⟩

namespace Process

theorem Inv.later (h : p.Inv w clock) (hc : clock ≤ cur) : p.Inv w cur where
  matched := by
    obtain ⟨l, hl⟩ := h.matched
    exact ⟨l, hl.later hc⟩
  alarmed := h.alarmed
  noticed := h.noticed
  outside := h.outside
  soon a ha := by
    obtain ⟨hle, hopen⟩ := h.soon a ha
    exact ⟨by omega, hopen⟩

theorem inv_start (users : ℕ → ClientData P) (clock : ℤ) :
    (start users clock).Inv (world ([] : List (Call P))) clock where
  matched := ⟨[], matched_start users clock⟩
  alarmed _ := Or.inl rfl
  noticed _ hne := absurd rfl hne
  outside _ := ⟨rfl, rfl, rfl⟩
  soon a ha := by
    obtain rfl := Option.some.inj ha
    exact ⟨le_rfl, fun fd hfd => absurd hfd (Set.notMem_empty fd)⟩

theorem Inv.ring (h : p.Inv w cur) :
    Inv { p with alarm := none, pending := Function.update p.pending .alrm true } w cur where
  matched := h.matched
  alarmed _ := Or.inr (Or.inl (Function.update_self Sig.alrm true p.pending))
  noticed := h.noticed
  outside := h.outside
  soon a ha := by cases ha

theorem Inv.kill (h : p.Inv w cur) (sig : Sig) : Inv { p with pending := Function.update p.pending sig true } w cur where
  matched := h.matched
  alarmed ho := by
    refine (h.alarmed ho).imp id (Or.imp (fun hpending => ?_) id)
    by_cases hsig : Sig.alrm = sig
    · subst hsig
      exact Function.update_self Sig.alrm true p.pending
    · exact (Function.update_of_ne hsig ..).trans hpending
  noticed := h.noticed
  outside := h.outside
  soon := h.soon

theorem Inv.handler (h : p.Inv w cur) (cap : ℕ) (sig : Sig) :
    (sigHandler { p with pending := Function.update p.pending sig false } cap sig).Inv w cur := by
  unfold sigHandler
  split
  · refine ⟨h.matched, fun ho => ?_, fun _ _ => Or.inl rfl, h.outside, h.soon⟩
    by_cases hsig : Sig.alrm = sig
    · exact Or.inr (Or.inr (Or.inl (hsig ▸ List.mem_append_right _ (List.mem_singleton_self _))))
    · refine (h.alarmed ho).imp id (Or.imp (Function.update_of_ne hsig ..).trans (Or.imp ?_ id))
      exact List.mem_append_left _
  · exact ⟨h.matched, fun ho => Bool.noConfusion ho, fun ho => Bool.noConfusion ho, h.outside, h.soon⟩

theorem Inv.wait (h : p.Inv w cur) {reported : Bool} (hidle : p.handling = false)
    (hreported : reported = true → p.report = true) :
    Inv { p with handling := true, woken := reported, report := p.report && !reported } w cur where
  matched := h.matched
  alarmed := h.alarmed
  noticed ho hne := by
    rcases h.noticed ho hne with hreport | hwoken
    · cases reported with
      | true => exact Or.inr rfl
      | false => exact Or.inl (by simpa using hreport)
    · rw [(h.outside hidle).1] at hwoken
      cases hwoken
  outside hidle := Bool.noConfusion hidle
  soon := h.soon

theorem Inv.recv (h : p.Inv w cur) (hwoken : p.woken = true) (hreceived : p.received = []) :
    Inv { p with
      woken := false
      received := p.pipe.take sizeofSignals
      pipe := p.pipe.drop sizeofSignals
      overrun := p.overrun || decide (sizeofSignals < p.pipe.length) } w cur where
  matched := h.matched
  alarmed ho := by
    rw [Bool.or_eq_false_iff] at ho
    rcases h.alarmed ho.1 with halarm | hpending | hpipe | hmem | htimeout
    · exact Or.inl halarm
    · exact Or.inr (Or.inl hpending)
    · rw [← List.take_append_drop sizeofSignals p.pipe] at hpipe
      exact Or.inr (Or.inr ((List.mem_append.mp hpipe).symm.imp id Or.inl))
    · rw [hreceived] at hmem
      cases hmem
    · exact Or.inr (Or.inr (Or.inr (Or.inr htimeout)))
  noticed ho hne := by
    rw [Bool.or_eq_false_iff, decide_eq_false_iff_not, Nat.not_lt] at ho
    exact absurd (List.drop_of_length_le ho.2) hne
  outside hidle := by
    rw [(h.outside hidle).1] at hwoken
    cases hwoken
  soon := h.soon

theorem Inv.signal (h : p.Inv w cur) {rest : List Sig} (hreceived : p.received = sig :: rest) :
    (onSignal { p with received := rest } sig).Inv w cur := by
  have hbusy (hidle : p.handling = false) : False := by
    rw [(h.outside hidle).2.1] at hreceived
    cases hreceived
  obtain ⟨l, hl⟩ := h.matched
  cases sig with
  | alrm =>
    exact ⟨⟨l, hl.withTimeout true⟩, fun _ => Or.inr (Or.inr (Or.inr (Or.inr rfl))), h.noticed,
      fun hidle => (hbusy hidle).elim, h.soon⟩
  | term =>
    refine ⟨⟨l, hl⟩, fun ho => ?_, h.noticed, fun hidle => (hbusy hidle).elim, h.soon⟩
    refine (h.alarmed ho).imp id (Or.imp id (Or.imp id (Or.imp (fun hmem => ?_) id)))
    rw [hreceived] at hmem
    exact List.mem_of_ne_of_mem (by decide) hmem

variable [DecidableEq P]

theorem Inv.client (h : p.Inv w cur) {ev : Event P} {s : Server P} (hbusy : p.handling = true) (hev : ev.OfClient)
    (hpermitted : Permitted p.server w ev) (hrun : Returns (fun fuel => p.server.step fuel cur ev) (calls, s)) :
    Inv { p with server := s } (calls.foldl World.apply w) cur := by
  obtain ⟨l, hl⟩ := h.matched
  obtain ⟨calls', s', hrun', hstepped⟩ := hl.step le_rfl hpermitted
  obtain ⟨rfl, rfl⟩ := Prod.mk.inj (hrun'.unique hrun)
  obtain ⟨N, hN⟩ := hrun
  obtain ⟨hat, htimeout⟩ := step_calls hev (hN N le_rfl)
  refine ⟨hstepped.matched, fun ho => ?_, h.noticed, fun hidle => ?_, fun a ha => ⟨(h.soon a ha).1, fun fd hfd => ?_⟩⟩
  · rw [Alarmed, htimeout]
    exact h.alarmed ho
  · exact absurd (hidle.symm.trans hbusy) Bool.false_ne_true
  · obtain ⟨hle, hopen⟩ := h.soon a ha
    have hpos : 0 < timeslot := by decide
    rcases last_of_open hat hfd with hnow | ⟨hbefore, hsame⟩
    · omega
    · rw [hsame]
      exact hopen fd hbefore

/-- Behind a tick, the connections that are open have not been idle for three time slots. -/
theorem Inv.tick (h : p.Inv w cur) {s : Server P} (hwoken : p.woken = false) (hreceived : p.received = [])
    (htimeout : p.server.timeout = true)
    (hrun : Returns (fun fuel => p.server.step fuel cur .eventsDone) (calls, s)) :
    Inv { p with server := s, handling := false, alarm := some (cur + timeslot) } (calls.foldl World.apply w) cur := by
  obtain ⟨l, hl⟩ := h.matched
  obtain ⟨calls', s', hhandler, hstepped, hclose⟩ := hl.timerHandler le_rfl
  have hstep : Returns (fun fuel => p.server.step fuel cur .eventsDone) (calls', { s' with timeout := false }) := by
    refine hhandler.imp fun fuel hfuel => ?_
    simp only [Server.step, if_pos htimeout, hfuel, Option.bind_eq_bind, Option.bind_some]
  obtain ⟨rfl, rfl⟩ := Prod.mk.inj (hstep.unique hrun)
  obtain ⟨N, hN⟩ := hhandler
  obtain ⟨fds, rfl⟩ := closes_of_timerHandler (hN N le_rfl)
  refine ⟨(hstepped.withTimeout false).matched, fun _ => Or.inl rfl, h.noticed, fun _ => ⟨hwoken, hreceived, rfl⟩,
    fun a ha => ?_⟩
  obtain rfl := Option.some.inj ha
  refine ⟨le_rfl, fun fd hfd => ?_⟩
  rw [foldl_close] at hfd ⊢
  obtain ⟨hopen, hnot⟩ := hfd
  have hlast : ¬w.last fd ≤ cur - 3 * timeslot := fun hle =>
    hnot (by simpa using (hclose fd).mpr ⟨hopen, hle⟩)
  dsimp only
  omega

theorem Inv.eventsDone (h : p.Inv w cur) {s : Server P} (hwoken : p.woken = false) (hreceived : p.received = [])
    (hrun : Returns (fun fuel => p.server.step fuel cur .eventsDone) (calls, s)) :
    Inv { p with
      server := s
      handling := false
      alarm := if p.server.timeout then some (cur + timeslot) else p.alarm } (calls.foldl World.apply w) cur := by
  by_cases htimeout : p.server.timeout = true
  · rw [if_pos htimeout]
    exact h.tick hwoken hreceived htimeout hrun
  · have hnone : Returns (fun fuel => p.server.step fuel cur .eventsDone) ([], p.server) :=
      Returns.of_eq fun _ => if_neg htimeout
    obtain ⟨rfl, rfl⟩ := Prod.mk.inj (hnone.unique hrun)
    rw [if_neg htimeout]
    exact ⟨h.matched, h.alarmed, h.noticed, fun _ => ⟨hwoken, hreceived, by simpa using htimeout⟩, h.soon⟩

/-- A step keeps the invariant. -/
theorem Inv.step (h : p.Inv w cur) (hs : p.Step cap w cur calls p') : p'.Inv (calls.foldl World.apply w) cur := by
  cases hs with
  | ring _ _ => exact h.ring
  | kill sig => exact h.kill sig
  | handler _ => exact h.handler cap _
  | wait reported hidle _ hreported => exact h.wait hidle hreported
  | client hbusy _ hev hpermitted hrun => exact h.client hbusy hev hpermitted hrun
  | recv hwoken hreceived => exact h.recv hwoken hreceived
  | signal hreceived => exact h.signal hreceived
  | eventsDone _ hwoken hreceived hrun => exact h.eventsDone hwoken hreceived hrun

end Process

variable [DecidableEq P] {log : List (Call P)}

theorem LoopRun.inv (h : LoopRun cap p log clock) : p.Inv (world log) clock := by
  induction h with
  | start users clock => exact Process.inv_start users clock
  | step _ hc hs ih =>
    rw [world_append]
    exact (ih.later hc).step hs

end Invariant

end LinuxSocket.ListTimer
