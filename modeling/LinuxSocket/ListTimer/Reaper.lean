import LinuxSocket.ListTimer.Server

/-! # Idle connections are closed, and no others

`Matched` ties the timer list, the table and the open descriptors together. Stale pointers stay in the
table, but only at descriptors that are not open.
-/
namespace LinuxSocket.ListTimer
open DoublyLinked StableList SortTimerLst
variable {P : Type} {s : Server P} {w : World} {l : List (P × UtilTimer)} {clock cur : ℤ} {fd : ℕ}

def timerOf (w : World) (fd : ℕ) : UtilTimer := ⟨w.last fd + 3 * timeslot, cbFuncPtr, fd⟩

theorem timerOf_of_last (h : w.last fd = cur) : timerOf w fd = ⟨cur + 3 * timeslot, cbFuncPtr, fd⟩ := by
  rw [timerOf, h]

/-- The timers and the open descriptors correspond to each other through the table. -/
structure Matched (s : Server P) (w : World) (clock : ℤ) (l : List (P × UtilTimer)) : Prop where
  refines : Refines s.timerLst l
  listed : ∀ fd ∈ w.openFds, ∃ p, s.users fd = ⟨fd, some p⟩ ∧ (p, timerOf w fd) ∈ l
  served : ∀ e ∈ l, ∃ fd ∈ w.openFds, s.users fd = ⟨fd, some e.1⟩ ∧ e.2 = timerOf w fd
  limit : ∀ fd ∈ w.openFds, fd < fdLimit
  past : ∀ fd ∈ w.openFds, w.last fd ≤ clock

theorem Matched.later (h : Matched s w clock l) (hc : clock ≤ cur) : Matched s w cur l :=
  { h with past := fun fd hfd => (h.past fd hfd).trans hc }

theorem Matched.user (h : Matched s w clock l) (hfd : fd ∈ w.openFds) : s.user fd = some (s.users fd) :=
  if_pos (h.limit fd hfd)

/-- Descriptors have timers of their own. -/
theorem Matched.timer_inj (h : Matched s w clock l) {p : P} {fd fd' : ℕ} (hp : (p, timerOf w fd) ∈ l)
    (hp' : (p, timerOf w fd') ∈ l) : fd = fd' := by
  have heq := List.inj_on_of_nodup_map h.refines.holds.nodup hp hp' rfl
  exact congrArg (fun e : P × UtilTimer => e.2.userData) heq

section Calls

def ClosesOpen : World → List (Call P) → Prop
  | _, [] => True
  | w, c :: calls => (∀ fd, c = .close fd → fd ∈ w.openFds) ∧ ClosesOpen (w.apply c) calls

variable {log calls : List (Call P)}

theorem world_append (log calls : List (Call P)) : world (log ++ calls) = calls.foldl World.apply (world log) :=
  List.foldl_append

theorem closesOpen_append :
    ClosesOpen w (log ++ calls) ↔ ClosesOpen w log ∧ ClosesOpen (log.foldl World.apply w) calls := by
  induction log generalizing w with
  | nil => simp [ClosesOpen]
  | cons c log ih => rw [List.cons_append, ClosesOpen, ClosesOpen, ih, List.foldl_cons, and_assoc]

/-- A descriptor that becomes open has been accepted. -/
theorem accept_of_open (hfd : fd ∈ (calls.foldl World.apply w).openFds) (hw : fd ∉ w.openFds) :
    ∃ time, .accept fd time ∈ calls := by
  induction calls generalizing w with
  | nil => exact absurd hfd hw
  | cons c calls ih =>
    by_cases hc : fd ∈ (w.apply c).openFds
    · cases c with
      | accept connfd time =>
        rcases hc with rfl | hc
        · exact ⟨time, by simp⟩
        · exact absurd hc hw
      | read => exact absurd hc hw
      | close => exact absurd hc.1 hw
      | adjustTimer => exact absurd hc hw
      | delTimer => exact absurd hc hw
    · obtain ⟨time, hmem⟩ := ih hfd hc
      exact ⟨time, List.mem_cons_of_mem _ hmem⟩

/-- Between two calls of `close` on a descriptor it is accepted. -/
theorem ClosesOpen.accept_between {a b c : List (Call P)}
    (h : ClosesOpen w (a ++ .close fd :: (b ++ .close fd :: c))) : ∃ time, .accept fd time ∈ b := by
  obtain ⟨-, -, hrest⟩ := closesOpen_append.mp h
  obtain ⟨-, hclose, -⟩ := closesOpen_append.mp hrest
  refine accept_of_open (hclose fd rfl) ?_
  exact fun hfd => hfd.2 rfl

/-- The callbacks of a tick. -/
theorem foldl_close (fds : List ℕ) (w : World) : (fds.map fun fd => (.close fd : Call P)).foldl World.apply w =
    { w with openFds := w.openFds \ {fd | fd ∈ fds} } := by
  induction fds generalizing w with
  | nil => simp
  | cons fd fds ih =>
    rw [List.map_cons, List.foldl_cons, ih]
    have hset : (w.openFds \ {fd}) \ {a | a ∈ fds} = w.openFds \ {a | a ∈ fd :: fds} := by
      ext a
      simp only [Set.mem_sdiff, Set.mem_singleton_iff, Set.mem_ofPred_eq, List.mem_cons, not_or, and_assoc]
    simp only [World.apply, hset]

theorem closesOpen_close {fds : List ℕ} (hn : fds.Nodup) (hw : ∀ fd ∈ fds, fd ∈ w.openFds) :
    ClosesOpen w (fds.map fun fd => (.close fd : Call P)) := by
  induction fds generalizing w with
  | nil => trivial
  | cons fd fds ih =>
    obtain ⟨hfd, hn⟩ := List.nodup_cons.mp hn
    refine ⟨?_, ih hn fun a ha => ⟨hw a (by simp [ha]), ne_of_mem_of_not_mem ha hfd⟩⟩
    rintro a ⟨rfl⟩
    exact hw fd (by simp)

end Calls

section Steps

structure Stepped (w : World) (l : List (P × UtilTimer)) (cur : ℤ) (calls : List (Call P)) (s' : Server P) : Prop where
  matched : ∃ l', Matched s' (calls.foldl World.apply w) cur l'
  closes : ClosesOpen w calls
  adjusted : ∀ p, .adjustTimer p ∈ calls → p ∈ timers l
  deleted : ∀ p, .delTimer p ∈ calls → p ∈ timers l

theorem Matched.users_of_mem (h : Matched s w clock l) {p : P} (hp : (p, timerOf w fd) ∈ l) :
    fd ∈ w.openFds ∧ s.users fd = ⟨fd, some p⟩ := by
  obtain ⟨fd', hfd', huser, htimer⟩ := h.served _ hp
  obtain rfl : fd = fd' := congrArg UtilTimer.userData htimer
  exact ⟨hfd', huser⟩

/-- Connections are closed together with their timers. -/
theorem Matched.keep (h : Matched s w clock l) {t : SortTimerLst P} {l' : List (P × UtilTimer)} (ht : Refines t l')
    (hsub : ∀ e ∈ l', e ∈ l) {gone : Set ℕ}
    (hgone : ∀ fd p, (p, timerOf w fd) ∈ l → ((p, timerOf w fd) ∈ l' ↔ fd ∉ gone)) :
    Matched { s with timerLst := t } { w with openFds := w.openFds \ gone } clock l' where
  refines := ht
  listed := by
    rintro fd ⟨hfd, hnot⟩
    obtain ⟨p, huser, hmem⟩ := h.listed fd hfd
    exact ⟨p, huser, (hgone fd p hmem).mpr hnot⟩
  served := by
    rintro ⟨p, d⟩ he
    obtain ⟨fd, hfd, huser, rfl⟩ := h.served _ (hsub _ he)
    exact ⟨fd, ⟨hfd, (hgone fd p (hsub _ he)).mp he⟩, huser, rfl⟩
  limit := fun fd hfd => h.limit fd hfd.1
  past := fun fd hfd => h.past fd hfd.1

theorem Matched.cbFunc (h : Matched s w clock l) {p : P} (hp : (p, timerOf w fd) ∈ l) :
    s.cbFunc fd = some (.close fd) := by
  obtain ⟨hfd, huser⟩ := h.users_of_mem hp
  rw [Server.cbFunc, h.user hfd, huser]
  rfl

theorem Matched.timer_eq (h : Matched s w clock l) {e : P × UtilTimer} (he : e ∈ l) :
    e.2 = timerOf w e.2.userData := by
  obtain ⟨fd, -, -, htimer⟩ := h.served e he
  have hfd : e.2.userData = fd := congrArg UtilTimer.userData htimer
  rw [hfd]
  exact htimer

theorem Matched.callBack (h : Matched s w clock l) {e : P × UtilTimer} (he : e ∈ l) :
    s.callBack e.2 = some (.close e.2.userData) := by
  have htimer := h.timer_eq he
  have hptr : e.2.cbFunc = cbFuncPtr := congrArg UtilTimer.cbFunc htimer
  have hmem : (e.1, timerOf w e.2.userData) ∈ l := by rwa [← htimer]
  rw [Server.callBack, if_pos hptr]
  exact h.cbFunc hmem

theorem Matched.userData_inj (h : Matched s w clock l) {e e' : P × UtilTimer} (he : e ∈ l) (he' : e' ∈ l)
    (heq : e.2.userData = e'.2.userData) : e = e' := by
  have htimer : e.2 = e'.2 := by rw [h.timer_eq he, heq, ← h.timer_eq he']
  have hmem : (e.1, timerOf w e.2.userData) ∈ l := by rwa [← h.timer_eq he]
  have hmem' : (e'.1, timerOf w e.2.userData) ∈ l := by rwa [heq, ← h.timer_eq he']
  have huser := (h.users_of_mem hmem).2.symm.trans (h.users_of_mem hmem').2
  exact Prod.ext (Option.some.inj (congrArg ClientData.timer huser)) htimer

theorem Matched.mapM_callBack (h : Matched s w clock l) {fired : List (P × UtilTimer)} (hf : ∀ e ∈ fired, e ∈ l) :
    fired.mapM (fun e => s.callBack e.2) = some ((fired.map fun e => e.2.userData).map Call.close) := by
  induction fired with
  | nil => rfl
  | cons e fired ih =>
    rw [List.mapM_cons, h.callBack (hf e (by simp)), ih fun e he => hf e (List.mem_cons_of_mem _ he)]
    rfl

theorem Stepped.none (h : Matched s w clock l) (hc : clock ≤ cur) : Stepped w l cur [] s :=
  ⟨⟨l, h.later hc⟩, trivial, by simp, by simp⟩

theorem Stepped.withTimeout {calls : List (Call P)} (h : Stepped w l cur calls s) (timeout : Bool) :
    Stepped w l cur calls { s with timeout := timeout } := by
  obtain ⟨l', h'⟩ := h.matched
  exact ⟨⟨l', h'.refines, h'.listed, h'.served, h'.limit, h'.past⟩, h.closes, h.adjusted, h.deleted⟩

theorem matched_start (users : ℕ → ClientData P) (clock : ℤ) :
    Matched (.start users) (world ([] : List (Call P))) clock [] where
  refines := ⟨holds_init, fun _ he => absurd he List.not_mem_nil⟩
  listed := fun fd hfd => absurd hfd (Set.notMem_empty fd)
  served := fun _ he => absurd he List.not_mem_nil
  limit := fun fd hfd => absurd hfd (Set.notMem_empty fd)
  past := fun fd hfd => absurd hfd (Set.notMem_empty fd)

variable [DecidableEq P]

theorem Matched.onAccept (h : Matched s w clock l) (hc : clock ≤ cur) {timer : P} (hnew : fd ∉ w.openFds)
    (hlim : fd < fdLimit) (htimer : s.timerLst.heap timer = none) : ∃ calls s',
      Returns (fun fuel => s.onAccept fuel fd timer cur) (calls, s') ∧ Stepped w l cur calls s' := by
  obtain ⟨t, hrun, ht⟩ := h.refines.add htimer ⟨cur + 3 * timeslot, cbFuncPtr, fd⟩
  have hne : ∀ {fd'}, fd' ∈ w.openFds → fd' ≠ fd := fun hfd' => ne_of_mem_of_not_mem hfd' hnew
  have hmem : ∀ e, e ∈ insertBy due (timer, ⟨cur + 3 * timeslot, cbFuncPtr, fd⟩) l ↔
      e = (timer, ⟨cur + 3 * timeslot, cbFuncPtr, fd⟩) ∨ e ∈ l :=
    fun e => (insertBy_perm due _ l).mem_iff.trans List.mem_cons
  have hself : timerOf (w.apply (.accept fd cur : Call P)) fd = ⟨cur + 3 * timeslot, cbFuncPtr, fd⟩ :=
    timerOf_of_last (Function.update_self ..)
  have hother : ∀ {fd'}, fd' ∈ w.openFds → timerOf (w.apply (.accept fd cur : Call P)) fd' = timerOf w fd' :=
    fun hfd' => timerOf_of_last (Function.update_of_ne (hne hfd') ..)
  refine ⟨[.accept fd cur], ⟨t, Function.update s.users fd ⟨fd, some timer⟩, s.timeout⟩, ?_, ⟨⟨_, ht, ?_, ?_, ?_, ?_⟩,
    ?_, ?_, ?_⟩⟩
  · refine hrun.imp fun fuel hfuel => ?_
    simp only [Server.onAccept, Server.user, if_pos hlim, Option.bind_eq_bind, Option.bind_some, hfuel]
  · rintro fd' (rfl | hfd')
    · exact ⟨timer, Function.update_self _ _ _, (hmem _).mpr (.inl (by rw [← hself]; rfl))⟩
    · obtain ⟨p, huser, hp⟩ := h.listed fd' hfd'
      refine ⟨p, (Function.update_of_ne (hne hfd') _ _).trans huser, (hmem _).mpr (.inr ?_)⟩
      rw [← hother hfd'] at hp
      exact hp
  · intro e he
    rcases (hmem e).mp he with rfl | he
    · exact ⟨fd, .inl rfl, Function.update_self _ _ _, hself.symm⟩
    · obtain ⟨fd', hfd', huser, htimer'⟩ := h.served e he
      exact ⟨fd', .inr hfd', (Function.update_of_ne (hne hfd') _ _).trans huser, htimer'.trans (hother hfd').symm⟩
  · rintro fd' (rfl | hfd')
    · exact hlim
    · exact h.limit fd' hfd'
  · rintro fd' (rfl | hfd')
    · exact (Function.update_self fd' cur w.last).le
    · refine (Function.update_of_ne (hne hfd') cur w.last).trans_le ?_
      exact (h.past fd' hfd').trans hc
  · exact ⟨by rintro _ ⟨⟩, trivial⟩
  · simp
  · simp

theorem Matched.onClose (h : Matched s w clock l) (hc : clock ≤ cur) {p : P} (hp : (p, timerOf w fd) ∈ l) :
    ∃ calls s', Returns (fun fuel => s.onClose fuel fd (some p)) (calls, s') ∧ Stepped w l cur calls s' := by
  have hlisted : p ∈ timers l := List.mem_map_of_mem (f := Prod.fst) hp
  obtain ⟨t, hrun, ht, -⟩ := h.refines.exec (show Legal s.timerLst (timers l) (.del p) from hlisted)
  have hcb := h.cbFunc hp
  refine ⟨[.close fd, .delTimer p], { s with timerLst := t }, ?_, ⟨⟨_, (h.keep ht ?_ ?_).later hc⟩, ?_, ?_, ?_⟩⟩
  · refine hrun.imp fun fuel hfuel => ?_
    simp only [Server.onClose, hcb, Option.bind_eq_bind, Option.bind_some, hfuel]
  · exact fun e he => (List.mem_filter.mp he).1
  · intro fd' p' hp'
    rw [Queue.exec, List.mem_filter, and_iff_right hp']
    have hiff : p' = p ↔ fd' = fd := by
      constructor
      · rintro rfl
        exact h.timer_inj hp' hp
      · rintro rfl
        have huser := (h.users_of_mem hp').2.symm.trans (h.users_of_mem hp).2
        exact Option.some.inj (congrArg ClientData.timer huser)
    simpa using not_congr hiff
  · refine ⟨?_, by rintro _ ⟨⟩, trivial⟩
    rintro fd' ⟨rfl⟩
    exact (h.users_of_mem hp).1
  · simp
  · rintro p' hp'
    obtain rfl : p' = p := by simpa using hp'
    exact hlisted

/-- Input puts off the time at which the connection is closed. -/
theorem Matched.onData (h : Matched s w clock l) (hc : clock ≤ cur) {p : P} (hp : (p, timerOf w fd) ∈ l) :
    ∃ calls s', Returns (fun fuel => s.onRecv fuel fd .data cur) (calls, s') ∧ Stepped w l cur calls s' := by
  obtain ⟨hfd, huser⟩ := h.users_of_mem hp
  have hpast := h.past fd hfd
  obtain ⟨l₁, l₂, rfl⟩ := List.append_of_mem hp
  have hold : w.last fd + 3 * timeslot ≤ cur + 3 * timeslot := by omega
  have hnod := h.refines.holds.nodup
  obtain ⟨t, hrun, ht⟩ := h.refines.adjust (d := timerOf w fd) hold
  have hself : timerOf (w.apply (.read fd cur : Call P)) fd = ⟨cur + 3 * timeslot, cbFuncPtr, fd⟩ :=
    timerOf_of_last (Function.update_self ..)
  have hother : ∀ {fd'}, fd' ≠ fd → timerOf (w.apply (.read fd cur : Call P)) fd' = timerOf w fd' :=
    fun hne => timerOf_of_last (Function.update_of_ne hne ..)
  have hmem : ∀ e, e ∈ insertBy due (p, ⟨cur + 3 * timeslot, cbFuncPtr, fd⟩) (l₁ ++ l₂) ↔
      e = (p, ⟨cur + 3 * timeslot, cbFuncPtr, fd⟩) ∨ e ∈ l₁ ++ l₂ :=
    fun e => (insertBy_perm due _ _).mem_iff.trans List.mem_cons
  have hrest : ∀ e ∈ l₁ ++ l₂, e ∈ l₁ ++ (p, timerOf w fd) :: l₂ ∧ e.1 ≠ p := by
    intro e he
    rw [← filter_ne_entry hnod, List.mem_filter] at he
    simpa using he
  refine ⟨[.read fd cur, .adjustTimer p], { s with timerLst := t }, ?_, ⟨⟨_, ht, ?_, ?_, h.limit, ?_⟩, ?_, ?_, ?_⟩⟩
  · refine hrun.imp fun fuel hfuel => ?_
    simp only [Server.onRecv, h.user hfd, huser, Option.bind_eq_bind, Option.bind_some, hfuel]
  · intro fd' hfd'
    by_cases hne : fd' = fd
    · subst hne
      exact ⟨p, huser, (hmem _).mpr (.inl (by rw [← hself]; rfl))⟩
    · obtain ⟨p', huser', hp'⟩ := h.listed fd' hfd'
      refine ⟨p', huser', (hmem _).mpr (.inr ?_)⟩
      rw [← filter_ne_entry hnod, List.mem_filter]
      have hpp : p' ≠ p := by
        rintro rfl
        exact hne (h.timer_inj hp' hp)
      refine ⟨?_, by simpa using hpp⟩
      rw [← hother hne] at hp'
      exact hp'
  · intro e he
    rcases (hmem e).mp he with rfl | he
    · exact ⟨fd, hfd, huser, hself.symm⟩
    · obtain ⟨hel, hpp⟩ := hrest e he
      obtain ⟨fd', hfd', huser', htimer⟩ := h.served e hel
      have hne : fd' ≠ fd := by
        rintro rfl
        exact hpp (Option.some.inj (congrArg ClientData.timer (huser'.symm.trans huser)))
      exact ⟨fd', hfd', huser', htimer.trans (hother hne).symm⟩
  · intro fd' hfd'
    by_cases hne : fd' = fd
    · subst hne
      exact (Function.update_self fd' cur w.last).le
    · exact (Function.update_of_ne hne cur w.last).trans_le ((h.past fd' hfd').trans hc)
  · exact ⟨by rintro _ ⟨⟩, by rintro _ ⟨⟩, trivial⟩
  · intro p' hp'
    obtain rfl : p' = p := by simpa using hp'
    exact List.mem_map_of_mem (f := Prod.fst) hp
  · simp

/-- A tick closes the connections that have been idle for three time slots. -/
theorem Matched.timerHandler (h : Matched s w clock l) (hc : clock ≤ cur) : ∃ calls s',
    Returns (fun fuel => s.timerHandler fuel cur) (calls, s') ∧ Stepped w l cur calls s' ∧
      ∀ fd, .close fd ∈ calls ↔ fd ∈ w.openFds ∧ w.last fd ≤ cur - 3 * timeslot := by
  obtain ⟨t, hrun, ht⟩ := h.refines.tick cur
  obtain ⟨fired, hfired⟩ : ∃ fired, fired = l.filter fun e => due e ≤ cur := ⟨_, rfl⟩
  rw [← hfired] at hrun
  have hmem : ∀ e, e ∈ fired ↔ e ∈ l ∧ due e ≤ cur := by
    intro e
    rw [hfired, List.mem_filter, decide_eq_true_eq]
  have hdue : ∀ p fd, due ((p, timerOf w fd) : P × UtilTimer) = w.last fd + 3 * timeslot := fun _ _ => rfl
  have hcalls := h.mapM_callBack fun e he => ((hmem e).mp he).1
  obtain ⟨fds, hfdseq⟩ : ∃ fds, fds = fired.map fun e => e.2.userData := ⟨_, rfl⟩
  have hfds : ∀ fd, fd ∈ fds ↔ fd ∈ w.openFds ∧ w.last fd ≤ cur - 3 * timeslot := by
    intro fd
    rw [hfdseq, List.mem_map]
    constructor
    · rintro ⟨e, he, rfl⟩
      obtain ⟨hel, hle⟩ := (hmem e).mp he
      have hpair : e = (e.1, timerOf w e.2.userData) := Prod.ext rfl (h.timer_eq hel)
      refine ⟨(h.users_of_mem (hpair ▸ hel)).1, ?_⟩
      rw [hpair, hdue] at hle
      omega
    · rintro ⟨hfd, hle⟩
      obtain ⟨p, -, hp⟩ := h.listed fd hfd
      refine ⟨_, (hmem _).mpr ⟨hp, ?_⟩, rfl⟩
      rw [hdue]
      omega
  have hnod : fds.Nodup := by
    rw [hfdseq]
    refine List.Nodup.map_on ?_ (hfired ▸ h.refines.holds.nodup.of_map.filter _)
    exact fun e he e' he' => h.userData_inj ((hmem e).mp he).1 ((hmem e').mp he').1
  refine ⟨fds.map .close, { s with timerLst := t }, ?_, ⟨⟨l.filter fun e => cur < due e, ?_⟩, ?_, ?_, ?_⟩, ?_⟩
  · refine hrun.imp fun fuel hfuel => ?_
    simp only [Server.timerHandler, hfuel, Option.bind_eq_bind, Option.bind_some, hcalls, hfdseq]
  · rw [foldl_close]
    refine (h.keep ht ?_ ?_).later hc
    · exact fun e he => (List.mem_filter.mp he).1
    · intro fd p hp
      have hopen := (h.users_of_mem hp).1
      rw [List.mem_filter, and_iff_right hp, decide_eq_true_eq, hdue, Set.mem_ofPred_eq, hfds, and_iff_right hopen]
      omega
  · exact closesOpen_close hnod fun fd hfd => ((hfds fd).mp hfd).1
  · simp
  · simp
  · intro fd
    rw [← hfds fd]
    simp

theorem Matched.step (h : Matched s w clock l) (hc : clock ≤ cur) {ev : Event P} (hev : Permitted s w ev) :
    ∃ calls s', Returns (fun fuel => s.step fuel cur ev) (calls, s') ∧ Stepped w l cur calls s' := by
  cases ev with
  | accept connfd timer => exact h.onAccept hc hev.1 hev.2.1 hev.2.2
  | recv sockfd ret =>
    obtain ⟨p, huser, hp⟩ := h.listed sockfd hev
    obtain ⟨calls, s', hrun, hs'⟩ := h.onClose hc hp
    have hclose : ∀ fuel, s.onClose fuel sockfd (s.users sockfd).timer = s.onClose fuel sockfd (some p) := by
      intro fuel
      rw [huser]
    cases ret with
    | data => exact h.onData hc hp
    | again =>
      refine ⟨[], s, Returns.of_eq fun fuel => ?_, Stepped.none h hc⟩
      simp only [Server.step, Server.onRecv, h.user hev, Option.bind_eq_bind, Option.bind_some]
    | error =>
      refine ⟨calls, s', hrun.congr fun fuel => ?_, hs'⟩
      simp only [Server.step, Server.onRecv, h.user hev, Option.bind_eq_bind, Option.bind_some, hclose]
    | closed =>
      refine ⟨calls, s', hrun.congr fun fuel => ?_, hs'⟩
      simp only [Server.step, Server.onRecv, h.user hev, Option.bind_eq_bind, Option.bind_some, hclose]
  | sigalrm => exact ⟨[], _, Returns.of_eq fun _ => rfl, (Stepped.none h hc).withTimeout true⟩
  | eventsDone =>
    by_cases htimeout : s.timeout = true
    · obtain ⟨calls, s', hrun, hs', -⟩ := h.timerHandler hc
      refine ⟨calls, { s' with timeout := false }, ?_, hs'.withTimeout false⟩
      refine hrun.imp fun fuel hfuel => ?_
      simp only [Server.step, if_pos htimeout, hfuel, Option.bind_eq_bind, Option.bind_some]
    · refine ⟨[], s, Returns.of_eq fun fuel => ?_, Stepped.none h hc⟩
      rw [Server.step, if_neg htimeout]

theorem ServerRun.matched {log : List (Call P)} (h : ServerRun s log clock) :
    (∃ l, Matched s (world log) clock l) ∧ ClosesOpen (world ([] : List (Call P))) log := by
  induction h with
  | start users clock => exact ⟨⟨[], matched_start users clock⟩, trivial⟩
  | @step _ _ log _ _ _ _ _ hc hev hrun ih =>
    obtain ⟨⟨l, hl⟩, hlog⟩ := ih
    obtain ⟨calls', s'', hrun', hs'⟩ := hl.step hc hev
    obtain ⟨rfl, rfl⟩ := Prod.ext_iff.mp (hrun'.unique hrun)
    rw [world_append]
    exact ⟨hs'.matched, closesOpen_append.mpr ⟨hlog, hs'.closes⟩⟩

/-- In every reachable state the timers match the open connections, nothing is closed twice, only timers of
the list are adjusted or deleted, and a tick closes the connections that have been idle for long enough. -/
theorem run_reaper {log : List (Call P)} (h : ServerRun s log clock) : ∃ l, Matched s (world log) clock l ∧
    (∀ fd a b c, log = a ++ .close fd :: (b ++ .close fd :: c) → ∃ time, .accept fd time ∈ b) ∧
    (∀ cur ev, clock ≤ cur → Permitted s (world log) ev → ∃ calls s',
      Returns (fun fuel => s.step fuel cur ev) (calls, s') ∧
        ∀ p, .adjustTimer p ∈ calls ∨ .delTimer p ∈ calls → p ∈ timers l) ∧
    ∀ cur, clock ≤ cur → ∃ calls s', Returns (fun fuel => s.timerHandler fuel cur) (calls, s') ∧
      ∀ fd, .close fd ∈ calls ↔ fd ∈ (world log).openFds ∧ (world log).last fd ≤ cur - 3 * timeslot := by
  obtain ⟨⟨l, hl⟩, hlog⟩ := h.matched
  refine ⟨l, hl, ?_, ?_, ?_⟩
  · rintro fd a b c rfl
    exact hlog.accept_between
  · intro cur ev hc hev
    obtain ⟨calls, s', hrun, hs'⟩ := hl.step hc hev
    exact ⟨calls, s', hrun, fun p hp => hp.elim (hs'.adjusted p) (hs'.deleted p)⟩
  · intro cur hc
    obtain ⟨calls, s', hrun, -, hclose⟩ := hl.timerHandler hc
    exact ⟨calls, s', hrun, hclose⟩

end Steps

/-- Two clients, of which one sends and the other closes its connection. -/
def twoClientsLog : List (Call ℕ) :=
  [.accept 7 3, .accept 8 4, .read 7 10, .adjustTimer 0, .close 8, .delTimer 1]

/-- The connection that is still open is closed by a tick from 15 seconds behind its last bytes on. -/
theorem run_reaper_two : ∃ s l, ServerRun s twoClientsLog 10 ∧ Matched s (world twoClientsLog) 10 l ∧
    ∀ cur, 10 ≤ cur → ∃ calls s', Returns (fun fuel => s.timerHandler fuel cur) (calls, s') ∧
      ∀ fd, .close fd ∈ calls ↔ fd = 7 ∧ 25 ≤ cur := by
  obtain ⟨s, hrun⟩ : ∃ s, ServerRun s twoClientsLog 10 := by
    have hfirst := (ServerRun.start (fun _ => ⟨0, none⟩) 0).step (show (0 : ℤ) ≤ 3 by decide)
      (show Permitted _ _ (.accept 7 0) from ⟨by simp [world], by decide, rfl⟩) (Returns.of_eq fun _ => rfl)
    have hboth := hfirst.step (show (3 : ℤ) ≤ 4 by decide)
      (show Permitted _ _ (.accept 8 1) from ⟨by simp [world, World.apply], by decide, rfl⟩) (Returns.of_succ fun _ => rfl)
    have hread := hboth.step (show (4 : ℤ) ≤ 10 by decide)
      (show Permitted _ _ (.recv 7 .data) by simp [Permitted, world, World.apply]) (Returns.of_succ fun _ => rfl)
    exact ⟨_, hread.step (le_refl (10 : ℤ))
      (show Permitted _ _ (.recv 8 .closed) by simp [Permitted, world, World.apply]) (Returns.of_succ fun _ => rfl)⟩
  obtain ⟨l, hl, -, -, htick⟩ := run_reaper hrun
  have hopen : ∀ fd, fd ∈ (world twoClientsLog).openFds ↔ fd = 7 := by
    intro fd
    have hset : (world twoClientsLog).openFds = insert 8 (insert 7 ∅) \ {8} := rfl
    simp [hset]
  have hlast : (world twoClientsLog).last 7 = 10 := rfl
  refine ⟨s, l, hrun, hl, fun cur hcur => ?_⟩
  obtain ⟨calls, s', hcalls, hclose⟩ := htick cur hcur
  refine ⟨calls, s', hcalls, fun fd => ?_⟩
  rw [hclose, hopen]
  refine and_congr_right fun hfd => ?_
  rw [hfd, hlast, timeslot]
  omega

end LinuxSocket.ListTimer
