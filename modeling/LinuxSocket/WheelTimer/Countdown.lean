import LinuxSocket.WheelTimer.Slots

/-! # Every timer fires once and on time

The purpose of the wheel is a countdown for every timer, of which a tick takes one and which fires when
a tick finds it at zero. The rotation of a timer and the way from the current slot to its own are that
countdown.
-/
namespace LinuxSocket.WheelTimer
open DoublyLinked

/-- What a caller does. A new timer is at an address where no timer exists; `bind` writes the callback of a
timer that `add_timer` has returned. -/
inductive Op (P : Type)
  | add (timer : P) (cbFunc userData : ℕ) (timeout : ℤ)
  | bind (timer : P) (cbFunc userData : ℕ)
  | del (timer : P)
  | tick

/-- What has happened: a timer was added that is to wait for `ticks` ticks, or a tick called callbacks. -/
inductive Event (P : Type)
  | added (timer : P) (ticks : ℤ)
  | bound (timer : P)
  | deleted (timer : P)
  | ticked (fired : List (P × TwTimer))

variable {P : Type} [DecidableEq P]

def TimeWheel.exec (fuel : ℕ) (s : TimeWheel P) : Op P → Option (Event P × TimeWheel P)
  | .add timer cbFunc userData timeout => do
    let (_, s) ← s.addTimer timer cbFunc userData timeout
    some (.added timer (max 1 (timeout / SI)), s)
  | .bind timer cbFunc userData => do
    let heap ← s.heap.setData timer fun d => { d with cbFunc := cbFunc, userData := userData }
    some (.bound timer, { s with heap := heap })
  | .del timer => do
    let s ← s.delTimer (some timer)
    some (.deleted timer, s)
  | .tick => do
    let (fired, s) ← s.tick fuel
    some (.ticked fired, s)

section Abstract

/-- The ticks that each live timer still waits for. -/
abbrev Countdowns (P : Type) := P → Option ℤ

def Countdowns.after (m : Countdowns P) : Event P → Countdowns P
  | .added timer ticks => Function.update m timer (some ticks)
  | .bound _ => m
  | .deleted timer => Function.update m timer none
  | .ticked fired => fun p => if p ∈ fired.map Prod.fst then none else (m p).map (· - 1)

def countdowns (log : List (Event P)) : Countdowns P := log.foldl Countdowns.after fun _ => none

def Event.OnTime (m : Countdowns P) : Event P → Prop
  | .ticked fired => (fired.map Prod.fst).Nodup ∧ ∀ p, p ∈ fired.map Prod.fst ↔ m p = some 0
  | _ => True

def OnTime : Countdowns P → List (Event P) → Prop
  | _, [] => True
  | m, e :: log => e.OnTime m ∧ OnTime (m.after e) log

def ticks : List (Event P) → ℤ
  | [] => 0
  | .ticked _ :: log => ticks log + 1
  | _ :: log => ticks log

variable {m : Countdowns P} {log a b : List (Event P)} {p : P} {t : ℤ}

theorem after_ticked (m : Countdowns P) (fired : List (P × TwTimer)) (p : P) :
    m.after (.ticked fired) p = if p ∈ fired.map Prod.fst then none else (m p).map (· - 1) := rfl

theorem onTime_append : OnTime m (a ++ b) ↔ OnTime m a ∧ OnTime (a.foldl Countdowns.after m) b := by
  induction a generalizing m with
  | nil => simp [OnTime]
  | cons e a ih => rw [List.cons_append, OnTime, OnTime, ih, List.foldl_cons, and_assoc]

omit [DecidableEq P] in
theorem ticks_nonneg : 0 ≤ ticks log := by
  induction log with
  | nil => exact Int.le_refl 0
  | cons e log ih =>
    cases e with
    | ticked fired => exact Int.add_nonneg ih (by decide)
    | added => exact ih
    | bound => exact ih
    | deleted => exact ih

/-- Only `add_timer` makes a timer live. -/
theorem countdown_none (hm : m p = none) (hadd : ∀ t, .added p t ∉ log) : log.foldl Countdowns.after m p = none := by
  induction log generalizing m with
  | nil => exact hm
  | cons e log ih =>
    refine ih ?_ fun t ht => hadd t (List.mem_cons_of_mem _ ht)
    cases e with
    | added q t =>
      have hne : p ≠ q := by
        rintro rfl
        exact hadd t (by simp)
      rw [Countdowns.after, Function.update_of_ne hne]
      exact hm
    | bound => exact hm
    | deleted q =>
      by_cases hq : p = q
      · subst hq
        exact Function.update_self _ _ _
      · rw [Countdowns.after, Function.update_of_ne hq]
        exact hm
    | ticked fired => simp [Countdowns.after, hm]

/-- The countdown of a timer that is not deleted. -/
theorem countdown_eq (hlog : OnTime m log) (hm : m p = some t) (ht : 0 ≤ t) (hdel : .deleted p ∉ log)
    (hadd : ∀ t, .added p t ∉ log) :
    log.foldl Countdowns.after m p = if ticks log ≤ t then some (t - ticks log) else none := by
  induction log generalizing m t with
  | nil => simp [ticks, ht, hm]
  | cons e log ih =>
    have hdel' : .deleted p ∉ log := fun h => hdel (List.mem_cons_of_mem _ h)
    have hadd' : ∀ t, .added p t ∉ log := fun t h => hadd t (List.mem_cons_of_mem _ h)
    cases e with
    | added q t' =>
      have hne : p ≠ q := by
        rintro rfl
        exact hadd t' (by simp)
      exact ih hlog.2 ((Function.update_of_ne hne _ _).trans hm) ht hdel' hadd'
    | bound q => exact ih hlog.2 hm ht hdel' hadd'
    | deleted q =>
      have hne : p ≠ q := by
        rintro rfl
        exact hdel (by simp)
      exact ih hlog.2 ((Function.update_of_ne hne _ _).trans hm) ht hdel' hadd'
    | ticked fired =>
      have hfired := hlog.1.2 p
      rw [hm, Option.some_inj] at hfired
      have hnonneg : 0 ≤ ticks log := ticks_nonneg
      rw [List.foldl_cons, ticks]
      by_cases hzero : t = 0
      · have hnone : m.after (.ticked fired) p = none := if_pos (hfired.mpr hzero)
        rw [countdown_none hnone hadd', if_neg (by omega)]
      · have hsome : m.after (.ticked fired) p = some (t - 1) := by
          rw [after_ticked, if_neg (mt hfired.mp hzero), hm]
          rfl
        rw [ih hlog.2 hsome (by omega) hdel' hadd', show t - 1 - ticks log = t - (ticks log + 1) by omega]
        exact if_congr (by omega) rfl rfl

/-- A timer that is not deleted fires in one tick, when as many ticks have gone by as it was to wait for. -/
theorem OnTime.count_fired {c : List (Event P)} {fired : List (P × TwTimer)}
    (h : OnTime m (a ++ .added p t :: (b ++ .ticked fired :: c))) (ht : 0 ≤ t) (hdel : .deleted p ∉ b)
    (hadd : ∀ t, .added p t ∉ b) : (fired.map Prod.fst).count p = if ticks b = t then 1 else 0 := by
  obtain ⟨-, -, hrest⟩ := onTime_append.mp h
  obtain ⟨hb, ⟨hnodup, hfired⟩, -⟩ := onTime_append.mp hrest
  have hcount := countdown_eq hb (Function.update_self ..) ht hdel hadd
  have hmem : p ∈ fired.map Prod.fst ↔ ticks b = t := by
    rw [hfired, hcount]
    constructor
    · intro h
      split at h
      · have := Option.some.inj h
        omega
      · cases h
    · rintro rfl
      simp
  rw [List.Nodup.count hnodup]
  exact if_congr hmem rfl rfl

end Abstract

section Refinement
variable {s s' : TimeWheel P} {m : Countdowns P} {xs : ℤ → List P} {d : TwTimer} {cur t : ℤ} {log : List (Event P)}

/-- The ticks before the one that fires a timer, seen from the slot `cur`. -/
def remaining (cur : ℤ) (d : TwTimer) : ℤ := (d.timeSlot - cur) % TimeWheel.N + TimeWheel.N * d.rotation

structure Counted (s : TimeWheel P) (m : Countdowns P) : Prop where
  rep : ∃ xs, Rep s xs
  countdown : ∀ p, m p = (s.heap.dataAt p).map (remaining s.curSlot)

theorem remaining_newTimer {timeout : ℤ} (ht : 0 ≤ timeout) (cbFunc userData : ℕ) :
    remaining cur (newTimer cur timeout cbFunc userData) = max 1 (timeout / TimeWheel.SI) := by
  have hticks : TimeWheel.ticksOf timeout = max 1 (timeout / TimeWheel.SI) := by
    rw [TimeWheel.ticksOf, TimeWheel.SI]
    split <;> omega
  rw [remaining, newTimer, hticks]
  simp only [TimeWheel.N]
  omega

theorem remaining_eq_zero (hcur : 0 ≤ cur ∧ cur < TimeWheel.N) (hslot : 0 ≤ d.timeSlot ∧ d.timeSlot < TimeWheel.N) :
    remaining cur d = 0 ↔ d.timeSlot = cur ∧ d.rotation = 0 := by
  simp only [remaining, TimeWheel.N] at *
  omega

/-- A tick takes one from the countdown of a timer that it does not fire. -/
theorem remaining_tick (hcur : 0 ≤ cur ∧ cur < TimeWheel.N) (hslot : 0 ≤ d.timeSlot ∧ d.timeSlot < TimeWheel.N)
    (hrot : 0 ≤ d.rotation) (hne : remaining cur d ≠ 0) :
    (if d.timeSlot = cur then visit d else some d).map (remaining ((cur + 1) % TimeWheel.N)) =
      some (remaining cur d - 1) := by
  rw [ne_eq, remaining_eq_zero hcur hslot] at hne
  by_cases htime : d.timeSlot = cur
  · have hpos : 0 < d.rotation := by
      rw [and_iff_right htime] at hne
      omega
    rw [if_pos htime, visit, if_pos hpos, Option.map_some, Option.some_inj]
    simp only [remaining, TimeWheel.N, htime] at *
    omega
  · rw [if_neg htime, Option.map_some, Option.some_inj]
    simp only [remaining, TimeWheel.N] at *
    omega

theorem Counted.tick (h : Counted s m) : ∃ fired s', Returns (fun fuel => s.tick fuel) (fired, s') ∧
    Event.OnTime m (.ticked fired) ∧ Counted s' (m.after (.ticked fired)) := by
  obtain ⟨xs, hrep⟩ := h.rep
  obtain ⟨fired, s', hrun, hrep', hcur, hnodup, hfired, hdata⟩ := hrep.tick
  have hzero : ∀ p, p ∈ fired.map Prod.fst ↔ m p = some 0 := by
    intro p
    rw [hfired, h.countdown]
    constructor
    · rintro ⟨d, hd, htime, hrot⟩
      rw [hd, Option.map_some, remaining, htime, hrot]
      simp
    · intro hm
      obtain ⟨d, hd, hzero⟩ := Option.map_eq_some_iff.mp hm
      obtain ⟨i, hi⟩ := hrep.listed p d hd
      obtain ⟨d', hd', rfl, hrot⟩ := hrep.data i p hi
      obtain rfl := Option.some.inj (hd.symm.trans hd')
      exact ⟨d, hd, (remaining_eq_zero hrep.cur (hrep.range _ p hi)).mp hzero⟩
  refine ⟨fired, s', hrun, ⟨hnodup, hzero⟩, hrep', ?_⟩
  intro p
  rw [hdata, hcur, after_ticked]
  have hm := h.countdown p
  cases hd : s.heap.dataAt p with
  | none =>
    rw [hd] at hm
    simp [hm]
  | some d =>
    rw [hd, Option.map_some] at hm
    obtain ⟨i, hi⟩ := hrep.listed p d hd
    obtain ⟨d', hd', rfl, hrot⟩ := hrep.data i p hi
    obtain rfl := Option.some.inj (hd.symm.trans hd')
    have hslot := hrep.range _ p hi
    have hfire : p ∈ fired.map Prod.fst ↔ remaining s.curSlot d = 0 := by rw [hzero, hm, Option.some_inj]
    rw [Option.bind_some]
    by_cases hne : remaining s.curSlot d = 0
    · obtain ⟨htime, hrot⟩ := (remaining_eq_zero hrep.cur hslot).mp hne
      rw [if_pos (hfire.mpr hne), if_pos htime, visit, if_neg (by omega)]
      rfl
    · rw [if_neg (mt hfire.mp hne), hm, remaining_tick hrep.cur hslot hrot hne]
      rfl

theorem Counted.add (h : Counted s m) {timer : P} (hnew : s.heap timer = none) (cbFunc userData : ℕ) {timeout : ℤ}
    (ht : 0 ≤ timeout) : ∃ e s', Returns (fun fuel => s.exec fuel (.add timer cbFunc userData timeout)) (e, s') ∧
      e.OnTime m ∧ Counted s' (m.after e) := by
  obtain ⟨xs, hrep⟩ := h.rep
  obtain ⟨s', hrun, hrep', hcur, hdata⟩ := hrep.addTimer hnew ht cbFunc userData
  refine ⟨.added timer (max 1 (timeout / TimeWheel.SI)), s', Returns.of_eq fun fuel => ?_, trivial, hrep', ?_⟩
  · rw [TimeWheel.exec, hrun]
    rfl
  · intro p
    rw [hdata, hcur, Countdowns.after]
    by_cases hp : p = timer
    · subst hp
      rw [Function.update_self, Function.update_self, Option.map_some, remaining_newTimer ht]
    · rw [Function.update_of_ne hp, Function.update_of_ne hp]
      exact h.countdown p

theorem Counted.bind (h : Counted s m) {timer : P} (hlive : m timer ≠ none) (cbFunc userData : ℕ) :
    ∃ e s', Returns (fun fuel => s.exec fuel (.bind timer cbFunc userData)) (e, s') ∧
      e.OnTime m ∧ Counted s' (m.after e) := by
  obtain ⟨xs, hrep⟩ := h.rep
  rw [h.countdown, ne_eq, Option.map_eq_none_iff, ← ne_eq, Option.ne_none_iff_exists'] at hlive
  obtain ⟨d, hd⟩ := hlive
  obtain ⟨i, hi⟩ := hrep.listed timer d hd
  obtain ⟨d', hd', -, hrot⟩ := hrep.data i timer hi
  obtain rfl := Option.some.inj (hd.symm.trans hd')
  obtain ⟨heap, hset, hrep', hdata, -⟩ :=
    hrep.setData hd (f := fun d => { d with cbFunc := cbFunc, userData := userData }) rfl hrot
  refine ⟨.bound timer, { s with heap := heap }, Returns.of_eq fun fuel => ?_, trivial, ⟨xs, hrep'⟩, ?_⟩
  · rw [TimeWheel.exec, hset]
    rfl
  · intro p
    rw [Countdowns.after, h.countdown]
    by_cases hp : p = timer
    · subst hp
      rw [hd, hdata, Function.update_self]
      rfl
    · rw [hdata, Function.update_of_ne hp]

theorem Counted.del (h : Counted s m) {timer : P} (hlive : m timer ≠ none) :
    ∃ e s', Returns (fun fuel => s.exec fuel (.del timer)) (e, s') ∧ e.OnTime m ∧ Counted s' (m.after e) := by
  obtain ⟨xs, hrep⟩ := h.rep
  rw [h.countdown, ne_eq, Option.map_eq_none_iff, ← ne_eq, Option.ne_none_iff_exists'] at hlive
  obtain ⟨d, hd⟩ := hlive
  obtain ⟨s', hrun, hrep', hcur, hgone, hdata⟩ := hrep.delTimer hd
  refine ⟨.deleted timer, s', Returns.of_eq fun fuel => ?_, trivial, hrep', ?_⟩
  · rw [TimeWheel.exec, hrun]
    rfl
  · intro p
    rw [hcur, Countdowns.after]
    by_cases hp : p = timer
    · subst hp
      rw [Function.update_self, Heap.dataAt, hgone]
      rfl
    · rw [Function.update_of_ne hp, hdata p hp]
      exact h.countdown p

end Refinement

section Runs
variable {s : TimeWheel P} {log : List (Event P)}

/-- What a caller keeps to: a new timer is at an address of no timer, its timeout is not negative, and only
live timers are bound and deleted. -/
def Legal (s : TimeWheel P) (m : Countdowns P) : Op P → Prop
  | .add timer _ _ timeout => s.heap timer = none ∧ 0 ≤ timeout
  | .bind timer _ _ => m timer ≠ none
  | .del timer => m timer ≠ none
  | .tick => True

inductive Run : TimeWheel P → List (Event P) → Prop
  | init : Run TimeWheel.init []
  | exec {s s' log op e} : Run s log → Legal s (countdowns log) op → Returns (fun fuel => s.exec fuel op) (e, s') →
      Run s' (log ++ [e])

theorem Counted.exec {m : Countdowns P} {op : Op P} (h : Counted s m) (hop : Legal s m op) :
    ∃ e s', Returns (fun fuel => s.exec fuel op) (e, s') ∧ e.OnTime m ∧ Counted s' (m.after e) := by
  cases op with
  | add timer cbFunc userData timeout => exact h.add hop.1 cbFunc userData hop.2
  | bind timer cbFunc userData => exact h.bind hop cbFunc userData
  | del timer => exact h.del hop
  | tick =>
    obtain ⟨fired, s', hrun, hfired, hs'⟩ := h.tick
    refine ⟨.ticked fired, s', hrun.imp fun fuel hfuel => ?_, hfired, hs'⟩
    rw [TimeWheel.exec, hfuel]
    rfl

omit [DecidableEq P] in
theorem counted_init : Counted (TimeWheel.init : TimeWheel P) fun _ => none := by
  have hN : 0 < TimeWheel.N := by decide
  refine ⟨⟨fun _ => [], ⟨Int.le_refl 0, hN⟩, fun _ => rfl, fun _ => trivial, fun _ => List.nodup_nil, ?_, ?_, ?_⟩,
    fun _ => rfl⟩
  · exact fun _ _ hp => absurd hp List.not_mem_nil
  · exact fun _ _ hp => absurd hp List.not_mem_nil
  · intro p d hd
    cases hd

theorem Run.counted (h : Run s log) : Counted s (countdowns log) ∧ OnTime (fun _ => none) log := by
  induction h with
  | init => exact ⟨counted_init, trivial⟩
  | exec _ hop hrun ih =>
    obtain ⟨e', s'', hrun', htime, hs'⟩ := ih.1.exec hop
    obtain ⟨rfl, rfl⟩ := Prod.ext_iff.mp (hrun'.unique hrun)
    refine ⟨?_, onTime_append.mpr ⟨ih.2, htime, trivial⟩⟩
    rw [countdowns, List.foldl_append]
    exact hs'

/-- In every reachable state the lists of the slots hold every live timer once, every operation returns, and a
timer that is not deleted fires in the tick behind the ones that it was to wait for and in no other. -/
theorem run_fires_on_time (h : Run s log) :
    (∃ xs, Rep s xs ∧ (∀ p i, p ∈ xs i → countdowns log p ≠ none) ∧ ∀ p, countdowns log p ≠ none → ∃! i, p ∈ xs i) ∧
    (∀ op, Legal s (countdowns log) op → ∃ e s', Returns (fun fuel => s.exec fuel op) (e, s')) ∧
    ∀ a b c p timeout fired, log = a ++ .added p (max 1 (timeout / TimeWheel.SI)) :: (b ++ .ticked fired :: c) →
      .deleted p ∉ b → (∀ t, .added p t ∉ b) →
        (fired.map Prod.fst).count p = if ticks b = max 1 (timeout / TimeWheel.SI) then 1 else 0 := by
  obtain ⟨hcounted, htime⟩ := h.counted
  obtain ⟨xs, hrep⟩ := hcounted.rep
  refine ⟨⟨xs, hrep, ?_, ?_⟩, ?_, ?_⟩
  · intro p i hp
    obtain ⟨d, hd, -⟩ := hrep.data i p hp
    rw [hcounted.countdown, hd]
    exact Option.some_ne_none _
  · intro p hp
    rw [hcounted.countdown, ne_eq, Option.map_eq_none_iff, ← ne_eq, Option.ne_none_iff_exists'] at hp
    obtain ⟨d, hd⟩ := hp
    exact ⟨d.timeSlot, (hrep.mem_iff hd).mpr rfl, fun j hj => ((hrep.mem_iff hd).mp hj).symm⟩
  · intro op hop
    obtain ⟨e, s', hrun, -⟩ := hcounted.exec hop
    exact ⟨e, s', hrun⟩
  · rintro a b c p timeout fired rfl hdel hadd
    exact htime.count_fired (by omega) hdel hadd

end Runs

/-- A timer to wait for two ticks and one to wait for one tick, with the ticks up to both callbacks: the second tick
fires the one added last, the third tick the other. -/
theorem run_fires_on_time_two : ∃ s : TimeWheel ℕ, ∃ fired₁ fired₂ fired₃,
    Run s [.added 3 2, .added 4 1, .ticked fired₁, .ticked fired₂, .ticked fired₃] ∧
    (fired₁.map Prod.fst).count 3 = 0 ∧ (fired₁.map Prod.fst).count 4 = 0 ∧
    (fired₂.map Prod.fst).count 3 = 0 ∧ (fired₂.map Prod.fst).count 4 = 1 ∧ (fired₃.map Prod.fst).count 3 = 1 := by
  have hadd : ∃ s : TimeWheel ℕ, Run s [.added 3 2, .added 4 1] :=
    ⟨_, .exec (.exec .init (show Legal _ _ (.add 3 0 0 2) from ⟨rfl, by decide⟩) (Returns.of_eq fun _ => rfl))
      (show Legal _ _ (.add 4 0 0 1) from ⟨rfl, by decide⟩) (Returns.of_eq fun _ => rfl)⟩
  have htick : ∀ {s log}, Run s log → ∃ fired, ∃ s' : TimeWheel ℕ, Run s' (log ++ [.ticked fired]) := by
    intro s log h
    obtain ⟨e, s', N, hrun⟩ := (run_fires_on_time h).2.1 .tick trivial
    obtain ⟨⟨fired, s₁⟩, -, he⟩ := Option.bind_eq_some_iff.mp (hrun N (Nat.le_refl N))
    obtain ⟨rfl, rfl⟩ := Prod.mk.inj (Option.some.inj he)
    exact ⟨fired, s₁, h.exec (show Legal s _ .tick from trivial) ⟨N, hrun⟩⟩
  obtain ⟨s, h⟩ := hadd
  obtain ⟨fired₁, s₁, h₁⟩ := htick h
  obtain ⟨fired₂, s₂, h₂⟩ := htick h₁
  obtain ⟨fired₃, s₃, h₃⟩ := htick h₂
  have hfires := (run_fires_on_time h₃).2.2
  refine ⟨s₃, fired₁, fired₂, fired₃, h₃, ?_, ?_, ?_, ?_, ?_⟩
  · exact hfires [] [.added 4 1] [.ticked fired₂, .ticked fired₃] 3 2 fired₁ rfl (by simp) (by simp)
  · exact hfires [.added 3 2] [] [.ticked fired₂, .ticked fired₃] 4 1 fired₁ rfl (by simp) (by simp)
  · exact hfires [] [.added 4 1, .ticked fired₁] [.ticked fired₃] 3 2 fired₂ rfl (by simp) (by simp)
  · exact hfires [.added 3 2] [.ticked fired₁] [.ticked fired₃] 4 1 fired₂ rfl (by simp) (by simp)
  · exact hfires [] [.added 4 1, .ticked fired₁, .ticked fired₂] [] 3 2 fired₃ rfl (by simp) (by simp)

end LinuxSocket.WheelTimer
