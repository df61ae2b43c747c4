import Mathlib.Data.List.Sort
import Mathlib.Data.Multiset.Filter
import Mathlib.Data.Multiset.MapFold

/-! # Containers of timed jobs

What a container of timers is for: a tick calls the jobs that are due, in the order of their times, and keeps the
others. Two containers that both do this call the same jobs when a program drives them side by side, whatever
handles they give to its tasks. A container that counts ticks and calls every job one tick late trails behind.
-/
namespace LinuxSocket.Agenda

/-- A job and the time at which it is due. -/
structure Task (K J : Type*) where
  due : K
  job : J

/-- A container with the handles `A`, as a program sees it. An operation relates the states before and behind it. -/
structure Container (S A K J : Type*) where
  start : S → K → Prop
  /-- whether a task can be added, at the time of the last tick, for a time -/
  permits : K → K → Prop
  /-- the times at which the next tick can follow the last one -/
  follows : K → K → Prop
  fresh : S → A → Prop
  add : K → A → Task K J → S → S → Prop
  remove : A → S → S → Prop
  /-- the handles that a task can have when it has been postponed -/
  renames : S → A → A → Prop
  postpone : K → A → A → Task K J → S → S → Prop
  tick : K → S → List J → S → Prop

/-- An operation succeeds, and every state that it can lead to is as `q` says. -/
def Leads {S : Type*} (r q : S → Prop) : Prop := (∃ s, r s) ∧ ∀ s, r s → q s

variable {S A K J : Type*} [LinearOrder K]

/-- The jobs called are those of the given tasks, in the order of their times. -/
def Called (jobs : List J) (tasks : Multiset (Task K J)) : Prop :=
  ∃ order : List (Task K J), jobs = order.map Task.job ∧ (order.Pairwise fun s t => s.due ≤ t.due) ∧ tasks = order

/-- The container holds exactly the tasks that its operations should leave. -/
structure Keeps (C : Container S A K J) (holds : S → K → Multiset (A × Task K J) → Prop) : Prop where
  start : ∀ {s now}, C.start s now → holds s now 0
  add : ∀ {s now m a t}, holds s now m → C.fresh s a → C.permits now t.due →
    Leads (C.add now a t s) fun s' => holds s' now ((a, t) ::ₘ m)
  remove : ∀ {s now m a t}, holds s now ((a, t) ::ₘ m) → Leads (C.remove a s) fun s' => holds s' now m
  postpone : ∀ {s now m a b t due}, holds s now ((a, t) ::ₘ m) → C.renames s a b → C.permits now due → t.due ≤ due →
    Leads (C.postpone now a b ⟨due, t.job⟩ s) fun s' => holds s' now ((b, ⟨due, t.job⟩) ::ₘ m)
  tick : ∀ {s now m cur}, holds s now m → C.follows now cur → (∃ jobs s', C.tick cur s jobs s') ∧
    ∀ jobs s', C.tick cur s jobs s' → Called jobs ((m.filter fun e => e.2.due ≤ cur).map Prod.snd) ∧
      holds s' cur (m.filter fun e => cur < e.2.due)

/-- The task as a container counts it that calls it one tick late: behind the next tick at the earliest, and behind
the one at its time. -/
def Task.late (now : ℤ) (t : Task ℤ J) : Task ℤ J := ⟨max (now + 1) t.due + 1, t.job⟩

/-- The container holds exactly the tasks that its operations should leave, but calls them one tick late. -/
structure KeepsLate (C : Container S A ℤ J) (holds : S → ℤ → Multiset (A × Task ℤ J) → Prop) : Prop where
  follows : ∀ {now cur}, C.follows now cur → cur = now + 1
  start : ∀ {s now}, C.start s now → holds s now 0
  add : ∀ {s now m a t}, holds s now m → C.fresh s a → C.permits now t.due →
    Leads (C.add now a t s) fun s' => holds s' now ((a, t.late now) ::ₘ m)
  remove : ∀ {s now m a t}, holds s now ((a, t) ::ₘ m) → Leads (C.remove a s) fun s' => holds s' now m
  postpone : ∀ {s now m a b t due}, holds s now ((a, t) ::ₘ m) → C.renames s a b → C.permits now due →
    Leads (C.postpone now a b ⟨due, t.job⟩ s) fun s' => holds s' now ((b, Task.late now ⟨due, t.job⟩) ::ₘ m)
  tick : ∀ {s now m cur}, holds s now m → C.follows now cur → (∃ jobs s', C.tick cur s jobs s') ∧
    ∀ jobs s', C.tick cur s jobs s' → Called jobs ((m.filter fun e => e.2.due ≤ cur).map Prod.snd) ∧
      holds s' cur (m.filter fun e => cur < e.2.due)

section Called
variable {jobs jobs' : List J} {tasks : Multiset (Task K J)}

theorem Called.perm (h : Called jobs tasks) (h' : Called jobs' tasks) : jobs.Perm jobs' := by
  obtain ⟨order, rfl, -, rfl⟩ := h
  obtain ⟨order', rfl, -, heq⟩ := h'
  exact (Multiset.coe_eq_coe.mp heq).map Task.job

/-- The order is the same when no two of the tasks are due at the same time. -/
theorem Called.eq (h : Called jobs tasks) (h' : Called jobs' tasks) (hn : (tasks.map Task.due).Nodup) :
    jobs = jobs' := by
  obtain ⟨order, rfl, hsorted, rfl⟩ := h
  obtain ⟨order', rfl, hsorted', heq⟩ := h'
  rw [Multiset.map_coe, Multiset.coe_nodup] at hn
  have hperm : order.Perm order' := Multiset.coe_eq_coe.mp heq
  refine congrArg _ (hperm.eq_of_pairwise ?_ hsorted hsorted')
  intro s t hs ht hst hts
  exact List.inj_on_of_nodup_map hn hs (hperm.mem_iff.mpr ht) (le_antisymm hst hts)

end Called

section Lockstep
variable {S₁ S₂ A₁ A₂ : Type*}

/-- A task with its handles in two containers. -/
abbrev Twin (A₁ A₂ K J : Type*) := A₁ × A₂ × Task K J

def Twin.fst (e : Twin A₁ A₂ K J) : A₁ × Task K J := (e.1, e.2.2)

def Twin.snd (e : Twin A₁ A₂ K J) : A₂ × Task K J := (e.2.1, e.2.2)

variable (C₁ : Container S₁ A₁ K J) (C₂ : Container S₂ A₂ K J)

/-- The states that two containers reach when a program makes every call to both, with the time of the last tick,
the tasks that the first container has not called yet, and the jobs that it called at the last tick. -/
inductive Lockstep : S₁ → S₂ → K → Multiset (Twin A₁ A₂ K J) → List J → Prop
  | start {s₁ s₂ now} : C₁.start s₁ now → C₂.start s₂ now → Lockstep s₁ s₂ now 0 []
  | add {s₁ s₂ s₁' s₂' now live last a b t} : Lockstep s₁ s₂ now live last → C₁.fresh s₁ a → C₂.fresh s₂ b →
      C₁.permits now t.due → C₂.permits now t.due → C₁.add now a t s₁ s₁' → C₂.add now b t s₂ s₂' →
      Lockstep s₁' s₂' now ((a, b, t) ::ₘ live) last
  | remove {s₁ s₂ s₁' s₂' now live last a b t} : Lockstep s₁ s₂ now ((a, b, t) ::ₘ live) last →
      C₁.remove a s₁ s₁' → C₂.remove b s₂ s₂' → Lockstep s₁' s₂' now live last
  | postpone {s₁ s₂ s₁' s₂' now live last a b t a' b' due} : Lockstep s₁ s₂ now ((a, b, t) ::ₘ live) last →
      C₁.renames s₁ a a' → C₂.renames s₂ b b' → C₁.permits now due → C₂.permits now due → t.due ≤ due →
      C₁.postpone now a a' ⟨due, t.job⟩ s₁ s₁' → C₂.postpone now b b' ⟨due, t.job⟩ s₂ s₂' →
      Lockstep s₁' s₂' now ((a', b', ⟨due, t.job⟩) ::ₘ live) last
  | tick {s₁ s₂ s₁' s₂' now live last cur jobs₁ jobs₂} : Lockstep s₁ s₂ now live last → C₁.follows now cur →
      C₂.follows now cur → C₁.tick cur s₁ jobs₁ s₁' → C₂.tick cur s₂ jobs₂ s₂' →
      Lockstep s₁' s₂' cur (live.filter fun e => cur < e.2.2.due) jobs₁

/-- No call that a program can make fails. -/
structure Able {S A : Type*} (C : Container S A K J) (s : S) (now : K) (live : Multiset (A × Task K J)) : Prop where
  add : ∀ a t, C.fresh s a → C.permits now t.due → ∃ s', C.add now a t s s'
  remove : ∀ a t, (a, t) ∈ live → ∃ s', C.remove a s s'
  postpone : ∀ a t b due, (a, t) ∈ live → C.renames s a b → C.permits now due → t.due ≤ due →
    ∃ s', C.postpone now a b ⟨due, t.job⟩ s s'
  tick : ∀ cur, C.follows now cur → ∃ jobs s', C.tick cur s jobs s'

/-- No call fails on either container, and a tick calls the same jobs on both: those that are due, in the order of
their times. -/
structure Agree (s₁ : S₁) (s₂ : S₂) (now : K) (live : Multiset (Twin A₁ A₂ K J)) : Prop where
  fst : Able C₁ s₁ now (live.map Twin.fst)
  snd : Able C₂ s₂ now (live.map Twin.snd)
  called : ∀ cur jobs₁ jobs₂ s₁' s₂', C₁.follows now cur → C₂.follows now cur → C₁.tick cur s₁ jobs₁ s₁' →
    C₂.tick cur s₂ jobs₂ s₂' → Called jobs₁ ((live.filter fun e => e.2.2.due ≤ cur).map fun e => e.2.2) ∧
      jobs₁.Perm jobs₂ ∧
      (((live.filter fun e => e.2.2.due ≤ cur).map fun e => e.2.2.due).Nodup → jobs₁ = jobs₂)

/-- No call fails on either container. A tick calls the jobs that are due on the first one, and on the second one
those that the first one called at the tick before. -/
structure Trails (s₁ : S₁) (s₂ : S₂) (now : K) (live : Multiset (Twin A₁ A₂ K J)) (last : List J) : Prop where
  fst : Able C₁ s₁ now (live.map Twin.fst)
  snd : Able C₂ s₂ now (live.map Twin.snd)
  called : ∀ cur jobs s₁', C₁.follows now cur → C₁.tick cur s₁ jobs s₁' →
    Called jobs ((live.filter fun e => e.2.2.due ≤ cur).map fun e => e.2.2)
  trailing : ∀ cur jobs s₂', C₂.follows now cur → C₂.tick cur s₂ jobs s₂' → jobs.Perm last

variable {C₁ C₂} {holds₁ : S₁ → K → Multiset (A₁ × Task K J) → Prop} {holds₂ : S₂ → K → Multiset (A₂ × Task K J) → Prop}
variable {s₁ : S₁} {s₂ : S₂} {now cur : K} {live : Multiset (Twin A₁ A₂ K J)} {last : List J}

omit [LinearOrder K] in
theorem map_fst_filter (p : Task K J → Prop) [DecidablePred p] (live : Multiset (Twin A₁ A₂ K J)) :
    (live.map Twin.fst).filter (fun e => p e.2) = (live.filter fun e => p e.2.2).map Twin.fst :=
  Multiset.filter_map _ _ _

omit [LinearOrder K] in
theorem map_snd_filter (p : Task K J → Prop) [DecidablePred p] (live : Multiset (Twin A₁ A₂ K J)) :
    (live.map Twin.snd).filter (fun e => p e.2) = (live.filter fun e => p e.2.2).map Twin.snd :=
  Multiset.filter_map _ _ _

theorem Keeps.able (h : Keeps C₁ holds₁) {s : S₁} {m : Multiset (A₁ × Task K J)} (hs : holds₁ s now m) :
    Able C₁ s now m := by
  refine ⟨fun a t hf hp => (h.add hs hf hp).1, ?_, ?_, fun cur hf => (h.tick hs hf).1⟩
  · intro a t he
    obtain ⟨rest, rfl⟩ := Multiset.exists_cons_of_mem he
    exact (h.remove hs).1
  · intro a t b due he hr hp hle
    obtain ⟨rest, rfl⟩ := Multiset.exists_cons_of_mem he
    exact (h.postpone hs hr hp hle).1

/-- Driven side by side with another one, a container holds the live tasks under its own handles. -/
theorem Lockstep.holds_fst (h₁ : Keeps C₁ holds₁) (h : Lockstep C₁ C₂ s₁ s₂ now live last) :
    holds₁ s₁ now (live.map Twin.fst) := by
  induction h with
  | start hs₁ _ => exact h₁.start hs₁
  | add _ hf₁ _ hp₁ _ he₁ _ ih =>
    rw [Multiset.map_cons]
    exact (h₁.add ih hf₁ hp₁).2 _ he₁
  | remove _ he₁ _ ih =>
    rw [Multiset.map_cons] at ih
    exact (h₁.remove ih).2 _ he₁
  | postpone _ hr₁ _ hp₁ _ hle he₁ _ ih =>
    rw [Multiset.map_cons] at ih ⊢
    exact (h₁.postpone ih hr₁ hp₁ hle).2 _ he₁
  | @tick _ _ _ _ _ _ _ cur _ _ _ hf₁ _ he₁ _ ih =>
    rw [← map_fst_filter fun t => cur < t.due]
    exact ((h₁.tick ih hf₁).2 _ _ he₁).2

theorem Lockstep.holds_snd (h₂ : Keeps C₂ holds₂) (h : Lockstep C₁ C₂ s₁ s₂ now live last) :
    holds₂ s₂ now (live.map Twin.snd) := by
  induction h with
  | start _ hs₂ => exact h₂.start hs₂
  | add _ _ hf₂ _ hp₂ _ he₂ ih =>
    rw [Multiset.map_cons]
    exact (h₂.add ih hf₂ hp₂).2 _ he₂
  | remove _ _ he₂ ih =>
    rw [Multiset.map_cons] at ih
    exact (h₂.remove ih).2 _ he₂
  | postpone _ _ hr₂ _ hp₂ hle _ he₂ ih =>
    rw [Multiset.map_cons] at ih ⊢
    exact (h₂.postpone ih hr₂ hp₂ hle).2 _ he₂
  | @tick _ _ _ _ _ _ _ cur _ _ _ _ hf₂ _ he₂ ih =>
    rw [← map_snd_filter fun t => cur < t.due]
    exact ((h₂.tick ih hf₂).2 _ _ he₂).2

theorem Lockstep.called_fst (h₁ : Keeps C₁ holds₁) (h : Lockstep C₁ C₂ s₁ s₂ now live last) {jobs : List J} {s : S₁}
    (hf : C₁.follows now cur) (he : C₁.tick cur s₁ jobs s) :
    Called jobs ((live.filter fun e => e.2.2.due ≤ cur).map fun e => e.2.2) := by
  have hc := ((h₁.tick (h.holds_fst h₁) hf).2 _ _ he).1
  rwa [map_fst_filter fun t => t.due ≤ cur, Multiset.map_map] at hc

theorem Lockstep.called_snd (h₂ : Keeps C₂ holds₂) (h : Lockstep C₁ C₂ s₁ s₂ now live last) {jobs : List J} {s : S₂}
    (hf : C₂.follows now cur) (he : C₂.tick cur s₂ jobs s) :
    Called jobs ((live.filter fun e => e.2.2.due ≤ cur).map fun e => e.2.2) := by
  have hc := ((h₂.tick (h.holds_snd h₂) hf).2 _ _ he).1
  rwa [map_snd_filter fun t => t.due ≤ cur, Multiset.map_map] at hc

theorem Lockstep.agree (h₁ : Keeps C₁ holds₁) (h₂ : Keeps C₂ holds₂) (h : Lockstep C₁ C₂ s₁ s₂ now live last) :
    Agree C₁ C₂ s₁ s₂ now live := by
  refine ⟨h₁.able (h.holds_fst h₁), h₂.able (h.holds_snd h₂), ?_⟩
  intro cur jobs₁ jobs₂ s₁' s₂' hf₁ hf₂ he₁ he₂
  have hc₁ := h.called_fst h₁ hf₁ he₁
  have hc₂ := h.called_snd h₂ hf₂ he₂
  refine ⟨hc₁, hc₁.perm hc₂, fun hn => hc₁.eq hc₂ ?_⟩
  rwa [Multiset.map_map]

end Lockstep

section Trailing
variable {S₁ S₂ A₁ A₂ : Type*} {C₁ : Container S₁ A₁ ℤ J} {C₂ : Container S₂ A₂ ℤ J}
variable {holds₁ : S₁ → ℤ → Multiset (A₁ × Task ℤ J) → Prop} {holds₂ : S₂ → ℤ → Multiset (A₂ × Task ℤ J) → Prop}
variable {s₁ : S₁} {s₂ : S₂} {now : ℤ} {live : Multiset (Twin A₁ A₂ ℤ J)} {last : List J}

/-- The task as the second container counts it. -/
def Twin.late (now : ℤ) (e : Twin A₁ A₂ ℤ J) : A₂ × Task ℤ J := (e.2.1, e.2.2.late now)

/-- A job that the first container has called, due at the next tick on the second one. -/
def pending (now : ℤ) (e : A₂ × J) : A₂ × Task ℤ J := (e.1, ⟨now + 1, e.2⟩)

/-- What the second container holds: the live tasks, and the jobs that the first one called at the last tick. -/
def HoldsLate (holds₂ : S₂ → ℤ → Multiset (A₂ × Task ℤ J) → Prop) (s : S₂) (now : ℤ)
    (live : Multiset (Twin A₁ A₂ ℤ J)) (last : List J) : Prop :=
  ∃ rest : Multiset (A₂ × J), rest.map Prod.snd = last ∧
    holds₂ s now (live.map (Twin.late now) + rest.map (pending now))

/-- The next tick takes none of the live tasks and all of the jobs that are pending. -/
theorem filter_late_le (now : ℤ) (live : Multiset (Twin A₁ A₂ ℤ J)) (rest : Multiset (A₂ × J)) :
    (live.map (Twin.late now) + rest.map (pending now)).filter (fun e => e.2.due ≤ now + 1) = rest.map (pending now) := by
  have hlive : ∀ e ∈ live.map (Twin.late now), ¬e.2.due ≤ now + 1 := by
    intro e he
    obtain ⟨x, -, rfl⟩ := Multiset.mem_map.mp he
    simp only [Twin.late, Task.late]
    omega
  have hrest : ∀ e ∈ rest.map (pending now), e.2.due ≤ now + 1 := by
    intro e he
    obtain ⟨x, -, rfl⟩ := Multiset.mem_map.mp he
    exact le_refl _
  rw [Multiset.filter_add, Multiset.filter_eq_nil.mpr hlive, Multiset.filter_eq_self.mpr hrest, Multiset.zero_add]

theorem filter_late_lt (now : ℤ) (live : Multiset (Twin A₁ A₂ ℤ J)) (rest : Multiset (A₂ × J)) :
    (live.map (Twin.late now) + rest.map (pending now)).filter (fun e => now + 1 < e.2.due) =
      live.map (Twin.late now) := by
  have hlive : ∀ e ∈ live.map (Twin.late now), now + 1 < e.2.due := by
    intro e he
    obtain ⟨x, -, rfl⟩ := Multiset.mem_map.mp he
    simp only [Twin.late, Task.late]
    omega
  have hrest : ∀ e ∈ rest.map (pending now), ¬now + 1 < e.2.due := by
    intro e he
    obtain ⟨x, -, rfl⟩ := Multiset.mem_map.mp he
    exact lt_irrefl _
  rw [Multiset.filter_add, Multiset.filter_eq_self.mpr hlive, Multiset.filter_eq_nil.mpr hrest, Multiset.add_zero]

/-- A tick of the first container makes the tasks that are due pending and leaves the others where they were. -/
theorem map_late_split (now : ℤ) (live : Multiset (Twin A₁ A₂ ℤ J)) : live.map (Twin.late now) =
    (live.filter fun e => now + 1 < e.2.2.due).map (Twin.late (now + 1)) +
      ((live.filter fun e => e.2.2.due ≤ now + 1).map fun e => (e.2.1, e.2.2.job)).map (pending (now + 1)) := by
  have hsplit : live = (live.filter fun e => now + 1 < e.2.2.due) + live.filter fun e => e.2.2.due ≤ now + 1 := by
    simpa only [not_lt] using (Multiset.filter_add_not (fun e => now + 1 < e.2.2.due) live).symm
  conv_lhs => rw [hsplit, Multiset.map_add]
  rw [Multiset.map_map]
  refine congrArg₂ _ (Multiset.map_congr rfl fun e he => ?_) (Multiset.map_congr rfl fun e he => ?_)
  · have hlt := (Multiset.mem_filter.mp he).2
    have hdue : max (now + 1) e.2.2.due + 1 = max (now + 1 + 1) e.2.2.due + 1 := by omega
    simp only [Twin.late, Task.late, hdue]
  · have hle := (Multiset.mem_filter.mp he).2
    have hdue : max (now + 1) e.2.2.due + 1 = now + 1 + 1 := by omega
    simp only [Function.comp_apply, Twin.late, Task.late, pending, hdue]

theorem HoldsLate.called (h₂ : KeepsLate C₂ holds₂) (h : HoldsLate holds₂ s₂ now live last) {jobs : List J} {s : S₂}
    (hf : C₂.follows now (now + 1)) (he : C₂.tick (now + 1) s₂ jobs s) :
    jobs.Perm last ∧ holds₂ s (now + 1) (live.map (Twin.late now)) := by
  obtain ⟨rest, hrest, hs⟩ := h
  obtain ⟨⟨order, rfl, -, horder⟩, hs'⟩ := (h₂.tick hs hf).2 _ _ he
  rw [filter_late_le] at horder
  rw [filter_late_lt] at hs'
  refine ⟨Multiset.coe_eq_coe.mp ?_, hs'⟩
  rw [← Multiset.map_coe, ← horder, ← hrest, Multiset.map_map, Multiset.map_map]
  rfl

/-- The jobs called are those of the tasks that were due, in whatever order they were called. -/
theorem Called.coe_eq {jobs : List J} {tasks : Multiset (Task ℤ J)} (h : Called jobs tasks) :
    (jobs : Multiset J) = tasks.map Task.job := by
  obtain ⟨order, rfl, -, rfl⟩ := h
  rfl

theorem Lockstep.holdsLate (h₁ : Keeps C₁ holds₁) (h₂ : KeepsLate C₂ holds₂)
    (h : Lockstep C₁ C₂ s₁ s₂ now live last) : HoldsLate holds₂ s₂ now live last := by
  induction h with
  | start _ hs₂ => exact ⟨0, rfl, h₂.start hs₂⟩
  | add _ _ hf₂ _ hp₂ _ he₂ ih =>
    obtain ⟨rest, hrest, hs⟩ := ih
    refine ⟨rest, hrest, ?_⟩
    rw [Multiset.map_cons, Multiset.cons_add]
    exact (h₂.add hs hf₂ hp₂).2 _ he₂
  | remove _ _ he₂ ih =>
    obtain ⟨rest, hrest, hs⟩ := ih
    rw [Multiset.map_cons, Multiset.cons_add] at hs
    exact ⟨rest, hrest, (h₂.remove hs).2 _ he₂⟩
  | postpone _ _ hr₂ _ hp₂ _ _ he₂ ih =>
    obtain ⟨rest, hrest, hs⟩ := ih
    rw [Multiset.map_cons, Multiset.cons_add] at hs
    refine ⟨rest, hrest, ?_⟩
    rw [Multiset.map_cons, Multiset.cons_add]
    exact (h₂.postpone hs hr₂ hp₂).2 _ he₂
  | @tick _ _ _ _ now live _ cur _ _ h hf₁ hf₂ he₁ he₂ ih =>
    obtain rfl := h₂.follows hf₂
    refine ⟨_, ?_, map_late_split now live ▸ (ih.called h₂ hf₂ he₂).2⟩
    rw [(h.called_fst h₁ hf₁ he₁).coe_eq, Multiset.map_map, Multiset.map_map]
    rfl

theorem KeepsLate.able (h₂ : KeepsLate C₂ holds₂) (h : HoldsLate holds₂ s₂ now live last) :
    Able C₂ s₂ now (live.map Twin.snd) := by
  obtain ⟨rest, -, hs⟩ := h
  have hcons : ∀ {b t}, (b, t) ∈ live.map Twin.snd → ∃ m, holds₂ s₂ now ((b, t.late now) ::ₘ m) := by
    intro b t he
    obtain ⟨e, hin, heq⟩ := Multiset.mem_map.mp he
    obtain ⟨rfl, rfl⟩ := Prod.mk.inj heq
    obtain ⟨others, rfl⟩ := Multiset.exists_cons_of_mem hin
    rw [Multiset.map_cons, Multiset.cons_add] at hs
    exact ⟨_, hs⟩
  refine ⟨fun a t hf hp => (h₂.add hs hf hp).1, ?_, ?_, fun cur hf => (h₂.tick hs hf).1⟩
  · intro b t he
    obtain ⟨m, hm⟩ := hcons he
    exact (h₂.remove hm).1
  · intro b t b' due he hr hp _
    obtain ⟨m, hm⟩ := hcons he
    exact (h₂.postpone hm hr hp).1

theorem Lockstep.trails (h₁ : Keeps C₁ holds₁) (h₂ : KeepsLate C₂ holds₂) (h : Lockstep C₁ C₂ s₁ s₂ now live last) :
    Trails C₁ C₂ s₁ s₂ now live last := by
  have hlate := h.holdsLate h₁ h₂
  refine ⟨h₁.able (h.holds_fst h₁), h₂.able hlate, fun cur jobs s hf he => h.called_fst h₁ hf he, ?_⟩
  intro cur jobs s hf he
  obtain rfl := h₂.follows hf
  exact (hlate.called h₂ hf he).1

end Trailing

end LinuxSocket.Agenda
