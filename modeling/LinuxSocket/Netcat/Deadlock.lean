import LinuxSocket.Netcat.Interoperation

/-! # When two netcats block each other

`sendall` of the blocking netcat keeps it from reading its socket. Two of them block each other when both inputs are
larger than what the connection holds on the way, and no other pair does. Two scripts whose inputs are pipes do not
block each other, but neither of them ends: each one waits for the other to shut down its side.
-/
namespace LinuxSocket.Netcat
open Sockets Duplex

namespace BlockingRelay

/-- The relay at its loop, before it has read anything from its socket. -/
def looping (pipe : Bool) (stdin written : Bytes) : BlockingRelay := { start stdin pipe with written }

def sending (pipe : Bool) (b : UInt8) (stdin written : Bytes) : BlockingRelay :=
  { looping pipe stdin written with unsent := [b] }

section Filling
variable {κ τ : Type} {m n : ℕ} {Q : Endpoint UInt8 κ τ} {s : Link UInt8 BlockingRelay τ m n} {pipe : Bool} {b : UInt8}
  {d w : Bytes}

theorem call_poll (pipe : Bool) (b : UInt8) (stdin written : Bytes) :
    endpoint.call (looping pipe (b :: stdin) written) (.poll [(.stdin, true)]) =
      some (.wait false false { looping pipe (b :: stdin) written with events := [.stdin] }) := by
  have hp : (looping pipe (b :: stdin) written).Pollable [(.stdin, true)] := by
    refine ⟨List.nodup_singleton _, ?_, fun _ => rfl⟩
    rintro - ⟨-, hend⟩
    cases hend
  exact call_of_calls (.poll rfl rfl rfl hp (List.cons_ne_nil Fd.stdin []))

theorem call_stdin (pipe : Bool) (b : UInt8) (stdin written : Bytes) :
    endpoint.call { looping pipe (b :: stdin) written with events := [.stdin] } (.stdin 1) =
      some (.wait false false (sending pipe b stdin written)) := by
  have hk : StdinReturns (b :: stdin) 1 := ⟨by decide, Nat.le_add_left 1 _, nofun⟩
  exact call_of_calls (x := { looping pipe (b :: stdin) written with events := [.stdin] }) (.stdin rfl rfl hk)

/-- A byte is read from the standard input. -/
theorem run_read (hleft : s.left = looping pipe (b :: d) w) :
    run endpoint Q s [(.inl (.poll [(.stdin, true)]), 0), (.inl (.stdin 1), 0)] =
      some { s with left := sending pipe b d w } := by
  have hcall : endpoint.call s.left (.poll [(.stdin, true)]) =
      some (.wait false false { looping pipe (b :: d) w with events := [.stdin] }) := by
    rw [hleft]
    exact call_poll pipe b d w
  have hpoll := stepLeft_wait (Q := Q) hcall (by simp) (by simp)
  have hread : stepLeft endpoint Q { s with left := { looping pipe (b :: d) w with events := [.stdin] } } (.stdin 1) 0 =
      some { s with left := sending pipe b d w } := stepLeft_wait (call_stdin pipe b d w) (by simp) (by simp)
  rw [run, step, hpoll, Option.bind_some, run, step, hread]
  rfl

/-- The byte is written. -/
theorem step_write (hleft : s.left = sending pipe b d w) (hroom : Room s) :
    ∃ s', step endpoint Q s (.inl .socket) 1 = some s' ∧ s'.left = looping pipe d (w ++ [b]) ∧ s'.right = s.right ∧
      s'.toLeft = s.toLeft ∧ s'.toRight.sent = s.toRight.sent ++ [b] ∧ s'.toRight.taken = s.toRight.taken := by
  obtain ⟨s', hs⟩ := exists_putLeft (List.cons_ne_nil b []) hroom (sending pipe b d w).sent
  obtain ⟨-, -, hl, hrest⟩ := putLeft_eq_some hs
  refine ⟨s', ?_, hl, hrest⟩
  change stepLeft endpoint Q s .socket 1 = some s'
  rw [stepLeft, hleft]
  exact hs

/-- A relay that is left alone fills the connection and then stays in `sendall`. -/
theorem exists_full {r : ℕ} (hleft : s.left = looping pipe d w) (hr : s.toRight.sent.length + r = s.toRight.taken + m)
    (hd : r < d.length) : ∃ schedule s', run endpoint Q s schedule = some s' ∧ s'.right = s.right ∧
      s'.toLeft = s.toLeft ∧ s'.toRight.taken = s.toRight.taken ∧
      s'.toRight.sent.length = s'.toRight.taken + m ∧ s'.left.unsent ≠ [] := by
  induction r generalizing s d w with
  | zero =>
    obtain ⟨b, d, rfl⟩ := List.exists_cons_of_length_pos hd
    exact ⟨_, _, run_read hleft, rfl, rfl, rfl, hr, List.cons_ne_nil b []⟩
  | succ r ih =>
    obtain ⟨b, d, rfl⟩ := List.exists_cons_of_length_pos (Nat.zero_lt_of_lt hd)
    have hroom : Room { s with left := sending pipe b d w } := by
      change s.toRight.sent.length < s.toRight.taken + m
      omega
    obtain ⟨t, ht, htl, htr, htto, htsent, httaken⟩ := step_write (Q := Q) rfl hroom
    have hlen : t.toRight.sent.length = s.toRight.sent.length + 1 := by
      rw [htsent, List.length_append]
      rfl
    have httaken : t.toRight.taken = s.toRight.taken := httaken
    rw [List.length_cons] at hd
    obtain ⟨schedule, s', hrun, hsr, hsl, hstaken, hfull, hunsent⟩ := ih htl (by omega) (by omega)
    refine ⟨[(.inl (.poll [(.stdin, true)]), 0), (.inl (.stdin 1), 0)] ++ ((.inl .socket, 1) :: schedule), s', ?_,
      hsr.trans htr, hsl.trans htto, hstaken.trans httaken, hfull, hunsent⟩
    rw [run_append, run_read hleft, Option.bind_some, run, ht]
    exact hrun

/-- In `sendall` the relay is in no other call. -/
theorem writes_of_unsent {x : BlockingRelay} (hx : x.unsent ≠ []) (i : Choice) (c : Call UInt8 BlockingRelay)
    (hcall : endpoint.call x i = some c) : ∃ data next, c = .write data next := by
  cases calls_of_call hcall with
  | timeout hnil => exact absurd hnil hx
  | poll hnil => exact absurd hnil hx
  | stdin hnil => exact absurd hnil hx
  | recv hnil => exact absurd hnil hx
  | sendall => exact ⟨_, _, rfl⟩

end Filling

section Deadlock
variable {m n : ℕ} {inp inp' : Bytes} {pipe pipe' : Bool}

variable (pipe pipe') in
/-- Both relays fill the connection. -/
theorem exists_deadlock (hinp : m < inp.length) (hinp' : n < inp'.length) :
    ∃ schedule, ∃ s : Link UInt8 BlockingRelay BlockingRelay m n,
      run endpoint endpoint (Link.start (start inp pipe) (start inp' pipe')) schedule = some s ∧
        Stuck endpoint endpoint s ∧ ¬endpoint.Gone s.left := by
  obtain ⟨schedule, t, ht, htr, htl, -, hfull, hunsent⟩ := exists_full (m := m) (n := n) (Q := endpoint)
    (s := Link.start (start inp pipe) (start inp' pipe')) (w := []) rfl rfl hinp
  have hright : t.swap.left = looping pipe' inp' [] := htr
  have hroom : t.swap.toRight.sent.length + n = t.swap.toRight.taken + n := by
    change t.toLeft.sent.length + n = t.toLeft.taken + n
    rw [htl]
    rfl
  obtain ⟨schedule', u, hu, hur, hul, -, hfull', hunsent'⟩ := exists_full (Q := endpoint) hright hroom hinp'
  have hleft : u.swap.left = t.left := hur
  have hto : u.swap.toRight = t.toRight := hul
  have hright' : u.swap.right.unsent ≠ [] := hunsent'
  refine ⟨schedule ++ schedule'.map fun e => (e.1.swap, e.2), u.swap, ?_, ?_, ?_⟩
  · rw [run_append, ht]
    exact run_swap hu
  · rintro (i | j) k
    · refine stepLeft_full ?_ (writes_of_unsent ?_) i k
      · rw [hto]
        exact hfull
      · rw [hleft]
        exact hunsent
    · exact Option.map_eq_none_iff.mpr (stepLeft_full hfull' (writes_of_unsent hunsent') j k)
  · intro hgone
    have hcall : endpoint.call t.left .socket = some (.write t.left.unsent t.left.sent) :=
      call_of_calls (.sendall hunsent)
    cases (hleft ▸ hgone .socket : endpoint.call t.left .socket = none).symm.trans hcall

/-- A relay that waits for room has not written all of its input. -/
theorem Inv.lt_of_sends {x : BlockingRelay} {i : Choice} {c : Call UInt8 BlockingRelay} (h : Inv inp pipe x)
    (hcall : endpoint.call x i = some c) (hsends : c.Sends) (hprompt : ¬c.Prompt (account x)) :
    x.written.length < inp.length := by
  have hunsent : x.unsent ≠ [] := by
    cases calls_of_call hcall with
    | timeout => exact hsends.elim
    | poll => exact absurd ⟨hsends, rfl⟩ hprompt
    | stdin => exact absurd ⟨rfl, rfl⟩ hprompt
    | recv => exact hsends.elim
    | sendall hne => exact hne
  have hlen := congrArg List.length h.order
  have hpos := List.length_pos_of_ne_nil hunsent
  rw [List.length_append, List.length_append] at hlen
  omega

end Deadlock

end BlockingRelay

section Exchange
variable {p q : Program} {m n : ℕ} {inp inp' : Bytes} {pipe pipe' : Bool}

def Ended (p q : Program) (s : Link UInt8 p.State q.State m n) : Prop := p.endpoint.Gone s.left ∧ q.endpoint.Gone s.right

/-- When nothing comes of the calls any more, both programs have ended, or two blocking netcats with inputs that the
connection does not hold block each other, or two scripts wait at the ends of their pipes. -/
theorem cases_of_settled (hm : 0 < m) (hn : 0 < n) {s : Link UInt8 p.State q.State m n}
    (h : Joined p.endpoint q.endpoint (p.Inv inp pipe) (q.Inv inp' pipe') p.account q.account s)
    (hsettled : Settled p.endpoint q.endpoint s) : Ended p q s ∨
      (p = .netcatPy ∧ q = .netcatPy ∧ m < inp.length ∧ n < inp'.length) ∨
      (p.LeavesOpen pipe ∧ q.LeavesOpen pipe' ∧ ∃ i, p.endpoint.call s.left i = some .idle) := by
  have hp := p.relays inp pipe
  have hq := q.relays inp' pipe'
  rcases h.settled hp.honours hq.honours hp.lively hq.lively hm hn hsettled with
    hgone | ⟨⟨hfull, i, c, hcall, hsends, hprompt⟩, hfull', j, d, hcall', hsends', hprompt'⟩ | hopen
  · exact .inl hgone
  · by_cases hpy : p = .netcatPy
    · by_cases hqy : q = .netcatPy
      · subst hpy hqy
        have hlt := h.left.inv.lt_of_sends hcall hsends hprompt
        have hlt' : (BlockingRelay.written s.right).length < inp'.length :=
          h.right.inv.lt_of_sends hcall' hsends' hprompt'
        have hw : BlockingRelay.written s.left = s.toRight.sent := h.left.written
        have hw' : BlockingRelay.written s.right = s.toLeft.sent := h.right.written
        rw [hw] at hlt
        rw [hw'] at hlt'
        exact .inr (.inl ⟨rfl, rfl, by omega, by omega⟩)
      · rcases h.swap.gone_of_settled hq.honours hp.honours hq.lively hp.lively hn hm
          (Program.receptive inp' pipe' hqy) hsettled.swap with ⟨hr, hl⟩ | ⟨hopen', hopen, -, hidle⟩
        · exact .inl ⟨hl, hr⟩
        · exact .inr (.inr ⟨hopen, hopen', hidle⟩)
    · rcases h.gone_of_settled hp.honours hq.honours hp.lively hq.lively hm hn (Program.receptive inp pipe hpy)
        hsettled with hgone | ⟨hopen, hopen', hidle, -⟩
      · exact .inl hgone
      · exact .inr (.inr ⟨hopen, hopen', hidle⟩)
  · exact .inr (.inr ⟨hopen.1, hopen.2.1, hopen.2.2.1⟩)

/-- A pair can come to a state in which nothing happens any more before both have ended exactly when both are the
blocking netcat, and both inputs are larger than what the connection holds. -/
theorem deadlock_iff (hm : 0 < m) (hn : 0 < n) :
    (∃ schedule, ∃ s : Link UInt8 p.State q.State m n,
      run p.endpoint q.endpoint (Link.start (p.start inp pipe) (q.start inp' pipe')) schedule = some s ∧
        Stuck p.endpoint q.endpoint s ∧ ¬Ended p q s) ↔
    p = .netcatPy ∧ q = .netcatPy ∧ m < inp.length ∧ n < inp'.length := by
  constructor
  · rintro ⟨schedule, s, hrun, hstuck, hended⟩
    have hp := p.relays inp pipe
    have hq := q.relays inp' pipe'
    have hjoined := (hp.joined hq).run hp.honours hq.honours hrun
    rcases cases_of_settled hm hn hjoined hstuck.settled with hend | hblocked | ⟨-, -, i, hidle⟩
    · exact absurd hend hended
    · exact hblocked
    · exact absurd hidle hstuck.not_idle
  · rintro ⟨rfl, rfl, hinp, hinp'⟩
    obtain ⟨schedule, s, hrun, hstuck, hgone⟩ := BlockingRelay.exists_deadlock pipe pipe' hinp hinp'
    exact ⟨schedule, s, hrun, hstuck, fun hended => hgone hended.1⟩

theorem deadlock_iff_two_bytes :
    ∃ schedule, ∃ s : Link UInt8 BlockingRelay BlockingRelay 1 1,
      run BlockingRelay.endpoint BlockingRelay.endpoint (Link.start (.start [1, 2] true) (.start [3, 4] false)) schedule =
        some s ∧
      Stuck BlockingRelay.endpoint BlockingRelay.endpoint s ∧ ¬Ended .netcatPy .netcatPy s :=
  (@deadlock_iff .netcatPy .netcatPy 1 1 [1, 2] [3, 4] true false (by decide) (by decide)).mpr
    ⟨rfl, rfl, by decide, by decide⟩

/-- Two scripts with pipes never end. -/
theorem not_ended_of_leavesOpen (hp : p.LeavesOpen pipe) (hq : q.LeavesOpen pipe')
    {schedule : List ((p.Choice ⊕ q.Choice) × ℕ)} {s : Link UInt8 p.State q.State m n}
    (h : run p.endpoint q.endpoint (Link.start (p.start inp pipe) (q.start inp' pipe')) schedule = some s) :
    ¬Ended p q s := by
  have hP := p.relays inp pipe
  have hQ := q.relays inp' pipe'
  have hjoined := hP.joined (m := m) (n := n) hQ
  have hleft : p.endpoint.shut (p.start inp pipe) = false :=
    Bool.eq_false_iff.mpr fun hshut => by cases hP.not_ended.symm.trans (Program.staysOpen hp hP.start hshut)
  have hright : q.endpoint.shut (q.start inp' pipe') = false :=
    Bool.eq_false_iff.mpr fun hshut => by cases hQ.not_ended.symm.trans (Program.staysOpen hq hQ.start hshut)
  have hopen := hjoined.run_open hP.honours hQ.honours (Program.staysOpen hp) (Program.staysOpen hq) hleft hright h
  intro hended
  cases hopen.1.symm.trans (hP.honours.gone (hjoined.run hP.honours hQ.honours h).left.inv hended.1).2

/-- No run has more calls that come to something than there is work, and every run can be continued until both programs
have ended, unless two blocking netcats have inputs that the connection does not hold, or two scripts have pipes for
their inputs. -/
theorem exchange_ends (hm : 0 < m) (hn : 0 < n) :
    (∀ (schedule : List ((p.Choice ⊕ q.Choice) × ℕ)) (s : Link UInt8 p.State q.State m n),
      run p.endpoint q.endpoint (Link.start (p.start inp pipe) (q.start inp' pipe')) schedule = some s →
      effective p.endpoint q.endpoint (Link.start (p.start inp pipe) (q.start inp' pipe') :
        Link UInt8 p.State q.State m n) schedule ≤ 15 * (inp.length + inp'.length) + 20) ∧
    ((∀ (schedule : List ((p.Choice ⊕ q.Choice) × ℕ)) (s : Link UInt8 p.State q.State m n),
      run p.endpoint q.endpoint (Link.start (p.start inp pipe) (q.start inp' pipe')) schedule = some s →
      ∃ rest s', run p.endpoint q.endpoint s rest = some s' ∧ Ended p q s') ↔
      ¬(p = .netcatPy ∧ q = .netcatPy ∧ m < inp.length ∧ n < inp'.length) ∧
      ¬(p.LeavesOpen pipe ∧ q.LeavesOpen pipe')) := by
  refine ⟨fun schedule s h => effective_le_of_run h, fun h => ⟨?_, ?_⟩, ?_⟩
  · rintro ⟨rfl, rfl, hinp, hinp'⟩
    obtain ⟨schedule, s, hrun, hstuck, hgone⟩ := BlockingRelay.exists_deadlock pipe pipe' hinp hinp'
    obtain ⟨rest, s', hrest, hended⟩ := h schedule s hrun
    cases rest with
    | nil => exact hgone (Option.some.inj hrest ▸ hended.1)
    | cons e rest =>
      obtain ⟨t, ht, -⟩ := Option.bind_eq_some_iff.mp hrest
      cases (hstuck e.1 e.2).symm.trans ht
  · rintro ⟨hp, hq⟩
    obtain ⟨rest, s', hrest, hended⟩ := h [] _ rfl
    exact not_ended_of_leavesOpen hp hq hrest hended
  · rintro ⟨hfits, hopen⟩ schedule s hrun
    have hp := p.relays inp pipe
    have hq := q.relays inp' pipe'
    have hjoined := (hp.joined hq).run hp.honours hq.honours hrun
    obtain ⟨rest, s', hrest, hsettled⟩ := hjoined.exists_settled hp.honours hq.honours
    refine ⟨rest, s', hrest, ?_⟩
    rcases cases_of_settled hm hn (hjoined.run hp.honours hq.honours hrest) hsettled with hend | hblocked | hleaves
    · exact hend
    · exact absurd hblocked hfits
    · exact absurd ⟨hleaves.1, hleaves.2.1⟩ hopen

theorem exchange_ends_cut : ∃ s : Link UInt8 BlockingRelay ThreadedRelay 1 1,
    run BlockingRelay.endpoint ThreadedRelay.endpoint (Link.start (.start [7] false) (.start [8, 9])) cut = some s ∧
    effective BlockingRelay.endpoint ThreadedRelay.endpoint
      (Link.start (.start [7] false) (.start [8, 9]) : Link UInt8 BlockingRelay ThreadedRelay 1 1) cut ≤
      15 * (1 + 2) + 20 ∧
    ∃ rest s', run BlockingRelay.endpoint ThreadedRelay.endpoint s rest = some s' ∧ Ended .netcatPy .netcatCpp s' := by
  obtain ⟨s, hrun⟩ : ∃ s : Link UInt8 BlockingRelay ThreadedRelay 1 1,
      run BlockingRelay.endpoint ThreadedRelay.endpoint (Link.start (.start [7] false) (.start [8, 9])) cut = some s :=
    ⟨_, rfl⟩
  obtain ⟨hlen, hends⟩ := @exchange_ends .netcatPy .netcatCpp 1 1 [7] [8, 9] false false (by decide) (by decide)
  exact ⟨s, hrun, hlen cut s hrun, hends.mpr ⟨nofun, nofun⟩ cut s hrun⟩

end Exchange

end LinuxSocket.Netcat
