import LinuxSocket.Netcat.Deadlock

/-! # The sender that closes its connection safely

`sender` writes a file, shuts down its side and reads until the other side has ended, too. It does not read before.
-/
namespace LinuxSocket.Netcat
open Sockets Duplex

/-- Where `sender` is: at `fread`, in `boost::asio::write` with the data that is left, in the loop of `read_some` behind
`shutdown`, or at its end. -/
inductive SenderPhase
  | reading
  | writing (data : Bytes)
  | draining
  | done
  deriving DecidableEq

/-- `sender` with the rest of the file, all that was written, and the data that it has read and does not use. -/
structure Sender where
  phase : SenderPhase
  file : Bytes
  written : Bytes
  unused : Bytes

namespace Sender

def start (file : Bytes) : Sender := ⟨.reading, file, [], []⟩

/-- `fread` returns a full buffer, or what is left of the file; `shutdown` follows the last one. -/
def fread (x : Sender) : Sender :=
  let data := x.file.take 8192
  if data ≠ [] then { x with phase := .writing data, file := x.file.drop 8192 } else { x with phase := .draining }

/-- `boost::asio::write` has written `k` bytes, and returns behind the last ones. -/
def sent (x : Sender) (data : Bytes) (k : ℕ) : Sender :=
  { x with
    phase := if data.drop k = [] then .reading else .writing (data.drop k)
    written := x.written ++ data.take k }

def drained (x : Sender) (data : Bytes) : Sender :=
  if data ≠ [] then { x with unused := x.unused ++ data } else { x with phase := .done }

def call (x : Sender) (_ : Unit) : Option (Call UInt8 Sender) :=
  match x.phase with
  | .reading => some (.wait false false x.fread)
  | .writing data => some (.write data (x.sent data))
  | .draining => some (.read 8192 x.drained)
  | .done => none

def endpoint : Endpoint UInt8 Unit Sender where
  call := call
  shut x := x.phase = .draining || x.phase = .done

def unsent (x : Sender) : Bytes :=
  match x.phase with
  | .reading => []
  | .writing data => data
  | .draining => []
  | .done => []

def rest (x : Sender) : ℕ :=
  match x.phase with
  | .reading => 2
  | .writing _ => 2
  | .draining => 1
  | .done => 0

def account (x : Sender) : Account UInt8 where
  written := x.written
  got := x.unused
  ended := decide (x.phase = .done)
  polledIn := false
  polledOut := false
  work := 15 * x.file.length + 10 * x.unsent.length + x.rest

structure Inv (file : Bytes) (x : Sender) : Prop where
  order : x.written ++ x.unsent ++ x.file = file
  writing : ∀ data, x.phase = .writing data → data ≠ []
  shut : endpoint.shut x = true → x.file = []

section Contract
variable {file data : Bytes} {x : Sender} {k : ℕ}

theorem shut_iff : endpoint.shut x = true ↔ x.phase = .draining ∨ x.phase = .done := by simp [endpoint]

theorem Inv.start (file : Bytes) : Inv file (start file) where
  order := rfl
  writing _ h := by cases h
  shut h := by cases h

theorem Inv.fread (h : Inv file x) (hphase : x.phase = .reading) :
    Inv file x.fread ∧ Advances endpoint account 5 x [] [] x.fread ∧ x.fread.phase ≠ .done := by
  have horder := h.order
  have hunsent : x.unsent = [] := by simp [unsent, hphase]
  have hopen : endpoint.shut x = true → endpoint.shut x.fread = true := by simp [shut_iff, hphase]
  rw [hunsent, List.append_nil] at horder
  by_cases hdata : x.file.take 8192 = []
  · have hfile : x.file = [] := by simpa using hdata
    have heq : x.fread = { x with phase := .draining } := if_neg (not_not.mpr hdata)
    rw [heq] at hopen ⊢
    refine ⟨⟨?_, nofun, fun _ => hfile⟩, ⟨?_, ?_, hopen, ?_⟩, nofun⟩
    · simpa [unsent] using horder
    · exact (List.append_nil _).symm
    · exact (List.append_nil _).symm
    · simp [account, unsent, rest, hphase]
  · have heq : x.fread = { x with phase := .writing (x.file.take 8192), file := x.file.drop 8192 } := if_pos hdata
    rw [heq] at hopen ⊢
    have hpos := List.length_pos_of_ne_nil hdata
    refine ⟨⟨?_, ?_, ?_⟩, ⟨?_, ?_, hopen, ?_⟩, nofun⟩
    · simpa [unsent] using horder
    · rintro _ ⟨⟩
      exact hdata
    · simp [endpoint]
    · exact (List.append_nil _).symm
    · exact (List.append_nil _).symm
    · simp [account, unsent, rest, hphase] at hpos ⊢
      omega

theorem Inv.sent (h : Inv file x) (hphase : x.phase = .writing data) (hpos : 0 < k) (hk : k ≤ data.length) :
    Inv file (x.sent data k) ∧ Advances endpoint account 5 x (data.take k) [] (x.sent data k) ∧
      (x.sent data k).phase ≠ .done := by
  have horder := h.order
  have hunsent : x.unsent = data := by simp [unsent, hphase]
  have hcases : (x.sent data k).unsent = data.drop k ∧ (x.sent data k).rest = 2 ∧
      endpoint.shut (x.sent data k) = false ∧ ∀ rest, (x.sent data k).phase = .writing rest → rest ≠ [] := by
    by_cases hrest : data.drop k = []
    · simp [Sender.sent, unsent, rest, endpoint, hrest]
    · simp [Sender.sent, unsent, rest, endpoint, hrest]
  obtain ⟨hrest, htwo, hshut, hwriting⟩ := hcases
  rw [hunsent] at horder
  refine ⟨⟨?_, hwriting, ?_⟩, ⟨rfl, (List.append_nil _).symm, ?_, ?_⟩, ?_⟩
  · rw [hrest, ← horder, Sender.sent, List.append_assoc x.written, List.take_append_drop]
  · rw [hshut]
    intro hs
    cases hs
  · simp [shut_iff, hphase]
  · have hx : x.rest = 2 := by simp [rest, hphase]
    simp only [account, hrest, htwo, hunsent, hx, List.length_drop, List.length_take_of_le hk, List.length_nil]
    change 15 * x.file.length + 10 * (data.length - k) + 2 + 5 * k < _
    omega
  · intro hdone
    simp [endpoint, hdone] at hshut

theorem Inv.drained (h : Inv file x) (hphase : x.phase = .draining) : Inv file (x.drained data) ∧
    Advances endpoint account 5 x [] data (x.drained data) ∧ ((x.drained data).phase = .done → data = []) := by
  have horder := h.order
  have hfile := h.shut (shut_iff.mpr (.inl hphase))
  by_cases hdata : data = []
  · have heq : x.drained data = { x with phase := .done } := if_neg (not_not.mpr hdata)
    rw [heq]
    subst hdata
    refine ⟨⟨?_, nofun, fun _ => hfile⟩, ⟨?_, ?_, ?_, ?_⟩, fun _ => rfl⟩
    · simpa [unsent, hphase] using horder
    · exact (List.append_nil _).symm
    · exact (List.append_nil _).symm
    · simp [endpoint]
    · simp [account, unsent, rest, hphase]
  · have heq : x.drained data = { x with unused := x.unused ++ data } := if_pos hdata
    rw [heq]
    have hpos := List.length_pos_of_ne_nil hdata
    refine ⟨⟨?_, ?_, fun _ => hfile⟩, ⟨?_, rfl, id, ?_⟩, ?_⟩
    · exact horder
    · exact h.writing
    · exact (List.append_nil _).symm
    · simp [account, unsent, rest, hphase]
      omega
    · intro hdone
      cases hphase.symm.trans hdone

theorem honours (file : Bytes) : Honours endpoint (Inv file) account 5 where
  wait {x i pollin pollout y} h hcall := by
    simp only [endpoint, call] at hcall
    split at hcall
    · next hphase =>
      obtain ⟨rfl, rfl, rfl⟩ := Call.wait.inj (Option.some.inj hcall)
      obtain ⟨hinv, hadv, hnot⟩ := h.fread hphase
      refine ⟨hinv, hadv, ?_, .inl, .inl⟩
      simp only [account, hnot, hphase, reduceCtorEq]
    · cases hcall
    · cases hcall
    · cases hcall
  write {x i data next} h hcall := by
    simp only [endpoint, call] at hcall
    split at hcall
    · cases hcall
    · next hphase =>
      obtain ⟨rfl, rfl⟩ := Call.write.inj (Option.some.inj hcall)
      refine ⟨by simp [endpoint, hphase], fun k hpos hk => ?_⟩
      obtain ⟨hinv, hadv, hnot⟩ := h.sent hphase hpos hk
      refine ⟨hinv, hadv, ?_, id, rfl⟩
      simp only [account, hnot, hphase, reduceCtorEq]
    · cases hcall
    · cases hcall
  tryWrite {x i data next} h hcall := by
    simp only [endpoint, call] at hcall
    split at hcall <;> cases hcall
  read {x i count next} h hcall data _ := by
    simp only [endpoint, call] at hcall
    split at hcall
    · cases hcall
    · cases hcall
    · next hphase =>
      obtain ⟨rfl, rfl⟩ := Call.read.inj (Option.some.inj hcall)
      obtain ⟨hinv, hadv, hended⟩ := h.drained hphase
      exact ⟨hinv, hadv, fun hdone => .inr (hended (of_decide_eq_true hdone)), rfl, id⟩
    · cases hcall
  gone {x} h hgone := by
    have hdone : x.phase = .done := by
      have hnone := hgone ()
      simp only [endpoint, call] at hnone
      split at hnone <;> first | assumption | cases hnone
    exact ⟨decide_eq_true hdone, shut_iff.mpr (.inr hdone)⟩

end Contract

section Relaying
variable {file data : Bytes} {x : Sender}

theorem Inv.done_or_call (h : Inv file x) : x.phase = .done ∨ ∃ c, endpoint.call x () = some c ∧
    (c.Prompt (account x) ∨ c.Sends ∧ endpoint.shut x = false ∨
      c.Receives ∧ (endpoint.shut x = true ∨ False ∧ ∃ i, endpoint.call x i = some .idle)) := by
  cases hphase : x.phase with
  | reading =>
    refine .inr ⟨.wait false false x.fread, ?_, .inl ⟨rfl, rfl⟩⟩
    simp only [endpoint, call, hphase]
  | writing data =>
    refine .inr ⟨.write data (x.sent data), ?_, .inr (.inl ⟨h.writing data hphase, by simp [endpoint, hphase]⟩)⟩
    simp only [endpoint, call, hphase]
  | draining =>
    refine .inr ⟨.read 8192 x.drained, ?_, .inr (.inr ⟨(by decide : 0 < 8192), .inl ?_⟩)⟩
    · simp only [endpoint, call, hphase]
    · simp [endpoint, hphase]
  | done => exact .inl rfl

theorem gone_of_done (hdone : x.phase = .done) : endpoint.Gone x := by
  intro i
  simp only [endpoint, call, hdone]

theorem Inv.done_of_gone (h : Inv file x) (hgone : endpoint.Gone x) : x.phase = .done := by
  rcases h.done_or_call with hdone | ⟨c, hcall, -⟩
  · exact hdone
  · cases (hgone ()).symm.trans hcall

theorem Inv.written_of_shut (h : Inv file x) (hshut : endpoint.shut x = true) : x.written = file := by
  have hunsent : x.unsent = [] := by
    rcases shut_iff.mp hshut with hphase | hphase
    · simp [unsent, hphase]
    · simp [unsent, hphase]
  have horder := h.order
  rwa [h.shut hshut, hunsent, List.append_nil, List.append_nil] at horder

theorem lively (file : Bytes) : Lively endpoint (Inv file) account False := by
  intro x h
  rcases h.done_or_call with hdone | ⟨c, hcall, hc⟩
  · exact .inl (gone_of_done hdone)
  · exact .inr ⟨(), c, hcall, hc⟩

theorem relays (file : Bytes) :
    Relays endpoint (Inv file) account 5 False file (start file) Sender.unused where
  honours := honours file
  lively := lively file
  start := Inv.start file
  written_start := rfl
  got_start := rfl
  not_ended := rfl
  not_polled := ⟨rfl, rfl⟩
  not_gone hgone := by cases (Inv.start file).done_of_gone hgone
  written {x} h := by
    have horder := h.order
    rw [List.append_assoc] at horder
    exact ⟨_, horder⟩
  complete h hshut _ := h.written_of_shut hshut
  output_le _ := List.prefix_rfl
  output_gone _ _ := rfl

end Relaying

section Filling
variable {κ τ : Type} {m n r : ℕ} {Q : Endpoint UInt8 κ τ} {s : Link UInt8 Sender τ m n} {d : Bytes}

theorem step_fread (hphase : s.left.phase = .reading) :
    step endpoint Q s (.inl ()) 0 = some { s with left := s.left.fread } := by
  have hcall : endpoint.call s.left () = some (.wait false false s.left.fread) := by
    simp only [endpoint, call, hphase]
  exact stepLeft_wait hcall (by simp) (by simp)

/-- A byte is written. -/
theorem step_write (hphase : s.left.phase = .writing d) (hdata : d ≠ []) (hroom : Room s) :
    ∃ s', step endpoint Q s (.inl ()) 1 = some s' ∧ s'.left = s.left.sent d 1 ∧ s'.right = s.right ∧
      s'.toLeft = s.toLeft ∧ s'.toRight.sent.length = s.toRight.sent.length + 1 ∧ s'.toRight.taken = s.toRight.taken := by
  obtain ⟨s', hs⟩ := exists_putLeft hdata hroom (s.left.sent d)
  obtain ⟨-, hle, hl, hr, hto, hsent, htaken⟩ := putLeft_eq_some hs
  refine ⟨s', ?_, hl, hr, hto, ?_, htaken⟩
  · have hcall : endpoint.call s.left () = some (.write d (s.left.sent d)) := by
      simp only [endpoint, call, hphase]
    change stepLeft endpoint Q s () 1 = some s'
    rw [stepLeft, hcall]
    exact hs
  · rw [hsent, List.length_append, List.length_take_of_le hle]

/-- A sender that is left alone fills the connection and then stays in `write`. -/
theorem exists_full (hphase : s.left.phase = .writing d) (hdata : d ≠ [])
    (hr : s.toRight.sent.length + r = s.toRight.taken + m) (hlen : r < d.length + s.left.file.length) :
    ∃ schedule s' rest, run endpoint Q s schedule = some s' ∧ s'.right = s.right ∧ s'.toLeft = s.toLeft ∧
      s'.toRight.sent.length = s'.toRight.taken + m ∧ s'.left.phase = .writing rest := by
  induction r generalizing s d with
  | zero => exact ⟨[], s, d, rfl, rfl, rfl, hr, hphase⟩
  | succ r ih =>
    have hroom : Room s := by
      unfold Room
      omega
    obtain ⟨t, ht, htl, htr, htto, htlen, httaken⟩ := step_write (Q := Q) hphase hdata hroom
    by_cases hrest : d.drop 1 = []
    · -- the next buffer is read before the next byte can be written
      have hone : d.length ≤ 1 := List.drop_eq_nil_iff.mp hrest
      have hfile : s.left.file.take 8192 ≠ [] := by
        refine mt List.take_eq_nil_iff.mp (not_or_intro (by decide) ?_)
        exact List.ne_nil_of_length_pos (by omega)
      have hreading : t.left.phase = .reading := by
        rw [htl]
        exact if_pos hrest
      have hfread : t.left.fread = { t.left with
          phase := .writing (s.left.file.take 8192), file := s.left.file.drop 8192 } := by
        rw [htl]
        exact if_pos hfile
      obtain ⟨schedule, s', rest, hrun, hsr, hsl, hfull, hend⟩ := ih (s := { t with left := t.left.fread })
        (d := s.left.file.take 8192) (by rw [hfread]) hfile (by dsimp only; omega) (by
          rw [hfread]
          dsimp only
          rw [← List.length_append, List.take_append_drop]
          omega)
      refine ⟨(.inl (), 1) :: (.inl (), 0) :: schedule, s', rest, ?_, hsr.trans htr, hsl.trans htto, hfull, hend⟩
      rw [run, ht, Option.bind_some, run, step_fread hreading]
      exact hrun
    · have hwriting : t.left.phase = .writing (d.drop 1) := by
        rw [htl]
        exact if_neg hrest
      have hfile : t.left.file = s.left.file := by
        rw [htl]
        rfl
      obtain ⟨schedule, s', rest, hrun, hsr, hsl, hfull, hend⟩ := ih hwriting hrest (by omega) (by
        rw [hfile, List.length_drop]
        omega)
      refine ⟨(.inl (), 1) :: schedule, s', rest, ?_, hsr.trans htr, hsl.trans htto, hfull, hend⟩
      rw [run, ht]
      exact hrun

end Filling

section Delivery
variable {p : Program} {m n : ℕ} {file stdin : Bytes} {pipe : Bool} {s : Link UInt8 Sender p.State m n}
  {schedule : List ((Unit ⊕ p.Choice) × ℕ)}

/-- Any of the netcats prints a part of the file, and all of it when it ends. When the sender closes its socket, the
other side has shut down its own, and nothing is left in the receive buffer. -/
theorem delivers (h : run endpoint p.endpoint (Link.start (start file) (p.start stdin pipe)) schedule = some s) :
    ∃ got, p.Prints (p.stdout s.right) got ∧ got <+: file ∧ (p.endpoint.Gone s.right → got = file) ∧
    (endpoint.Gone s.left → s.left.written = file ∧ p.endpoint.shut s.right = true ∧ s.toLeft.content = []) := by
  have hP := relays file
  have hQ := p.relays stdin pipe
  have hjoined := (hP.joined hQ).run hP.honours hQ.honours h
  refine ⟨p.output s.right, Program.prints hjoined.right.inv, hQ.output_prefix hP hjoined.swap, fun hgone => ?_,
    fun hgone => ?_⟩
  · obtain ⟨hgot, hshut⟩ := hjoined.swap.got_all (hQ.honours.gone hjoined.right.inv hgone).1
    have hout : p.output s.right = (p.account s.right).got := hQ.output_gone hjoined.right.inv hgone
    exact hout.trans (hgot.trans (hjoined.left.inv.written_of_shut hshut))
  · obtain ⟨hended, hshut⟩ := hP.honours.gone hjoined.left.inv hgone
    obtain ⟨hshut', hall⟩ := hjoined.left.ended hended
    exact ⟨hjoined.left.inv.written_of_shut hshut, hshut', Channel.content_eq_nil hall⟩

/-- The file is sent, and the sender waits while the blocking netcat prints it, whose own input is a pipe that has come
to its end. -/
def byteSent : List ((Unit ⊕ BlockingRelay.Choice) × ℕ) :=
  [(.inl (), 0), (.inl (), 1), (.inl (), 0), (.inr (.poll [(.stdin, false), (.sock, true)]), 0), (.inr .socket, 1),
    (.inr (.poll [(.stdin, false)]), 0), (.inr (.poll [(.sock, true)]), 0), (.inr .socket, 0), (.inl (), 0)]

theorem delivers_byte : ∃ s : Link UInt8 Sender BlockingRelay 1 1,
    run endpoint BlockingRelay.endpoint (Link.start (start [7]) (.start [] true)) byteSent = some s ∧
    s.left.phase = .done ∧ s.right.stdout = str [7] ∧ ∃ got, Program.netcatPy.Prints s.right.stdout got ∧ got <+: [7] ∧
    (BlockingRelay.endpoint.Gone s.right → got = [7]) ∧
    (endpoint.Gone s.left → s.left.written = [7] ∧ BlockingRelay.endpoint.shut s.right = true ∧ s.toLeft.content = []) := by
  obtain ⟨s, hrun, hphase, hstdout⟩ : ∃ s : Link UInt8 Sender BlockingRelay 1 1,
      run endpoint BlockingRelay.endpoint (Link.start (start [7]) (.start [] true)) byteSent = some s ∧
      s.left.phase = .done ∧ s.right.stdout = str [7] := ⟨_, rfl, rfl, rfl⟩
  exact ⟨s, hrun, hphase, hstdout, @delivers .netcatPy 1 1 [7] [] true s byteSent hrun⟩

theorem Inv.lt_of_sends {x : Sender} {c : Call UInt8 Sender} (h : Inv file x) (hcall : endpoint.call x () = some c)
    (hsends : c.Sends) (hprompt : ¬c.Prompt (account x)) : x.written.length < file.length := by
  have hunsent : x.unsent ≠ [] := by
    simp only [endpoint, call] at hcall
    split at hcall
    · obtain rfl := Option.some.inj hcall
      exact absurd ⟨rfl, rfl⟩ hprompt
    · next data hphase =>
      simp only [unsent, hphase]
      exact h.writing data hphase
    · obtain rfl := Option.some.inj hcall
      exact hsends.elim
    · cases hcall
  have hlen := congrArg List.length h.order
  have hpos := List.length_pos_of_ne_nil hunsent
  rw [List.length_append, List.length_append] at hlen
  omega

/-- The sender and the blocking netcat fill the connection. -/
theorem exists_deadlock (hfile : m < file.length) (hstdin : n < stdin.length) :
    ∃ schedule, ∃ s : Link UInt8 Sender BlockingRelay m n,
      run endpoint BlockingRelay.endpoint (Link.start (start file) (.start stdin pipe)) schedule = some s ∧
        Stuck endpoint BlockingRelay.endpoint s ∧ ¬endpoint.Gone s.left := by
  have hne : file.take 8192 ≠ [] := by
    refine mt List.take_eq_nil_iff.mp (not_or_intro (by decide) ?_)
    exact List.ne_nil_of_length_pos (by omega)
  have hfread : (start file).fread = ⟨.writing (file.take 8192), file.drop 8192, [], []⟩ := if_pos hne
  let s₀ : Link UInt8 Sender BlockingRelay m n := Link.start (start file).fread (.start stdin pipe)
  obtain ⟨schedule, t, rest, ht, htr, htl, hfull, hphase⟩ := exists_full (Q := BlockingRelay.endpoint) (s := s₀)
    (d := file.take 8192) (r := m) (congrArg Sender.phase hfread) hne rfl (by
      have hleft : s₀.left.file = file.drop 8192 := congrArg Sender.file hfread
      rw [hleft, ← List.length_append, List.take_append_drop]
      exact hfile)
  have hright : t.swap.left = BlockingRelay.looping pipe stdin [] := htr
  have hroom : t.swap.toRight.sent.length + n = t.swap.toRight.taken + n := by
    change t.toLeft.sent.length + n = t.toLeft.taken + n
    rw [htl]
    rfl
  obtain ⟨schedule', u, hu, hur, hul, -, hfull', hunsent'⟩ := BlockingRelay.exists_full (Q := endpoint) hright hroom hstdin
  have hleft : u.swap.left = t.left := hur
  have hto : u.swap.toRight = t.toRight := hul
  have hcall : endpoint.call t.left () = some (.write rest (t.left.sent rest)) := by
    simp only [endpoint, call, hphase]
  refine ⟨(.inl (), 0) :: (schedule ++ schedule'.map fun e => (e.1.swap, e.2)), u.swap, ?_, ?_, ?_⟩
  · have hstep : step endpoint BlockingRelay.endpoint (Link.start (start file) (BlockingRelay.start stdin pipe))
        (.inl ()) 0 = some s₀ := step_fread rfl
    rw [run, hstep, Option.bind_some, run_append]
    exact Option.bind_eq_some_iff.mpr ⟨t, ht, run_swap hu⟩
  · rintro (i | j) k
    · refine stepLeft_full ?_ ?_ i k
      · rw [hto]
        exact hfull
      · intro i c hc
        rw [hleft] at hc
        exact ⟨_, _, Option.some.inj (hc.symm.trans hcall)⟩
    · exact Option.map_eq_none_iff.mpr (stepLeft_full hfull' (BlockingRelay.writes_of_unsent hunsent') j k)
  · intro hgone
    rw [hleft] at hgone
    cases (hgone ()).symm.trans hcall

/-- The sender and a netcat get stuck only where both fill the connection. -/
theorem blocked_of_stuck (hm : 0 < m) (hn : 0 < n)
    (h : Joined endpoint p.endpoint (Inv file) (p.Inv stdin pipe) account p.account s)
    (hstuck : Stuck endpoint p.endpoint s) (hended : ¬(endpoint.Gone s.left ∧ p.endpoint.Gone s.right)) :
    p = .netcatPy ∧ m < file.length ∧ n < stdin.length := by
  have hP := relays file
  have hQ := p.relays stdin pipe
  have hpy : p = .netcatPy := by
    by_contra hne
    rcases h.swap.gone_of_settled hQ.honours hP.honours hQ.lively hP.lively hn hm (Program.receptive stdin pipe hne)
      hstuck.settled.swap with hgone | ⟨-, hleaves, -⟩
    · exact hended hgone.symm
    · exact hleaves
  subst hpy
  refine ⟨rfl, ?_⟩
  rcases h.settled hP.honours hQ.honours hP.lively hQ.lively hm hn hstuck.settled with
    hgone | ⟨⟨hfull, i, c, hcall, hsends, hprompt⟩, hfull', j, d, hcall', hsends', hprompt'⟩ | ⟨hleaves, -⟩
  · exact absurd hgone hended
  · have hlt := h.left.inv.lt_of_sends hcall hsends hprompt
    have hlt' : (BlockingRelay.written s.right).length < stdin.length :=
      h.right.inv.lt_of_sends hcall' hsends' hprompt'
    have hw : s.left.written = s.toRight.sent := h.left.written
    have hw' : BlockingRelay.written s.right = s.toLeft.sent := h.right.written
    rw [hw] at hlt
    rw [hw'] at hlt'
    omega
  · exact hleaves.elim

/-- The sender can get stuck exactly with the blocking netcat, when the connection holds neither the file nor the
input of the netcat. -/
theorem stuck_iff (hm : 0 < m) (hn : 0 < n) :
    (∃ schedule, ∃ s : Link UInt8 Sender p.State m n,
      run endpoint p.endpoint (Link.start (start file) (p.start stdin pipe)) schedule = some s ∧
        Stuck endpoint p.endpoint s ∧ ¬(endpoint.Gone s.left ∧ p.endpoint.Gone s.right)) ↔
    p = .netcatPy ∧ m < file.length ∧ n < stdin.length := by
  constructor
  · rintro ⟨schedule, s, hrun, hstuck, hended⟩
    have hP := relays file
    have hQ := p.relays stdin pipe
    exact blocked_of_stuck hm hn ((hP.joined hQ).run hP.honours hQ.honours hrun) hstuck hended
  · rintro ⟨rfl, hfile, hstdin⟩
    obtain ⟨schedule, s, hrun, hstuck, hgone⟩ := exists_deadlock hfile hstdin
    exact ⟨schedule, s, hrun, hstuck, fun hended => hgone hended.1⟩

theorem stuck_iff_two_bytes :
    ∃ schedule, ∃ s : Link UInt8 Sender BlockingRelay 1 1,
      run endpoint BlockingRelay.endpoint (Link.start (start [1, 2]) (.start [3, 4] true)) schedule = some s ∧
        Stuck endpoint BlockingRelay.endpoint s ∧ ¬(endpoint.Gone s.left ∧ BlockingRelay.endpoint.Gone s.right) :=
  (@stuck_iff .netcatPy 1 1 [1, 2] [3, 4] true (by decide) (by decide)).mpr ⟨rfl, by decide, by decide⟩

end Delivery

end Sender

end LinuxSocket.Netcat
