import LinuxSocket.Lib.Sockets
import LinuxSocket.Netcat.Nonblock
import LinuxSocket.Netcat.Printing

/-! # The relay of the blocking netcat

`poll` reports what can be read, and the events are handled one after the other. `sendall` returns when all of the
data has been written, and the relay does nothing else until then. At the end of a pipe `poll` reports `POLLHUP` without
`POLLIN`, which the relay passes over: it never learns that its standard input has ended.
-/
namespace LinuxSocket.Netcat

/-- What a read of the standard input may return: up to 8192 bytes, and none only at the end. -/
def StdinReturns (stdin : Bytes) (k : ℕ) : Prop := k ≤ 8192 ∧ k ≤ stdin.length ∧ (k = 0 → stdin = [])

instance (stdin : Bytes) (k : ℕ) : Decidable (StdinReturns stdin k) := inferInstanceAs (Decidable (_ ∧ _))

theorem exists_stdinReturns (stdin : Bytes) : ∃ k, StdinReturns stdin k := by
  by_cases hstdin : stdin = []
  · exact ⟨0, Nat.zero_le _, Nat.zero_le _, fun _ => hstdin⟩
  · exact ⟨1, by decide, List.length_pos_of_ne_nil hstdin, fun hk => absurd hk Nat.one_ne_zero⟩

/-- The variables of `relay`, with the part of `data` that `sendall` has not written yet, the standard input to come,
the standard output with the blocks that it shows, and all that was written to the socket. -/
structure BlockingRelay where
  /-- the standard input is a pipe -/
  pipe : Bool
  /-- `poll` knows the standard input -/
  registered : Bool
  done : Bool
  events : List Fd
  unsent : Bytes
  stdin : Bytes
  stdout : Bytes
  blocks : List Bytes
  written : Bytes
  shutWr : Bool

namespace BlockingRelay

def start (stdin : Bytes) (pipe : Bool) : BlockingRelay where
  pipe
  registered := true
  done := false
  events := []
  unsent := []
  stdin
  stdout := []
  blocks := []
  written := []
  shutWr := false

def socketReadable (x : BlockingRelay) (data : Bytes) : BlockingRelay :=
  if data ≠ [] then { x with stdout := x.stdout ++ str data, blocks := x.blocks ++ [data] } else { x with done := true }

def stdinReadable (x : BlockingRelay) (data : Bytes) : BlockingRelay :=
  if data ≠ [] then { x with unsent := data } else { x with shutWr := true, registered := false }

/-- `send` has written `k` bytes in the loop of `sendall`. -/
def sent (x : BlockingRelay) (k : ℕ) : BlockingRelay :=
  { x with unsent := x.unsent.drop k, written := x.written ++ x.unsent.take k }

/-- What `poll` may report, each descriptor with whether `POLLIN` is among its events; a `poll` that times out reports
nothing. It may leave out a descriptor that is ready. -/
def Pollable (x : BlockingRelay) (batch : List (Fd × Bool)) : Prop :=
  (batch.map Prod.fst).Nodup ∧ ((Fd.stdin, true) ∈ batch → ¬(x.pipe = true ∧ x.stdin = [])) ∧
    (Fd.stdin ∈ batch.map Prod.fst → x.registered = true)

instance (x : BlockingRelay) (batch : List (Fd × Bool)) : Decidable (x.Pollable batch) :=
  inferInstanceAs (Decidable (_ ∧ _))

/-- The events for which the loop does something. -/
def readable (batch : List (Fd × Bool)) : List Fd := (batch.filter Prod.snd).map Prod.fst

/-- What the relay does next: `poll` reports these descriptors, `os.read` returns so many bytes, or a call on the
socket. -/
inductive Choice
  | poll (batch : List (Fd × Bool))
  | stdin (k : ℕ)
  | socket

open Sockets in
def call (x : BlockingRelay) : Choice → Option (Call UInt8 BlockingRelay)
  | .poll batch =>
    if x.unsent = [] ∧ x.events = [] ∧ x.done = false ∧ x.Pollable batch then
      let events := readable batch
      some (if events = [] then .idle else .wait (decide (Fd.sock ∈ events)) false { x with events })
    else none
  | .stdin k =>
    match x.unsent, x.events with
    | [], .stdin :: events =>
      if StdinReturns x.stdin k then
        some (.wait false false ({ x with events, stdin := x.stdin.drop k }.stdinReadable (x.stdin.take k)))
      else none
    | _, _ => none
  | .socket =>
    match x.unsent, x.events with
    | [], .sock :: events => some (.read 8192 { x with events }.socketReadable)
    | [], _ => none
    | unsent, _ => some (.write unsent x.sent)

def returned (x : BlockingRelay) : Bool := x.done && x.events.isEmpty && x.unsent.isEmpty

def endpoint : Sockets.Endpoint UInt8 Choice BlockingRelay where
  call := call
  shut x := x.shutWr || x.returned

/-- How often the loop may still turn before it uses an event, or how many events there are. -/
def turns (x : BlockingRelay) : ℕ := if x.events = [] then if x.done = true then 0 else 5 else x.events.length

def account (x : BlockingRelay) : Sockets.Account UInt8 where
  written := x.written
  got := x.blocks.flatten
  ended := x.done
  polledIn := decide (Fd.sock ∈ x.events)
  polledOut := false
  work := 15 * x.stdin.length + 10 * x.unsent.length + (if x.shutWr = true then 0 else 5) + x.turns

/-- What was read is written in order, and the events are still to be expected when their turn comes. The end of a pipe
is not noticed. -/
structure Inv (inp : Bytes) (pipe : Bool) (x : BlockingRelay) : Prop where
  pipe_eq : x.pipe = pipe
  prints : x.stdout = printed x.blocks
  order : x.written ++ x.unsent ++ x.stdin = inp
  registered : x.registered = !x.shutWr
  drained : x.shutWr = true → x.stdin = [] ∧ x.unsent = []
  nodup : x.events.Nodup
  expects : Fd.stdin ∈ x.events → x.shutWr = false
  unnoticed : pipe = true → x.shutWr = false ∧ (Fd.stdin ∈ x.events → x.stdin ≠ [])

theorem Inv.start (inp : Bytes) (pipe : Bool) : Inv inp pipe (start inp pipe) where
  pipe_eq := rfl
  prints := rfl
  order := rfl
  registered := rfl
  drained := by simp [BlockingRelay.start]
  nodup := List.nodup_nil
  expects _ := rfl
  unnoticed _ := ⟨rfl, fun hmem => absurd hmem List.not_mem_nil⟩

theorem length_le_two {events : List Fd} (h : events.Nodup) : events.length ≤ 2 := by
  rcases events with _ | ⟨a, _ | ⟨b, _ | ⟨c, events⟩⟩⟩
  · decide
  · exact Nat.le_succ 1
  · exact Nat.le_refl 2
  · cases a <;> cases b <;> cases c <;> simp at h

section Readable
variable {batch : List (Fd × Bool)} {fd : Fd}

theorem mem_readable : fd ∈ readable batch ↔ (fd, true) ∈ batch := by
  simp [readable]

theorem nodup_readable (h : (batch.map Prod.fst).Nodup) : (readable batch).Nodup :=
  h.sublist (List.filter_sublist.map _)

end Readable

section Calls
variable {inp : Bytes} {x : BlockingRelay} {i : Choice} {c : Sockets.Call UInt8 BlockingRelay}

inductive Calls (x : BlockingRelay) : Choice → Sockets.Call UInt8 BlockingRelay → Prop
  | timeout {batch} : x.unsent = [] → x.events = [] → x.done = false → x.Pollable batch → readable batch = [] →
      Calls x (.poll batch) .idle
  | poll {batch} : x.unsent = [] → x.events = [] → x.done = false → x.Pollable batch → readable batch ≠ [] →
      Calls x (.poll batch) (.wait (decide (Fd.sock ∈ readable batch)) false { x with events := readable batch })
  | stdin {k events} : x.unsent = [] → x.events = .stdin :: events → StdinReturns x.stdin k → Calls x (.stdin k)
      (.wait false false ({ x with events, stdin := x.stdin.drop k }.stdinReadable (x.stdin.take k)))
  | recv {events} : x.unsent = [] → x.events = .sock :: events →
      Calls x .socket (.read 8192 { x with events }.socketReadable)
  | sendall : x.unsent ≠ [] → Calls x .socket (.write x.unsent x.sent)

theorem calls_of_call (h : x.call i = some c) : x.Calls i c := by
  cases i with
  | poll batch =>
    simp only [call] at h
    split at h
    · next hp =>
      obtain rfl := Option.some.inj h
      split
      · next hnone => exact .timeout hp.1 hp.2.1 hp.2.2.1 hp.2.2.2 hnone
      · next hsome => exact .poll hp.1 hp.2.1 hp.2.2.1 hp.2.2.2 hsome
    · cases h
  | stdin k =>
    simp only [call] at h
    split at h
    · next hunsent hevents =>
      split at h
      · next hk =>
        obtain rfl := Option.some.inj h
        exact .stdin hunsent hevents hk
      · cases h
    · cases h
  | socket =>
    simp only [call] at h
    split at h
    · next hunsent hevents =>
      obtain rfl := Option.some.inj h
      exact .recv hunsent hevents
    · cases h
    · next hne _ =>
      obtain rfl := Option.some.inj h
      exact .sendall hne

theorem call_of_calls (h : x.Calls i c) : x.call i = some c := by
  cases h with
  | timeout hunsent hnone hdone hp hempty =>
    simp only [call]
    rw [if_pos ⟨hunsent, hnone, hdone, hp⟩, if_pos hempty]
  | poll hunsent hnone hdone hp hsome =>
    simp only [call]
    rw [if_pos ⟨hunsent, hnone, hdone, hp⟩, if_neg hsome]
  | stdin hunsent hevents hk =>
    simp only [call, hunsent, hevents]
    exact if_pos hk
  | recv hunsent hevents => simp only [call, hunsent, hevents]
  | sendall hne =>
    simp only [call]
    split
    · exact absurd ‹_› hne
    · exact absurd ‹_› hne
    · rfl

end Calls

section Contract
open Sockets
variable {inp data : Bytes} {pipe : Bool} {x y : BlockingRelay} {i : Choice} {events : List Fd} {k : ℕ} {fd : Fd}
  {batch : List (Fd × Bool)}

theorem shut_of_events (hevents : x.events = fd :: events) : endpoint.shut x = x.shutWr := by
  simp [endpoint, returned, hevents]

theorem shut_of_unsent (hunsent : x.unsent ≠ []) : endpoint.shut x = x.shutWr := by
  simp [endpoint, returned, hunsent]

theorem turns_cons (hevents : x.events = fd :: events) : x.turns = events.length + 1 := by
  simp [turns, hevents]

theorem turns_le (x : BlockingRelay) : x.turns ≤ x.events.length + 5 := by
  unfold turns
  split
  · split <;> omega
  · omega

theorem turns_tail (hevents : x.events = fd :: events) : { x with events }.turns ≤ x.turns + 4 := by
  rw [turns_cons hevents]
  exact turns_le _

/-- `poll` reports events. -/
theorem Inv.poll (h : Inv inp pipe x) (hnone : x.events = []) (hdone : x.done = false) (hp : x.Pollable batch)
    (hne : readable batch ≠ []) : Inv inp pipe { x with events := readable batch } ∧
      Advances endpoint account 5 x [] [] { x with events := readable batch } := by
  obtain ⟨hfds, hpipe, hreg⟩ := hp
  have hnodup := nodup_readable hfds
  have hlen := length_le_two hnodup
  refine ⟨⟨h.pipe_eq, h.prints, h.order, h.registered, h.drained, hnodup, fun hmem => ?_, fun hp => ?_⟩, ?_⟩
  · have hstdin : Fd.stdin ∈ batch.map Prod.fst := List.mem_map.mpr ⟨_, mem_readable.mp hmem, rfl⟩
    have hreg := h.registered.symm.trans (hreg hstdin)
    simpa using hreg
  · exact ⟨(h.unnoticed hp).1, fun hmem hnil => hpipe (mem_readable.mp hmem) ⟨h.pipe_eq.trans hp, hnil⟩⟩
  · refine ⟨(List.append_nil _).symm, (List.append_nil _).symm, ?_, ?_⟩
    · simp [endpoint, returned, hdone]
    · simp [account, turns, hnone, hdone, hne]
      omega

/-- `os.read` returns data or comes to the end. -/
theorem Inv.stdin (h : Inv inp pipe x) (hunsent : x.unsent = []) (hevents : x.events = .stdin :: events)
    (hk : StdinReturns x.stdin k) (hy : y = { x with events, stdin := x.stdin.drop k }.stdinReadable (x.stdin.take k)) :
    Inv inp pipe y ∧ Advances endpoint account 5 x [] [] y ∧ y.done = x.done ∧ y.events = events := by
  obtain ⟨hnot, hnodup⟩ := List.nodup_cons.mp (hevents ▸ h.nodup)
  have hopen : x.shutWr = false := h.expects (hevents ▸ List.mem_cons_self)
  have hturns := turns_tail hevents
  have horder := h.order
  obtain ⟨-, hle, hend⟩ := hk
  have hshut : endpoint.shut x = true → endpoint.shut y = true := by
    rw [shut_of_events hevents, hopen]
    intro hs
    cases hs
  by_cases hk : k = 0
  · have hstdin := hend hk
    subst hk
    rw [stdinReadable, if_neg (by simp)] at hy
    subst hy
    refine ⟨⟨h.pipe_eq, h.prints, ?_, rfl, fun _ => ⟨?_, hunsent⟩, hnodup, fun hmem => absurd hmem hnot, fun hp => ?_⟩,
      ⟨?_, ?_, hshut, ?_⟩, rfl, rfl⟩
    · exact horder
    · exact hstdin
    · exact absurd hstdin ((h.unnoticed hp).2 (hevents ▸ List.mem_cons_self))
    · exact (List.append_nil _).symm
    · exact (List.append_nil _).symm
    · simp [account, hopen, turns] at hturns ⊢
      omega
  · have hlen : (x.stdin.take k).length = k := List.length_take_of_le hle
    have hne : x.stdin.take k ≠ [] := List.ne_nil_of_length_pos (by omega)
    rw [stdinReadable, if_pos hne] at hy
    subst hy
    refine ⟨⟨h.pipe_eq, h.prints, ?_, h.registered, ?_, hnodup, fun hmem => absurd hmem hnot, fun hp => ?_⟩,
      ⟨?_, ?_, hshut, ?_⟩, rfl, rfl⟩
    · rw [hunsent, List.append_nil] at horder
      dsimp only
      rw [List.append_assoc, List.take_append_drop, horder]
    · dsimp only
      rw [hopen]
      intro hs
      cases hs
    · exact ⟨(h.unnoticed hp).1, fun hmem => absurd hmem hnot⟩
    · exact (List.append_nil _).symm
    · exact (List.append_nil _).symm
    · simp [account, hopen, hunsent, hlen, turns] at hturns ⊢
      omega

/-- `recv` returns data or comes to the end. -/
theorem Inv.recv (h : Inv inp pipe x) (hevents : x.events = .sock :: events)
    (hy : y = { x with events }.socketReadable data) : Inv inp pipe y ∧ Advances endpoint account 5 x [] data y ∧
      (y.done = true → x.done = true ∨ data = []) ∧ Fd.sock ∉ y.events := by
  obtain ⟨hnot, hnodup⟩ := List.nodup_cons.mp (hevents ▸ h.nodup)
  have hexpects : Fd.stdin ∈ events → x.shutWr = false := fun hmem =>
    h.expects (hevents ▸ List.mem_cons_of_mem _ hmem)
  have hunnoticed : pipe = true → x.shutWr = false ∧ (Fd.stdin ∈ events → x.stdin ≠ []) := fun hp =>
    ⟨(h.unnoticed hp).1, fun hmem => (h.unnoticed hp).2 (hevents ▸ List.mem_cons_of_mem _ hmem)⟩
  have hturns := turns_tail hevents
  have hlen : x.events.length = events.length + 1 := by rw [hevents, List.length_cons]
  by_cases hdata : data = []
  · rw [socketReadable, if_neg (not_not.mpr hdata)] at hy
    subst hdata hy
    refine ⟨⟨h.pipe_eq, h.prints, h.order, h.registered, h.drained, hnodup, hexpects, hunnoticed⟩, ⟨?_, ?_, ?_, ?_⟩,
      fun _ => .inr rfl, hnot⟩
    · exact (List.append_nil _).symm
    · exact (List.append_nil _).symm
    · rw [shut_of_events hevents]
      intro hs
      simp [endpoint, hs]
    · simp only [account, turns, hevents]
      simp
      split <;> omega
  · rw [socketReadable, if_pos hdata] at hy
    subst hy
    refine ⟨⟨h.pipe_eq, ?_, h.order, h.registered, h.drained, hnodup, hexpects, hunnoticed⟩, ⟨?_, ?_, ?_, ?_⟩, .inl,
      hnot⟩
    · simp [printed, h.prints]
    · exact (List.append_nil _).symm
    · simp [account]
    · rw [shut_of_events hevents]
      intro hs
      simp [endpoint, hs]
    · have hpos := List.length_pos_of_ne_nil hdata
      simp [account, turns] at hturns ⊢
      omega

/-- `sendall` writes a part of the data. -/
theorem Inv.sendall (h : Inv inp pipe x) (hne : x.unsent ≠ []) (hpos : 0 < k) (hk : k ≤ x.unsent.length) :
    Inv inp pipe (x.sent k) ∧ Advances endpoint account 5 x (x.unsent.take k) [] (x.sent k) := by
  have hopen : x.shutWr = false := Bool.eq_false_iff.mpr fun hs => hne (h.drained hs).2
  refine ⟨⟨h.pipe_eq, h.prints, ?_, h.registered, ?_, h.nodup, h.expects, h.unnoticed⟩, ⟨rfl, ?_, ?_, ?_⟩⟩
  · rw [← h.order, sent, List.append_assoc x.written, List.take_append_drop]
  · intro hs
    cases hopen.symm.trans hs
  · exact (List.append_nil _).symm
  · rw [shut_of_unsent hne, hopen]
    intro hs
    cases hs
  · change 15 * x.stdin.length + 10 * (x.unsent.drop k).length + (if x.shutWr = true then 0 else 5) + x.turns +
      5 * (x.unsent.take k).length < 15 * x.stdin.length + 10 * x.unsent.length +
      (if x.shutWr = true then 0 else 5) + x.turns + 0
    rw [List.length_drop, List.length_take_of_le hk]
    omega

theorem timeout (hunsent : x.unsent = []) (hnone : x.events = []) (hdone : x.done = false) :
    endpoint.call x (.poll []) = some .idle := by
  have hp : x.Pollable [] :=
    ⟨List.nodup_nil, fun hmem => absurd hmem List.not_mem_nil, fun hmem => absurd hmem List.not_mem_nil⟩
  exact call_of_calls (.timeout hunsent hnone hdone hp rfl)

/-- `poll` may report one descriptor that can be read. -/
theorem poll_one (hunsent : x.unsent = []) (hnone : x.events = []) (hdone : x.done = false)
    (hfd : fd = .stdin → x.registered = true ∧ ¬(x.pipe = true ∧ x.stdin = [])) :
    endpoint.call x (.poll [(fd, true)]) = some (.wait (decide (Fd.sock ∈ [fd])) false { x with events := [fd] }) := by
  have hp : x.Pollable [(fd, true)] := by
    refine ⟨List.nodup_cons.mpr ⟨List.not_mem_nil, List.nodup_nil⟩, fun hmem => ?_, fun hmem => ?_⟩
    · exact (hfd (Prod.mk.inj (List.mem_singleton.mp hmem)).1.symm).2
    · exact (hfd (List.mem_singleton.mp hmem).symm).1
  exact call_of_calls (.poll hunsent hnone hdone hp (List.cons_ne_nil fd []))

/-- While the relay has not returned there is something to do, and it only waits for the other side when it has shut
down its own, or does not learn of the end of a pipe. -/
theorem Inv.returned_or_call (h : Inv inp pipe x) : x.returned = true ∨ ∃ i c, endpoint.call x i = some c ∧
    (c.Prompt (account x) ∨ c.Sends ∧ endpoint.shut x = false ∨
      c.Receives ∧ (endpoint.shut x = true ∨ pipe = true ∧ ∃ j, endpoint.call x j = some .idle)) := by
  by_cases hunsent : x.unsent = []
  · cases hevents : x.events with
    | nil =>
      by_cases hdone : x.done = true
      · exact .inl (by simp [returned, hdone, hevents, hunsent])
      · rw [Bool.not_eq_true] at hdone
        right
        have hsock : ∃ c, endpoint.call x (.poll [(.sock, true)]) = some c ∧ c.Receives :=
          ⟨_, poll_one hunsent hevents hdone nofun, rfl⟩
        by_cases hreg : x.registered = true
        · by_cases hend : x.pipe = true ∧ x.stdin = []
          · obtain ⟨c, hcall, hc⟩ := hsock
            exact ⟨_, c, hcall, .inr (.inr ⟨hc, .inr ⟨h.pipe_eq.symm.trans hend.1, _, timeout hunsent hevents hdone⟩⟩)⟩
          · refine ⟨.poll [(.stdin, true)], _, poll_one hunsent hevents hdone fun _ => ⟨hreg, hend⟩, .inl ⟨?_, rfl⟩⟩
            exact decide_eq_false (by decide)
        · have hshut : x.shutWr = true := by simpa using h.registered.symm.trans (Bool.eq_false_iff.mpr hreg)
          obtain ⟨c, hcall, hc⟩ := hsock
          exact ⟨_, c, hcall, .inr (.inr ⟨hc, .inl (by simp [endpoint, hshut])⟩)⟩
    | cons fd events =>
      right
      cases fd with
      | sock =>
        refine ⟨.socket, .read 8192 _, call_of_calls (.recv hunsent hevents), .inl ⟨by decide, ?_⟩⟩
        simp [account, hevents]
      | stdin =>
        obtain ⟨k, hk⟩ := exists_stdinReturns x.stdin
        exact ⟨.stdin k, _, call_of_calls (.stdin hunsent hevents hk), .inl ⟨rfl, rfl⟩⟩
  · refine .inr ⟨.socket, .write x.unsent x.sent, call_of_calls (.sendall hunsent), .inr (.inl ⟨hunsent, ?_⟩)⟩
    rw [shut_of_unsent hunsent]
    exact Bool.eq_false_iff.mpr fun hs => hunsent (h.drained hs).2

theorem gone_of_returned (h : x.returned = true) : endpoint.Gone x := by
  simp only [returned, Bool.and_eq_true, List.isEmpty_iff] at h
  obtain ⟨⟨hdone, hevents⟩, hunsent⟩ := h
  intro i
  cases hcall : endpoint.call x i with
  | none => rfl
  | some c =>
    cases calls_of_call hcall with
    | timeout _ _ hnot => cases hdone.symm.trans hnot
    | poll _ _ hnot => cases hdone.symm.trans hnot
    | stdin _ hcons => cases hevents.symm.trans hcons
    | recv _ hcons => cases hevents.symm.trans hcons
    | sendall hne => exact absurd hunsent hne

theorem Inv.returned_of_gone (h : Inv inp pipe x) (hgone : endpoint.Gone x) : x.returned = true := by
  rcases h.returned_or_call with hr | ⟨i, c, hcall, -⟩
  · exact hr
  · cases (hgone i).symm.trans hcall

theorem honours (inp : Bytes) (pipe : Bool) : Honours endpoint (Inv inp pipe) account 5 where
  wait {x i pollin pollout y} h hcall := by
    cases calls_of_call hcall with
    | poll hunsent hnone hdone hp hsome =>
      obtain ⟨hinv, hadv⟩ := h.poll hnone hdone hp hsome
      exact ⟨hinv, hadv, rfl, .inr, .inl⟩
    | stdin hunsent hevents hk =>
      obtain ⟨hinv, hadv, hdone, hrest⟩ := h.stdin hunsent hevents hk rfl
      refine ⟨hinv, hadv, hdone, fun hp => .inl ?_, .inl⟩
      simp only [account, hrest, decide_eq_true_eq] at hp
      simp only [account, hevents, List.mem_cons, hp, or_true, decide_true]
  write {x i data next} h hcall := by
    cases calls_of_call hcall with
    | sendall hne =>
      refine ⟨?_, fun k hpos hk => ?_⟩
      · rw [shut_of_unsent hne]
        exact Bool.eq_false_iff.mpr fun hs => hne (h.drained hs).2
      · obtain ⟨hinv, hadv⟩ := h.sendall hne hpos hk
        exact ⟨hinv, hadv, rfl, id, rfl⟩
  tryWrite _ hcall := by cases calls_of_call hcall
  read {x i count next} h hcall data _ := by
    cases calls_of_call hcall with
    | recv hunsent hevents =>
      obtain ⟨hinv, hadv, hended, hnot⟩ := h.recv hevents rfl
      exact ⟨hinv, hadv, hended, decide_eq_false hnot, id⟩
  gone {x} h hgone := by
    have hr := h.returned_of_gone hgone
    refine ⟨?_, by simp [endpoint, hr]⟩
    simp only [returned, Bool.and_eq_true] at hr
    exact hr.1.1

theorem lively (inp : Bytes) (pipe : Bool) : Lively endpoint (Inv inp pipe) account (pipe = true) := by
  intro x h
  rcases h.returned_or_call with hr | ⟨i, c, hcall, hc⟩
  · exact .inl (gone_of_returned hr)
  · exact .inr ⟨i, c, hcall, hc⟩

end Contract

end BlockingRelay

end LinuxSocket.Netcat
