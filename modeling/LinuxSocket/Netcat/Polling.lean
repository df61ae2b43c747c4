import Mathlib.Data.List.Nodup
import LinuxSocket.Netcat.Backpressure
import LinuxSocket.Netcat.Blocking

/-! # The non-blocking netcat at its socket

The events of `poll` are taken apart into those that can be read and those that can be written, and what the calls
return comes from the socket.
-/
namespace LinuxSocket.Netcat

namespace Event

def sockIn : Event := ⟨.sock, ⟨true, false⟩⟩

def sockOut : Event := ⟨.sock, ⟨false, true⟩⟩

def stdinIn : Event := ⟨.stdin, ⟨true, false⟩⟩

/-- The two parts of the body of the loop over the events. There are none for `POLLHUP` alone. -/
def parts (e : Event) : List Event :=
  (if e.events.pollin = true then [⟨e.fd, ⟨true, false⟩⟩] else []) ++
    if e.events.pollout = true then [⟨e.fd, ⟨false, true⟩⟩] else []

end Event

instance (s : Relay) (e : Event) : Decidable (s.Expects e) :=
  match h : s.poll e.fd with
  | none => isFalse fun ⟨_, hm, _⟩ => by rw [h] at hm; cases hm
  | some m =>
    if hm : (e.events.pollin = true → m.pollin = true) ∧ (e.events.pollout = true → m.pollout = true) then
      isTrue ⟨m, h, hm⟩
    else isFalse fun ⟨_, hm', hrest⟩ => hm (Option.some.inj (h.symm.trans hm') ▸ hrest)

/-- `relay` with the parts of the events that it has not handled yet, the exception that has ended it, the standard
input to come and the standard output with the blocks that it shows. -/
structure PollingRelay where
  relay : Relay
  events : List Event
  failure : Option Failure
  /-- the standard input is a pipe -/
  pipe : Bool
  stdin : Bytes
  stdout : Bytes
  blocks : List Bytes

namespace PollingRelay

def start (stdin : Bytes) (pipe : Bool) : PollingRelay := ⟨.start, [], none, pipe, stdin, [], []⟩

/-- What `poll` may report; one that times out reports nothing. It may leave out a descriptor that is ready. -/
def Pollable (x : PollingRelay) (batch : List Event) : Prop :=
  (batch.map Event.fd).Nodup ∧ ∀ e ∈ batch, x.relay.Expects e ∧
    (Event.stdinIn ∈ e.parts → ¬(x.pipe = true ∧ x.stdin = []))

instance (x : PollingRelay) (batch : List Event) : Decidable (x.Pollable batch) := inferInstanceAs (Decidable (_ ∧ _))

/-- How `os.write` ends that has written `n` bytes. -/
def answer (n : ℕ) : Write := if n = 0 then .wouldBlock else .wrote n

def handled (x : PollingRelay) (e : Event) (events : List Event) (a : Answers) : PollingRelay :=
  match x.relay.handle e a with
  | .ok relay => { x with relay, events }
  | .error failure => { x with failure := some failure }

def received (x : PollingRelay) (events : List Event) (data : Bytes) : PollingRelay :=
  let x := if data ≠ [] then { x with stdout := x.stdout ++ str data, blocks := x.blocks ++ [data] } else x
  x.handled .sockIn events ⟨data, .wouldBlock⟩

/-- What the relay does next: `poll` reports these events, `os.read` returns so many bytes, or a call on the socket. -/
inductive Choice
  | poll (batch : List Event)
  | stdin (k : ℕ)
  | socket

open Sockets in
def call (x : PollingRelay) : Choice → Option (Call UInt8 PollingRelay)
  | .poll batch =>
    if x.failure = none ∧ x.events = [] ∧ x.relay.done = false ∧ x.Pollable batch then
      let events := batch.flatMap Event.parts
      some (if events = [] then .idle
        else .wait (decide (Event.sockIn ∈ events)) (decide (Event.sockOut ∈ events)) { x with events })
    else none
  | .stdin k =>
    match x.events with
    | [] => none
    | e :: events =>
      if x.failure = none ∧ e = .stdinIn ∧ StdinReturns x.stdin k then
        let data := x.stdin.take k
        let x := { x with stdin := x.stdin.drop k }
        some (if data = [] then .wait false false (x.handled e events ⟨[], .wouldBlock⟩)
          else .tryWrite data fun n => x.handled e events ⟨data, answer n⟩)
      else none
  | .socket =>
    match x.events with
    | [] => none
    | e :: events =>
      if x.failure = none ∧ e = .sockIn then some (.read 8192 (x.received events))
      else if x.failure = none ∧ e = .sockOut then
        some (.tryWrite x.relay.socketOutputBuffer fun n => x.handled e events ⟨[], answer n⟩)
      else none

def returned (x : PollingRelay) : Bool := x.relay.done && x.events.isEmpty

def endpoint : Sockets.Endpoint UInt8 Choice PollingRelay where
  call := call
  shut x := x.relay.shutWr || x.returned || x.failure.isSome

/-- How often the loop may still turn before it uses an event, or how many events there are. -/
def turns (x : PollingRelay) : ℕ := if x.events = [] then if x.relay.done = true then 0 else 5 else x.events.length

def account (x : PollingRelay) : Sockets.Account UInt8 where
  written := x.relay.written
  got := x.blocks.flatten
  ended := x.relay.done
  polledIn := decide (Event.sockIn ∈ x.events)
  polledOut := decide (Event.sockOut ∈ x.events)
  work := 15 * x.stdin.length + 10 * x.relay.socketOutputBuffer.length + (if x.relay.shutWr = true then 0 else 5) +
    x.turns

/-- The relay is sound, and the events are parts that are still registered. The end of a pipe is not noticed. -/
structure Inv (inp : Bytes) (pipe : Bool) (x : PollingRelay) : Prop where
  pipe_eq : x.pipe = pipe
  prints : x.stdout = printed x.blocks
  sound : x.relay.Sound
  order : x.relay.readBytes ++ x.stdin = inp
  drained : x.relay.shutWr = true → x.stdin = []
  no_failure : x.failure = none
  nodup : x.events.Nodup
  expects : ∀ e ∈ x.events, x.relay.Expects e
  parts : ∀ e ∈ x.events, e = .sockIn ∨ e = .sockOut ∨ e = .stdinIn
  unnoticed : pipe = true → x.relay.shutWr = false ∧ (Event.stdinIn ∈ x.events → x.stdin ≠ [])

theorem Inv.start (inp : Bytes) (pipe : Bool) : Inv inp pipe (start inp pipe) where
  pipe_eq := rfl
  prints := rfl
  sound := Relay.Inv.start.sound
  order := rfl
  drained h := by cases h
  no_failure := rfl
  nodup := List.nodup_nil
  expects _ he := absurd he List.not_mem_nil
  parts _ he := absurd he List.not_mem_nil
  unnoticed _ := ⟨rfl, fun he => absurd he List.not_mem_nil⟩

section Parts
variable {s : Relay} {e e' : Event} {batch : List Event}

theorem mem_parts (h : e' ∈ e.parts) : e'.fd = e.fd ∧
    (e'.events = ⟨true, false⟩ ∧ e.events.pollin = true ∨ e'.events = ⟨false, true⟩ ∧ e.events.pollout = true) := by
  rw [Event.parts, List.mem_append] at h
  rcases h with h | h
  · split at h
    · next hin =>
      obtain rfl := List.mem_singleton.mp h
      exact ⟨rfl, .inl ⟨rfl, hin⟩⟩
    · cases h
  · split at h
    · next hout =>
      obtain rfl := List.mem_singleton.mp h
      exact ⟨rfl, .inr ⟨rfl, hout⟩⟩
    · cases h

theorem length_parts_le (e : Event) : e.parts.length ≤ 2 := by
  rw [Event.parts, List.length_append]
  split <;> split <;> simp

theorem nodup_parts (e : Event) : e.parts.Nodup := by
  rw [Event.parts]
  split <;> split <;> simp

/-- A part of an event that is registered is registered. -/
theorem expects_part (h : s.Expects e) (hmem : e' ∈ e.parts) : s.Expects e' := by
  obtain ⟨m, hm, hin, hout⟩ := h
  obtain ⟨hfd, ⟨hevents, hpollin⟩ | ⟨hevents, hpollout⟩⟩ := mem_parts hmem
  · exact ⟨m, hfd ▸ hm, fun _ => hin hpollin, fun hp => by rw [hevents] at hp; cases hp⟩
  · exact ⟨m, hfd ▸ hm, fun hp => (by rw [hevents] at hp; cases hp), fun _ => hout hpollout⟩

/-- What the relay waits for. -/
theorem registered_cases (hs : s.Sound) (h : s.Expects e) (hmem : e' ∈ e.parts) :
    e' = .sockIn ∨ e' = .sockOut ∨ e' = .stdinIn := by
  obtain ⟨m, hm, hin, hout⟩ := h
  obtain ⟨fd, events⟩ := e
  obtain ⟨fd', events'⟩ := e'
  obtain ⟨hfd, hparts⟩ := mem_parts hmem
  dsimp only at hfd hparts hm hin hout
  subst hfd
  cases fd' with
  | sock =>
    rcases hparts with ⟨rfl, -⟩ | ⟨rfl, -⟩
    · exact .inl rfl
    · exact .inr (.inl rfl)
  | stdin =>
    rcases hparts with ⟨rfl, -⟩ | ⟨rfl, hpollout⟩
    · exact .inr (.inr rfl)
    · have hm' : m.pollout = false := by
        cases hs.phase with
        | reading hstdin => rw [hstdin] at hm; cases hm; rfl
        | flushing hstdin => rw [hstdin] at hm; cases hm
        | ended hstdin => rw [hstdin] at hm; cases hm
      cases (hout hpollout).symm.trans hm'

theorem nodup_flatMap_parts (h : (batch.map Event.fd).Nodup) : (batch.flatMap Event.parts).Nodup := by
  rw [List.nodup_flatMap]
  refine ⟨fun e _ => nodup_parts e, ?_⟩
  rw [List.Nodup, List.pairwise_map] at h
  refine h.imp fun hne => ?_
  intro e he he'
  exact hne ((mem_parts he).1.symm.trans (mem_parts he').1)

theorem length_flatMap_parts_le (batch : List Event) : (batch.flatMap Event.parts).length ≤ 2 * batch.length := by
  induction batch with
  | nil => exact Nat.le_refl 0
  | cons e batch ih =>
    have he := length_parts_le e
    rw [List.flatMap_cons, List.length_append, List.length_cons]
    omega

end Parts

section Handlers
variable {s s' : Relay} {data : Bytes} {w : Write} {fd : Fd}

theorem unregister_eq (h : s.unregister fd = .ok s') : ∃ poll, s' = { s with poll } := by
  unfold Relay.unregister at h
  split at h
  · cases h
  · obtain rfl := Except.ok.inj h
    exact ⟨_, rfl⟩

/-- What the handling of the standard input leaves alone. -/
theorem stdinReadable_fields (h : s.stdinReadable data w = .ok s') : s'.done = s.done ∧
    (data ≠ [] → s'.written = s.written ++ w.part data ∧ s'.readBytes = s.readBytes ++ data ∧ s'.shutWr = s.shutWr) ∧
    (data = [] → s'.written = s.written ∧ s'.readBytes = s.readBytes ∧ s'.shutWr = true ∧
      s'.socketOutputBuffer = s.socketOutputBuffer) := by
  by_cases hdata : data ≠ []
  · rw [Relay.stdinReadable, if_pos hdata] at h
    split at h
    · cases h
    · split at h
      · cases h
      · split at h
        · obtain ⟨poll, rfl⟩ := unregister_eq h
          exact ⟨rfl, fun _ => ⟨rfl, rfl, rfl⟩, fun hnil => absurd hnil hdata⟩
        · obtain rfl := Except.ok.inj h
          exact ⟨rfl, fun _ => ⟨rfl, rfl, rfl⟩, fun hnil => absurd hnil hdata⟩
  · rw [Relay.stdinReadable, if_neg hdata] at h
    obtain ⟨poll, rfl⟩ := unregister_eq h
    exact ⟨rfl, fun hne => absurd hne hdata, fun _ => ⟨rfl, rfl, rfl, rfl⟩⟩

theorem socketWritable_fields (h : s.socketWritable w = .ok s') : s'.done = s.done ∧
    s'.written = s.written ++ w.part s.socketOutputBuffer ∧ s'.readBytes = s.readBytes ∧ s'.shutWr = s.shutWr := by
  unfold Relay.socketWritable at h
  split at h
  · cases h
  · split at h
    · cases h
    · dsimp only at h
      split at h
      · split at h
        · cases h
        · obtain rfl := Except.ok.inj h
          exact ⟨rfl, rfl, rfl, rfl⟩
      · obtain rfl := Except.ok.inj h
        exact ⟨rfl, rfl, rfl, rfl⟩

theorem handle_stdinIn (s : Relay) (a : Answers) : s.handle .stdinIn a = s.stdinReadable a.data a.write :=
  bind_pure (s.stdinReadable a.data a.write)

theorem handle_sockOut (s : Relay) (a : Answers) : s.handle .sockOut a = s.socketWritable a.write := rfl

/-- The socket is always registered for reading. -/
theorem expects_sockIn (h : s.Sound) : s.Expects .sockIn := by
  cases h.phase with
  | reading _ hsock => exact ⟨_, hsock, fun _ => rfl, fun hout => by cases hout⟩
  | flushing _ hsock => exact ⟨_, hsock, fun _ => rfl, fun hout => by cases hout⟩
  | ended _ hsock => exact ⟨_, hsock, fun _ => rfl, fun hout => by cases hout⟩

theorem buffer_of_sockOut (h : s.Sound) (he : s.Expects .sockOut) : s.socketOutputBuffer ≠ [] ∧ s.shutWr = false := by
  obtain ⟨m, hm, -, hout⟩ := he
  cases h.phase with
  | reading _ hsock =>
    obtain rfl := Option.some.inj (hsock.symm.trans hm)
    cases hout rfl
  | flushing _ _ _ hbuffer hshut => exact ⟨hbuffer, hshut⟩
  | ended _ hsock =>
    obtain rfl := Option.some.inj (hsock.symm.trans hm)
    cases hout rfl

theorem reading_of_stdinIn (h : s.Sound) (he : s.Expects .stdinIn) : s.socketOutputBuffer = [] ∧ s.shutWr = false := by
  obtain ⟨m, hm, -⟩ := he
  cases h.phase with
  | reading _ _ _ hbuffer hshut => exact ⟨hbuffer, hshut⟩
  | flushing hstdin => cases hstdin.symm.trans hm
  | ended hstdin => cases hstdin.symm.trans hm

end Handlers

section Contract
open Sockets

inductive Calls (x : PollingRelay) : Choice → Call UInt8 PollingRelay → Prop
  | timeout {batch} : x.events = [] → x.relay.done = false → x.Pollable batch → batch.flatMap Event.parts = [] →
      Calls x (.poll batch) .idle
  | poll {batch} : x.events = [] → x.relay.done = false → x.Pollable batch → batch.flatMap Event.parts ≠ [] →
      Calls x (.poll batch)
      (.wait (decide (Event.sockIn ∈ batch.flatMap Event.parts)) (decide (Event.sockOut ∈ batch.flatMap Event.parts))
        { x with events := batch.flatMap Event.parts })
  | eof {k events} : x.events = .stdinIn :: events → StdinReturns x.stdin k → x.stdin.take k = [] →
      Calls x (.stdin k)
        (.wait false false ({ x with stdin := x.stdin.drop k }.handled .stdinIn events ⟨[], .wouldBlock⟩))
  | stdin {k events} : x.events = .stdinIn :: events → StdinReturns x.stdin k → x.stdin.take k ≠ [] →
      Calls x (.stdin k) (.tryWrite (x.stdin.take k) fun n =>
        { x with stdin := x.stdin.drop k }.handled .stdinIn events ⟨x.stdin.take k, answer n⟩)
  | recv {events} : x.events = .sockIn :: events → Calls x .socket (.read 8192 (x.received events))
  | flush {events} : x.events = .sockOut :: events → Calls x .socket
      (.tryWrite x.relay.socketOutputBuffer fun n => x.handled .sockOut events ⟨[], answer n⟩)

variable {inp data : Bytes} {pipe : Bool} {x y : PollingRelay} {e : Event} {events batch : List Event} {a : Answers} {j : Choice}
  {c : Call UInt8 PollingRelay} {k : ℕ} {r : Relay}

theorem calls_of_call (h : x.call j = some c) : x.Calls j c := by
  cases j with
  | poll batch =>
    simp only [call] at h
    split at h
    · next hp =>
      obtain rfl := Option.some.inj h
      split
      · next hnone => exact .timeout hp.2.1 hp.2.2.1 hp.2.2.2 hnone
      · next hsome => exact .poll hp.2.1 hp.2.2.1 hp.2.2.2 hsome
    · cases h
  | stdin k =>
    simp only [call] at h
    split at h
    · cases h
    · next e events hevents =>
      split at h
      · next hp =>
        obtain ⟨-, rfl, hk⟩ := hp
        obtain rfl := Option.some.inj h
        split
        · next hnil => exact .eof hevents hk hnil
        · next hne => exact .stdin hevents hk hne
      · cases h
  | socket =>
    simp only [call] at h
    split at h
    · cases h
    · next e events hevents =>
      split at h
      · next hp =>
        obtain rfl := hp.2
        obtain rfl := Option.some.inj h
        exact .recv hevents
      · split at h
        · next hp =>
          obtain rfl := hp.2
          obtain rfl := Option.some.inj h
          exact .flush hevents
        · cases h

theorem call_of_calls (hok : x.failure = none) (h : x.Calls j c) : x.call j = some c := by
  cases h with
  | timeout hnone hdone hp hempty =>
    simp only [call]
    rw [if_pos ⟨hok, hnone, hdone, hp⟩, if_pos hempty]
  | poll hnone hdone hp hsome =>
    simp only [call]
    rw [if_pos ⟨hok, hnone, hdone, hp⟩, if_neg hsome]
  | eof hevents hk hnil =>
    simp only [call, hevents]
    rw [if_pos ⟨hok, trivial, hk⟩, if_pos hnil]
  | stdin hevents hk hne =>
    simp only [call, hevents]
    rw [if_pos ⟨hok, trivial, hk⟩, if_neg hne]
  | recv hevents =>
    simp only [call, hevents]
    exact if_pos ⟨hok, trivial⟩
  | flush hevents =>
    simp only [call, hevents]
    rw [if_neg (fun hp => by cases hp.2), if_pos ⟨hok, trivial⟩]

/-- An event raises nothing, and the events behind it are still registered. -/
theorem Inv.handle (h : Inv inp pipe x) (hevents : x.events = e :: events) (ha : x.relay.Allowed e a) :
    ∃ r, x.relay.handle e a = .ok r ∧ r.Sound ∧ e ∉ events ∧ events.Nodup ∧ ∀ e' ∈ events, r.Expects e' := by
  obtain ⟨hnot, hnodup⟩ := List.nodup_cons.mp (hevents ▸ h.nodup)
  have hmem : e ∈ x.events := hevents ▸ List.mem_cons_self
  have htail : ∀ e' ∈ events, e' ∈ x.events := fun e' he' => hevents ▸ List.mem_cons_of_mem e he'
  obtain ⟨r, hr, hsound, hother⟩ := h.sound.handle (h.expects e hmem) ha
  refine ⟨r, hr, hsound, hnot, hnodup, fun e' he' => ?_⟩
  by_cases hfd : e'.fd = e.fd
  · rcases h.parts e' (htail e' he') with rfl | rfl | rfl
    · exact expects_sockIn hsound
    · rcases h.parts e hmem with rfl | rfl | rfl
      · obtain rfl := Except.ok.inj hr
        obtain ⟨m, hm, hp⟩ := h.expects _ (htail _ he')
        exact ⟨m, (congrFun Relay.socketReadable_poll _).trans hm, hp⟩
      · exact absurd he' hnot
      · cases hfd
    · rcases h.parts e hmem with rfl | rfl | rfl
      · cases hfd
      · cases hfd
      · exact absurd he' hnot
  · exact hother e' hfd (h.expects e' (htail e' he'))

theorem handled_ok (hr : x.relay.handle e a = .ok r) : x.handled e events a = { x with relay := r, events } := by
  rw [handled, hr]

theorem shut_of_events (h : Inv inp pipe x) (hevents : x.events = e :: events) : endpoint.shut x = x.relay.shutWr := by
  simp [endpoint, returned, hevents, h.no_failure]

theorem turns_cons (hevents : x.events = e :: events) : x.turns = events.length + 1 := by
  simp [turns, hevents]

theorem turns_le (x : PollingRelay) : x.turns ≤ x.events.length + 5 := by
  unfold turns
  split
  · split <;> omega
  · omega

theorem parts_tail (h : Inv inp pipe x) (hevents : x.events = e :: events) :
    ∀ e' ∈ events, e' = .sockIn ∨ e' = .sockOut ∨ e' = .stdinIn := fun e' he' =>
  h.parts e' (hevents ▸ List.mem_cons_of_mem e he')

theorem unnoticed_tail (h : Inv inp pipe x) (hevents : x.events = e :: events) :
    pipe = true → Event.stdinIn ∈ events → x.stdin ≠ [] := fun hp he' =>
  (h.unnoticed hp).2 (hevents ▸ List.mem_cons_of_mem e he')

/-- `poll` reports events. -/
theorem Inv.poll (h : Inv inp pipe x) (hnone : x.events = []) (hdone : x.relay.done = false) (hp : x.Pollable batch)
    (hsome : batch.flatMap Event.parts ≠ []) : Inv inp pipe { x with events := batch.flatMap Event.parts } ∧
      Advances endpoint account 5 x [] [] { x with events := batch.flatMap Event.parts } := by
  obtain ⟨hnodup, hreg⟩ := hp
  have hparts : ∀ e' ∈ batch.flatMap Event.parts, x.relay.Expects e' ∧ (e' = .sockIn ∨ e' = .sockOut ∨ e' = .stdinIn) := by
    intro e' he'
    obtain ⟨e, he, hpart⟩ := List.mem_flatMap.mp he'
    exact ⟨expects_part (hreg e he).1 hpart, registered_cases h.sound (hreg e he).1 hpart⟩
  have hlen := length_flatMap_parts_le batch
  have htwo := BlockingRelay.length_le_two hnodup
  rw [List.length_map] at htwo
  refine ⟨⟨h.pipe_eq, h.prints, h.sound, h.order, h.drained, h.no_failure, nodup_flatMap_parts hnodup,
    fun e he => (hparts e he).1, fun e he => (hparts e he).2, fun hp => ⟨(h.unnoticed hp).1, fun he' hnil => ?_⟩⟩,
    (List.append_nil _).symm, (List.append_nil _).symm, ?_, ?_⟩
  · obtain ⟨e, he, hpart⟩ := List.mem_flatMap.mp he'
    exact (hreg e he).2 hpart ⟨h.pipe_eq.trans hp, hnil⟩
  · simp only [endpoint, returned, hdone, Bool.false_and, Bool.or_false]
    exact id
  · simp only [account, turns, hnone, hdone, if_neg hsome, if_true, List.length_nil]
    rw [if_neg Bool.false_ne_true]
    omega

/-- `os.read` has come to the end. -/
theorem Inv.eof (h : Inv inp pipe x) (hevents : x.events = .stdinIn :: events) (hk : StdinReturns x.stdin k)
    (hnil : x.stdin.take k = [])
    (hy : y = { x with stdin := x.stdin.drop k }.handled .stdinIn events ⟨[], .wouldBlock⟩) :
    Inv inp pipe y ∧ Advances endpoint account 5 x [] [] y ∧ y.relay.done = x.relay.done ∧ y.events = events := by
  obtain ⟨r, hr, hsound, hnot, hnodup, hexpects⟩ := h.handle hevents (a := ⟨[], .wouldBlock⟩) ⟨Nat.zero_le _, .inl rfl⟩
  have hopen := (reading_of_stdinIn h.sound (h.expects _ (hevents ▸ List.mem_cons_self))).2
  have hfields := stdinReadable_fields ((handle_stdinIn _ _).symm.trans hr)
  obtain ⟨hwritten, hread, hshut, hbuffer⟩ := hfields.2.2 rfl
  have hstdin : x.stdin = [] := by
    rcases List.take_eq_nil_iff.mp hnil with hzero | hstdin
    · exact hk.2.2 hzero
    · exact hstdin
  rw [handled_ok (x := { x with stdin := x.stdin.drop k }) hr] at hy
  subst hy
  have hturns := turns_le { x with relay := r, events, stdin := x.stdin.drop k }
  have hcons := turns_cons hevents
  have hopened : pipe = true → False := fun hp => (h.unnoticed hp).2 (hevents ▸ List.mem_cons_self) hstdin
  refine ⟨⟨h.pipe_eq, h.prints, hsound, ?_, fun _ => ?_, h.no_failure, hnodup, hexpects, parts_tail h hevents,
    fun hp => (hopened hp).elim⟩, ⟨?_, ?_, ?_, ?_⟩, hfields.1, rfl⟩
  · dsimp only
    rw [hread, hstdin, List.drop_nil]
    exact hstdin ▸ h.order
  · dsimp only
    rw [hstdin, List.drop_nil]
  · exact hwritten.trans (List.append_nil _).symm
  · exact (List.append_nil _).symm
  · rw [shut_of_events h hevents, hopen]
    intro hs
    cases hs
  · simp only [account, hbuffer, hshut, hopen, hstdin] at hturns ⊢
    simp only [List.drop_nil, if_true, Bool.false_eq_true, if_false, List.length_nil] at hturns ⊢
    omega

theorem part_answer (n : ℕ) (data : Bytes) : (answer n).part data = data.take n := by
  rw [answer]
  split
  · next hn => rw [hn]; rfl
  · rfl

/-- The lengths behind the order of the bytes. -/
theorem length_written (h : r.Sound) : r.written.length + r.socketOutputBuffer.length = r.readBytes.length := by
  rw [← h.order, List.length_append]

/-- `os.read` returns data, and `os.write` takes `n` bytes of it. -/
theorem Inv.stdin {n : ℕ} (h : Inv inp pipe x) (hevents : x.events = .stdinIn :: events) (hk : StdinReturns x.stdin k)
    (hne : x.stdin.take k ≠ []) (hn : n ≤ (x.stdin.take k).length)
    (hy : y = { x with stdin := x.stdin.drop k }.handled .stdinIn events ⟨x.stdin.take k, answer n⟩) :
    Inv inp pipe y ∧ Advances endpoint account 5 x ((x.stdin.take k).take n) [] y ∧ y.relay.done = x.relay.done ∧
      y.events = events := by
  have hallowed : x.relay.Allowed .stdinIn ⟨x.stdin.take k, answer n⟩ := by
    refine ⟨?_, ?_⟩
    · exact (List.length_take_le _ _).trans hk.1
    · dsimp only [Event.stdinIn, answer]
      split
      · exact .inl rfl
      · exact .inr ⟨n, hn, rfl⟩
  obtain ⟨r, hr, hsound, hnot, hnodup, hexpects⟩ := h.handle hevents hallowed
  obtain ⟨hbuffer, hopen⟩ := reading_of_stdinIn h.sound (h.expects _ (hevents ▸ List.mem_cons_self))
  obtain ⟨hdone, hfields, -⟩ := stdinReadable_fields ((handle_stdinIn _ _).symm.trans hr)
  obtain ⟨hwritten, hread, hshut⟩ := hfields hne
  rw [part_answer] at hwritten
  have hlens := length_written h.sound
  have hlens' := length_written hsound
  have hle := hk.2.1
  have hlen : (x.stdin.take k).length = k := List.length_take_of_le hle
  have hpos := List.length_pos_of_ne_nil hne
  rw [handled_ok (x := { x with stdin := x.stdin.drop k }) hr] at hy
  subst hy
  have hturns := turns_le { x with relay := r, events, stdin := x.stdin.drop k }
  have hcons := turns_cons hevents
  refine ⟨⟨h.pipe_eq, h.prints, hsound, ?_, ?_, h.no_failure, hnodup, hexpects, parts_tail h hevents,
    fun _ => ⟨hshut.trans hopen, fun he' => absurd he' hnot⟩⟩, ⟨hwritten, ?_, ?_, ?_⟩, hdone, rfl⟩
  · dsimp only
    rw [hread, List.append_assoc, List.take_append_drop, h.order]
  · dsimp only
    rw [hshut, hopen]
    intro hs
    cases hs
  · exact (List.append_nil _).symm
  · rw [shut_of_events h hevents, hopen]
    intro hs
    cases hs
  · rw [hwritten, hread, List.length_append, List.length_append, hlen, List.length_take_of_le hn] at hlens'
    rw [hbuffer, List.length_nil] at hlens
    simp only [account, hshut, hopen, hbuffer] at hturns ⊢
    simp only [Bool.false_eq_true, if_false, List.length_nil, List.length_drop, List.length_take_of_le hn] at hturns ⊢
    omega

/-- `os.write` takes `n` bytes of the buffer. -/
theorem Inv.flush {n : ℕ} (h : Inv inp pipe x) (hevents : x.events = .sockOut :: events) (hpos : 0 < n)
    (hn : n ≤ x.relay.socketOutputBuffer.length) (hy : y = x.handled .sockOut events ⟨[], answer n⟩) :
    Inv inp pipe y ∧ Advances endpoint account 5 x (x.relay.socketOutputBuffer.take n) [] y ∧
      y.relay.done = x.relay.done ∧ y.events = events := by
  have hallowed : x.relay.Allowed .sockOut ⟨[], answer n⟩ :=
    ⟨Nat.zero_le _, fun _ => ⟨n, hpos, hn, if_neg (by omega)⟩⟩
  obtain ⟨r, hr, hsound, hnot, hnodup, hexpects⟩ := h.handle hevents hallowed
  obtain ⟨-, hopen⟩ := buffer_of_sockOut h.sound (h.expects _ (hevents ▸ List.mem_cons_self))
  obtain ⟨hdone, hwritten, hread, hshut⟩ := socketWritable_fields ((handle_sockOut _ _).symm.trans hr)
  rw [part_answer] at hwritten
  have hlens := length_written h.sound
  have hlens' := length_written hsound
  rw [handled_ok hr] at hy
  subst hy
  have hturns := turns_le { x with relay := r, events }
  have hcons := turns_cons hevents
  have hunnoticed := unnoticed_tail h hevents
  refine ⟨⟨h.pipe_eq, h.prints, hsound, ?_, ?_, h.no_failure, hnodup, hexpects, parts_tail h hevents,
    fun hp => ⟨hshut.trans hopen, hunnoticed hp⟩⟩, ⟨hwritten, ?_, ?_, ?_⟩, hdone, rfl⟩
  · dsimp only
    rw [hread, h.order]
  · dsimp only
    rw [hshut]
    exact h.drained
  · exact (List.append_nil _).symm
  · rw [shut_of_events h hevents, hopen]
    intro hs
    cases hs
  · rw [hwritten, hread, List.length_append, List.length_take_of_le hn] at hlens'
    simp only [account, hshut, hopen] at hturns ⊢
    simp only [Bool.false_eq_true, if_false, List.length_nil, List.length_take_of_le hn] at hturns ⊢
    omega

/-- `recv` returns data or comes to the end. -/
theorem Inv.recv (h : Inv inp pipe x) (hevents : x.events = .sockIn :: events) (hlen : data.length ≤ 8192)
    (hy : y = x.received events data) : Inv inp pipe y ∧ Advances endpoint account 5 x [] data y ∧
      (y.relay.done = true → x.relay.done = true ∨ data = []) ∧ y.events = events ∧ Event.sockIn ∉ events := by
  have hallowed : x.relay.Allowed .sockIn ⟨data, .wouldBlock⟩ := ⟨hlen, fun hout => by cases hout⟩
  obtain ⟨r, hr, hsound, hnot, hnodup, hexpects⟩ := h.handle hevents hallowed
  have hcons := turns_cons hevents
  have hunnoticed := unnoticed_tail h hevents
  obtain rfl : x.relay.socketReadable data = r := Except.ok.inj hr
  by_cases hdata : data = []
  · rw [received, if_neg (not_not.mpr hdata), handled_ok hr] at hy
    subst hdata
    have hr : x.relay.socketReadable [] = { x.relay with done := true } := rfl
    rw [hr] at hy hsound hexpects
    subst hy
    refine ⟨⟨h.pipe_eq, h.prints, hsound, h.order, h.drained, h.no_failure, hnodup, hexpects, parts_tail h hevents,
      fun hp => ⟨(h.unnoticed hp).1, hunnoticed hp⟩⟩, ⟨?_, ?_, ?_, ?_⟩, fun _ => .inr rfl, rfl, hnot⟩
    · exact (List.append_nil _).symm
    · exact (List.append_nil _).symm
    · rw [shut_of_events h hevents]
      intro hs
      simp [endpoint, hs]
    · have hturns : { x with relay := { x.relay with done := true }, events }.turns ≤ events.length := by
        rw [turns]
        split
        · exact Nat.zero_le _
        · exact Nat.le_refl _
      simp only [account] at hturns ⊢
      rw [hcons]
      exact Nat.add_lt_add_right (Nat.add_lt_add_left (Nat.lt_succ_of_le hturns) _) _
  · have hread : x.relay.socketReadable data = x.relay := if_pos hdata
    have hhandle : x.relay.handle .sockIn ⟨data, .wouldBlock⟩ = .ok x.relay := hr.trans (congrArg Except.ok hread)
    rw [hread] at hsound hexpects
    rw [received, if_pos hdata,
      handled_ok (x := { x with stdout := x.stdout ++ str data, blocks := x.blocks ++ [data] }) hhandle] at hy
    subst hy
    have hpos := List.length_pos_of_ne_nil hdata
    have hturns := turns_le { x with events, stdout := x.stdout ++ str data, blocks := x.blocks ++ [data] }
    refine ⟨⟨h.pipe_eq, ?_, hsound, h.order, h.drained, h.no_failure, hnodup, hexpects, parts_tail h hevents,
      fun hp => ⟨(h.unnoticed hp).1, hunnoticed hp⟩⟩, ⟨?_, ?_, ?_, ?_⟩, .inl, rfl, hnot⟩
    · simp [printed, h.prints]
    · exact (List.append_nil _).symm
    · simp [account]
    · rw [shut_of_events h hevents]
      intro hs
      simp [endpoint, hs]
    · simp only [account, List.length_nil] at hturns ⊢
      omega

theorem Inv.shut_of_returned (h : Inv inp pipe x) (hshut : endpoint.shut x = true) (hr : x.returned = false) :
    x.relay.shutWr = true := by
  simpa [endpoint, hr, h.no_failure] using hshut

theorem gone_of_returned (hr : x.returned = true) : endpoint.Gone x := by
  simp only [returned, Bool.and_eq_true, List.isEmpty_iff] at hr
  obtain ⟨hdone, hevents⟩ := hr
  intro j
  cases hcall : endpoint.call x j with
  | none => rfl
  | some c =>
    cases calls_of_call hcall with
    | timeout _ hnot => cases hdone.symm.trans hnot
    | poll _ hnot => cases hdone.symm.trans hnot
    | eof hcons => cases hevents.symm.trans hcons
    | stdin hcons => cases hevents.symm.trans hcons
    | recv hcons => cases hevents.symm.trans hcons
    | flush hcons => cases hevents.symm.trans hcons

/-- While there are events, the first one is handled without waiting for the other side. -/
theorem Inv.event_call (h : Inv inp pipe x) (hevents : x.events = e :: events) :
    ∃ j c, endpoint.call x j = some c ∧ c.Prompt (account x) := by
  have hmem : e ∈ x.events := hevents ▸ List.mem_cons_self
  rcases h.parts e hmem with rfl | rfl | rfl
  · exact ⟨.socket, _, call_of_calls h.no_failure (.recv hevents), by decide, decide_eq_true hmem⟩
  · exact ⟨.socket, _, call_of_calls h.no_failure (.flush hevents), (buffer_of_sockOut h.sound (h.expects _ hmem)).1⟩
  · obtain ⟨k, hk⟩ := exists_stdinReturns x.stdin
    by_cases hnil : x.stdin.take k = []
    · exact ⟨.stdin k, _, call_of_calls h.no_failure (.eof hevents hk hnil), rfl, rfl⟩
    · exact ⟨.stdin k, _, call_of_calls h.no_failure (.stdin hevents hk hnil), hnil⟩

theorem Inv.timeout (h : Inv inp pipe x) (hnone : x.events = []) (hdone : x.relay.done = false) :
    endpoint.call x (.poll []) = some .idle := by
  have hp : x.Pollable [] := ⟨List.nodup_nil, fun e he => absurd he List.not_mem_nil⟩
  exact call_of_calls h.no_failure (.timeout hnone hdone hp rfl)

/-- `poll` may report a single event that is registered. -/
theorem Inv.poll_call (h : Inv inp pipe x) (hnone : x.events = []) (hdone : x.relay.done = false)
    (he : x.relay.Expects e) (hpart : e.parts = [e]) (hend : e = .stdinIn → ¬(x.pipe = true ∧ x.stdin = [])) :
    endpoint.call x (.poll [e]) =
      some (.wait (decide (Event.sockIn ∈ [e])) (decide (Event.sockOut ∈ [e])) { x with events := [e] }) := by
  have hp : x.Pollable [e] := by
    refine ⟨List.nodup_singleton _, ?_⟩
    intro e' he'
    obtain rfl := List.mem_singleton.mp he'
    refine ⟨he, fun hmem => hend ?_⟩
    rw [hpart] at hmem
    exact (List.mem_singleton.mp hmem).symm
  have hsome : [e].flatMap Event.parts ≠ [] := by simp [hpart]
  have hcall := call_of_calls h.no_failure (.poll hnone hdone hp hsome)
  simp only [List.flatMap_cons, List.flatMap_nil, List.append_nil, hpart] at hcall
  exact hcall

/-- The relay always waits for the socket to be readable. -/
theorem Inv.poll_sock (h : Inv inp pipe x) (hnone : x.events = []) (hdone : x.relay.done = false) :
    ∃ c, endpoint.call x (.poll [.sockIn]) = some c ∧ c.Receives :=
  ⟨_, h.poll_call hnone hdone (expects_sockIn h.sound) rfl nofun, decide_eq_false (by decide)⟩

theorem Inv.returned_or_call (h : Inv inp pipe x) : x.returned = true ∨ ∃ j c, endpoint.call x j = some c ∧
    (c.Prompt (account x) ∨ c.Sends ∧ endpoint.shut x = false ∨
      c.Receives ∧ (endpoint.shut x = true ∨ pipe = true ∧ ∃ j, endpoint.call x j = some .idle)) := by
  cases hevents : x.events with
  | cons e events =>
    obtain ⟨j, c, hcall, hc⟩ := h.event_call hevents
    exact .inr ⟨j, c, hcall, .inl hc⟩
  | nil =>
    by_cases hdone : x.relay.done = true
    · exact .inl (by simp [returned, hdone, hevents])
    · rw [Bool.not_eq_true] at hdone
      right
      obtain ⟨c, hcall, hc⟩ := h.poll_sock hevents hdone
      cases h.sound.phase with
      | reading hstdin =>
        by_cases hend : x.pipe = true ∧ x.stdin = []
        · exact ⟨_, c, hcall, .inr (.inr ⟨hc, .inr ⟨h.pipe_eq.symm.trans hend.1, _, h.timeout hevents hdone⟩⟩)⟩
        · refine ⟨_, _, h.poll_call hevents hdone (e := .stdinIn) ⟨_, hstdin, id, id⟩ rfl fun _ => hend, .inl ⟨?_, ?_⟩⟩
          · decide
          · decide
      | flushing _ hsock _ _ hshut =>
        refine ⟨_, _, h.poll_call hevents hdone (e := .sockOut) ⟨_, hsock, fun _ => rfl, id⟩ rfl nofun,
          .inr (.inl ⟨?_, ?_⟩)⟩
        · exact decide_eq_false (by decide)
        · simp [endpoint, returned, hdone, hshut, h.no_failure]
      | ended _ hsock _ _ hshut =>
        exact ⟨_, c, hcall, .inr (.inr ⟨hc, .inl (by simp [endpoint, hshut])⟩)⟩

theorem Inv.returned_of_gone (h : Inv inp pipe x) (hgone : endpoint.Gone x) : x.returned = true := by
  rcases h.returned_or_call with hr | ⟨j, c, hcall, -⟩
  · exact hr
  · cases (hgone j).symm.trans hcall

theorem lively (inp : Bytes) (pipe : Bool) : Lively endpoint (Inv inp pipe) account (pipe = true) := by
  intro x h
  rcases h.returned_or_call with hr | hcall
  · exact .inl (gone_of_returned hr)
  · exact .inr hcall

theorem receptive (inp : Bytes) (pipe : Bool) : Receptive endpoint (Inv inp pipe) account := by
  intro x h
  cases hevents : x.events with
  | cons e events =>
    obtain ⟨j, c, hcall, hc⟩ := h.event_call hevents
    exact .inr ⟨j, c, hcall, .inl hc⟩
  | nil =>
    by_cases hdone : x.relay.done = true
    · exact .inl (gone_of_returned (by simp [returned, hdone, hevents]))
    · rw [Bool.not_eq_true] at hdone
      obtain ⟨c, hcall, hc⟩ := h.poll_sock hevents hdone
      exact .inr ⟨_, c, hcall, .inr hc⟩

theorem honours (inp : Bytes) (pipe : Bool) : Honours endpoint (Inv inp pipe) account 5 where
  wait {x j pollin pollout y} h hcall := by
    cases calls_of_call hcall with
    | poll hnone hdone hp hsome =>
      obtain ⟨hinv, hadv⟩ := h.poll hnone hdone hp hsome
      exact ⟨hinv, hadv, rfl, .inr, .inr⟩
    | eof hevents hk hnil =>
      obtain ⟨hinv, hadv, hdone, hrest⟩ := h.eof hevents hk hnil rfl
      refine ⟨hinv, hadv, hdone, fun hp => .inl ?_, fun hp => .inl ?_⟩
      · simp only [account, hrest, decide_eq_true_eq] at hp
        simp only [account, hevents, List.mem_cons, hp, or_true, decide_true]
      · simp only [account, hrest, decide_eq_true_eq] at hp
        simp only [account, hevents, List.mem_cons, hp, or_true, decide_true]
  write _ hcall := by cases calls_of_call hcall
  tryWrite {x j data next} h hcall := by
    cases calls_of_call hcall with
    | stdin hevents hk hne =>
      have hreads := reading_of_stdinIn h.sound (h.expects _ (hevents ▸ List.mem_cons_self))
      refine ⟨(shut_of_events h hevents).trans hreads.2, fun n _ hn => ?_⟩
      obtain ⟨hinv, hadv, hdone, hrest⟩ := h.stdin hevents hk hne hn rfl
      refine ⟨hinv, hadv, hdone, fun hp => ?_, decide_eq_false ?_⟩
      · simp only [account, hrest, decide_eq_true_eq] at hp
        simp only [account, hevents, List.mem_cons, hp, or_true, decide_true]
      · rw [hrest]
        intro hmem
        have hexpects := h.expects _ (hevents ▸ List.mem_cons_of_mem _ hmem)
        exact (buffer_of_sockOut h.sound hexpects).1 hreads.1
    | flush hevents =>
      have hmem : Event.sockOut ∈ x.events := hevents ▸ List.mem_cons_self
      refine ⟨(shut_of_events h hevents).trans (buffer_of_sockOut h.sound (h.expects _ hmem)).2, fun n hzero hn => ?_⟩
      have hpos : 0 < n := by
        refine Nat.pos_of_ne_zero fun hn => ?_
        cases (hzero hn).symm.trans (decide_eq_true hmem)
      obtain ⟨hinv, hadv, hdone, hrest⟩ := h.flush hevents hpos hn rfl
      refine ⟨hinv, hadv, hdone, fun hp => ?_, decide_eq_false ?_⟩
      · simp only [account, hrest, decide_eq_true_eq] at hp
        simp only [account, hevents, List.mem_cons, hp, or_true, decide_true]
      · rw [hrest]
        exact (List.nodup_cons.mp (hevents ▸ h.nodup)).1
  read {x j count next} h hcall data hlen := by
    cases calls_of_call hcall with
    | recv hevents =>
      obtain ⟨hinv, hadv, hended, hrest, hnot⟩ := h.recv hevents hlen rfl
      refine ⟨hinv, hadv, hended, ?_, fun hp => ?_⟩
      · simp only [account, hrest, hnot, decide_false]
      · simp only [account, hrest, decide_eq_true_eq] at hp
        simp only [account, hevents, List.mem_cons, hp, or_true, decide_true]
  gone {x} h hgone := by
    have hr := h.returned_of_gone hgone
    refine ⟨?_, by simp [endpoint, hr]⟩
    simp only [returned, Bool.and_eq_true] at hr
    exact hr.1

end Contract

end PollingRelay

end LinuxSocket.Netcat
