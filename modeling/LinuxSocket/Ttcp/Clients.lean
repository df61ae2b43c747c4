import LinuxSocket.Lib.Isolation
import LinuxSocket.Ttcp.Acks

/-! # The clients of the libev server

The event loop calls back for the clients in any order. A callback depends on its own client and leaves the others, but
it may end the process, and so the service for all of them. An access to a destroyed object counts as such an end: what
the process does behind it is not determined.
-/
namespace LinuxSocket.Ttcp
open Isolation

/-- What the event loop calls back for: a new connection, or bytes that can be read. -/
inductive Event
  | accept (fd : ℕ)
  | readable (bytes : Bytes)
  deriving DecidableEq

namespace EvServer

/-- The callback for the client at `w`, with the calls it makes; `none` when the process ends or accesses a destroyed
object, or when the address of a new client is in use. -/
def callback (host : Endian) : System ℕ Event EvServer Call
  | w, .accept fd, s => if (s.object w).isNone then some (s.serverReadCb w fd, []) else none
  | w, .readable bytes, s =>
    match onReadable host w (.returns s) bytes with
    | .returns t => some (t, t.calls.drop s.calls.length)
    | .dies _ => none
    | .faults _ => none

/-- What concerns the client at `w`: the object, whether it is watched, and its entries in `ev_clients`. -/
def client (w : ℕ) (s : EvServer) : Option EvClient × Bool × ℕ := (s.object w, s.started w, s.evClients.count w)

end EvServer

/-- Two servers on which the same has been done for the client at `w`, from `s₀` and from `t₀` on. -/
structure Alike (w : ℕ) (s₀ t₀ s t : EvServer) : Prop where
  client : s.client w = t.client w
  calls : ∃ out, s.calls = s₀.calls ++ out ∧ t.calls = t₀.calls ++ out
  leaves : ∀ v, v ≠ w → s.client v = s₀.client v

inductive AlikeOutcome (w : ℕ) (s₀ t₀ : EvServer) : Outcome → Outcome → Prop
  | returns {s t} : Alike w s₀ t₀ s t → AlikeOutcome w s₀ t₀ (.returns s) (.returns t)
  | dies {s t} : AlikeOutcome w s₀ t₀ (.dies s) (.dies t)
  | faults {s t} : Alike w s₀ t₀ s t → AlikeOutcome w s₀ t₀ (.faults s) (.faults t)

section Alike
variable {host : Endian} {w : ℕ} {s₀ t₀ s t : EvServer}

theorem Alike.refl (h : s.client w = t.client w) : Alike w s t s t :=
  ⟨h, ⟨[], (List.append_nil _).symm, (List.append_nil _).symm⟩, fun _ _ => rfl⟩

theorem Alike.object_eq (h : Alike w s₀ t₀ s t) : s.object w = t.object w := congrArg Prod.fst h.client

theorem Alike.started_eq (h : Alike w s₀ t₀ s t) : s.started w = t.started w := congrArg (·.2.1) h.client

theorem Alike.count_eq (h : Alike w s₀ t₀ s t) : s.evClients.count w = t.evClients.count w :=
  congrArg (·.2.2) h.client

theorem Alike.call (h : Alike w s₀ t₀ s t) (c : Call) : Alike w s₀ t₀ (s.call c) (t.call c) := by
  obtain ⟨out, hs, ht⟩ := h.calls
  refine ⟨h.client, ⟨out ++ [c], ?_, ?_⟩, h.leaves⟩
  · rw [EvServer.call, hs, List.append_assoc]
  · rw [EvServer.call, ht, List.append_assoc]

theorem Alike.setClient (h : Alike w s₀ t₀ s t) (c : EvClient) :
    Alike w s₀ t₀ (s.setClient w c) (t.setClient w c) where
  client := by simp [EvServer.client, EvServer.setClient, h.started_eq, h.count_eq]
  calls := h.calls
  leaves v hv := by
    rw [← h.leaves v hv]
    simp [EvServer.client, EvServer.setClient, hv]

theorem Alike.evIoStop (h : Alike w s₀ t₀ s t) : Alike w s₀ t₀ (s.evIoStop w) (t.evIoStop w) where
  client := by simp [EvServer.client, EvServer.evIoStop, EvServer.call, h.object_eq, h.count_eq]
  calls := (h.call (.evIoStop w)).calls
  leaves v hv := by
    rw [← h.leaves v hv]
    simp [EvServer.client, EvServer.evIoStop, EvServer.call, hv]

theorem Alike.deleteClient (h : Alike w s₀ t₀ s t) : Alike w s₀ t₀ (s.deleteClient w) (t.deleteClient w) := by
  have hmem : w ∈ s.evClients ↔ w ∈ t.evClients := by
    rw [← List.count_pos_iff, ← List.count_pos_iff, h.count_eq]
  unfold EvServer.deleteClient
  by_cases hw : w ∈ s.evClients
  · rw [if_pos hw, if_pos (hmem.mp hw)]
    refine ⟨?_, h.calls, fun v hv => ?_⟩
    · simp [EvServer.client, h.started_eq, h.count_eq]
    · rw [← h.leaves v hv]
      simp [EvServer.client, hv, List.count_erase_of_ne hv]
  · rw [if_neg hw, if_neg (hmem.not.mp hw)]
    exact h

theorem Alike.readSession (h : Alike w s₀ t₀ s t) (c : EvClient) :
    Sum.LiftRel (Alike w s₀ t₀) (AlikeOutcome w s₀ t₀) (readSession host w s c) (readSession host w t c) := by
  unfold Ttcp.readSession
  split
  · exact .inr (.faults h)
  · split
    · exact .inr (.faults h)
    · split
      · exact .inr .dies
      · exact .inl (h.setClient _)

theorem Alike.readFrame (h : Alike w s₀ t₀ s t) (c : EvClient) :
    Sum.LiftRel (Alike w s₀ t₀) (AlikeOutcome w s₀ t₀) (readFrame host w s c) (readFrame host w t c) := by
  unfold Ttcp.readFrame
  split
  · exact .inr (.faults h)
  · split
    · exact .inr .dies
    · dsimp only
      split
      · exact .inl ((((h.call _).setClient _).call _).evIoStop.deleteClient)
      · exact .inl ((h.call _).setClient _)

theorem Alike.clientReadStep (h : Alike w s₀ t₀ s t) :
    Sum.LiftRel (Alike w s₀ t₀) (AlikeOutcome w s₀ t₀) (clientReadStep host w s) (clientReadStep host w t) := by
  unfold Ttcp.clientReadStep
  rw [h.object_eq]
  split
  · exact .inr (.faults h)
  · split
    · split
      · exact h.readSession _
      · exact .inr (.returns h)
    · dsimp only
      split
      · exact h.readFrame _
      · exact .inr (.returns h)

variable (host) in
/-- A callback does the same on servers with the same client. -/
theorem onReadable_alike (h : s.client w = t.client w) (bytes : Bytes) :
    AlikeOutcome w s t (onReadable host w (.returns s) bytes) (onReadable host w (.returns t) bytes) := by
  have halike := Alike.refl h
  simp only [onReadable, halike.started_eq]
  split
  · unfold clientReadCb
    rw [halike.object_eq]
    split
    · exact .faults halike
    · split
      · exact .faults halike
      · dsimp only
        split
        · exact Loop.Body.run_simulates (fun _ _ h => h.clientReadStep) (halike.setClient _)
        · exact .dies
  · exact .returns halike

end Alike

section Isolation
variable {host : Endian} {w : ℕ} {s t s' : EvServer} {out : List Call} {events : List (ℕ × Event)}
  {outs : List (ℕ × Call)}

theorem callback_readable {bytes : Bytes} (h : EvServer.callback host w (.readable bytes) s = some (s', out)) :
    onReadable host w (.returns s) bytes = .returns s' ∧ out = s'.calls.drop s.calls.length := by
  unfold EvServer.callback at h
  dsimp only at h
  split at h
  · next hr =>
    obtain ⟨rfl, rfl⟩ := Prod.mk.inj (Option.some.inj h)
    exact ⟨hr, rfl⟩
  · cases h
  · cases h

theorem client_serverReadCb_of_ne {v : ℕ} (h : v ≠ w) (fd : ℕ) :
    (s.serverReadCb w fd).client v = s.client v := by
  simp [EvServer.client, EvServer.serverReadCb, EvServer.setClient, h, Ne.symm h]

theorem client_serverReadCb (h : s.client w = t.client w) (fd : ℕ) :
    (s.serverReadCb w fd).client w = (t.serverReadCb w fd).client w := by
  have hcount := (Alike.refl h).count_eq
  simp [EvServer.client, EvServer.serverReadCb, EvServer.setClient, hcount]

theorem callback_isolated (host : Endian) :
    Isolated (EvServer.callback host) (fun w s => s.client w) fun _ _ => True where
  depends {w e s t s' out} h _ hview := by
    have halike := Alike.refl hview
    cases e with
    | accept fd =>
      obtain ⟨hnone, heq⟩ := Option.ite_none_right_eq_some.mp h
      obtain ⟨rfl, rfl⟩ := Prod.mk.inj (Option.some.inj heq)
      exact ⟨_, if_pos (halike.object_eq ▸ hnone), client_serverReadCb hview fd⟩
    | readable bytes =>
      obtain ⟨hr, rfl⟩ := callback_readable h
      have hall := onReadable_alike host hview bytes
      rw [hr] at hall
      generalize ht : onReadable host w (.returns t) bytes = r at hall
      cases hall with
      | @returns _ t' hend =>
        obtain ⟨more, hs', ht'⟩ := hend.calls
        refine ⟨t', ?_, hend.client⟩
        simp only [EvServer.callback, ht, hs', ht', List.drop_left]
  leaves {w v e s s' out} h _ hv := by
    cases e with
    | accept fd =>
      obtain ⟨-, heq⟩ := Option.ite_none_right_eq_some.mp h
      obtain ⟨rfl, rfl⟩ := Prod.mk.inj (Option.some.inj heq)
      exact client_serverReadCb_of_ne hv fd
    | readable bytes =>
      have hall := onReadable_alike host (rfl : s.client w = s.client w) bytes
      rw [(callback_readable h).1] at hall
      cases hall with
      | returns hend => exact hend.leaves v hv

theorem calls_callback {e : Event} (h : EvServer.callback host w e s = some (s', out)) :
    s'.calls = s.calls ++ out := by
  cases e with
  | accept fd =>
    obtain ⟨-, heq⟩ := Option.ite_none_right_eq_some.mp h
    obtain ⟨rfl, rfl⟩ := Prod.mk.inj (Option.some.inj heq)
    exact (List.append_nil _).symm
  | readable bytes =>
    obtain ⟨hr, rfl⟩ := callback_readable h
    have hall := onReadable_alike host (rfl : s.client w = s.client w) bytes
    rw [hr] at hall
    cases hall with
    | returns hend =>
      obtain ⟨more, hs', -⟩ := hend.calls
      rw [hs', List.drop_left]

theorem calls_run (h : (EvServer.callback host).run events s = some (s', outs)) :
    s'.calls = s.calls ++ outs.map Prod.snd := by
  induction events generalizing s outs with
  | nil =>
    obtain ⟨rfl, rfl⟩ := Prod.mk.inj (Option.some.inj h)
    exact (List.append_nil _).symm
  | cons event events ih =>
    obtain ⟨t, out, later, hstep, hlater, rfl⟩ := run_cons.mp h
    rw [ih hlater, calls_callback hstep, List.map_append, List.map_map, List.append_assoc]
    congr 2
    exact (List.map_id out).symm

theorem isSome_run_iff (host : Endian) (events : List (ℕ × Event)) :
    ((EvServer.callback host).run events .init).isSome ↔
      ∀ w, ((EvServer.callback host).run (own w events) .init).isSome := by
  have hiff := (callback_isolated host).runs_iff events .init
  simpa only [implies_true, and_true, Option.isSome_iff_exists, Prod.exists] using hiff

/-- The server goes on exactly when each client alone lets it, and then does for each client what it does for this
client alone. The access to a destroyed client is an end on both sides. -/
theorem clients_isolated (host : Endian) (events : List (ℕ × Event)) :
    (((EvServer.callback host).run events .init).isSome ↔
      ∀ w, ((EvServer.callback host).run (own w events) .init).isSome) ∧
    ∀ s outs, (EvServer.callback host).run events .init = some (s, outs) → s.calls = outs.map Prod.snd ∧
      ∀ w, ∃ t, (EvServer.callback host).run (own w events) .init = some (t, own w outs) ∧
        s.object w = t.object w ∧ s.started w = t.started w := by
  have hisolated := callback_isolated host
  refine ⟨isSome_run_iff host events, fun s outs hrun => ⟨calls_run hrun, fun w => ?_⟩⟩
  obtain ⟨t, hrun', hview⟩ := hisolated.alone hrun (fun _ _ => trivial) w rfl
  exact ⟨t, hrun', (Alike.refl hview).object_eq, (Alike.refl hview).started_eq⟩

end Isolation

structure ClientStream where
  fd : ℕ
  peer : Endian
  smsg : SessionMessage
  datas : List Bytes
  chunks : List Bytes
  accepted : smsg.Accepted
  datas_length : ∀ d ∈ datas, d.length = smsg.length.toNat
  chunks_ne_nil : ∀ chunk ∈ chunks, chunk ≠ []
  cut : chunks.flatten <+: sessionBytes peer smsg datas

namespace ClientStream

def events (x : ClientStream) (w : ℕ) : List (ℕ × Event) :=
  (w, .accept x.fd) :: x.chunks.map fun chunk => (w, .readable chunk)

def received (x : ClientStream) : ℕ := framesIn x.smsg x.chunks.flatten.length

def Finished (x : ClientStream) : Prop := x.smsg.number.toNat ≤ x.received

instance (x : ClientStream) : Decidable x.Finished :=
  inferInstanceAs (Decidable (x.smsg.number.toNat ≤ x.received))

def front (x : ClientStream) {early late : List Bytes} (h : x.chunks = early ++ late) : ClientStream :=
  { x with
    chunks := early
    chunks_ne_nil := fun chunk hc => x.chunks_ne_nil chunk (h ▸ List.mem_append_left _ hc)
    cut := by
      have hcut := x.cut
      rw [h, List.flatten_append] at hcut
      exact (List.prefix_append _ _).trans hcut }

end ClientStream

/-- A callback comes to the access to a client that has been deleted. -/
def UsesDeleted (host : Endian) (events : List (ℕ × Event)) : Prop :=
  ∃ before w bytes behind s outs t, events = before ++ (w, .readable bytes) :: behind ∧
    (EvServer.callback host).run before .init = some (s, outs) ∧
    onReadable host w (.returns s) bytes = .faults t ∧ t.object w = none

section Served
variable {host : Endian} {w : ℕ} {s t : EvServer} {chunks : List Bytes} {outs : List (ℕ × Call)}

theorem foldl_onReadable_ended {r : Outcome} (h : ∀ s, r ≠ .returns s) (chunks : List Bytes) :
    chunks.foldl (onReadable host w) r = r := by
  induction chunks with
  | nil => rfl
  | cons chunk chunks ih =>
    have hr : onReadable host w r chunk = r := by
      cases r with
      | returns s => exact absurd rfl (h s)
      | dies s => rfl
      | faults s => rfl
    rw [List.foldl_cons, hr, ih]

/-- The reads of one client. -/
theorem foldl_of_run (h : (EvServer.callback host).run (chunks.map fun chunk => (w, .readable chunk)) s =
    some (t, outs)) : chunks.foldl (onReadable host w) (.returns s) = .returns t := by
  induction chunks generalizing s outs with
  | nil =>
    obtain ⟨rfl, -⟩ := Prod.mk.inj (Option.some.inj h)
    rfl
  | cons chunk chunks ih =>
    obtain ⟨u, out, later, hstep, hlater, -⟩ := run_cons.mp h
    rw [List.foldl_cons, (callback_readable hstep).1]
    exact ih hlater

theorem exists_run_of_foldl (h : chunks.foldl (onReadable host w) (.returns s) = .returns t) :
    ∃ outs, (EvServer.callback host).run (chunks.map fun chunk => (w, .readable chunk)) s = some (t, outs) := by
  induction chunks generalizing s with
  | nil => exact ⟨[], congrArg (fun s => some (s, [])) (Outcome.returns.inj h)⟩
  | cons chunk chunks ih =>
    rw [List.foldl_cons] at h
    cases hr : onReadable host w (.returns s) chunk with
    | returns u =>
      rw [hr] at h
      obtain ⟨outs, hrun⟩ := ih h
      have hstep : EvServer.callback host w (.readable chunk) s = some (u, u.calls.drop s.calls.length) := by
        simp only [EvServer.callback, hr]
      exact ⟨_, run_cons.mpr ⟨u, _, outs, hstep, hrun, rfl⟩⟩
    | dies u =>
      rw [hr, foldl_onReadable_ended fun _ h => Outcome.noConfusion h] at h
      cases h
    | faults u =>
      rw [hr, foldl_onReadable_ended fun _ h => Outcome.noConfusion h] at h
      cases h

/-- A client alone. -/
theorem ClientStream.run_iff (x : ClientStream) :
    (∃ outs, (EvServer.callback host).run (x.events w) .init = some (s, outs)) ↔
      receive host w x.fd .init x.chunks = .returns s := by
  have haccept : EvServer.callback host w (.accept x.fd) .init = some (EvServer.init.serverReadCb w x.fd, []) := rfl
  constructor
  · rintro ⟨outs, hrun⟩
    obtain ⟨u, out, later, hstep, hlater, -⟩ := run_cons.mp hrun
    obtain ⟨rfl, -⟩ := Prod.mk.inj (Option.some.inj (haccept.symm.trans hstep))
    exact foldl_of_run hlater
  · intro h
    obtain ⟨outs, hrun⟩ := exists_run_of_foldl h
    exact ⟨_, run_cons.mpr ⟨_, _, outs, haccept, hrun, rfl⟩⟩

theorem ClientStream.ends (x : ClientStream) (host : Endian) (w : ℕ) : ∃ rest,
    Ends host x.peer w x.fd x.smsg [] x.chunks.flatten rest (receive host w x.fd .init x.chunks) := by
  obtain ⟨rest, hrest⟩ := x.cut
  exact ⟨rest, receive_ends host w x.fd .init x.accepted x.datas_length x.chunks_ne_nil hrest⟩

theorem ClientStream.isSome_iff (x : ClientStream) :
    ((EvServer.callback host).run (x.events w) .init).isSome ↔ ¬x.Finished := by
  obtain ⟨rest, hends⟩ := x.ends host w
  simp only [Option.isSome_iff_exists, Prod.exists, x.run_iff, Finished, received]
  generalize receive host w x.fd .init x.chunks = r at hends ⊢
  cases hends with
  | waits _ _ hlt _ => exact iff_of_true ⟨_, rfl⟩ (Nat.not_le_of_lt hlt)
  | faults _ hle _ => exact iff_of_false (fun ⟨_, hr⟩ => Outcome.noConfusion hr) (not_not.mpr hle)

theorem ClientStream.outs_eq (x : ClientStream)
    (h : (EvServer.callback host).run (x.events w) .init = some (s, outs)) :
    outs.map Prod.snd = acks host x.fd x.smsg x.received := by
  obtain ⟨rest, hends⟩ := x.ends host w
  rw [x.run_iff.mp ⟨outs, h⟩] at hends
  cases hends with
  | waits _ _ _ hcalls => exact (calls_run h).symm.trans hcalls

/-- A callback for a client of the protocol returns or accesses the deleted client. -/
theorem ClientStream.onReadable_cases (x : ClientStream) {early late : List Bytes} {chunk : Bytes}
    (hchunks : x.chunks = early ++ chunk :: late) (h : receive host w x.fd .init early = .returns t) :
    (∃ u, onReadable host w (.returns t) chunk = .returns u) ∨
      ∃ u, onReadable host w (.returns t) chunk = .faults u ∧ u.object w = none := by
  have hsplit : x.chunks = (early ++ [chunk]) ++ late := by rw [hchunks, List.append_assoc, List.singleton_append]
  obtain ⟨rest, hends⟩ := (x.front hsplit).ends host w
  have hreceive : receive host w x.fd .init (early ++ [chunk]) = onReadable host w (.returns t) chunk := by
    rw [receive, List.foldl_append, ← receive, h, List.foldl_cons, List.foldl_nil]
  change Ends host x.peer w x.fd x.smsg [] _ rest (receive host w x.fd .init (early ++ [chunk])) at hends
  rw [hreceive] at hends
  generalize onReadable host w (.returns t) chunk = r at hends ⊢
  cases hends with
  | waits => exact .inl ⟨_, rfl⟩
  | faults hnone => exact .inr ⟨_, rfl, hnone⟩

variable {events : List (ℕ × Event)}

/-- Nothing else ends a run of clients of the protocol. -/
theorem usesDeleted_iff (clients : ℕ → Option ClientStream)
    (h : ∀ w, own w events = (clients w).elim [] fun x => x.events w) :
    UsesDeleted host events ↔ (EvServer.callback host).run events .init = none := by
  rw [run_eq_none]
  constructor
  · rintro ⟨before, w, bytes, behind, s, outs, t, rfl, hrun, hfaults, -⟩
    exact ⟨before, w, .readable bytes, behind, s, outs, rfl, hrun, by simp only [EvServer.callback, hfaults]⟩
  · rintro ⟨before, w, e, behind, s, outs, rfl, hrun, hend⟩
    have hown := h w
    rw [own_append, own_cons_self] at hown
    obtain ⟨t, halone, hview⟩ := (callback_isolated host).alone hrun (fun _ _ => trivial) w rfl
    cases hx : clients w with
    | none => simp [hx] at hown
    | some x =>
      rw [hx, Option.elim_some] at hown
      cases hbefore : own w before with
      | nil =>
        rw [hbefore] at hown halone
        obtain ⟨-, rfl⟩ := Prod.mk.inj (List.cons.inj hown).1
        obtain ⟨rfl, -⟩ := Prod.mk.inj (Option.some.inj halone)
        have hnone : s.object w = none := (Alike.refl hview).object_eq
        simp [EvServer.callback, hnone] at hend
      | cons first others =>
        rw [hbefore] at hown halone
        obtain ⟨rfl, hreads⟩ := List.cons.inj hown
        obtain ⟨early, later, hchunks, rfl, hlater⟩ := List.map_eq_append_iff.mp hreads.symm
        obtain ⟨chunk, late, rfl, he, -⟩ := List.map_eq_cons_iff.mp hlater
        obtain ⟨-, rfl⟩ := Prod.mk.inj he
        have hreceive := (x.front hchunks).run_iff.mp ⟨_, halone⟩
        have halike := onReadable_alike host hview chunk
        generalize hs : onReadable host w (.returns s) chunk = r at halike
        rcases x.onReadable_cases hchunks hreceive with ⟨u, hu⟩ | ⟨u, hu, hnone⟩
        · rw [hu] at halike
          cases halike
          simp [EvServer.callback, hs] at hend
        · rw [hu] at halike
          cases halike with
          | faults hend => exact ⟨before, w, chunk, behind, s, outs, _, rfl, hrun, hs, hend.object_eq.trans hnone⟩

end Served

end LinuxSocket.Ttcp
