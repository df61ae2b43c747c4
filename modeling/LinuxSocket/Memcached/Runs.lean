import LinuxSocket.Memcached.Segmentation

/-! # Runs of one session

A run goes from loop head to loop head. When a call of `onMessage` returns, the next
chunk of the stream arrives and the loop is entered again; between two iterations
other sessions may change the store.
-/
namespace LinuxSocket.Memcached

/-- A session at the head of its loop, with its unread bytes and the bytes that have not arrived. -/
structure Head where
  world : World
  buf : Bytes
  coming : Bytes

def Head.stream (h : Head) : Bytes := h.buf ++ h.coming

def Head.share (h : Head) (server : MemcachedServer) : Head :=
  { h with world := { h.world with server := server } }

section
variable [Muduo] [Freed] (hashRange : Bytes → ℕ)

def Head.command (h : Head) : Option Bytes :=
  match h.world.session.receiveState with
  | .kReadCommandLine =>
    match Muduo.findCRLF h.buf h.world.session.searchStart with
    | some crlf => if crlf < 2 ^ 31 then some (h.buf.take crlf) else none
    | none => none
  | .kReadValue => none

def Head.next (h : Head) : (World × Bytes) ⊕ Outcome := onMessageStep hashRange Session.searchStart (h.world, h.buf)

inductive Run : Head → List Head → Head → Prop
  | nil (h) : Run h [] h
  | iterate {h w b log k} : h.next hashRange = .inl (w, b) → Run ⟨w, b, h.coming⟩ log k → Run h (h :: log) k
  | receive {h w b chunk coming log k} : h.next hashRange = .inr (.ok (w, b)) → h.coming = chunk ++ coming →
      Run ⟨w, b ++ chunk, coming⟩ log k → Run h log k
  | share {h log k} (server : MemcachedServer) : Run (h.share server) log k → Run h log k

/-- The loop heads of a session, over every stream, in any chunks. -/
def LoopHead (h : Head) : Prop :=
  ∃ server chunk coming log, Run hashRange ⟨World.fresh server, chunk, coming⟩ log h

variable {hashRange} {h k l : Head} {log log' : List Head}

theorem Run.trans (hr : Run hashRange h log k) (hr' : Run hashRange k log' l) :
    Run hashRange h (log ++ log') l := by
  induction hr with
  | nil => exact hr'
  | iterate hnext _ ih => exact .iterate hnext (ih hr')
  | receive hnext hc _ ih => exact .receive hnext hc (ih hr')
  | share server _ ih => exact .share server (ih hr')

/-- A property that iterations, arrivals and other sessions keep holds at every head of a run. -/
theorem Run.invariant {I : Head → Prop}
    (hiter : ∀ {h w b}, I h → h.next hashRange = .inl (w, b) → I ⟨w, b, h.coming⟩)
    (hrecv : ∀ {h w b chunk coming}, I h → h.next hashRange = .inr (.ok (w, b)) → h.coming = chunk ++ coming →
      I ⟨w, b ++ chunk, coming⟩)
    (hshare : ∀ {h} server, I h → I (h.share server))
    (hr : Run hashRange h log k) (hI : I h) : I k ∧ ∀ l ∈ log, I l := by
  induction hr with
  | nil => exact ⟨hI, List.forall_mem_nil _⟩
  | iterate hnext _ ih =>
    obtain ⟨hk, hlog⟩ := ih (hiter hI hnext)
    exact ⟨hk, List.forall_mem_cons.mpr ⟨hI, hlog⟩⟩
  | receive hnext hc _ ih => exact ih (hrecv hI hnext hc)
  | share server _ ih => exact ih (hshare server hI)

/-- A return changes neither the calls nor the invariant of the session. -/
theorem Head.return_keeps {w : World} {b : Bytes} (hI : SessionInv h.world.session)
    (hnext : h.next hashRange = .inr (.ok (w, b))) : SessionInv w.session ∧ w.calls = h.world.calls := by
  cases onMessageStep_exit hnext with
  | noLine hs _ => exact ⟨SessionInv.of_command hs, rfl⟩
  | noValue _ _ => exact ⟨hI, rfl⟩

theorem Run.of_visits {p q : World × Bytes} (hv : (onMessageBody hashRange Session.searchStart).Visits p q)
    (coming : Bytes) : ∃ log, Run hashRange ⟨p.1, p.2, coming⟩ log ⟨q.1, q.2, coming⟩ := by
  induction hv with
  | refl => exact ⟨[], .nil _⟩
  | tail _ hstep ih =>
    obtain ⟨log, hr⟩ := ih
    exact ⟨_, hr.trans (.iterate hstep (.nil _))⟩

/-- A call that returns is a run to the head of the next call. -/
theorem Run.of_onMessage {w t : World} {b b' : Bytes} (hd : onMessage hashRange (w, b) = .ok (t, b'))
    (chunk coming : Bytes) :
    ∃ log, Run hashRange ⟨w, b, chunk ++ coming⟩ log ⟨t, b' ++ chunk, coming⟩ := by
  obtain ⟨q, hv, hexit⟩ := (onMessageBody hashRange Session.searchStart).exists_exit (w, b)
  obtain ⟨log, hr⟩ := Run.of_visits hv (chunk ++ coming)
  rw [show (onMessageBody hashRange Session.searchStart).run (w, b) = .ok (t, b') from hd] at hexit
  exact ⟨_, hr.trans (.receive hexit rfl (.nil _))⟩

theorem foldl_deliver_error (calls : List Call) (chunks : List Bytes) :
    chunks.foldl (deliver hashRange) (.error calls) = .error calls := by
  induction chunks with
  | nil => rfl
  | cons chunk chunks ih => exact ih

/-- A delivery in chunks is a run, entered with the first chunk, to the head of the next call. -/
theorem Run.of_deliver {w t : World} {b b' chunk : Bytes} {chunks : List Bytes}
    (hd : (chunk :: chunks).foldl (deliver hashRange) (.ok (w, b)) = .ok (t, b')) (last : Bytes) :
    ∃ log, Run hashRange ⟨w, b ++ chunk, chunks.flatten ++ last⟩ log ⟨t, b' ++ last, []⟩ := by
  induction chunks generalizing w b chunk with
  | nil =>
    have hr := Run.of_onMessage (b := b ++ chunk) hd last []
    rwa [List.append_nil] at hr
  | cons chunk' chunks ih =>
    rw [List.foldl_cons] at hd
    cases ho : deliver hashRange (.ok (w, b)) chunk with
    | error calls =>
      rw [ho, foldl_deliver_error] at hd
      cases hd
    | ok p =>
      obtain ⟨u, c⟩ := p
      rw [ho] at hd
      obtain ⟨log, hr⟩ := Run.of_onMessage (b := b ++ chunk) ho chunk' (chunks.flatten ++ last)
      obtain ⟨log', hr'⟩ := ih hd
      rw [← List.append_assoc, ← List.flatten_cons] at hr
      exact ⟨_, hr.trans hr'⟩

/-- Every loop head of a delivery in chunks is one. -/
theorem loopHead_of_deliver {server : MemcachedServer} {chunks : List Bytes} {w : World} {b last : Bytes}
    {p : World × Bytes} (hd : chunks.foldl (deliver hashRange) (connected server) = .ok (w, b))
    (hv : (onMessageBody hashRange Session.searchStart).Visits (w, b ++ last) p) :
    LoopHead hashRange ⟨p.1, p.2, []⟩ := by
  obtain ⟨log, hr⟩ := Run.of_visits hv []
  cases chunks with
  | nil =>
    cases hd
    exact ⟨server, _, _, _, hr⟩
  | cons chunk chunks =>
    obtain ⟨log', hr'⟩ := Run.of_deliver hd last
    exact ⟨server, _, _, _, hr'.trans hr⟩

end

end LinuxSocket.Memcached
