import LinuxSocket.Lib.Loop
import LinuxSocket.Tbuf.Fifo
import LinuxSocket.Ttcp.Common

/-! # The libev server of ttcp

Clients live at addresses. The only owner of a client is its entry in `ev_clients`, so
`delete_client` destroys the object; every later access through the pointer faults. The callback has
the assertion of the debug build that a read returns bytes.
-/
namespace LinuxSocket.Ttcp

inductive RecvState
  | exceptFrameSize
  | exceptFrame
  deriving DecidableEq

structure EvClient where
  fd : ℕ
  state : RecvState
  readNumber : ℤ
  inputBuffer : Tbuf
  smsg : SessionMessage
  /-- frames are only expected after a session message with an admissible length -/
  length_range : state = .exceptFrame → 0 < smsg.length ∧ smsg.length ≤ maxBufferLength

def EvClient.init (fd : ℕ) : EvClient where
  fd := fd
  state := .exceptFrameSize
  readNumber := 0
  inputBuffer := Tbuf.init
  smsg := ⟨0, 0⟩
  length_range := nofun

/-- The calls that the callbacks make for clients. What they return is ignored. -/
inductive Call
  | write (fd : ℕ) (bytes : Bytes)
  | close (fd : ℕ)
  | evIoStop (w : ℕ)
  deriving DecidableEq

/-- The server, with the objects that exist, the watchers that are started and the calls made. -/
structure EvServer where
  evClients : List ℕ
  object : ℕ → Option EvClient
  started : ℕ → Bool
  calls : List Call

namespace EvServer

def init : EvServer := ⟨[], fun _ => none, fun _ => false, []⟩

def setClient (s : EvServer) (w : ℕ) (c : EvClient) : EvServer :=
  { s with object := Function.update s.object w (some c) }

def call (s : EvServer) (c : Call) : EvServer := { s with calls := s.calls ++ [c] }

def evIoStop (s : EvServer) (w : ℕ) : EvServer :=
  { s.call (.evIoStop w) with started := Function.update s.started w false }

def deleteClient (s : EvServer) (w : ℕ) : EvServer :=
  if w ∈ s.evClients then
    { s with evClients := s.evClients.erase w, object := Function.update s.object w none }
  else s

/-- `server_read_cb`, when the new client is allocated at `w` and `accept` returns `fd`. -/
def serverReadCb (s : EvServer) (w fd : ℕ) : EvServer :=
  { s.setClient w (.init fd) with
    evClients := s.evClients ++ [w], started := Function.update s.started w true }

end EvServer

/-- How a callback ends: it returns, ends the process, or accesses a destroyed object or a byte
outside of the buffer. -/
inductive Outcome
  | returns (s : EvServer)
  | dies (s : EvServer)
  | faults (s : EvServer)

variable (host : Endian) (w : ℕ)

/-- The branch for the session message, with the eight bytes there. -/
def readSession (s : EvServer) (c : EvClient) : EvServer ⊕ Outcome :=
  match c.inputBuffer.readInt32 host with
  | none => .inr (.faults s)
  | some (number, b) =>
    match b.readInt32 host with
    | none => .inr (.faults s)
    | some (length, b) =>
      if h : number ≤ 0 ∨ length ≤ 0 ∨ maxBufferLength < length then .inr (.dies s)
      else .inl (s.setClient w { c with
        smsg := ⟨number, length⟩
        inputBuffer := b
        state := .exceptFrame
        length_range := fun _ => by
          push Not at h
          exact h.2 })

/-- The branch for a frame that is there as a whole. -/
def readFrame (s : EvServer) (c : EvClient) : EvServer ⊕ Outcome :=
  match c.inputBuffer.readInt32 host with
  | none => .inr (.faults s)
  | some (payloadLen, b) =>
    if payloadLen ≠ c.smsg.length then .inr (.dies s)
    else
      let b := b.retrieve c.smsg.length.toNat
      let s := s.call (.write c.fd (int32Bytes host payloadLen))
      let c := { c with inputBuffer := b, readNumber := c.readNumber + 1 }
      let s := s.setClient w c
      if c.smsg.number ≤ c.readNumber then
        .inl (((s.call (.close c.fd)).evIoStop w).deleteClient w)
      else .inl s

/-- The body of the loop of `client_read_cb`. -/
def clientReadStep (s : EvServer) : EvServer ⊕ Outcome :=
  match s.object w with
  | none => .inr (.faults s)
  | some c =>
    match c.state with
    | .exceptFrameSize =>
      if 8 ≤ c.inputBuffer.readableBytes then readSession host w s c else .inr (.returns s)
    | .exceptFrame =>
      let totalLen := ofInt32 (4 + c.smsg.length)
      if totalLen ≤ c.inputBuffer.readableBytes then readFrame host w s c else .inr (.returns s)

def unread (s : EvServer) : ℕ :=
  match s.object w with
  | none => 0
  | some c => c.inputBuffer.readableBytes + 1

variable {host w}

@[simp] theorem unread_setClient (s : EvServer) (c : EvClient) :
    unread w (s.setClient w c) = c.inputBuffer.readableBytes + 1 := by
  simp [unread, EvServer.setClient]

theorem unread_deleteClient_le (s : EvServer) : unread w (s.deleteClient w) ≤ unread w s := by
  unfold EvServer.deleteClient
  split
  · simp [unread]
  · exact le_rfl

theorem readSession_decreases {s t : EvServer} {c : EvClient} (h : readSession host w s c = .inl t)
    (hn : 8 ≤ c.inputBuffer.readableBytes) : unread w t < c.inputBuffer.readableBytes + 1 := by
  unfold readSession at h
  split at h
  · cases h
  · next h₁ =>
    split at h
    · cases h
    · next h₂ =>
      split at h
      · cases h
      · obtain rfl := Sum.inl.inj h
        rw [unread_setClient, Tbuf.readInt32_eq_some h₂, Tbuf.readInt32_eq_some h₁]
        simp only [Tbuf.readableBytes_retrieve]
        omega

theorem readFrame_decreases {s t : EvServer} {c : EvClient} (h : readFrame host w s c = .inl t)
    (hn : 0 < c.inputBuffer.readableBytes) : unread w t < c.inputBuffer.readableBytes + 1 := by
  unfold readFrame at h
  split at h
  · cases h
  · next h₁ =>
    split at h
    · cases h
    · obtain rfl := Tbuf.readInt32_eq_some h₁
      have hlt : ((c.inputBuffer.retrieve 4).retrieve c.smsg.length.toNat).readableBytes <
          c.inputBuffer.readableBytes := by
        simp only [Tbuf.readableBytes_retrieve]
        omega
      dsimp only at h
      split at h
      · obtain rfl := Sum.inl.inj h
        refine (unread_deleteClient_le _).trans_lt ?_
        change unread w (EvServer.setClient _ w _) < _
        rw [unread_setClient]
        exact Nat.succ_lt_succ hlt
      · obtain rfl := Sum.inl.inj h
        rw [unread_setClient]
        exact Nat.succ_lt_succ hlt

theorem clientReadStep_decreases {s t : EvServer} (h : clientReadStep host w s = .inl t) :
    unread w t < unread w s := by
  unfold clientReadStep at h
  cases hc : s.object w with
  | none => simp [hc] at h
  | some c =>
    have hun : unread w s = c.inputBuffer.readableBytes + 1 := by rw [unread, hc]
    rw [hun]
    simp only [hc] at h
    cases hs : c.state with
    | exceptFrameSize =>
      simp only [hs] at h
      split at h
      · next hn => exact readSession_decreases h hn
      · cases h
    | exceptFrame =>
      simp only [hs] at h
      split at h
      · next hn =>
        refine readFrame_decreases h (lt_of_lt_of_le ?_ hn)
        have := totalLen_eq (c.length_range hs)
        omega
      · cases h

variable (host w)

def clientReadLoop : Loop.Body EvServer Outcome where
  step := clientReadStep host w
  variant := unread w
  decreases := clientReadStep_decreases

def clientReadCb (s : EvServer) (bytes : Bytes) : Outcome :=
  match s.object w with
  | none => .faults s
  | some c =>
    match c.inputBuffer.readfd (some bytes) with
    | none => .faults s
    | some (n, b) =>
      let s := s.setClient w { c with inputBuffer := b }
      if 0 < n then (clientReadLoop host w).run s else .dies s

/-- The event loop calls back for every read while the watcher is started. -/
def onReadable : Outcome → Bytes → Outcome
  | .returns s, bytes => if s.started w then clientReadCb host w s bytes else .returns s
  | r, _ => r

end LinuxSocket.Ttcp
