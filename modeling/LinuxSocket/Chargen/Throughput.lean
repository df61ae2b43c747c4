import LinuxSocket.Chargen.ChargenServer
import Mathlib.Algebra.BigOperators.Group.List.Basic

/-! # What the clients get and what the server counts

The next message is passed to `send` when the last one has been taken, so no connection has more than one message under
way. The server counts a message with the call of the callback behind it.
-/
namespace LinuxSocket.Chargen

structure Serves (conn : Connection) : Prop where
  passed : conn.passed = List.replicate (conn.completed + 1) message
  taken : conn.taken <+: conn.passed.flatten
  completed_le : conn.completed * message.length ≤ conn.taken.length

section Served
variable {conn : Connection} {bytes : Bytes}

theorem Serves.flatten_passed (h : Serves conn) :
    conn.passed.flatten = stream ((conn.completed + 1) * message.length) := by
  rw [h.passed, flatten_replicate_message]

theorem completed_send (text : Bytes) (n : ℕ) : (({} : Connection).send text).completed * n = 0 := Nat.zero_mul n

theorem serves_send : Serves (({} : Connection).send message) where
  passed := rfl
  taken := List.nil_prefix
  completed_le := (completed_send message message.length).trans_le (Nat.zero_le _)

theorem Serves.take (h : Serves conn) (hbytes : conn.taken ++ bytes <+: conn.passed.flatten) :
    Serves { conn with taken := conn.taken ++ bytes } where
  passed := h.passed
  taken := hbytes
  completed_le := by
    rw [List.length_append]
    exact Nat.le_add_right_of_le h.completed_le

/-- The callback passes the next message. -/
theorem Serves.complete (h : Serves conn) (hall : (conn.passed.take (conn.completed + 1)).flatten <+: conn.taken) :
    Serves ({ conn with completed := conn.completed + 1 }.send message) := by
  have hpassed : conn.passed.take (conn.completed + 1) = conn.passed :=
    List.take_of_length_le (by rw [h.passed, List.length_replicate])
  rw [hpassed] at hall
  refine ⟨?_, ?_, ?_⟩
  · rw [Connection.send, h.passed, ← List.replicate_succ']
  · rw [Connection.send, List.flatten_concat]
    exact h.taken.trans (List.prefix_append _ _)
  · have hlen := hall.length_le
    rwa [h.flatten_passed, length_stream] at hlen

theorem Serves.length_le (h : Serves conn) :
    conn.passed.flatten.length ≤ conn.taken.length + message.length ∧
      conn.taken.length ≤ conn.completed * message.length + message.length := by
  have hlen : conn.passed.flatten.length = conn.completed * message.length + message.length := by
    rw [h.flatten_passed, length_stream, Nat.succ_mul]
  have hle := h.taken.length_le
  have hcompleted := h.completed_le
  omega

end Served

section Server
variable {may : ChargenServer → Event → Prop} {s s' : ChargenServer} {conns : List Connection} {conn conn' : Connection}
  {i : ℕ}

def counted (conns : List Connection) : ℕ := (conns.map fun conn => conn.completed * message.length).sum

def takenLength (conns : List Connection) : ℕ := (conns.map fun conn => conn.taken.length).sum

structure Accounted (s : ChargenServer) : Prop where
  serves : ∀ conn ∈ s.connections, Serves conn
  total : s.printed.sum + s.transferred = counted s.connections

theorem counted_set (h : conns[i]? = some conn) (conn' : Connection) :
    counted (conns.set i conn') + conn.completed * message.length =
      counted conns + conn'.completed * message.length := by
  obtain ⟨hi, hget⟩ := List.getElem?_eq_some_iff.mp h
  obtain ⟨l, r, hsplit, -, hset⟩ := List.exists_of_set hi
  rw [hset, hsplit, hget]
  simp only [counted, List.map_append, List.map_cons, List.sum_append, List.sum_cons]
  omega

theorem counted_concat (conn : Connection) :
    counted (conns ++ [conn]) = counted conns + conn.completed * message.length := by
  rw [counted, List.map_append, List.sum_append, List.map_singleton, List.sum_singleton, counted]

theorem counted_le (h : ∀ conn ∈ conns, Serves conn) :
    counted conns ≤ takenLength conns ∧ takenLength conns ≤ counted conns + message.length * conns.length := by
  induction conns with
  | nil => exact ⟨Nat.zero_le _, Nat.zero_le _⟩
  | cons conn conns ih =>
    have hconn := h conn List.mem_cons_self
    have hrest := ih fun c hc => h c (List.mem_cons_of_mem _ hc)
    have hcompleted := hconn.completed_le
    have htaken := hconn.length_le.2
    simp only [counted, takenLength, List.map_cons, List.sum_cons, List.length_cons, Nat.mul_succ] at hrest ⊢
    omega

/-- One connection changes. -/
theorem Accounted.set (h : Accounted s) (hi : s.connections[i]? = some conn) (hserves : Serves conn')
    (hs : s'.connections = s.connections.set i conn') (hp : s'.printed = s.printed)
    (ht : s'.transferred + conn.completed * message.length = s.transferred + conn'.completed * message.length) :
    Accounted s' := by
  have hsum := counted_set hi conn'
  have htotal := h.total
  constructor
  · intro c hc
    rw [hs] at hc
    rcases List.mem_or_eq_of_mem_set hc with hc | rfl
    · exact h.serves c hc
    · exact hserves
  · rw [hs, hp]
    omega

theorem Accounted.step (hmay : Muduo may) {e : Event} (h : Accounted s) (hable : may s e) (he : s.step e = some s') :
    Accounted s' := by
  cases e with
  | connected =>
    obtain rfl := Option.some.inj he
    refine ⟨fun conn hc => ?_, ?_⟩
    · rcases List.mem_append.mp hc with hc | hc
      · exact h.serves conn hc
      · rw [List.mem_singleton.mp hc]
        exact serves_send
    · rw [ChargenServer.onConnection, counted_concat, completed_send, Nat.add_zero]
      exact h.total
  | taken i bytes =>
    obtain ⟨conn, hi, he⟩ := Option.bind_eq_some_iff.mp he
    obtain rfl := Option.some.inj he
    have hserves := h.serves conn (List.mem_of_getElem? hi)
    exact h.set hi (hserves.take (hmay.takes hable hi)) rfl rfl rfl
  | writeComplete i =>
    obtain ⟨conn, hi, he⟩ := Option.bind_eq_some_iff.mp he
    obtain rfl := Option.some.inj he
    have hserves := h.serves conn (List.mem_of_getElem? hi)
    refine h.set hi (hserves.complete (hmay.completes hable hi)) rfl rfl ?_
    simp only [ChargenServer.onWriteComplete, Connection.send, Nat.succ_mul]
    omega
  | message i bytes =>
    obtain ⟨conn, hi, he⟩ := Option.bind_eq_some_iff.mp he
    obtain rfl := Option.some.inj he
    exact h
  | disconnected i =>
    obtain ⟨conn, hi, he⟩ := Option.bind_eq_some_iff.mp he
    obtain rfl := Option.some.inj he
    exact h
  | timer =>
    obtain rfl := Option.some.inj he
    refine ⟨h.serves, ?_⟩
    have htotal := h.total
    simp only [ChargenServer.printThroughput, List.sum_append, List.sum_singleton]
    omega

theorem Run.accounted (hmay : Muduo may) (h : Run may s) : Accounted s := by
  induction h with
  | start => exact ⟨by simp, rfl⟩
  | step _ hable he ih => exact ih.step hmay hable he

end Server

/-- In every run each client gets the stream from its start, no connection has more than one message under way, and the
bytes counted are those that the sockets have taken, up to one message for each connection. -/
theorem clients_get_stream {may : ChargenServer → Event → Prop} (hmay : Muduo may) {s : ChargenServer} (h : Run may s) :
    (∀ conn ∈ s.connections, conn.taken = stream conn.taken.length ∧
      conn.passed.flatten.length ≤ conn.taken.length + message.length) ∧
    s.printed.sum + s.transferred ≤ takenLength s.connections ∧
    takenLength s.connections ≤ s.printed.sum + s.transferred + message.length * s.connections.length := by
  obtain ⟨hserves, htotal⟩ := h.accounted hmay
  rw [htotal]
  refine ⟨fun conn hc => ?_, counted_le hserves⟩
  have hconn := hserves conn hc
  exact ⟨eq_stream_of_le (hconn.flatten_passed ▸ hconn.taken), hconn.length_le.1⟩

section Draining

/-- Sockets that take any part of what is left, and a callback for each text when nothing is left. -/
def drains (s : ChargenServer) : Event → Prop
  | .taken i bytes => ∀ conn, s.connections[i]? = some conn → conn.taken ++ bytes <+: conn.passed.flatten
  | .writeComplete i => ∀ conn, s.connections[i]? = some conn →
    conn.completed < conn.passed.length ∧ conn.passed.flatten = conn.taken
  | _ => True

theorem drains_muduo : Muduo drains where
  takes {s i bytes conn} h hi := h conn hi
  completes {s i conn} h hi := by
    rw [← (h conn hi).2]
    exact (List.take_prefix _ _).flatten

/-- The first of two clients gets the message and some bytes of the next one, and the other one some bytes of its
first. -/
theorem clients_get_stream_two : ∃ s : ChargenServer, s.connections.length = 2 ∧ s.printed = [message.length] ∧
    (∀ conn ∈ s.connections, conn.taken = stream conn.taken.length ∧
      conn.passed.flatten.length ≤ conn.taken.length + message.length) ∧
    s.printed.sum + s.transferred ≤ takenLength s.connections ∧
    takenLength s.connections ≤ s.printed.sum + s.transferred + message.length * s.connections.length := by
  have hone : Run drains { connections := [⟨[message], [], 0⟩] } := Run.start.step (e := .connected) trivial rfl
  have htwo : Run drains { connections := [⟨[message], [], 0⟩, ⟨[message], [], 0⟩] } :=
    hone.step (e := .connected) trivial rfl
  have hall : Run drains { connections := [⟨[message], message, 0⟩, ⟨[message], [], 0⟩] } := by
    refine htwo.step (e := .taken 0 message) ?_ rfl
    rintro conn ⟨⟩
    simp
  have hnext : Run drains { connections := [⟨[message, message], message, 1⟩, ⟨[message], [], 0⟩]
                            transferred := 0 + message.length } := by
    refine hall.step (e := .writeComplete 0) ?_ rfl
    rintro conn ⟨⟩
    simp
  have hmore : Run drains { connections := [⟨[message, message], message ++ message.take 9, 1⟩, ⟨[message], [], 0⟩]
                            transferred := 0 + message.length } := by
    refine hnext.step (e := .taken 0 (message.take 9)) ?_ rfl
    rintro conn ⟨⟩
    simp [List.take_prefix]
  have hother : Run drains { connections := [⟨[message, message], message ++ message.take 9, 1⟩,
                                ⟨[message], message.take 2, 0⟩]
                             transferred := 0 + message.length } := by
    refine hmore.step (e := .taken 1 (message.take 2)) ?_ rfl
    rintro conn ⟨⟩
    simp [List.take_prefix]
  have htimer := hother.step (e := .timer) trivial rfl
  exact ⟨_, rfl, congrArg (fun n => [n]) (Nat.zero_add _), clients_get_stream drains_muduo htimer⟩

end Draining

end LinuxSocket.Chargen
