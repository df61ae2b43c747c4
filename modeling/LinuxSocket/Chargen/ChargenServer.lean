import LinuxSocket.Lib.Cyclic
import LinuxSocket.Lib.Line

/-! # The character generator

The connections are objects of muduo. What the server relies on in them is stated of the events that may come.
-/
namespace LinuxSocket.Chargen

section Message

/-- `line` of the constructor before it is doubled. -/
def printable : Bytes := (List.range (127 - 33)).map fun i => UInt8.ofNat (33 + i)

def line : Bytes := printable ++ printable

@[irreducible] def message : Bytes := (List.range (127 - 33)).flatMap fun i => (line.drop i).take 72 ++ [LF]

end Message

/-- What was passed to `send` on a connection, what its socket has taken of it, and how often the write-complete
callback has been called. -/
structure Connection where
  passed : List Bytes := []
  taken : Bytes := []
  completed : ℕ := 0

def Connection.send (conn : Connection) (text : Bytes) : Connection := { conn with passed := conn.passed ++ [text] }

/-- The server with its connections in the order in which they came, and what `printThroughput` has read off
`transferred_` so far. -/
structure ChargenServer where
  connections : List Connection := []
  transferred : ℕ := 0
  printed : List ℕ := []

inductive Event
  /-- a new connection is up -/
  | connected
  | taken (i : ℕ) (bytes : Bytes)
  | writeComplete (i : ℕ)
  | message (i : ℕ) (bytes : Bytes)
  /-- a connection is down -/
  | disconnected (i : ℕ)
  | timer

namespace ChargenServer

/-- `onConnection` with a connection that is up. -/
def onConnection (s : ChargenServer) (conn : Connection) : ChargenServer :=
  { s with connections := s.connections ++ [conn.send message] }

def onWriteComplete (s : ChargenServer) (i : ℕ) (conn : Connection) : ChargenServer :=
  { s with transferred := s.transferred + message.length, connections := s.connections.set i (conn.send message) }

def printThroughput (s : ChargenServer) : ChargenServer :=
  { s with printed := s.printed ++ [s.transferred], transferred := 0 }

/-- One event of the loop. `onMessage` discards what it gets, and `onConnection` does nothing with a connection that is
down. -/
def step (s : ChargenServer) : Event → Option ChargenServer
  | .connected => some (s.onConnection {})
  | .taken i bytes => do
    let conn ← s.connections[i]?
    some { s with connections := s.connections.set i { conn with taken := conn.taken ++ bytes } }
  | .writeComplete i => do
    let conn ← s.connections[i]?
    some (s.onWriteComplete i { conn with completed := conn.completed + 1 })
  | .message i _ => do
    let _ ← s.connections[i]?
    some s
  | .disconnected i => do
    let _ ← s.connections[i]?
    some s
  | .timer => some s.printThroughput

end ChargenServer

/-- What the server relies on: sockets take the bytes of the texts in their order, and with each call of the
write-complete callback one more of the texts has been taken. -/
structure Muduo (may : ChargenServer → Event → Prop) : Prop where
  takes : ∀ {s i bytes conn}, may s (.taken i bytes) → s.connections[i]? = some conn →
    conn.taken ++ bytes <+: conn.passed.flatten
  completes : ∀ {s i conn}, may s (.writeComplete i) → s.connections[i]? = some conn →
    (conn.passed.take (conn.completed + 1)).flatten <+: conn.taken

inductive Run (may : ChargenServer → Event → Prop) : ChargenServer → Prop
  | start : Run may {}
  | step {s s' e} : Run may s → may s e → s.step e = some s' → Run may s'

section Stream

/-- The byte at the position `n` of the stream: rows of 72 printable characters in their order, each row one further
than the last. -/
def charAt (n : ℕ) : UInt8 := if n % 73 = 72 then LF else UInt8.ofNat (33 + (n / 73 + n % 73) % 94)

theorem charAt_row (i j : ℕ) (hj : j < 73) :
    charAt (73 * i + j) = if j = 72 then LF else UInt8.ofNat (33 + (i + j) % 94) := by
  have hdiv : (73 * i + j) / 73 = i := by omega
  have hmod : (73 * i + j) % 73 = j := by omega
  rw [charAt, hdiv, hmod]

theorem line_eq : line = (List.range (94 + 94)).map fun k => UInt8.ofNat (33 + k % 94) := by
  rw [line, printable, List.range_add, List.map_append, List.map_map]
  refine congrArg₂ _ ?_ ?_
  · exact List.map_congr_left fun k hk => by rw [Nat.mod_eq_of_lt (List.mem_range.mp hk)]
  · refine List.map_congr_left fun k hk => ?_
    rw [Function.comp_apply, Nat.add_mod_left, Nat.mod_eq_of_lt (List.mem_range.mp hk)]

theorem row_eq {i : ℕ} (hi : i < 94) :
    (line.drop i).take 72 ++ [LF] = (List.range 73).map fun j => charAt (73 * i + j) := by
  have hrow : (List.range 73).map (fun j => charAt (73 * i + j)) =
      ((List.range 72).map fun j => UInt8.ofNat (33 + (i + j) % 94)) ++ [LF] := by
    rw [List.range_succ, List.map_append, List.map_singleton, charAt_row i 72 (by omega), if_pos rfl]
    refine congrArg (· ++ _) (List.map_congr_left fun j hj => ?_)
    have hlt : j < 72 := List.mem_range.mp hj
    rw [charAt_row i j (by omega), if_neg (by omega)]
  rw [hrow, line_eq]
  refine congrArg (· ++ _) (List.ext_getElem ?_ fun j hj _ => ?_)
  · simp
    omega
  · simp

theorem message_eq : message = (List.range (94 * 73)).map charAt := by
  rw [message, ← Cyclic.flatMap_rows charAt 94 73]
  exact List.flatMap_congr fun i hi => row_eq (List.mem_range.mp hi)

theorem length_message : message.length = 94 * 73 := by rw [message_eq, List.length_map, List.length_range]

/-- The end of the message goes on with its start. -/
theorem charAt_period (n : ℕ) : charAt (n + 94 * 73) = charAt n := by
  have hdiv : (n + 94 * 73) / 73 = n / 73 + 94 := by omega
  have hmod : (n + 94 * 73) % 73 = n % 73 := by omega
  rw [charAt, charAt, hdiv, hmod, Nat.add_right_comm, Nat.add_mod_right]

def stream (n : ℕ) : Bytes := (List.range n).map charAt

theorem stream_message (n : ℕ) : stream ((n + 1) * message.length) = stream (n * message.length) ++ message := by
  rw [length_message, Nat.succ_mul, stream, Cyclic.map_range_period charAt_period, ← message_eq, stream]

theorem flatten_replicate_message (n : ℕ) : (List.replicate n message).flatten = stream (n * message.length) := by
  induction n with
  | zero => rw [Nat.zero_mul, List.replicate_zero, stream, List.range_zero, List.map_nil, List.flatten_nil]
  | succ n ih => rw [stream_message, ← ih, List.replicate_succ', List.flatten_concat]

theorem length_stream (n : ℕ) : (stream n).length = n := by rw [stream, List.length_map, List.length_range]

theorem eq_stream_of_le {xs : Bytes} {n : ℕ} (h : xs <+: stream n) : xs = stream xs.length := by
  have hlen : xs.length ≤ n := length_stream n ▸ h.length_le
  have htake := List.prefix_iff_eq_take.mp h
  rw [stream, ← List.map_take, List.take_range, Nat.min_eq_left hlen] at htake
  exact htake

end Stream

end LinuxSocket.Chargen
