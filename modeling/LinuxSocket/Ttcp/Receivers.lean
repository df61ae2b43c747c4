import LinuxSocket.Lib.Solo
import LinuxSocket.Ttcp.StopAndWait

/-! # What a receiver makes of a session that ends

`serve` says how many frames of a stream are acknowledged and how the session ends. The blocking server computes
it for every session message that is not too long, whatever the sign of its two numbers.
-/
namespace LinuxSocket.Ttcp
open Duplex

/-- How a session ends: behind the frames announced, because of what was received, or by an access outside of
the payload. -/
inductive Verdict
  | completed
  | refused
  | faulted
  deriving DecidableEq

/-- The acks for `n` frames of a length in front of a stream that ends, and the end of the session. -/
def serve (length : ℤ) : ℕ → Bytes → ℕ × Verdict
  | 0, _ => (0, .completed)
  | n + 1, bytes =>
    if length < -4 ∨ (bytes.length : ℤ) < 4 + length then (0, .refused)
    -- the payload has no room for the length
    else if length < 0 then (0, .faulted)
    else if word bytes = length then
      ((serve length n (bytes.drop (4 + length.toNat))).1 + 1, (serve length n (bytes.drop (4 + length.toNat))).2)
    else (0, .refused)

def ackBytes (host : Endian) (length : ℤ) (n : ℕ) : Bytes := (List.replicate n (int32Bytes host length)).flatten

def Server.verdict : Server → Verdict
  | .returned _ => .completed
  | .died .fault => .faulted
  | _ => .refused

def served (host : Endian) (length : ℤ) (n : ℕ) (bytes : Bytes) : Bytes × Verdict :=
  (ackBytes host length (serve length n bytes).1, (serve length n bytes).2)

def blockingServed (host : Endian) (bytes : Bytes) : Bytes × Verdict :=
  if bytes.length < 8 ∨ maxBufferLength < word (bytes.drop 4) then ([], .refused)
  else served host (word (bytes.drop 4)) (word bytes).toNat (bytes.drop 8)

/-- What it writes from a state on, and how it ends, when these bytes are to come. -/
def Server.foresees (host : Endian) : Server → Bytes → Bytes × Verdict
  | .session r, bytes => blockingServed host (r.stored ++ bytes)
  | .frame smsg i r, bytes => served host smsg.length (smsg.number.toNat - i) (r.stored ++ bytes)
  | .ack smsg i w, bytes =>
    (w.rest ++ (served host smsg.length (smsg.number.toNat - (i + 1)) bytes).1,
      (served host smsg.length (smsg.number.toNat - (i + 1)) bytes).2)
  | s, _ => ([], s.verdict)

/-- The states of the blocking server in which it calls `read` or `write`, or has ended. -/
inductive Server.Good (host : Endian) : Server → Prop
  | session {r} : r.length = 8 → r.stored.length < 8 → Good host (.session r)
  | frame {smsg i r} : IsInt32 smsg.length → smsg.length ≤ maxBufferLength → i < smsg.number.toNat →
      r.length = 4 + smsg.length → (r.stored.length : ℤ) < 4 + smsg.length → Good host (.frame smsg i r)
  | ack {smsg i j} : IsInt32 smsg.length → smsg.length ≤ maxBufferLength → i < smsg.number.toNat → j < 4 →
      Good host (.ack smsg i ⟨int32Bytes host smsg.length, 4, j⟩)
  | returned {i} : Good host (.returned i)
  | died {d} : Good host (.died d)

variable {host peer : Endian} {smsg : SessionMessage} {length : ℤ} {n i : ℕ} {bytes more stored : Bytes}

section Words

theorem int32OfBytes_take (host : Endian) (h : 4 ≤ bytes.length) : int32OfBytes host (bytes.take 4) = word bytes := by
  unfold word
  rw [int32OfBytes, ntohl_load host (List.length_take_of_le h)]

end Words

section Serve

theorem serve_short (h : length < -4 ∨ (bytes.length : ℤ) < 4 + length) : serve length (n + 1) bytes = (0, .refused) :=
  if_pos h

theorem serve_negative (hl : -4 ≤ length) (h : length < 0) (hlen : 4 + length ≤ bytes.length) :
    serve length (n + 1) bytes = (0, .faulted) := by
  rw [serve, if_neg (by omega), if_pos h]

theorem serve_frame (h : 0 ≤ length) (hlen : 4 + length.toNat ≤ bytes.length) (hw : word bytes = length) :
    serve length (n + 1) bytes = ((serve length n (bytes.drop (4 + length.toNat))).1 + 1,
      (serve length n (bytes.drop (4 + length.toNat))).2) := by
  rw [serve, if_neg (by omega), if_neg (by omega), if_pos hw]

theorem serve_mismatch (h : 0 ≤ length) (hw : word bytes ≠ length) :
    serve length (n + 1) bytes = (0, .refused) := by
  by_cases hs : length < -4 ∨ (bytes.length : ℤ) < 4 + length
  · exact serve_short hs
  · rw [serve, if_neg hs, if_neg (by omega), if_neg hw]

end Serve

section Blocking

/-- The acks for no more frames. -/
theorem served_zero (bytes : Bytes) : served host length 0 bytes = ([], .completed) := rfl

theorem served_refused (h : serve length n bytes = (0, .refused)) : served host length n bytes = ([], .refused) := by
  rw [served, h]
  rfl

theorem served_faulted (h : serve length n bytes = (0, .faulted)) : served host length n bytes = ([], .faulted) := by
  rw [served, h]
  rfl

/-- A frame is acknowledged in front of the acks for the others. -/
theorem served_frame (h : 0 ≤ length) (hlen : stored.length = 4 + length.toNat) (hw : word stored = length) :
    served host length (n + 1) (stored ++ more) =
      (int32Bytes host length ++ (served host length n more).1, (served host length n more).2) := by
  have hw' : word (stored ++ more) = length := (word_append (by omega) more).trans hw
  rw [served, serve_frame h (by rw [List.length_append]; omega) hw', List.drop_left' hlen]
  rfl

theorem sub_succ (hi : i < n) : n - i = n - (i + 1) + 1 := by omega

/-- A payload without room for the length. -/
theorem received_negative (hint : IsInt32 smsg.length) (hle : smsg.length ≤ maxBufferLength)
    (hneg : smsg.length < 0) (hs : (stored.length : ℤ) = 4 + smsg.length) :
    Server.received host smsg i stored = .died .fault := by
  have hcells : cells stored 0 4 = none := if_neg (by omega)
  rw [Server.received, intTotalLen_eq_add hint hle, if_pos hs, hcells]

theorem received_nonneg (hint : IsInt32 smsg.length) (hle : smsg.length ≤ maxBufferLength)
    (hpos : 0 ≤ smsg.length) (hs : (stored.length : ℤ) = 4 + smsg.length) :
    Server.received host smsg i stored = if word stored = smsg.length then
      .ack smsg i ⟨int32Bytes host smsg.length, 4, 0⟩ else .died .assertion := by
  have hlen : 4 ≤ stored.length := by omega
  rw [Server.received, intTotalLen_eq_add hint hle, if_pos hs, cells_of_le hlen]
  simp only [List.drop_zero, Nat.sub_zero, int32OfBytes_take host hlen]
  split
  · next hw => rw [hw, WriteN.start]
  · rfl

/-- What the server does with a whole frame. -/
theorem received_spec (hint : IsInt32 smsg.length) (hle : smsg.length ≤ maxBufferLength)
    (hi : i < smsg.number.toNat) (hs : (stored.length : ℤ) = 4 + smsg.length) (bytes : Bytes) :
    (Server.received host smsg i stored).Good host ∧
      served host smsg.length (smsg.number.toNat - i) (stored ++ bytes) =
        (Server.received host smsg i stored).foresees host bytes := by
  rw [sub_succ hi]
  rcases lt_or_ge smsg.length 0 with hneg | hpos
  · rw [received_negative hint hle hneg hs]
    exact ⟨.died, served_faulted (serve_negative (by omega) hneg (by rw [List.length_append]; omega))⟩
  · rw [received_nonneg hint hle hpos hs]
    split
    · next hw =>
      refine ⟨.ack hint hle hi (by decide), ?_⟩
      rw [served_frame hpos (by omega) hw, Server.foresees, WriteN.rest_eq four_eq, List.drop_zero]
    · next hw =>
      rw [← word_append (by omega) bytes] at hw
      exact ⟨.died, served_refused (serve_mismatch hpos hw)⟩

/-- What it does when the stream ends within a frame. -/
theorem received_eof (hint : IsInt32 smsg.length) (hle : smsg.length ≤ maxBufferLength)
    (hi : i < smsg.number.toNat) (hs : (stored.length : ℤ) < 4 + smsg.length) :
    (Server.received host smsg i stored).Good host ∧
      served host smsg.length (smsg.number.toNat - i) (stored ++ []) =
        (Server.received host smsg i stored).foresees host [] := by
  rw [Server.received, intTotalLen_eq_add hint hle, if_neg (by omega), sub_succ hi, List.append_nil]
  exact ⟨.died, served_refused (serve_short (.inr hs))⟩

variable (smsg) in
/-- The server at the condition of its loop. -/
theorem round_spec (hint : IsInt32 smsg.length) (hle : smsg.length ≤ maxBufferLength) (i : ℕ) (bytes : Bytes) :
    (Server.round host smsg i).Good host ∧
      served host smsg.length (smsg.number.toNat - i) bytes = (Server.round host smsg i).foresees host bytes := by
  rw [Server.round]
  split
  · next hi =>
    have hi : i < smsg.number.toNat := by omega
    rw [intTotalLen_eq_add hint hle, ReadN.loop]
    split
    · next hpos => exact ⟨.frame hint hle hi rfl hpos, by rw [Server.foresees]; rfl⟩
    · next hzero =>
      have hzero : ¬(0 < 4 + smsg.length) := hzero
      by_cases hs : smsg.length < -4
      · rw [ReadN.start, Server.received, intTotalLen_eq_add hint hle, if_neg (by rw [List.length_nil]; omega),
          sub_succ hi]
        exact ⟨.died, served_refused (serve_short (.inl hs))⟩
      · exact received_spec hint hle hi (by rw [ReadN.start, List.length_nil]; omega) bytes
  · next hi =>
    rw [Nat.sub_eq_zero_of_le (by omega)]
    exact ⟨.returned, served_zero bytes⟩

/-- The server behind the session message. -/
theorem opened_eq (hs : stored.length = 8) : Server.opened host stored =
    if maxBufferLength < word (stored.drop 4) then .died .exit
    else .round host ⟨word stored, word (stored.drop 4)⟩ 0 := by
  have hdrop : (stored.drop 4).length = 4 := by rw [List.length_drop, hs]
  have hsecond : int32OfBytes host ((stored.drop 4).take 4) = _ := int32OfBytes_take host (Nat.le_of_eq hdrop.symm)
  rw [List.take_of_length_le (Nat.le_of_eq hdrop)] at hsecond
  rw [Server.opened, if_pos hs, int32OfBytes_take host (by omega), hsecond]

theorem blockingServed_eq (hs : stored.length = 8) (bytes : Bytes) : blockingServed host (stored ++ bytes) =
    if maxBufferLength < word (stored.drop 4) then ([], .refused)
    else served host (word (stored.drop 4)) (word stored).toNat bytes := by
  have hdrop : (stored.drop 4).length = 4 := by rw [List.length_drop, hs]
  have hlen : ¬(stored ++ bytes).length < 8 := by
    rw [List.length_append]
    omega
  rw [blockingServed, word_append (by omega), List.drop_append_of_le_length (by omega), word_append (by omega),
    List.drop_left' hs]
  simp only [hlen, false_or]

theorem opened_spec (hs : stored.length = 8) (bytes : Bytes) : (Server.opened host stored).Good host ∧
    blockingServed host (stored ++ bytes) = (Server.opened host stored).foresees host bytes := by
  have hint := isInt32_word (stored.drop 4)
  rw [opened_eq hs, blockingServed_eq hs]
  generalize word (stored.drop 4) = length at *
  generalize word stored = number
  split
  · exact ⟨.died, rfl⟩
  · next hlong => exact round_spec ⟨number, length⟩ hint (Int.not_lt.mp hlong) 0 bytes

theorem opened_eof (hs : stored.length < 8) : (Server.opened host stored).Good host ∧
    blockingServed host (stored ++ []) = (Server.opened host stored).foresees host [] := by
  rw [Server.opened, if_neg (by omega), blockingServed, List.append_nil, if_pos (.inl hs)]
  exact ⟨.died, rfl⟩

/-- What the server does when a part of an ack has been written. -/
theorem ack_spec {j k : ℕ} (hint : IsInt32 smsg.length) (hle : smsg.length ≤ maxBufferLength)
    (hi : i < smsg.number.toNat) (hk : j + k ≤ 4) (bytes : Bytes) (p : Server)
    (hp : p = (⟨int32Bytes host smsg.length, 4, j⟩ : WriteN).onWrite k (.ack smsg i) (.answered host smsg i)) :
    p.Good host ∧ Server.foresees host (.ack smsg i ⟨int32Bytes host smsg.length, 4, j⟩) bytes =
      (((int32Bytes host smsg.length).drop j).take k ++ (p.foresees host bytes).1, (p.foresees host bytes).2) := by
  have hlen : (int32Bytes host smsg.length).length = 4 := length_int32Bytes host _
  rw [Server.foresees, WriteN.rest_eq four_eq]
  subst hp
  refine WriteN.onWrite_rule (p := fun y : Server => y.Good host ∧ _ = (_ ++ (y.foresees host bytes).1,
    (y.foresees host bytes).2)) four_eq (by rwa [hlen]) ?_ ?_
  · intro hlt
    refine ⟨.ack hint hle hi (by omega), ?_⟩
    rw [Server.foresees, WriteN.rest_eq four_eq, ← List.drop_drop, ← List.append_assoc, List.take_append_drop]
  · intro heq
    obtain ⟨hgood, hround⟩ : (Server.round host smsg (i + 1)).Good host ∧
        _ = (Server.round host smsg (i + 1)).foresees host bytes := round_spec smsg hint hle (i + 1) bytes
    rw [Server.answered, if_pos rfl, List.take_of_length_le (by rw [List.length_drop]; omega), ← hround]
    exact ⟨hgood, rfl⟩

theorem onRead_session_nil (r : ReadN) : (serverProcess host).onRead (.session r) [] = .opened host r.stored := by
  simp only [serverProcess, ReadN.onRead_nil]

theorem onRead_frame_nil (r : ReadN) :
    (serverProcess host).onRead (.frame smsg i r) [] = .received host smsg i r.stored := by
  simp only [serverProcess, ReadN.onRead_nil]

inductive Server.Reads : Server → ℕ → Prop
  | session {r} : r.length = 8 → r.stored.length < 8 → Reads (.session r) r.want
  | frame {smsg i r} : IsInt32 smsg.length → smsg.length ≤ maxBufferLength → i < smsg.number.toNat →
      r.length = 4 + smsg.length → (r.stored.length : ℤ) < 4 + smsg.length → Reads (.frame smsg i r) r.want

theorem Server.Good.reads {s : Server} (h : s.Good host) {count : ℕ}
    (hc : (serverProcess host).call s = .read count) : s.Reads count := by
  cases h with
  | session hr hlt =>
    obtain rfl := Pending.read.inj hc
    exact .session hr hlt
  | frame hint hlong hi hr hlt =>
    obtain rfl := Pending.read.inj hc
    exact .frame hint hlong hi hr hlt
  | ack => cases hc
  | returned => cases hc
  | died => cases hc

/-- The good states in which it writes. -/
theorem Server.Good.writes {s : Server} (h : s.Good host) {xs : Bytes}
    (hc : (serverProcess host).call s = .write xs) : ∃ smsg i j,
      s = .ack smsg i ⟨int32Bytes host smsg.length, 4, j⟩ ∧ IsInt32 smsg.length ∧ smsg.length ≤ maxBufferLength ∧
        i < smsg.number.toNat ∧ j < 4 ∧ xs = (int32Bytes host smsg.length).drop j := by
  cases h with
  | session => cases hc
  | frame => cases hc
  | @ack smsg i j hint hlong hi hj =>
    obtain rfl := Pending.write.inj hc
    exact ⟨smsg, i, j, rfl, hint, hlong, hi, hj, WriteN.rest_eq four_eq⟩
  | returned => cases hc
  | died => cases hc

/-- The blocking server does what is foreseen of it. -/
theorem server_predicts (host : Endian) :
    Predicts (serverProcess host) (Server.Good host) (Server.foresees host) Server.verdict where
  exit hx hc := by
    cases hx with
    | session => cases hc
    | frame => cases hc
    | ack => cases hc
    | returned => rfl
    | died => rfl
  write bytes hx hc hk hle := by
    obtain ⟨smsg, i, j, rfl, hint, hlong, hi, hj, rfl⟩ := hx.writes hc
    rw [List.length_drop, length_int32Bytes] at hle
    exact ack_spec hint hlong hi (by omega) bytes _ rfl
  read inp hx hc hne hle := by
    cases hx.reads hc with
    | @session r hr hlt =>
      refine ReadN.onRead_more (p := fun y : Server => y.Good host ∧ _ = y.foresees host inp) (by omega) hne hle ?_ ?_
      · intro hmore
        rw [hr] at hmore
        refine ⟨.session hr (Int.ofNat_lt.mp hmore), ?_⟩
        rw [Server.foresees, Server.foresees, List.append_assoc]
      · intro hend
        rw [Server.foresees, ← List.append_assoc]
        exact opened_spec (by omega) inp
    | @frame smsg i r hint hlong hi hr hlt =>
      refine ReadN.onRead_more (p := fun y : Server => y.Good host ∧ _ = y.foresees host inp) (by omega) hne hle ?_ ?_
      · intro hmore
        rw [hr] at hmore
        refine ⟨.frame hint hlong hi hr hmore, ?_⟩
        rw [Server.foresees, Server.foresees, List.append_assoc]
      · intro hend
        rw [Server.foresees, ← List.append_assoc]
        exact received_spec hint hlong hi (by omega) inp
  eof hx hc := by
    cases hx.reads hc with
    | session _ hlt =>
      rw [onRead_session_nil]
      exact opened_eof hlt
    | frame hint hlong hi _ hlt =>
      rw [onRead_frame_nil]
      exact received_eof hint hlong hi hlt
  interrupt _ := rfl

theorem good_serverReceive : serverReceive.Good host := .session rfl (by decide)

/-- What the blocking server writes and how it ends, on any input that ends and however this arrives. -/
theorem solo_served {out : Bytes} {y : Server} (h : Solo (serverProcess host) serverReceive bytes out y) :
    blockingServed host bytes = (out, y.verdict) :=
  h.predicted (server_predicts host) good_serverReceive

/-- The calls that are still to come are fewer than this, with `n` bytes to come. -/
def Server.size : Server → ℕ → ℕ
  | .ack .., n => 2 * n + 2
  | .session _, n => 2 * n + 1
  | .frame .., n => 2 * n + 1
  | _, _ => 0

theorem Server.size_le (s : Server) (n : ℕ) : s.size n ≤ 2 * n + 2 := by
  cases s <;> simp [Server.size]

/-- Nothing is read into a payload without bytes. -/
theorem received_nil (host : Endian) (smsg : SessionMessage) (i : ℕ) :
    ∃ d, Server.received host smsg i [] = .died d := by
  rw [Server.received]
  split
  · exact ⟨.fault, rfl⟩
  · exact ⟨.exit, rfl⟩

theorem size_round (host : Endian) (smsg : SessionMessage) (i n : ℕ) :
    (Server.round host smsg i).size n ≤ 2 * n + 1 := by
  obtain ⟨d, hd⟩ := received_nil host smsg i
  rw [Server.round, ReadN.loop, ReadN.start, hd]
  split
  · split <;> simp [Server.size]
  · simp [Server.size]

theorem ReadN.want_pos {r : ReadN} (h : r.stored.length < r.length) : 0 < r.want := by
  rw [want]
  omega

/-- The blocking server comes to its end. -/
theorem server_shrinks (host : Endian) : Shrinks (serverProcess host) (Server.Good host) Server.size where
  proper hx := by
    cases hx with
    | session hr hlt => exact ReadN.want_pos (by omega)
    | frame _ _ _ hr hlt => exact ReadN.want_pos (by omega)
    | ack _ _ _ hj =>
      rw [serverProcess, Pending.Proper, WriteN.rest_eq four_eq]
      exact drop_ne_nil (by rwa [length_int32Bytes])
    | returned => trivial
    | died => trivial
  write hx hc := by
    obtain ⟨smsg, i, j, rfl, hint, hlong, hi, hj, rfl⟩ := hx.writes hc
    rw [List.length_drop, length_int32Bytes]
    refine WriteN.onWrite_rule (p := fun y : Server => y.size _ < _) four_eq (by rw [length_int32Bytes]; omega) ?_ ?_
    · rw [length_int32Bytes]
      omega
    · intro _
      rw [Server.answered, if_pos rfl]
      exact Nat.lt_succ_of_le (size_round host smsg (i + 1) _)
  read hx hc hne _ := by
    have hpos := List.length_pos_of_ne_nil hne
    refine Nat.lt_of_le_of_lt (Server.size_le _ _) ?_
    cases hx.reads hc with
    | session => simp only [Server.size]; omega
    | frame => simp only [Server.size]; omega
  eof hx hc := by
    cases hx.reads hc with
    | session _ hlt =>
      rw [onRead_session_nil, Server.opened, if_neg (by omega)]
      exact Nat.one_pos
    | frame hint hlong _ _ hlt =>
      rw [onRead_frame_nil, Server.received, intTotalLen_eq_add hint hlong, if_neg (by omega)]
      exact Nat.one_pos

theorem exists_server_solo (host : Endian) (bytes : Bytes) :
    ∃ out y, Solo (serverProcess host) serverReceive bytes out y :=
  exists_solo (server_predicts host) (server_shrinks host) good_serverReceive bytes

end Blocking

end LinuxSocket.Ttcp
