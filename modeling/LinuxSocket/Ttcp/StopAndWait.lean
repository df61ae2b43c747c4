import LinuxSocket.Ttcp.Blocking

/-! # A session of the blocking client with the blocking server

The client writes a session message and frames, the server acks, and each of them can be located in both streams
at any time.
-/
namespace LinuxSocket.Ttcp
open Duplex

section Blocks
variable {α : Type*}

/-- Inside of the `i`-th of `n` equal blocks. -/
theorem drop_flatten_replicate (xs : List α) {n i j : ℕ} (hi : i < n) (hj : j ≤ xs.length) :
    (List.replicate n xs).flatten.drop (i * xs.length + j) =
      xs.drop j ++ (List.replicate (n - i - 1) xs).flatten := by
  induction i generalizing n with
  | zero =>
    obtain ⟨n, rfl⟩ := Nat.exists_eq_succ_of_ne_zero (Nat.ne_of_gt hi)
    rw [Nat.zero_mul, Nat.zero_add, List.replicate_succ, List.flatten_cons, List.drop_append_of_le_length hj]
    rfl
  | succ i ih =>
    obtain ⟨n, rfl⟩ := Nat.exists_eq_succ_of_ne_zero (Nat.ne_zero_of_lt hi)
    have hsum : (i + 1) * xs.length + j = xs.length + (i * xs.length + j) := by
      rw [Nat.succ_mul]
      omega
    rw [hsum, List.replicate_succ, List.flatten_cons, List.drop_length_add_append, ih (Nat.lt_of_succ_lt_succ hi),
      Nat.succ_sub_succ]

theorem length_flatten_replicate (xs : List α) (n : ℕ) :
    (List.replicate n xs).flatten.length = n * xs.length := by simp

/-- What is left of a block is the next part of the stream. -/
theorem drop_prefix_blocks (head xs : List α) {n i j : ℕ} (hi : i < n) (hj : j ≤ xs.length) :
    xs.drop j <+: (head ++ (List.replicate n xs).flatten).drop (head.length + (i * xs.length + j)) := by
  rw [List.drop_length_add_append, drop_flatten_replicate xs hi hj]
  exact List.prefix_append _ _

end Blocks

section Loops
variable {β : Type*} {p : β → Prop} {xs : Bytes} {length : ℤ} {j k : ℕ}

theorem WriteN.loop_start {call : WriteN → β} {ret : ℤ → β} (h : 0 < length) :
    (WriteN.start xs length).loop call ret = call (.start xs length) := if_pos h

theorem ReadN.loop_start {call : ReadN → β} {ret : Bytes → β} (h : 0 < length) :
    (ReadN.start length).loop call ret = call (.start length) := if_pos h

theorem WriteN.rest_eq (hlen : length = xs.length) : (⟨xs, length, j⟩ : WriteN).rest = xs.drop j := by
  rw [rest, hlen, Int.toNat_natCast, List.take_length]

theorem ReadN.want_eq (hlen : length = xs.length) (hj : j ≤ xs.length) :
    (⟨length, xs.take j⟩ : ReadN).want = xs.length - j := by
  change (length - (xs.take j).length).toNat = _
  rw [hlen, List.length_take_of_le hj]
  omega

/-- `write_n` goes on or returns the length. -/
theorem WriteN.onWrite_rule {call : WriteN → β} {ret : ℤ → β} (hlen : length = xs.length) (hk : j + k ≤ xs.length)
    (hcall : j + k < xs.length → p (call ⟨xs, length, j + k⟩)) (hret : j + k = xs.length → p (ret length)) :
    p ((⟨xs, length, j⟩ : WriteN).onWrite k call ret) := by
  change p (if ((j + k : ℕ) : ℤ) < length then call ⟨xs, length, j + k⟩ else ret (j + k : ℕ))
  split
  · next hlt => exact hcall (by omega)
  · next hge =>
    have heq : j + k = xs.length := by omega
    rw [heq, ← hlen]
    exact hret heq

theorem ReadN.onRead_nil (r : ReadN) (call : ReadN → β) (ret : Bytes → β) : r.onRead [] call ret = ret r.stored :=
  if_pos rfl

/-- `read` has stored some of the bytes that it was asked for. -/
theorem ReadN.onRead_more {r : ReadN} {bytes : Bytes} {call : ReadN → β} {ret : Bytes → β}
    (hr : r.stored.length < r.length) (hne : bytes ≠ []) (hle : bytes.length ≤ r.want)
    (hcall : ((r.stored ++ bytes).length : ℤ) < r.length → p (call { r with stored := r.stored ++ bytes }))
    (hret : ((r.stored ++ bytes).length : ℤ) = r.length → p (ret (r.stored ++ bytes))) :
    p (r.onRead bytes call ret) := by
  rw [onRead, if_neg hne, loop]
  split
  · next hlt => exact hcall hlt
  · next hge =>
    have hge : ¬((r.stored ++ bytes).length : ℤ) < r.length := hge
    have hlen : (r.stored ++ bytes).length = r.stored.length + bytes.length := List.length_append
    unfold want at hle
    exact hret (by omega)

/-- `read_n` of the bytes `xs` goes on or returns them. -/
theorem ReadN.onRead_rule {call : ReadN → β} {ret : Bytes → β} (hlen : length = xs.length) (hpos : 0 < k)
    (hk : j + k ≤ xs.length) (hcall : j + k < xs.length → p (call ⟨length, xs.take (j + k)⟩))
    (hret : j + k = xs.length → p (ret xs)) :
    p ((⟨length, xs.take j⟩ : ReadN).onRead ((xs.drop j).take k) call ret) := by
  subst hlen
  have hmoved := length_take_drop hk
  have hj : (xs.take j).length = j := List.length_take_of_le (by omega)
  have hall : (xs.take (j + k)).length = j + k := List.length_take_of_le hk
  refine ReadN.onRead_more ?_ (List.ne_nil_of_length_pos (by rwa [hmoved])) ?_ ?_ ?_
  · dsimp only
    omega
  · rw [hmoved, ReadN.want_eq rfl (by omega)]
    omega
  · dsimp only
    rw [← List.take_add]
    intro hlt
    exact hcall (by omega)
  · dsimp only
    rw [← List.take_add]
    intro heq
    have hend : j + k = xs.length := by omega
    rw [hend, List.take_length]
    exact hret hend

end Loops

variable {host peer : Endian} {opt : SessionMessage}

@[simp] theorem length_payloadData (n : ℕ) : (payloadData n).length = n := by simp [payloadData]

@[simp] theorem length_payload : (payload host opt).length = 4 + opt.length.toNat := by
  simp [payload, payloadMessage]

theorem isInt32_length (h : 0 ≤ opt.length ∧ opt.length ≤ maxBufferLength) : IsInt32 opt.length := by
  rw [maxBufferLength] at h
  exact ⟨by omega, by omega⟩

/-- The length of a frame is not reduced for a session message that is not too long. -/
theorem intTotalLen_eq_add {length : ℤ} (h : IsInt32 length) (hle : length ≤ maxBufferLength) :
    intTotalLen length = 4 + length := by
  have hle' : length ≤ 10485760 := hle
  obtain ⟨hl, hr⟩ := h
  have hx : (((4 + length) % 2 ^ 64).toNat : ℤ) = (4 + length) % 2 ^ 64 :=
    Int.toNat_of_nonneg (Int.emod_nonneg _ (by norm_num))
  unfold intTotalLen toInt32
  rw [hx, Int.bmod_eq_iff (by norm_num)]
  omega

theorem intTotalLen_eq (host : Endian) (h : 0 ≤ opt.length ∧ opt.length ≤ maxBufferLength) :
    intTotalLen opt.length = (payload host opt).length := by
  rw [intTotalLen_eq_add (isInt32_length h) h.2, length_payload]
  omega

def clientStream (host : Endian) (opt : SessionMessage) : Bytes :=
  opt.bytes host ++ (List.replicate opt.number.toNat (payload host opt)).flatten

def ackStream (peer : Endian) (opt : SessionMessage) : Bytes :=
  (List.replicate opt.number.toNat (int32Bytes peer opt.length)).flatten

@[simp] theorem length_clientStream :
    (clientStream host opt).length = 8 + opt.number.toNat * (payload host opt).length := by
  rw [clientStream, List.length_append, SessionMessage.length_bytes, length_flatten_replicate]

@[simp] theorem length_ackStream : (ackStream peer opt).length = opt.number.toNat * 4 := by
  rw [ackStream, length_flatten_replicate, length_int32Bytes]

theorem eight_eq : (8 : ℤ) = (opt.bytes host).length := by simp

theorem four_eq : (4 : ℤ) = (int32Bytes peer opt.length).length := by simp

/-- What is left of the session message. -/
theorem prefix_session {a : ℕ} (ha : a ≤ 8) : (opt.bytes host).drop a <+: (clientStream host opt).drop a := by
  rw [clientStream, List.drop_append_of_le_length (by rwa [SessionMessage.length_bytes])]
  exact List.prefix_append _ _

/-- What is left of a frame. -/
theorem prefix_frame {i j : ℕ} (hi : i < opt.number.toNat) (hj : j ≤ (payload host opt).length) :
    (payload host opt).drop j <+: (clientStream host opt).drop (8 + (i * (payload host opt).length + j)) := by
  have h := drop_prefix_blocks (opt.bytes host) (payload host opt) hi hj
  rwa [SessionMessage.length_bytes] at h

/-- What is left of an ack. -/
theorem prefix_ack {i j : ℕ} (hi : i < opt.number.toNat) (hj : j ≤ 4) :
    (int32Bytes peer opt.length).drop j <+: (ackStream peer opt).drop (i * 4 + j) := by
  have h := drop_prefix_blocks [] (int32Bytes peer opt.length) (j := j) hi (by rwa [length_int32Bytes])
  rwa [List.length_nil, Nat.zero_add, List.nil_append, length_int32Bytes] at h

section ClientSide

/-- The client after `a` bytes written and `b` bytes read. -/
inductive ClientAt (host peer : Endian) (opt : SessionMessage) : Client → ℕ → ℕ → Prop
  | session {a b} (ha : a < 8) (hb : b = 0) : ClientAt host peer opt (.session ⟨opt.bytes host, 8, a⟩) a b
  | frame {i j a b} (hi : i < opt.number.toNat) (hj : j < (payload host opt).length)
      (ha : a = 8 + (i * (payload host opt).length + j)) (hb : b = i * 4) :
      ClientAt host peer opt (.frame i ⟨payload host opt, (payload host opt).length, j⟩) a b
  | ack {i j a b} (hi : i < opt.number.toNat) (hj : j < 4) (ha : a = 8 + (i + 1) * (payload host opt).length)
      (hb : b = i * 4 + j) : ClientAt host peer opt (.ack i ⟨4, (int32Bytes peer opt.length).take j⟩) a b
  | returned {a b} (ha : a = 8 + opt.number.toNat * (payload host opt).length) (hb : b = opt.number.toNat * 4) :
      ClientAt host peer opt .returned a b

theorem clientAt_round (hlength : 0 ≤ opt.length ∧ opt.length ≤ maxBufferLength) {i a b : ℕ}
    (hi : i ≤ opt.number.toNat) (ha : a = 8 + i * (payload host opt).length) (hb : b = i * 4) :
    ClientAt host peer opt (.round host opt i) a b := by
  unfold Client.round
  split
  · next hlt =>
    have hpos : 0 < (payload host opt).length := by
      rw [length_payload]
      omega
    rw [intTotalLen_eq host hlength, WriteN.loop_start (Int.ofNat_lt.mpr hpos)]
    exact .frame (by omega) hpos ha hb
  · next hge =>
    obtain rfl : i = opt.number.toNat := by omega
    exact .returned ha hb

variable {i j k a b : ℕ}

theorem clientAt_session (hlength : 0 ≤ opt.length ∧ opt.length ≤ maxBufferLength) (hk : a + k ≤ 8) (hb : b = 0) :
    ClientAt host peer opt ((⟨opt.bytes host, 8, a⟩ : WriteN).onWrite k .session (.opened host opt)) (a + k) b := by
  have hlen : (opt.bytes host).length = 8 := SessionMessage.length_bytes
  refine WriteN.onWrite_rule (p := fun c => ClientAt host peer opt c (a + k) b) eight_eq (by omega) ?_ ?_
  · intro hlt
    exact .session (by omega) hb
  · intro heq
    rw [Client.opened, if_pos rfl]
    exact clientAt_round hlength (Nat.zero_le _) (by omega) (by omega)

theorem clientAt_frame (hlength : 0 ≤ opt.length ∧ opt.length ≤ maxBufferLength) (hi : i < opt.number.toNat)
    (hk : j + k ≤ (payload host opt).length) (ha : a = 8 + (i * (payload host opt).length + j)) (hb : b = i * 4) :
    ClientAt host peer opt
      ((⟨payload host opt, (payload host opt).length, j⟩ : WriteN).onWrite k (.frame i) (.sent opt i)) (a + k) b := by
  refine WriteN.onWrite_rule (p := fun c => ClientAt host peer opt c (a + k) b) rfl hk ?_ ?_
  · intro hlt
    exact .frame hi hlt (by omega) hb
  · intro heq
    rw [← intTotalLen_eq host hlength, Client.sent, if_pos rfl]
    exact .ack (j := 0) hi (by decide) (by rw [Nat.succ_mul]; omega) hb

theorem clientAt_ack (hlength : 0 ≤ opt.length ∧ opt.length ≤ maxBufferLength) (hi : i < opt.number.toNat)
    (hpos : 0 < k) (hk : j + k ≤ 4) (ha : a = 8 + (i + 1) * (payload host opt).length) (hb : b = i * 4 + j) :
    ClientAt host peer opt ((⟨4, (int32Bytes peer opt.length).take j⟩ : ReadN).onRead
      (((int32Bytes peer opt.length).drop j).take k) (.ack i) (.acked host opt i)) a (b + k) := by
  have hlen : (int32Bytes peer opt.length).length = 4 := length_int32Bytes peer _
  refine ReadN.onRead_rule (p := fun c => ClientAt host peer opt c a (b + k)) four_eq hpos (by omega) ?_ ?_
  · intro hlt
    exact .ack hi (by omega) ha (by omega)
  · intro heq
    rw [Client.acked, if_pos hlen, int32OfBytes_int32Bytes host peer (isInt32_length hlength), if_pos rfl]
    exact clientAt_round hlength hi ha (by omega)

/-- The client writes its stream while it reads the acks. -/
theorem client_streams (hlength : 0 ≤ opt.length ∧ opt.length ≤ maxBufferLength) :
    Streams (clientProcess host opt) (clientStream host opt) (ackStream peer opt) (ClientAt host peer opt) where
  proper h := by
    cases h with
    | session ha _ =>
      rw [clientProcess, Pending.Proper, WriteN.rest_eq eight_eq]
      exact drop_ne_nil (by rwa [SessionMessage.length_bytes])
    | frame _ hj _ _ =>
      rw [clientProcess, Pending.Proper, WriteN.rest_eq rfl]
      exact drop_ne_nil hj
    | ack _ hj _ _ =>
      rw [clientProcess, Pending.Proper, ReadN.want_eq four_eq (by rw [length_int32Bytes]; omega), length_int32Bytes]
      omega
    | returned => trivial
  write h hcall := by
    cases h with
    | session ha hb =>
      obtain rfl := Pending.write.inj hcall
      rw [WriteN.rest_eq eight_eq]
      refine ⟨prefix_session ha.le, fun k _ hk => ?_⟩
      rw [List.length_drop, SessionMessage.length_bytes] at hk
      exact clientAt_session hlength (by omega) hb
    | frame hi hj ha hb =>
      obtain rfl := Pending.write.inj hcall
      rw [WriteN.rest_eq rfl]
      refine ⟨ha ▸ prefix_frame hi hj.le, fun k _ hk => ?_⟩
      rw [List.length_drop] at hk
      exact clientAt_frame hlength hi (by omega) ha hb
    | ack => cases hcall
    | returned => cases hcall
  read h hcall := by
    cases h with
    | session => cases hcall
    | frame => cases hcall
    | ack hi hj ha hb =>
      obtain rfl := Pending.read.inj hcall
      intro k hpos hk _
      have hlen : (int32Bytes peer opt.length).length = 4 := length_int32Bytes peer _
      rw [ReadN.want_eq four_eq (by omega), hlen] at hk
      have hack : _ <+: (ackStream peer opt).drop _ := prefix_ack hi hj.le
      rw [← hb] at hack
      rw [prefix_take_eq hack (by omega)]
      exact clientAt_ack hlength hi hpos (by omega) ha hb
    | returned => cases hcall
  eof h hcall := by
    cases h with
    | session => cases hcall
    | frame => cases hcall
    | ack hi hj ha hb =>
      rw [length_ackStream] at hb
      omega
    | returned => cases hcall
  interrupt h _ := h
  exit h hcall := by
    cases h with
    | session => cases hcall
    | frame => cases hcall
    | ack => cases hcall
    | returned ha hb => exact ⟨ha.trans length_clientStream.symm, hb.trans length_ackStream.symm⟩

theorem ClientAt.returned_of_exit {x : Client} {a b : ℕ} (h : ClientAt host peer opt x a b)
    (hexit : (clientProcess host opt).call x = .exit) : x = .returned := by
  cases h with
  | returned => rfl
  | _ => cases hexit

end ClientSide

section ServerSide

/-- The server after `d` bytes written and `c` bytes read. -/
inductive ServerAt (host peer : Endian) (opt : SessionMessage) : Server → ℕ → ℕ → Prop
  | session {d c} (hc : c < 8) (hd : d = 0) : ServerAt host peer opt (.session ⟨8, (opt.bytes host).take c⟩) d c
  | frame {i j d c} (hi : i < opt.number.toNat) (hj : j < (payload host opt).length) (hd : d = i * 4)
      (hc : c = 8 + (i * (payload host opt).length + j)) :
      ServerAt host peer opt (.frame opt i ⟨(payload host opt).length, (payload host opt).take j⟩) d c
  | ack {i j d c} (hi : i < opt.number.toNat) (hj : j < 4) (hd : d = i * 4 + j)
      (hc : c = 8 + (i + 1) * (payload host opt).length) :
      ServerAt host peer opt (.ack opt i ⟨int32Bytes peer opt.length, 4, j⟩) d c
  | returned {d c} (hd : d = opt.number.toNat * 4) (hc : c = 8 + opt.number.toNat * (payload host opt).length) :
      ServerAt host peer opt (.returned opt.number.toNat) d c

theorem serverAt_round (hlength : 0 ≤ opt.length ∧ opt.length ≤ maxBufferLength) {i d c : ℕ}
    (hi : i ≤ opt.number.toNat) (hd : d = i * 4) (hc : c = 8 + i * (payload host opt).length) :
    ServerAt host peer opt (.round peer opt i) d c := by
  unfold Server.round
  split
  · next hlt =>
    have hpos : 0 < (payload host opt).length := by
      rw [length_payload]
      omega
    rw [intTotalLen_eq host hlength, ReadN.loop_start (Int.ofNat_lt.mpr hpos)]
    exact .frame (j := 0) (by omega) hpos hd hc
  · next hge =>
    obtain rfl : i = opt.number.toNat := by omega
    exact .returned hd hc

/-- The session message is read as it was sent. -/
theorem opened_bytes (hnumber : IsInt32 opt.number) (hlength : IsInt32 opt.length)
    (hle : opt.length ≤ maxBufferLength) : Server.opened peer (opt.bytes host) = .round peer opt 0 := by
  have hfirst : (int32Bytes host opt.number).length = 4 := length_int32Bytes host _
  rw [Server.opened, if_pos SessionMessage.length_bytes, SessionMessage.bytes, List.take_left' hfirst,
    List.drop_left' hfirst, int32OfBytes_int32Bytes peer host hnumber,
    int32OfBytes_int32Bytes peer host hlength]
  exact if_neg (Int.not_lt.mpr hle)

/-- A frame has the length of the session. -/
theorem received_payload (hlength : 0 ≤ opt.length ∧ opt.length ≤ maxBufferLength) (i : ℕ) :
    Server.received peer opt i (payload host opt) = .ack opt i (.start (int32Bytes peer opt.length) 4) := by
  have hword : cells (payload host opt) 0 4 = some (int32Bytes host opt.length) := by
    rw [cells_of_le (by simp), List.drop_zero, payload, payloadMessage,
      List.take_left' (length_int32Bytes host opt.length)]
  rw [Server.received, intTotalLen_eq host hlength, if_pos rfl, hword]
  simp only [int32OfBytes_int32Bytes peer host (isInt32_length hlength), if_pos]

variable {i j k d c : ℕ}

theorem serverAt_session (hnumber : IsInt32 opt.number) (hlength : 0 ≤ opt.length ∧ opt.length ≤ maxBufferLength)
    (hpos : 0 < k) (hk : c + k ≤ 8) (hd : d = 0) :
    ServerAt host peer opt ((⟨8, (opt.bytes host).take c⟩ : ReadN).onRead (((opt.bytes host).drop c).take k)
      .session (.opened peer)) d (c + k) := by
  have hlen : (opt.bytes host).length = 8 := SessionMessage.length_bytes
  refine ReadN.onRead_rule (p := fun s => ServerAt host peer opt s d (c + k)) eight_eq hpos (by omega) ?_ ?_
  · intro hlt
    exact .session (by omega) hd
  · intro heq
    rw [opened_bytes hnumber (isInt32_length hlength) hlength.2]
    exact serverAt_round hlength (Nat.zero_le _) (by omega) (by omega)

theorem serverAt_frame (hlength : 0 ≤ opt.length ∧ opt.length ≤ maxBufferLength) (hi : i < opt.number.toNat)
    (hpos : 0 < k) (hk : j + k ≤ (payload host opt).length) (hd : d = i * 4)
    (hc : c = 8 + (i * (payload host opt).length + j)) :
    ServerAt host peer opt ((⟨(payload host opt).length, (payload host opt).take j⟩ : ReadN).onRead
      (((payload host opt).drop j).take k) (.frame opt i) (.received peer opt i)) d (c + k) := by
  refine ReadN.onRead_rule (p := fun s => ServerAt host peer opt s d (c + k)) rfl hpos hk ?_ ?_
  · intro hlt
    exact .frame hi hlt hd (by omega)
  · intro heq
    rw [received_payload hlength]
    exact .ack hi (by decide) hd (by rw [Nat.succ_mul]; omega)

theorem serverAt_ack (hlength : 0 ≤ opt.length ∧ opt.length ≤ maxBufferLength) (hi : i < opt.number.toNat)
    (hk : j + k ≤ 4) (hd : d = i * 4 + j) (hc : c = 8 + (i + 1) * (payload host opt).length) :
    ServerAt host peer opt
      ((⟨int32Bytes peer opt.length, 4, j⟩ : WriteN).onWrite k (.ack opt i) (.answered peer opt i)) (d + k) c := by
  have hlen : (int32Bytes peer opt.length).length = 4 := length_int32Bytes peer _
  refine WriteN.onWrite_rule (p := fun s => ServerAt host peer opt s (d + k) c) four_eq (by omega) ?_ ?_
  · intro hlt
    exact .ack hi (by omega) (by omega) hc
  · intro heq
    rw [Server.answered, if_pos rfl]
    exact serverAt_round hlength hi (by omega) hc

/-- The server writes the acks while it reads what the client sends. -/
theorem server_streams (hnumber : IsInt32 opt.number) (hlength : 0 ≤ opt.length ∧ opt.length ≤ maxBufferLength) :
    Streams (serverProcess peer) (ackStream peer opt) (clientStream host opt) (ServerAt host peer opt) where
  proper h := by
    cases h with
    | session hc _ =>
      rw [serverProcess, Pending.Proper, ReadN.want_eq eight_eq (by rw [SessionMessage.length_bytes]; omega),
        SessionMessage.length_bytes]
      omega
    | frame _ hj _ _ =>
      rw [serverProcess, Pending.Proper, ReadN.want_eq rfl hj.le]
      omega
    | ack _ hj _ _ =>
      rw [serverProcess, Pending.Proper, WriteN.rest_eq four_eq]
      exact drop_ne_nil (by rwa [length_int32Bytes])
    | returned => trivial
  write h hcall := by
    cases h with
    | session => cases hcall
    | frame => cases hcall
    | ack hi hj hd hc =>
      obtain rfl := Pending.write.inj hcall
      rw [WriteN.rest_eq four_eq]
      refine ⟨hd ▸ prefix_ack hi hj.le, fun k _ hk => ?_⟩
      rw [List.length_drop, length_int32Bytes] at hk
      exact serverAt_ack hlength hi (by omega) hd hc
    | returned => cases hcall
  read h hcall := by
    cases h with
    | session hc hd =>
      obtain rfl := Pending.read.inj hcall
      intro k hpos hk _
      have hlen : (opt.bytes host).length = 8 := SessionMessage.length_bytes
      rw [ReadN.want_eq eight_eq (by omega), hlen] at hk
      rw [prefix_take_eq (prefix_session hc.le) (by omega)]
      exact serverAt_session hnumber hlength hpos (by omega) hd
    | frame hi hj hd hc =>
      obtain rfl := Pending.read.inj hcall
      intro k hpos hk _
      rw [ReadN.want_eq rfl hj.le] at hk
      have hframe : _ <+: (clientStream host opt).drop _ := prefix_frame hi hj.le
      rw [← hc] at hframe
      rw [prefix_take_eq hframe (by omega)]
      exact serverAt_frame hlength hi hpos (by omega) hd hc
    | ack => cases hcall
    | returned => cases hcall
  eof h hcall := by
    cases h with
    | session hc _ =>
      rw [length_clientStream] at hc
      omega
    | frame hi hj hd hc =>
      rw [length_clientStream] at hc
      have hle := Nat.mul_le_mul_right (payload host opt).length (Nat.succ_le_of_lt hi)
      rw [Nat.succ_mul] at hle
      omega
    | ack => cases hcall
    | returned => cases hcall
  interrupt h _ := h
  exit h hcall := by
    cases h with
    | session => cases hcall
    | frame => cases hcall
    | ack => cases hcall
    | returned hd hc => exact ⟨hd.trans length_ackStream.symm, hc.trans length_clientStream.symm⟩

theorem ServerAt.returned_of_exit {y : Server} {d c : ℕ} (h : ServerAt host peer opt y d c)
    (hexit : (serverProcess peer).call y = .exit) : ∃ i, y = .returned i := by
  cases h with
  | returned => exact ⟨_, rfl⟩
  | _ => cases hexit

end ServerSide

section Session
variable {m n : ℕ} {s : Link UInt8 Client Server m n}

def framesBegun (opt : SessionMessage) (s : Link UInt8 Client Server m n) : ℕ :=
  (s.toRight.sent.length - 8 + (3 + opt.length.toNat)) / (4 + opt.length.toNat)

def acksRead (s : Link UInt8 Client Server m n) : ℕ := s.toLeft.taken / 4

/-- The client has not written more than the frame behind the acks it has read. -/
theorem ClientAt.written_le {x : Client} {a b : ℕ} (h : ClientAt host peer opt x a b) :
    a ≤ 8 + (b / 4 + 1) * (payload host opt).length := by
  cases h with
  | session ha _ => omega
  | @frame i j _ _ hi hj ha hb =>
    obtain rfl : b / 4 = i := by omega
    rw [Nat.succ_mul]
    omega
  | @ack i j _ _ hi hj ha hb =>
    obtain rfl : b / 4 = i := by omega
    exact Nat.le_of_eq ha
  | returned ha hb =>
    rw [show b / 4 = opt.number.toNat by omega, Nat.succ_mul]
    omega

theorem framesBegun_le {x : Client} (h : ClientAt host peer opt x s.toRight.sent.length s.toLeft.taken) :
    framesBegun opt s ≤ acksRead s + 1 := by
  have hle := h.written_le
  rw [length_payload] at hle
  refine Nat.le_of_lt_succ ((Nat.div_lt_iff_lt_mul (by omega)).mpr ?_)
  rw [acksRead, Nat.succ_mul]
  omega

/-- The client writes the next frame only when it has read the ack of the last one. -/
theorem not_both_writing {x : Client} {y : Server} {a b c d : ℕ} {xs ys : Bytes} (hx : ClientAt host peer opt x a b)
    (hy : ServerAt host peer opt y d c) (hac : c ≤ a) (hbd : b ≤ d)
    (hwrite : (clientProcess host opt).call x = .write xs) : (serverProcess peer).call y ≠ .write ys := by
  intro hwrite'
  cases hy with
  | session => cases hwrite'
  | frame => cases hwrite'
  | returned => cases hwrite'
  | @ack i' j' _ _ hi' hj' hd hc =>
    cases hx with
    | session ha hb =>
      rw [Nat.succ_mul, length_payload] at hc
      omega
    | @frame i j _ _ hi hj ha hb =>
      have hlt : (i' + 1) * (payload host opt).length < (i + 1) * (payload host opt).length := by
        rw [Nat.succ_mul i]
        omega
      have := Nat.lt_of_mul_lt_mul_right hlt
      omega
    | ack => cases hwrite
    | returned => cases hwrite

/-- The two sides do not wait for each other. -/
theorem not_both_reading {x : Client} {y : Server} {a b c d i j : ℕ} (hx : ClientAt host peer opt x a b)
    (hy : ServerAt host peer opt y d c) (hac : c = a) (hbd : b = d)
    (hread : (clientProcess host opt).call x = .read i) : (serverProcess peer).call y ≠ .read j := by
  intro hread'
  cases hx with
  | session => cases hread
  | frame => cases hread
  | returned => cases hread
  | @ack i j _ _ hi hj ha hb =>
    cases hy with
    | session hc hd =>
      rw [Nat.succ_mul, length_payload] at ha
      omega
    | @frame i' j' _ _ hi' hj' hd hc =>
      -- the client waits for the ack of the frame that the server waits for
      obtain rfl : i = i' := by omega
      rw [Nat.succ_mul] at ha
      omega
    | ack => cases hread'
    | returned => cases hread'

/-- A session of the client with the server, over channels of any capacity. -/
theorem session_agrees (hnumber : IsInt32 opt.number) (hlength : 0 ≤ opt.length ∧ opt.length ≤ maxBufferLength)
    (hm : 0 < m) (hn : 0 < n)
    (h : Link.Reachable (clientProcess host opt) (serverProcess peer)
      (.start (clientSend host opt) serverReceive) s) :
    (∀ d, s.left ≠ .died d) ∧ (∀ d, s.right ≠ .died d) ∧ framesBegun opt s ≤ acksRead s + 1 ∧
    (s.Stuck (clientProcess host opt) (serverProcess peer) → s.left = .returned ∧ ∃ i, s.right = .returned i) ∧
    ∀ i, s.left = .returned → s.right = .returned i → i = opt.number.toNat ∧
      s.toRight.received = opt.bytes host ++ (List.replicate i (payload host opt)).flatten ∧
      s.toRight.content = [] ∧ s.toLeft.content = [] := by
  have hP : Streams (clientProcess host opt) _ _ (ClientAt host peer opt) := client_streams hlength
  have hQ : Streams (serverProcess peer) _ _ (ServerAt host peer opt) := server_streams hnumber hlength
  have hmatched := Matched.of_reachable hP hQ (.start (.session (by decide) rfl) (.session (by decide) rfl)) h
  refine ⟨?_, ?_, framesBegun_le hmatched.left, ?_, ?_⟩
  · intro d hd
    have hleft := hmatched.left
    rw [hd] at hleft
    cases hleft
  · intro d hd
    have hright := hmatched.right
    rw [hd] at hright
    cases hright
  · intro hstuck
    obtain ⟨hl, hr⟩ | ⟨xs, ys, hl, hr, -⟩ | ⟨i, j, hl, hr, hac, hbd⟩ := hmatched.stuck hP hQ hm hn hstuck
    · exact ⟨hmatched.left.returned_of_exit hl, hmatched.right.returned_of_exit hr⟩
    · exact absurd hr (not_both_writing hmatched.left hmatched.right s.toRight.taken_le s.toLeft.taken_le hl)
    · exact absurd hr (not_both_reading hmatched.left hmatched.right hac hbd hl)
  · intro i hleft hright
    obtain ⟨⟨hreceived, hempty⟩, -, hempty'⟩ :=
      hmatched.exit hP hQ (by rw [hleft]; rfl) (by rw [hright]; rfl)
    have hi : i = opt.number.toNat := by
      have hright' := hmatched.right
      rw [hright] at hright'
      cases hright'
      rfl
    subst hi
    exact ⟨rfl, hreceived, hempty, hempty'⟩

/-- One frame of one byte. -/
theorem session_agrees_one : ∃ s : Link UInt8 Client Server 8 4, s.left = .returned ∧ s.right = .returned 1 ∧
    s.toRight.received.length = 13 ∧ s.toRight.content = [] ∧ s.toLeft.content = [] := by
  have hrun : ((Link.start (clientSend .little ⟨1, 1⟩) serverReceive : Link _ _ _ 8 4).run
      (clientProcess .little ⟨1, 1⟩) (serverProcess .big) [(.left, .moved 8), (.right, .interrupted),
        (.right, .moved 8), (.left, .moved 5), (.right, .moved 5), (.right, .moved 4), (.left, .moved 4)]).map
      (fun s => (s.left, s.right)) = some (.returned, .returned 1) := by
    decide
  obtain ⟨s, hs, hfinished⟩ := Option.map_eq_some_iff.mp hrun
  obtain ⟨hleft, hright⟩ := Prod.mk.inj hfinished
  obtain ⟨-, hreceived, hempty⟩ := (session_agrees (by constructor <;> decide) (by constructor <;> decide)
    (by decide) (by decide) (.run .refl hs)).2.2.2.2 1 hleft hright
  exact ⟨s, hleft, hright, by rw [hreceived]; rfl, hempty⟩

end Session

end LinuxSocket.Ttcp
