import LinuxSocket.Ttcp.Libev

/-! # How far the libev server acknowledges a session

`Phase` says where the loop is after some bytes of a session; every iteration moves along it.
The loop goes on after it has destroyed the client.
-/
namespace LinuxSocket.Ttcp

def frames (peer : Endian) (smsg : SessionMessage) (datas : List Bytes) : Bytes :=
  (datas.map (payloadMessage peer smsg.length)).flatten

def sessionBytes (peer : Endian) (smsg : SessionMessage) (datas : List Bytes) : Bytes :=
  smsg.bytes peer ++ frames peer smsg datas

def framesIn (smsg : SessionMessage) (n : ℕ) : ℕ := (n - 8) / (4 + smsg.length.toNat)

def acks (host : Endian) (fd : ℕ) (smsg : SessionMessage) (n : ℕ) : List Call :=
  List.replicate n (.write fd (int32Bytes host smsg.length))

/-- What the server is to do about `n` bytes of a session: one ack for each frame up to the number
announced, and one close behind the last of them. -/
def answer (host : Endian) (w fd : ℕ) (smsg : SessionMessage) (n : ℕ) : List Call :=
  acks host fd smsg (min (framesIn smsg n) smsg.number.toNat) ++
    if smsg.number.toNat ≤ framesIn smsg n then [.close fd, .evIoStop w] else []

/-- The client exists, is listed and watched. -/
structure Alive (w fd : ℕ) (s : EvServer) (c : EvClient) : Prop where
  object_eq : s.object w = some c
  listed : w ∈ s.evClients
  started : s.started w = true
  fd_eq : c.fd = fd
  buffer : c.inputBuffer.Inv

/-- Where the loop is when the bytes `received` of a session have been read and `rest` has not. -/
inductive Phase (host peer : Endian) (w fd : ℕ) (smsg : SessionMessage) (pre : List Call)
    (received rest : Bytes) (s : EvServer) : Prop
  | session {c} (datas : List Bytes) : Alive w fd s c → c.state = .exceptFrameSize → c.readNumber = 0 →
      c.inputBuffer.contents = received → received ++ rest = sessionBytes peer smsg datas →
      (∀ d ∈ datas, d.length = smsg.length.toNat) → s.calls = pre →
      Phase host peer w fd smsg pre received rest s
  | frame {c} (j : ℕ) (datas : List Bytes) : Alive w fd s c → c.state = .exceptFrame → c.smsg = smsg →
      c.readNumber = j → j < smsg.number.toNat → c.inputBuffer.contents ++ rest = frames peer smsg datas →
      (∀ d ∈ datas, d.length = smsg.length.toNat) →
      received.length = 8 + j * (4 + smsg.length.toNat) + c.inputBuffer.contents.length →
      s.calls = pre ++ acks host fd smsg j → Phase host peer w fd smsg pre received rest s
  | deleted : s.object w = none → smsg.number.toNat ≤ framesIn smsg received.length →
      s.calls = pre ++ acks host fd smsg smsg.number.toNat ++ [.close fd, .evIoStop w] →
      Phase host peer w fd smsg pre received rest s

/-- What the callbacks have come to: the client waits for more bytes with fewer frames than announced
complete, or it has been closed behind its last frame and then accessed. -/
inductive Ends (host peer : Endian) (w fd : ℕ) (smsg : SessionMessage) (pre : List Call)
    (received rest : Bytes) : Outcome → Prop
  | waits {s c} : Alive w fd s c → Phase host peer w fd smsg pre received rest s →
      framesIn smsg received.length < smsg.number.toNat →
      s.calls = pre ++ acks host fd smsg (framesIn smsg received.length) →
      Ends host peer w fd smsg pre received rest (.returns s)
  | faults {s} : s.object w = none → smsg.number.toNat ≤ framesIn smsg received.length →
      s.calls = pre ++ acks host fd smsg smsg.number.toNat ++ [.close fd, .evIoStop w] →
      Ends host peer w fd smsg pre received rest (.faults s)

variable {host peer : Endian} {w fd : ℕ} {smsg : SessionMessage} {pre : List Call} {received rest : Bytes}
  {s t : EvServer}

theorem SessionMessage.Accepted.isInt32 (h : smsg.Accepted) : IsInt32 smsg.number ∧ IsInt32 smsg.length := by
  have hle : smsg.length ≤ 10485760 := h.length_le
  have := h.number_pos
  have := h.number_lt
  have := h.length_pos
  unfold IsInt32
  omega

variable (host) in
theorem readInt32_word {b : Tbuf} (h : b.Inv) (hlen : 4 ≤ b.contents.length) :
    ∃ b', b.readInt32 host = some (word b.contents, b') ∧ b'.Inv ∧ b'.contents = b.contents.drop 4 := by
  unfold word
  exact h.readInt32 host (h.length_contents ▸ hlen)

variable (host w s) in
/-- The iteration that reads a session message. -/
theorem readSession_eq {c : EvClient} (hc : c.inputBuffer.Inv) (hlen : 8 ≤ c.inputBuffer.contents.length) :
    let smsg : SessionMessage := ⟨word c.inputBuffer.contents, word (c.inputBuffer.contents.drop 4)⟩
    (¬smsg.Accepted → readSession host w s c = .inr (.dies s)) ∧
    (smsg.Accepted → ∃ c', readSession host w s c = .inl (s.setClient w c') ∧ c'.fd = c.fd ∧
      c'.state = .exceptFrame ∧ c'.smsg = smsg ∧ c'.readNumber = c.readNumber ∧ c'.inputBuffer.Inv ∧
      c'.inputBuffer.contents = c.inputBuffer.contents.drop 8) := by
  obtain ⟨b₁, hr₁, h₁, hc₁⟩ := readInt32_word host hc (by omega)
  obtain ⟨b₂, hr₂, h₂, hc₂⟩ := readInt32_word host h₁ (by rw [hc₁, List.length_drop]; omega)
  rw [hc₁] at hr₂ hc₂
  rw [List.drop_drop] at hc₂
  have hint := isInt32_word c.inputBuffer.contents
  generalize word c.inputBuffer.contents = number at *
  generalize word (c.inputBuffer.contents.drop 4) = length at *
  refine ⟨fun ha => ?_, fun ha => ?_⟩
  · have hcheck : number ≤ 0 ∨ length ≤ 0 ∨ maxBufferLength < length := by
      by_contra hno
      push Not at hno
      exact ha ⟨hno.1, hint.2, hno.2.1, hno.2.2⟩
    simp only [readSession, hr₁, hr₂, dif_pos hcheck]
  · have hcheck : ¬(number ≤ 0 ∨ length ≤ 0 ∨ maxBufferLength < length) := by
      push Not
      exact ⟨ha.number_pos, ha.length_pos, ha.length_le⟩
    refine ⟨{ c with smsg := ⟨number, length⟩, inputBuffer := b₂, state := .exceptFrame,
                     length_range := fun _ => ⟨ha.length_pos, ha.length_le⟩ }, ?_, rfl, rfl, rfl, rfl, h₂, hc₂⟩
    simp only [readSession, hr₁, hr₂, dif_neg hcheck]

variable (host w s) in
/-- The iteration that reads the session message of a session. -/
theorem readSession_front (ha : smsg.Accepted) {c : EvClient} (hc : c.inputBuffer.Inv) {rest more : Bytes}
    (hq : c.inputBuffer.contents ++ rest = smsg.bytes peer ++ more) (hlen : 8 ≤ c.inputBuffer.readableBytes) :
    ∃ c', readSession host w s c = .inl (s.setClient w c') ∧ c'.fd = c.fd ∧ c'.state = .exceptFrame ∧
      c'.smsg = smsg ∧ c'.readNumber = c.readNumber ∧ c'.inputBuffer.Inv ∧
      c'.inputBuffer.contents ++ rest = more ∧
      c'.inputBuffer.contents.length + 8 = c.inputBuffer.contents.length := by
  rw [← hc.length_contents] at hlen
  have hread := (readSession_eq host w s hc hlen).2
  rw [← word_append (by omega) rest, ← word_drop_append (k := 4) (by omega) rest, hq, word_bytes ha.isInt32.1,
    word_drop_bytes ha.isInt32.2] at hread
  obtain ⟨c', hread, hfd, hs, hm, hj, hb, hcont⟩ := hread ha
  have hdrop := congrArg (List.drop 8) hq
  rw [List.drop_append_of_le_length hlen, drop_bytes, ← hcont] at hdrop
  refine ⟨c', hread, hfd, hs, hm, hj, hb, hdrop, ?_⟩
  rw [hcont, List.length_drop]
  omega

def EvServer.acked (s : EvServer) (w : ℕ) (c : EvClient) (bytes : Bytes) : EvServer :=
  (s.call (.write c.fd bytes)).setClient w c

variable (host w s) in
/-- The iteration that finds another length in front of a frame. -/
theorem readFrame_mismatch {c : EvClient} (hc : c.inputBuffer.Inv) (hlen : 4 ≤ c.inputBuffer.contents.length)
    (hw : word c.inputBuffer.contents ≠ c.smsg.length) : readFrame host w s c = .inr (.dies s) := by
  obtain ⟨b₁, hr₁, -⟩ := readInt32_word host hc hlen
  simp only [readFrame, hr₁, if_pos hw]

variable (host w s) in
/-- The iteration that reads a frame. -/
theorem readFrame_match {c : EvClient} (hc : c.inputBuffer.Inv)
    (hlen : 4 + c.smsg.length.toNat ≤ c.inputBuffer.contents.length)
    (hw : word c.inputBuffer.contents = c.smsg.length) :
    ∃ c', readFrame host w s c = .inl
        (let t := s.acked w c' (int32Bytes host c.smsg.length)
        if c.smsg.number ≤ c'.readNumber then ((t.call (.close c.fd)).evIoStop w).deleteClient w else t) ∧
      c'.fd = c.fd ∧ c'.state = c.state ∧ c'.smsg = c.smsg ∧ c'.readNumber = c.readNumber + 1 ∧
      c'.inputBuffer.Inv ∧ c'.inputBuffer.contents = c.inputBuffer.contents.drop (4 + c.smsg.length.toNat) := by
  obtain ⟨b₁, hr₁, h₁, hc₁⟩ := readInt32_word host hc (by omega)
  have hlen₁ : c.smsg.length.toNat ≤ b₁.readableBytes := by
    rw [← h₁.length_contents, hc₁, List.length_drop]
    omega
  obtain ⟨h₂, hc₂⟩ := h₁.retrieve hlen₁
  refine ⟨{ c with inputBuffer := b₁.retrieve c.smsg.length.toNat, readNumber := c.readNumber + 1 },
    ?_, rfl, rfl, rfl, rfl, h₂, ?_⟩
  · simp only [readFrame, hr₁, hw, ne_eq, not_true_eq_false, if_false]
    by_cases hle : c.smsg.number ≤ c.readNumber + 1
    · simp only [EvServer.acked, if_pos hle]
    · simp only [EvServer.acked, if_neg hle]
  · rw [hc₂, hc₁, List.drop_drop]

variable (host w s) in
/-- The iteration that reads a frame of a session. -/
theorem readFrame_front (ha : smsg.Accepted) {c : EvClient} (hc : c.inputBuffer.Inv) (hs : c.smsg = smsg)
    {data more : Bytes} (hd : data.length = smsg.length.toNat)
    (hq : c.inputBuffer.contents ++ rest = payloadMessage peer smsg.length data ++ more)
    (hlen : 4 + smsg.length.toNat ≤ c.inputBuffer.readableBytes) :
    ∃ c', readFrame host w s c = .inl
        (let t := s.acked w c' (int32Bytes host smsg.length)
        if smsg.number ≤ c'.readNumber then ((t.call (.close c.fd)).evIoStop w).deleteClient w else t) ∧
      c'.fd = c.fd ∧ c'.state = c.state ∧ c'.smsg = smsg ∧ c'.readNumber = c.readNumber + 1 ∧
      c'.inputBuffer.Inv ∧ c'.inputBuffer.contents ++ rest = more ∧
      c'.inputBuffer.contents.length + (4 + smsg.length.toNat) = c.inputBuffer.contents.length := by
  subst hs
  rw [← hc.length_contents] at hlen
  have hw : word c.inputBuffer.contents = c.smsg.length := by
    rw [← word_append (by omega) rest, hq, payloadMessage, List.append_assoc, word_int32Bytes ha.isInt32.2]
  obtain ⟨c', hread, hfd, hs, hm, hj, hb, hcont⟩ := readFrame_match host w s hc hlen hw
  have hframe : (payloadMessage peer c.smsg.length data).length = 4 + c.smsg.length.toNat := by
    rw [payloadMessage, List.length_append, length_int32Bytes, hd]
  have hdrop := congrArg (List.drop (4 + c.smsg.length.toNat)) hq
  rw [List.drop_append_of_le_length hlen, List.drop_left' hframe, ← hcont] at hdrop
  refine ⟨c', hread, hfd, hs, hm, hj, hb, hdrop, ?_⟩
  rw [hcont, List.length_drop]
  omega

theorem Alive.setClient {c c' : EvClient} (h : Alive w fd s c) (hfd : c'.fd = c.fd)
    (hb : c'.inputBuffer.Inv) : Alive w fd (s.setClient w c') c' where
  object_eq := Function.update_self _ _ _
  listed := h.listed
  started := h.started
  fd_eq := hfd.trans h.fd_eq
  buffer := hb

theorem Alive.acked {c c' : EvClient} (h : Alive w fd s c) (hfd : c'.fd = c.fd)
    (hb : c'.inputBuffer.Inv) (bytes : Bytes) : Alive w fd (s.acked w c' bytes) c' where
  object_eq := Function.update_self _ _ _
  listed := h.listed
  started := h.started
  fd_eq := hfd.trans h.fd_eq
  buffer := hb

/-- Deleting a listed client destroys it. -/
theorem object_deleteClient (h : w ∈ s.evClients) : (s.deleteClient w).object w = none := by
  rw [EvServer.deleteClient, if_pos h]
  exact Function.update_self _ _ _

@[simp] theorem calls_deleteClient (s : EvServer) (w : ℕ) : (s.deleteClient w).calls = s.calls := by
  unfold EvServer.deleteClient
  split <;> rfl

/-- The two calls that end the session of a client. -/
theorem calls_closed (s : EvServer) (w fd : ℕ) :
    ((s.call (.close fd)).evIoStop w).calls = s.calls ++ [.close fd, .evIoStop w] := by
  simp [EvServer.call, EvServer.evIoStop]

theorem acks_succ (n : ℕ) : acks host fd smsg (n + 1) = acks host fd smsg n ++ acks host fd smsg 1 :=
  List.replicate_succ' ..

/-- Complete frames are counted by the bytes received behind the session message. -/
theorem le_framesIn {j n : ℕ} (h : 8 + j * (4 + smsg.length.toNat) ≤ n) : j ≤ framesIn smsg n := by
  rw [framesIn, Nat.le_div_iff_mul_le (by omega)]
  omega

theorem framesIn_eq {j n k : ℕ} (h : n = 8 + j * (4 + smsg.length.toNat) + k)
    (hk : k < 4 + smsg.length.toNat) : framesIn smsg n = j := by
  rw [framesIn, h, Nat.add_assoc, Nat.add_sub_cancel_left, Nat.add_comm, Nat.add_mul_div_right _ _ (by omega),
    Nat.div_eq_of_lt hk, Nat.zero_add]

/-- Every iteration of the loop moves along the session or ends the callback. -/
theorem Phase.advances (ha : smsg.Accepted) (h : Phase host peer w fd smsg pre received rest s) :
    (clientReadStep host w s).elim (Phase host peer w fd smsg pre received rest)
      (Ends host peer w fd smsg pre received rest) := by
  have hphase := h
  cases h with
  | @session c datas hc hs hj hq hall hd hcalls =>
    have hpos := ha.number_pos
    simp only [clientReadStep, hc.object_eq, hs]
    split
    · next hlen =>
      obtain ⟨c', hread, hfd, hs', hm', hj', hb', hq', hl'⟩ :=
        readSession_front host w s ha hc.buffer (hq ▸ hall) hlen
      rw [hread]
      refine Phase.frame 0 datas (hc.setClient hfd hb') hs' hm' (hj'.trans hj) (by omega) hq' hd ?_ ?_
      · rw [← hq, ← hl']
        omega
      · exact hcalls.trans (List.append_nil _).symm
    · next hlen =>
      rw [← hc.buffer.length_contents, hq] at hlen
      have hzero : framesIn smsg received.length = 0 := by
        rw [framesIn, Nat.sub_eq_zero_of_le (by omega), Nat.zero_div]
      refine Ends.waits hc hphase (by omega) ?_
      rw [hzero]
      exact hcalls.trans (List.append_nil _).symm
  | @frame c j datas hc hs hm hj hlt hq hd hn hcalls =>
    simp only [clientReadStep, hc.object_eq, hs, hm, totalLen_eq ⟨ha.length_pos, ha.length_le⟩]
    split
    · next hlen =>
      cases datas with
      | nil =>
        have hnil : c.inputBuffer.contents = [] := (List.append_eq_nil_iff.mp hq).1
        rw [← hc.buffer.length_contents, hnil] at hlen
        simp at hlen
      | cons d datas =>
        rw [frames, List.map_cons, List.flatten_cons] at hq
        obtain ⟨c', hread, hfd, hs', hm', hj', hb', hq', hl'⟩ :=
          readFrame_front host w s ha hc.buffer hm (hd d (by simp)) hq hlen
        have hacks : (s.acked w c' (int32Bytes host smsg.length)).calls = pre ++ acks host fd smsg (j + 1) := by
          rw [acks_succ, ← List.append_assoc, ← hcalls, ← hc.fd_eq, ← hfd]
          rfl
        have hrecv : received.length = 8 + (j + 1) * (4 + smsg.length.toNat) + c'.inputBuffer.contents.length := by
          rw [hn, ← hl', Nat.add_mul]
          omega
        rw [hread]
        dsimp only [Sum.elim_inl]
        rw [hj', hj]
        by_cases hlast : smsg.number ≤ (j : ℤ) + 1
        · have hnum : smsg.number.toNat = j + 1 := by omega
          rw [if_pos hlast]
          refine .deleted (object_deleteClient hc.listed) ?_ ?_
          · rw [hnum]
            exact le_framesIn (by omega)
          · rw [calls_deleteClient, calls_closed, hacks, hnum, hc.fd_eq]
        · rw [if_neg hlast]
          exact .frame (j + 1) datas (hc.acked hfd hb' _) (hs'.trans hs) hm' (by rw [hj', hj]; rfl) (by omega) hq'
            (fun d hd' => hd d (List.mem_cons_of_mem _ hd')) hrecv hacks
    · next hlen =>
      rw [← hc.buffer.length_contents] at hlen
      have hcount := framesIn_eq hn (Nat.lt_of_not_le hlen)
      exact Ends.waits hc hphase (hcount.symm ▸ hlt) (hcount.symm ▸ hcalls)
  | deleted hw hle hcalls =>
    simp only [clientReadStep, hw]
    exact Ends.faults hw hle hcalls

/-- One callback with a nonempty read. -/
theorem Ends.onReadable (ha : smsg.Accepted) {chunk : Bytes} (hne : chunk ≠ []) {r : Outcome}
    (h : Ends host peer w fd smsg pre received (chunk ++ rest) r) :
    Ends host peer w fd smsg pre (received ++ chunk) rest (onReadable host w r chunk) := by
  cases h with
  | faults hw hle hcalls =>
    refine .faults hw (hle.trans (Nat.div_le_div_right ?_)) hcalls
    rw [List.length_append]
    omega
  | @waits s c hc hphase hlt hcalls =>
    obtain ⟨b', hread, hb', hcont⟩ := hc.buffer.readfd chunk
    have hpos : 0 < (chunk.length : ℤ) := by exact_mod_cast List.length_pos_iff.mpr hne
    have hrun : Ttcp.onReadable host w (.returns s) chunk =
        (clientReadLoop host w).run (s.setClient w { c with inputBuffer := b' }) := by
      simp only [Ttcp.onReadable, clientReadCb, hc.started, hc.object_eq, hread, if_pos, hpos]
    have halive : Alive w fd (s.setClient w { c with inputBuffer := b' }) { c with inputBuffer := b' } :=
      hc.setClient rfl hb'
    have hstart : Phase host peer w fd smsg pre (received ++ chunk) rest
        (s.setClient w { c with inputBuffer := b' }) := by
      cases hphase with
      | @session c₀ datas hc₀ hs hj hq hall hd hcalls₀ =>
        obtain rfl := Option.some.inj (hc₀.object_eq.symm.trans hc.object_eq)
        exact .session datas halive hs hj (by rw [hcont, hq]) (by rw [List.append_assoc, hall]) hd hcalls₀
      | @frame c₀ j datas hc₀ hs hm hj hltj hq hd hn hcalls₀ =>
        obtain rfl := Option.some.inj (hc₀.object_eq.symm.trans hc.object_eq)
        refine .frame j datas halive hs hm hj hltj ?_ hd ?_ hcalls₀
        · rw [hcont, List.append_assoc, hq]
        · rw [hcont, List.length_append, List.length_append, hn, Nat.add_assoc]
      | deleted hw _ _ =>
        rw [hc.object_eq] at hw
        cases hw
    rw [hrun]
    exact Loop.Body.run_elim (fun _ hp => hp.advances ha) hstart

/-- Any cut of a part of a session into nonempty reads. -/
theorem Ends.foldl (ha : smsg.Accepted) {chunks : List Bytes} (hne : ∀ c ∈ chunks, c ≠ []) {r : Outcome}
    (h : Ends host peer w fd smsg pre received (chunks.flatten ++ rest) r) :
    Ends host peer w fd smsg pre (received ++ chunks.flatten) rest (chunks.foldl (Ttcp.onReadable host w) r) := by
  induction chunks generalizing received r with
  | nil => simpa using h
  | cons chunk chunks ih =>
    rw [List.flatten_cons, List.append_assoc] at h
    have h' := ih (fun c hc => hne c (List.mem_cons_of_mem _ hc)) (h.onReadable ha (hne chunk (by simp)))
    rwa [List.append_assoc, ← List.flatten_cons] at h'

variable (host w fd) in
/-- A server that has just accepted the client. -/
theorem ends_start (s₀ : EvServer) (ha : smsg.Accepted) {datas : List Bytes}
    (hd : ∀ d ∈ datas, d.length = smsg.length.toNat) (hrest : rest = sessionBytes peer smsg datas) :
    Ends host peer w fd smsg s₀.calls [] rest (.returns (s₀.serverReadCb w fd)) := by
  have hpos := ha.number_pos
  have hzero : framesIn smsg ([] : Bytes).length = 0 := by
    rw [framesIn, List.length_nil, Nat.zero_sub, Nat.zero_div]
  have halive : Alive w fd (s₀.serverReadCb w fd) (.init fd) :=
    ⟨Function.update_self _ _ _, by simp [EvServer.serverReadCb], Function.update_self _ _ _, rfl, Tbuf.inv_init⟩
  refine .waits halive (.session datas halive rfl rfl rfl hrest hd rfl) (by omega) ?_
  rw [hzero]
  exact (List.append_nil _).symm

variable (host w fd smsg) in
/-- The callbacks for the reads of a part of a session, after the client has been accepted. -/
def receive (s₀ : EvServer) (chunks : List Bytes) : Outcome :=
  chunks.foldl (onReadable host w) (.returns (s₀.serverReadCb w fd))

/-- The callbacks return, so that no destroyed object was accessed, and the calls are the ones due. -/
def AnswersExactly (host : Endian) (w fd : ℕ) (smsg : SessionMessage) (s₀ : EvServer) (chunks : List Bytes) : Prop :=
  ∃ s, receive host w fd s₀ chunks = .returns s ∧
    s.calls = s₀.calls ++ answer host w fd smsg chunks.flatten.length

variable (host w fd) in
theorem receive_ends (s₀ : EvServer) (ha : smsg.Accepted) {datas : List Bytes}
    (hd : ∀ d ∈ datas, d.length = smsg.length.toNat) {chunks : List Bytes} (hne : ∀ c ∈ chunks, c ≠ [])
    (hcut : chunks.flatten ++ rest = sessionBytes peer smsg datas) :
    Ends host peer w fd smsg s₀.calls chunks.flatten rest (receive host w fd s₀ chunks) :=
  (ends_start host w fd s₀ ha hd hcut).foldl ha hne

theorem Ends.lt_of_returns (h : Ends host peer w fd smsg pre received rest (.returns s)) :
    framesIn smsg received.length < smsg.number.toNat := by
  cases h with
  | waits _ _ hlt _ => exact hlt

/-- The server answers a session as it should exactly as long as the last frame announced is not there,
whatever the hosts, the data and the cut into reads. -/
theorem answersExactly_iff (host peer : Endian) (w fd : ℕ) (s₀ : EvServer) {smsg : SessionMessage}
    (ha : smsg.Accepted) {datas : List Bytes} (hd : ∀ d ∈ datas, d.length = smsg.length.toNat)
    {chunks : List Bytes} (hne : ∀ c ∈ chunks, c ≠ [])
    (hcut : chunks.flatten <+: sessionBytes peer smsg datas) :
    AnswersExactly host w fd smsg s₀ chunks ↔ framesIn smsg chunks.flatten.length < smsg.number.toNat := by
  obtain ⟨rest, hrest⟩ := hcut
  have hends := receive_ends host w fd s₀ ha hd hne hrest
  constructor
  · rintro ⟨s, hs, -⟩
    rw [hs] at hends
    exact hends.lt_of_returns
  · intro hlt
    generalize hr : receive host w fd s₀ chunks = r at hends
    cases hends with
    | @waits s c _ _ _ hcalls =>
      refine ⟨s, hr, ?_⟩
      rw [hcalls, answer, Nat.min_eq_left (Nat.le_of_lt hlt), if_neg (Nat.not_le_of_lt hlt), List.append_nil]
    | faults _ hle _ => omega

theorem answersExactly_one_of_two :
    AnswersExactly .little 0 3 ⟨2, 1⟩ .init [sessionBytes .big ⟨2, 1⟩ [[7]]] :=
  (answersExactly_iff .little .big 0 3 .init ⟨by decide, by decide, by decide, by decide⟩
    (show ∀ d ∈ ([[7]] : List Bytes), d.length = 1 by decide) (by decide)
    ⟨[], by rw [List.append_nil, List.flatten_singleton]⟩).mpr (by decide)

/-- One frame announced and received in one read: the client is accessed after it has been destroyed. -/
theorem last_frame_faults : ¬∀ (host peer : Endian) (w fd : ℕ) (s₀ : EvServer) (smsg : SessionMessage)
    (datas chunks : List Bytes), smsg.Accepted → (∀ d ∈ datas, d.length = smsg.length.toNat) →
    (∀ c ∈ chunks, c ≠ []) → chunks.flatten = sessionBytes peer smsg datas →
    AnswersExactly host w fd smsg s₀ chunks := by
  intro h
  have ha : SessionMessage.Accepted ⟨1, 1⟩ := ⟨by decide, by decide, by decide, by decide⟩
  have hd : ∀ d ∈ ([[7]] : List Bytes), d.length = 1 := by decide
  have hne : ∀ c ∈ [sessionBytes .little ⟨1, 1⟩ [[7]]], c ≠ [] := by decide
  obtain ⟨s, hs, -⟩ := h .little .little 0 3 .init ⟨1, 1⟩ [[7]] _ ha hd hne (by rw [List.flatten_singleton])
  have hends := receive_ends .little 0 3 .init ha hd hne (by rw [List.flatten_singleton, List.append_nil])
  rw [hs] at hends
  exact absurd hends.lt_of_returns (by decide)

end LinuxSocket.Ttcp
