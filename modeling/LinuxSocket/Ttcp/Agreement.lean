import LinuxSocket.Ttcp.Acks
import LinuxSocket.Ttcp.Receivers

/-! # The libev server against the blocking one

Every iteration of the libev server moves along `serve` as well, for any stream and any cut into reads, but only
behind a session message with positive numbers. The blocking server takes the others too, and the two agree
where it refuses them all the same.
-/
namespace LinuxSocket.Ttcp
open Duplex

/-- The acks of the libev server for all bytes of a session, and how this ends. -/
def evServed (bytes : Bytes) : ℕ × Verdict :=
  if 8 ≤ bytes.length ∧ 0 < word bytes ∧ 0 < word (bytes.drop 4) ∧ word (bytes.drop 4) ≤ maxBufferLength then
    serve (word (bytes.drop 4)) (word bytes).toNat (bytes.drop 8)
  else (0, .refused)

/-- Where the loop is when `more` is to come and the session is going to end with `n` acks and `v`. -/
inductive Serving (host : Endian) (w fd : ℕ) (smsg : SessionMessage) (pre : List Call) (n : ℕ) (v : Verdict)
    (more : Bytes) (s : EvServer) : Prop
  | session {c} : Alive w fd s c → c.state = .exceptFrameSize → c.readNumber = 0 →
      (8 ≤ (c.inputBuffer.contents ++ more).length → smsg =
        ⟨word (c.inputBuffer.contents ++ more), word ((c.inputBuffer.contents ++ more).drop 4)⟩) →
      evServed (c.inputBuffer.contents ++ more) = (n, v) → s.calls = pre → Serving host w fd smsg pre n v more s
  | frame {c} (j k : ℕ) : Alive w fd s c → smsg.Accepted → c.state = .exceptFrame → c.smsg = smsg →
      c.readNumber = j → j < smsg.number.toNat →
      serve smsg.length (smsg.number.toNat - j) (c.inputBuffer.contents ++ more) = (k, v) → j + k = n →
      s.calls = pre ++ acks host fd smsg j → Serving host w fd smsg pre n v more s
  | closed : s.object w = none → v = .completed →
      s.calls = pre ++ acks host fd smsg n ++ [.close fd, .evIoStop w] → Serving host w fd smsg pre n v more s

inductive Served (host : Endian) (w fd : ℕ) (smsg : SessionMessage) (pre : List Call) (n : ℕ) (v : Verdict)
    (more : Bytes) : Outcome → Prop
  | waits {s c} : Alive w fd s c → Serving host w fd smsg pre n v more s →
      (more = [] → v = .refused ∧ s.calls = pre ++ acks host fd smsg n) →
      Served host w fd smsg pre n v more (.returns s)
  | refuses {s} : v = .refused → s.calls = pre ++ acks host fd smsg n → Served host w fd smsg pre n v more (.dies s)
  | closed {s} : v = .completed → s.calls = pre ++ acks host fd smsg n ++ [.close fd, .evIoStop w] →
      Served host w fd smsg pre n v more (.faults s)

variable {host peer : Endian} {w fd n : ℕ} {v : Verdict} {smsg : SessionMessage} {pre : List Call}
  {bytes more : Bytes} {s t : EvServer}

section Loop

theorem evServed_accepted (hlen : 8 ≤ bytes.length)
    (ha : SessionMessage.Accepted ⟨word bytes, word (bytes.drop 4)⟩) :
    evServed bytes = serve (word (bytes.drop 4)) (word bytes).toNat (bytes.drop 8) :=
  if_pos ⟨hlen, ha.number_pos, ha.length_pos, ha.length_le⟩

theorem evServed_refused (h : 8 ≤ bytes.length → ¬SessionMessage.Accepted ⟨word bytes, word (bytes.drop 4)⟩) :
    evServed bytes = (0, .refused) := by
  refine if_neg fun hall => ?_
  exact h hall.1 ⟨hall.2.1, (isInt32_word bytes).2, hall.2.2.1, hall.2.2.2⟩

/-- The iteration that reads a frame. -/
theorem Serving.read_frame {c : EvClient} {j k : ℕ} (hc : Alive w fd s c) (ha : c.smsg.Accepted)
    (hs : c.state = .exceptFrame) (hj : c.readNumber = j) (hlt : j < c.smsg.number.toNat)
    (hserve : serve c.smsg.length (c.smsg.number.toNat - j) (c.inputBuffer.contents ++ more) = (k, v))
    (hsum : j + k = n) (hcalls : s.calls = pre ++ acks host fd c.smsg j)
    (hlen : 4 + c.smsg.length.toNat ≤ c.inputBuffer.contents.length)
    (hw : word c.inputBuffer.contents = c.smsg.length) :
    (readFrame host w s c).elim (Serving host w fd c.smsg pre n v more) (Served host w fd c.smsg pre n v more) := by
  obtain ⟨c', hread, hfd, hs', hm', hj', hb', hcont⟩ := readFrame_match host w s hc.buffer hlen hw
  have hacks : (s.acked w c' (int32Bytes host c.smsg.length)).calls = pre ++ acks host fd c.smsg (j + 1) := by
    rw [acks_succ, ← List.append_assoc, ← hcalls, ← hc.fd_eq, ← hfd]
    rfl
  rw [sub_succ hlt, serve_frame ha.length_pos.le (by rw [List.length_append]; omega)
    ((word_append (by omega) more).trans hw), List.drop_append_of_le_length hlen, ← hcont] at hserve
  obtain ⟨hk, hv⟩ := Prod.mk.inj hserve
  rw [hread]
  dsimp only [Sum.elim_inl]
  rw [hj', hj]
  by_cases hlast : c.smsg.number ≤ (j : ℤ) + 1
  · have hzero : c.smsg.number.toNat - (j + 1) = 0 := by omega
    rw [hzero] at hk hv
    rw [if_pos hlast]
    refine .closed (object_deleteClient hc.listed) hv.symm ?_
    rw [calls_deleteClient, calls_closed, hacks, hc.fd_eq, ← hsum, ← hk]
    rfl
  · rw [if_neg hlast]
    exact .frame (j + 1) (k - 1) (hc.acked hfd hb' _) ha (hs'.trans hs) hm' (by rw [hj', hj]; rfl) (by omega)
      (Prod.ext (Nat.eq_sub_of_add_eq hk) hv) (by omega) hacks

/-- Every iteration moves along the stream or ends the callback. -/
theorem Serving.advances (h : Serving host w fd smsg pre n v more s) :
    (clientReadStep host w s).elim (Serving host w fd smsg pre n v more) (Served host w fd smsg pre n v more) := by
  have hserving := h
  cases h with
  | @session c hc hs hj hsmsg hserve hcalls =>
    simp only [clientReadStep, hc.object_eq, hs]
    split
    · next hlen =>
      rw [← hc.buffer.length_contents] at hlen
      have hall : 8 ≤ (c.inputBuffer.contents ++ more).length := by
        rw [List.length_append]
        omega
      have hread := readSession_eq host w s hc.buffer hlen
      rw [← word_append (by omega) more, ← word_drop_append (k := 4) (by omega) more, ← hsmsg hall] at hread
      by_cases ha : smsg.Accepted
      · obtain ⟨c', hread, hfd, hs', hm', hj', hb', hcont⟩ := hread.2 ha
        have hpos := ha.number_pos
        rw [hread]
        refine Serving.frame 0 n (hc.setClient hfd hb') ha hs' hm' (hj'.trans hj) (by omega) ?_ (Nat.zero_add n) ?_
        · rw [evServed_accepted hall (hsmsg hall ▸ ha), List.drop_append_of_le_length hlen, ← hcont] at hserve
          rw [hsmsg hall]
          exact hserve
        · exact hcalls.trans (List.append_nil _).symm
      · rw [evServed_refused fun _ => hsmsg hall ▸ ha] at hserve
        obtain ⟨rfl, rfl⟩ := Prod.mk.inj hserve
        rw [hread.1 ha]
        exact Served.refuses rfl (hcalls.trans (List.append_nil _).symm)
    · next hlen =>
      rw [← hc.buffer.length_contents] at hlen
      refine Served.waits hc hserving ?_
      rintro rfl
      rw [List.append_nil, evServed_refused fun h => absurd h hlen] at hserve
      obtain ⟨rfl, rfl⟩ := Prod.mk.inj hserve
      exact ⟨rfl, hcalls.trans (List.append_nil _).symm⟩
  | @frame c j k hc ha hs hm hj hlt hserve hsum hcalls =>
    subst hm
    have hpos := ha.length_pos
    simp only [clientReadStep, hc.object_eq, hs, totalLen_eq ⟨ha.length_pos, ha.length_le⟩]
    split
    · next hlen =>
      rw [← hc.buffer.length_contents] at hlen
      by_cases hw : word c.inputBuffer.contents = c.smsg.length
      · exact Serving.read_frame hc ha hs hj hlt hserve hsum hcalls hlen hw
      · rw [readFrame_mismatch host w s hc.buffer (by omega) hw]
        rw [← word_append (by omega) more] at hw
        rw [sub_succ hlt, serve_mismatch hpos.le hw] at hserve
        obtain ⟨rfl, rfl⟩ := Prod.mk.inj hserve
        obtain rfl := hsum
        exact Served.refuses rfl hcalls
    · next hlen =>
      rw [← hc.buffer.length_contents] at hlen
      refine Served.waits hc hserving ?_
      rintro rfl
      rw [List.append_nil, sub_succ hlt, serve_short (.inr (by omega))] at hserve
      obtain ⟨rfl, rfl⟩ := Prod.mk.inj hserve
      obtain rfl := hsum
      exact ⟨rfl, hcalls⟩
  | closed hw hv hcalls =>
    simp only [clientReadStep, hw]
    exact Served.closed hv hcalls

/-- The state in which the loop starts when a chunk has been read. -/
theorem Serving.read {chunk : Bytes} {c : EvClient} {b : Tbuf} (hc : Alive w fd s c)
    (h : Serving host w fd smsg pre n v (chunk ++ more) s) (hb : b.Inv)
    (hcont : b.contents = c.inputBuffer.contents ++ chunk) :
    Serving host w fd smsg pre n v more (s.setClient w { c with inputBuffer := b }) := by
  have halive : Alive w fd (s.setClient w { c with inputBuffer := b }) { c with inputBuffer := b } :=
    hc.setClient rfl hb
  cases h with
  | @session c₀ hc₀ hs hj hsmsg hserve hcalls =>
    obtain rfl := Option.some.inj (hc₀.object_eq.symm.trans hc.object_eq)
    rw [← List.append_assoc, ← hcont] at hsmsg hserve
    exact .session halive hs hj hsmsg hserve hcalls
  | @frame c₀ j k hc₀ ha hs hm hj hlt hserve hsum hcalls =>
    obtain rfl := Option.some.inj (hc₀.object_eq.symm.trans hc.object_eq)
    rw [← List.append_assoc, ← hcont] at hserve
    exact .frame j k halive ha hs hm hj hlt hserve hsum hcalls
  | closed hw _ _ =>
    rw [hc.object_eq] at hw
    cases hw

/-- One callback with a nonempty read. -/
theorem Served.onReadable {chunk : Bytes} (hne : chunk ≠ []) {r : Outcome}
    (h : Served host w fd smsg pre n v (chunk ++ more) r) :
    Served host w fd smsg pre n v more (onReadable host w r chunk) := by
  cases h with
  | refuses hv hcalls => exact .refuses hv hcalls
  | closed hv hcalls => exact .closed hv hcalls
  | @waits s c hc hserving _ =>
    obtain ⟨b, hread, hb, hcont⟩ := hc.buffer.readfd chunk
    have hpos : 0 < (chunk.length : ℤ) := by exact_mod_cast List.length_pos_iff.mpr hne
    have hrun : Ttcp.onReadable host w (.returns s) chunk =
        (clientReadLoop host w).run (s.setClient w { c with inputBuffer := b }) := by
      simp only [Ttcp.onReadable, clientReadCb, hc.started, hc.object_eq, hread, if_pos, hpos]
    rw [hrun]
    exact Loop.Body.run_elim (fun _ hs => hs.advances) (hserving.read hc hb hcont)

/-- Any cut into nonempty reads. -/
theorem Served.foldl {chunks : List Bytes} (hne : ∀ c ∈ chunks, c ≠ []) {r : Outcome}
    (h : Served host w fd smsg pre n v (chunks.flatten ++ more) r) :
    Served host w fd smsg pre n v more (chunks.foldl (Ttcp.onReadable host w) r) := by
  induction chunks generalizing r with
  | nil => exact h
  | cons chunk chunks ih =>
    rw [List.flatten_cons, List.append_assoc] at h
    exact ih (fun c hc => hne c (List.mem_cons_of_mem _ hc)) (h.onReadable (hne chunk (by simp)))

end Loop

section Sessions

def Call.written (fd : ℕ) : Call → Bytes
  | .write fd' bytes => if fd' = fd then bytes else []
  | _ => []

def Outcome.server : Outcome → EvServer
  | .returns s => s
  | .dies s => s
  | .faults s => s

/-- The calls made behind the calls `pre`. -/
def Outcome.callsSince (r : Outcome) (pre : List Call) : List Call := r.server.calls.drop pre.length

/-- The session of a client is completed when the client has been closed, whatever is accessed then, and refused
when the process has ended before. -/
def Outcome.verdict (r : Outcome) (fd : ℕ) (pre : List Call) : Option Verdict :=
  if .close fd ∈ r.callsSince pre then some .completed
  else match r with
    | .returns _ => none
    | .dies _ => some .refused
    | .faults _ => some .faulted

/-- The callbacks for a session of which all bytes come in these reads, and the one for its end. -/
def evSession (host : Endian) (w fd : ℕ) (s₀ : EvServer) (chunks : List Bytes) : Outcome :=
  onReadable host w (receive host w fd s₀ chunks) []

/-- Every run of the two servers on these bytes writes the same and ends in the same way. -/
def ReceiversAgree (host : Endian) (w fd : ℕ) (s₀ : EvServer) (bytes : Bytes) : Prop :=
  ∀ out y chunks, Solo (serverProcess host) serverReceive bytes out y → (∀ c ∈ chunks, c ≠ []) →
    chunks.flatten = bytes →
    ((evSession host w fd s₀ chunks).callsSince s₀.calls).flatMap (Call.written fd) = out ∧
      (evSession host w fd s₀ chunks).verdict fd s₀.calls = some y.verdict

/-- The session messages that are too long, or that both servers take, and the other ones with frames that the
blocking server refuses. -/
def Agreeable (smsg : SessionMessage) (stream : Bytes) : Prop :=
  maxBufferLength < smsg.length ∨ 0 < smsg.number ∧
    (0 < smsg.length ∨ smsg.length < -4 ∨ stream.length < 4 + smsg.length ∨ smsg.length = 0 ∧ word stream ≠ 0)

theorem flatMap_acks (n : ℕ) : (acks host fd smsg n).flatMap (Call.written fd) = ackBytes host smsg.length n := by
  rw [acks, List.flatMap_def, List.map_replicate, Call.written, if_pos rfl, ackBytes]

theorem close_not_mem_acks (n : ℕ) : Call.close fd ∉ acks host fd smsg n := by
  intro hmem
  cases List.eq_of_mem_replicate hmem

/-- The end of the stream. -/
theorem Served.eof {r : Outcome} (h : Served host w fd smsg pre n v [] r) :
    ((Ttcp.onReadable host w r []).callsSince pre).flatMap (Call.written fd) = ackBytes host smsg.length n ∧
      (Ttcp.onReadable host w r []).verdict fd pre = some v := by
  have hrefused : ∀ {t : EvServer}, v = .refused → t.calls = pre ++ acks host fd smsg n →
      ((Outcome.dies t).callsSince pre).flatMap (Call.written fd) = ackBytes host smsg.length n ∧
        (Outcome.dies t).verdict fd pre = some v := by
    intro t hv hcalls
    have hsince : (Outcome.dies t).callsSince pre = acks host fd smsg n := by
      rw [Outcome.callsSince, Outcome.server, hcalls, List.drop_left]
    rw [Outcome.verdict, hsince, if_neg (close_not_mem_acks n), flatMap_acks, hv]
    exact ⟨rfl, rfl⟩
  cases h with
  | refuses hv hcalls => exact hrefused hv hcalls
  | @waits s c hc hserving hend =>
    obtain ⟨hv, hcalls⟩ := hend rfl
    obtain ⟨b, hread, -⟩ := hc.buffer.readfd []
    have hdies : Ttcp.onReadable host w (.returns s) [] = .dies (s.setClient w { c with inputBuffer := b }) := by
      simp only [Ttcp.onReadable, clientReadCb, hc.started, hc.object_eq, hread, if_pos, List.length_nil,
        Nat.cast_zero, lt_irrefl, if_false]
    rw [hdies]
    exact hrefused hv hcalls
  | @closed s hv hcalls =>
    have hsince : (Outcome.faults s).callsSince pre = acks host fd smsg n ++ [.close fd, .evIoStop w] := by
      rw [Outcome.callsSince, Outcome.server, hcalls, List.append_assoc, List.drop_left]
    have hfaults : Ttcp.onReadable host w (.faults s) [] = .faults s := rfl
    rw [hfaults, Outcome.verdict, hsince, if_pos (by simp), List.flatMap_append, flatMap_acks, hv]
    exact ⟨List.append_nil _, rfl⟩

theorem evSession_served (host : Endian) (w fd : ℕ) (s₀ : EvServer) {smsg : SessionMessage}
    (hnumber : IsInt32 smsg.number) (hlength : IsInt32 smsg.length) {stream : Bytes} {chunks : List Bytes}
    (hne : ∀ c ∈ chunks, c ≠ []) (hcut : chunks.flatten = smsg.bytes peer ++ stream) :
    ((evSession host w fd s₀ chunks).callsSince s₀.calls).flatMap (Call.written fd) =
        ackBytes host smsg.length (evServed (smsg.bytes peer ++ stream)).1 ∧
      (evSession host w fd s₀ chunks).verdict fd s₀.calls = some (evServed (smsg.bytes peer ++ stream)).2 := by
  obtain ⟨n, v, hserve⟩ : ∃ n v, evServed (smsg.bytes peer ++ stream) = (n, v) := ⟨_, _, rfl⟩
  rw [hserve]
  have halive : Alive w fd (s₀.serverReadCb w fd) (.init fd) :=
    ⟨Function.update_self _ _ _, by simp [EvServer.serverReadCb], Function.update_self _ _ _, rfl, Tbuf.inv_init⟩
  have hstart : Served host w fd smsg s₀.calls n v (chunks.flatten ++ []) (.returns (s₀.serverReadCb w fd)) := by
    rw [hcut, List.append_nil]
    refine .waits halive (.session halive rfl rfl ?_ hserve rfl) ?_
    · intro _
      change smsg = ⟨word (smsg.bytes peer ++ stream), word ((smsg.bytes peer ++ stream).drop 4)⟩
      rw [word_bytes hnumber, word_drop_bytes hlength]
    · intro hnil
      have hlen := congrArg List.length hnil
      simp at hlen
  exact (hstart.foldl hne).eof

end Sessions

section Agreement
variable {stream : Bytes}

theorem ackBytes_eq_nil {length : ℤ} : ackBytes host length n = [] ↔ n = 0 := by
  constructor
  · intro h
    have hlen := congrArg List.length h
    simpa [ackBytes] using hlen
  · rintro rfl
    rfl

theorem serve_refused_iff {length : ℤ} : serve length n bytes = (0, .refused) ↔
    0 < n ∧ (length < -4 ∨ (bytes.length : ℤ) < 4 + length ∨ 0 ≤ length ∧ word bytes ≠ length) := by
  cases n with
  | zero => simp [serve]
  | succ n =>
    by_cases hs : length < -4 ∨ (bytes.length : ℤ) < 4 + length
    · simp only [serve_short hs, true_iff]
      omega
    · rw [serve, if_neg hs]
      split
      · next hneg => simp; omega
      · next hpos =>
        split
        · next hw => simp [hw]; omega
        · next hw => simp [hw]; omega

theorem blockingServed_bytes (hnumber : IsInt32 smsg.number) (hlength : IsInt32 smsg.length) (stream : Bytes) :
    blockingServed host (smsg.bytes peer ++ stream) =
      if maxBufferLength < smsg.length then ([], .refused) else served host smsg.length smsg.number.toNat stream := by
  have hword : word (smsg.bytes peer ++ []) = smsg.number := word_bytes hnumber []
  have hword' : word ((smsg.bytes peer ++ []).drop 4) = smsg.length := word_drop_bytes hlength []
  rw [List.append_nil] at hword hword'
  rw [blockingServed_eq SessionMessage.length_bytes, hword, hword']

theorem evServed_bytes (hnumber : IsInt32 smsg.number) (hlength : IsInt32 smsg.length) (stream : Bytes) :
    evServed (smsg.bytes peer ++ stream) =
      if 0 < smsg.number ∧ 0 < smsg.length ∧ smsg.length ≤ maxBufferLength then
        serve smsg.length smsg.number.toNat stream
      else (0, .refused) := by
  rw [evServed, word_bytes hnumber, word_drop_bytes hlength, drop_bytes]
  simp

/-- What both servers foresee is the same where the session message is agreeable. -/
theorem served_agree_iff (hnumber : IsInt32 smsg.number) (hlength : IsInt32 smsg.length) (stream : Bytes) :
    blockingServed host (smsg.bytes peer ++ stream) =
      (ackBytes host smsg.length (evServed (smsg.bytes peer ++ stream)).1, (evServed (smsg.bytes peer ++ stream)).2) ↔
    Agreeable smsg stream := by
  rw [blockingServed_bytes hnumber hlength, evServed_bytes hnumber hlength, Agreeable]
  by_cases hlong : maxBufferLength < smsg.length
  · rw [if_pos hlong, if_neg (by omega)]
    simp [hlong, ackBytes]
  · rw [if_neg hlong]
    by_cases ha : 0 < smsg.number ∧ 0 < smsg.length
    · rw [if_pos ⟨ha.1, ha.2, Int.not_lt.mp hlong⟩]
      simp [served, ha]
    · rw [if_neg (by omega)]
      have hrefused : served host smsg.length smsg.number.toNat stream = (ackBytes host smsg.length 0, .refused) ↔
          serve smsg.length smsg.number.toNat stream = (0, .refused) := by
        rw [served, Prod.ext_iff, Prod.ext_iff]
        exact and_congr_left' ackBytes_eq_nil
      rw [hrefused, serve_refused_iff]
      omega

/-- What the runs of the two servers write and how they end is what is foreseen. -/
theorem receiversAgree_iff_served (host peer : Endian) (w fd : ℕ) (s₀ : EvServer) {smsg : SessionMessage}
    (hnumber : IsInt32 smsg.number) (hlength : IsInt32 smsg.length) (stream : Bytes) :
    ReceiversAgree host w fd s₀ (smsg.bytes peer ++ stream) ↔ blockingServed host (smsg.bytes peer ++ stream) =
      (ackBytes host smsg.length (evServed (smsg.bytes peer ++ stream)).1,
        (evServed (smsg.bytes peer ++ stream)).2) := by
  constructor
  · intro hagree
    obtain ⟨out, y, hsolo⟩ := exists_server_solo host (smsg.bytes peer ++ stream)
    have hcut : [smsg.bytes peer ++ stream].flatten = smsg.bytes peer ++ stream := List.flatten_singleton
    have hne : ∀ c ∈ [smsg.bytes peer ++ stream], c ≠ [] := by
      intro c hc hnil
      rw [List.mem_singleton.mp hc] at hnil
      have hlen := congrArg List.length hnil
      simp at hlen
    obtain ⟨hout, hv⟩ := hagree out y _ hsolo hne hcut
    obtain ⟨hout', hv'⟩ := evSession_served host w fd s₀ hnumber hlength hne hcut
    rw [solo_served hsolo, ← hout, ← hout']
    exact Prod.ext rfl (Option.some.inj (hv.symm.trans hv'))
  · intro heq out y chunks hsolo hne hcut
    obtain ⟨hout, hv⟩ := evSession_served host w fd s₀ hnumber hlength hne hcut
    obtain ⟨rfl, hy⟩ := Prod.mk.inj ((solo_served hsolo).symm.trans heq)
    rw [hy]
    exact ⟨hout, hv⟩

/-- The two receivers agree exactly on the agreeable sessions, whatever the hosts and the server before. -/
theorem receivers_agree_iff (host peer : Endian) (w fd : ℕ) (s₀ : EvServer) {smsg : SessionMessage}
    (hnumber : IsInt32 smsg.number) (hlength : IsInt32 smsg.length) (stream : Bytes) :
    ReceiversAgree host w fd s₀ (smsg.bytes peer ++ stream) ↔ Agreeable smsg stream := by
  rw [receiversAgree_iff_served host peer w fd s₀ hnumber hlength]
  exact served_agree_iff hnumber hlength stream

/-- Two frames of one byte, the second cut off. -/
theorem receivers_agree_cut :
    ReceiversAgree .little 0 3 .init (SessionMessage.bytes .big ⟨2, 1⟩ ++ [0, 0, 0, 1, 7, 0, 0]) :=
  (receivers_agree_iff .little .big 0 3 .init (by constructor <;> decide) (by constructor <;> decide) _).mpr
    (.inr ⟨by decide, .inl (by decide)⟩)

/-- A session without frames: the blocking server completes it and the libev server exits. -/
theorem no_frames_differ : ¬∀ (host peer : Endian) (w fd : ℕ) (s₀ : EvServer) (smsg : SessionMessage) (stream : Bytes),
    IsInt32 smsg.number → IsInt32 smsg.length → ReceiversAgree host w fd s₀ (smsg.bytes peer ++ stream) := by
  intro h
  have hnumber : IsInt32 (⟨0, 1⟩ : SessionMessage).number := by constructor <;> decide
  have hlength : IsInt32 (⟨0, 1⟩ : SessionMessage).length := by constructor <;> decide
  have hagree := h .little .big 0 3 .init ⟨0, 1⟩ [] hnumber hlength
  rw [receiversAgree_iff_served .little .big 0 3 .init hnumber hlength, served_agree_iff hnumber hlength] at hagree
  obtain hlong | ⟨hpos, -⟩ := hagree
  · exact absurd hlong (by decide)
  · exact absurd hpos (by decide)

end Agreement

end LinuxSocket.Ttcp
