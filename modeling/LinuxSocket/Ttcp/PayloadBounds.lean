import LinuxSocket.Ttcp.Receivers

/-! # The payload of the blocking server

`server_receive` refuses lengths that are too large and no others. A negative length leaves no room for the length
field, or no payload at all.
-/
namespace LinuxSocket.Ttcp
open Duplex

/-- A server that reads a frame asks for bytes of its payload of `total_len` bytes only, and the length field behind
`read_n` lies in the payload. -/
def Server.InPayload : Server → Prop
  | .frame smsg _ r => r.length = intTotalLen smsg.length ∧ 0 ≤ r.length ∧
      (r.stored.length + r.want : ℤ) ≤ intTotalLen smsg.length
  | .died .fault => False
  | _ => True

/-- What the server does behind a session message that it does not refuse stays inside of the payload, whatever it
receives then. -/
structure StaysInside (host peer : Endian) (smsg : SessionMessage) : Prop where
  totalLen_eq : intTotalLen smsg.length = 4 + smsg.length
  /-- the sum of the two `size_t` does not wrap -/
  sum_lt : 4 + smsg.length % 2 ^ 64 < 2 ^ 64
  four_le : 4 ≤ intTotalLen smsg.length
  inPayload : ∀ s, Reached (serverProcess host) (.opened host (smsg.bytes peer)) s → s.InPayload

/-- The states of the server behind the session message. -/
inductive Behind (host : Endian) (smsg : SessionMessage) : Server → Prop
  | frame {i : ℕ} {r} : i < smsg.number → r.length = 4 + smsg.length → (r.stored.length : ℤ) < 4 + smsg.length →
      Behind host smsg (.frame smsg i r)
  | ack {i j} : j < 4 → Behind host smsg (.ack smsg i ⟨int32Bytes host smsg.length, 4, j⟩)
  | returned {i} : Behind host smsg (.returned i)
  | died {d} : d ≠ .fault → Behind host smsg (.died d)
  | fault : 0 < smsg.number → -4 ≤ smsg.length → smsg.length < 0 → Behind host smsg (.died .fault)

variable {host peer : Endian} {smsg : SessionMessage} {s : Server} {stored : Bytes} {i : ℕ}

section Steps

/-- A `read_n` that comes back, with a frame or less. -/
theorem Behind.received (hint : IsInt32 smsg.length) (hle : smsg.length ≤ maxBufferLength) (hi : i < smsg.number)
    (stored : Bytes) : Behind host smsg (.received host smsg i stored) := by
  by_cases hs : (stored.length : ℤ) = 4 + smsg.length
  · rcases lt_or_ge smsg.length 0 with hneg | hpos
    · rw [received_negative hint hle hneg hs]
      exact .fault (by omega) (by omega) hneg
    · rw [received_nonneg hint hle hpos hs]
      split
      · exact .ack (by decide)
      · exact .died (by decide)
  · rw [Server.received, intTotalLen_eq_add hint hle, if_neg hs]
    exact .died (by decide)

theorem Behind.round (hint : IsInt32 smsg.length) (hle : smsg.length ≤ maxBufferLength) (i : ℕ) :
    Behind host smsg (.round host smsg i) := by
  rw [Server.round]
  split
  · next hi =>
    rw [intTotalLen_eq_add hint hle, ReadN.loop]
    split
    · next hpos => exact .frame hi rfl hpos
    · exact .received hint hle hi []
  · exact .returned

theorem Behind.read (hint : IsInt32 smsg.length) (hle : smsg.length ≤ maxBufferLength) {r : ReadN} {bytes : Bytes}
    (hi : i < smsg.number) (hr : r.length = 4 + smsg.length) :
    Behind host smsg (r.onRead bytes (.frame smsg i) (.received host smsg i)) := by
  rw [ReadN.onRead, ReadN.loop]
  split
  · exact .received hint hle hi _
  · split
    · next hlt => exact .frame hi hr (hlt.trans_eq hr)
    · exact .received hint hle hi _

theorem Behind.wrote (hint : IsInt32 smsg.length) (hle : smsg.length ≤ maxBufferLength) {j k : ℕ} (hk : j + k ≤ 4) :
    Behind host smsg ((⟨int32Bytes host smsg.length, 4, j⟩ : WriteN).onWrite k (.ack smsg i)
      (.answered host smsg i)) := by
  refine WriteN.onWrite_rule (p := Behind host smsg) four_eq (by rwa [length_int32Bytes]) ?_ ?_
  · intro hlt
    exact .ack (by rwa [length_int32Bytes] at hlt)
  · intro _
    exact .round hint hle (i + 1)

end Steps

theorem Behind.of_reached (hnumber : IsInt32 smsg.number) (hlength : IsInt32 smsg.length)
    (hle : smsg.length ≤ maxBufferLength)
    (h : Reached (serverProcess host) (.opened host (smsg.bytes peer)) s) : Behind host smsg s := by
  induction h with
  | start =>
    rw [opened_bytes hnumber hlength hle]
    exact .round hlength hle 0
  | write _ hcall _ hk ih =>
    cases ih with
    | ack hj =>
      obtain rfl := Pending.write.inj hcall
      rw [WriteN.rest_eq four_eq, List.length_drop, length_int32Bytes] at hk
      exact .wrote hlength hle (by omega)
    | _ => cases hcall
  | broken => exact .died (by decide)
  | read _ hcall _ _ ih =>
    cases ih with
    | frame hi hr _ => exact .read hlength hle hi hr
    | _ => cases hcall
  | eof _ hcall ih =>
    cases ih with
    | frame hi _ _ =>
      rw [onRead_frame_nil]
      exact .received hlength hle hi _
    | _ => cases hcall
  | interrupted _ _ ih => exact ih

theorem round_reads (hlength : IsInt32 smsg.length) (hle : smsg.length ≤ maxBufferLength) (hi : i < smsg.number)
    (hroom : 0 < 4 + smsg.length) :
    Server.round host smsg i = .frame smsg i (.start (4 + smsg.length)) := by
  rw [Server.round, if_pos hi, intTotalLen_eq_add hlength hle, ReadN.loop_start hroom]

theorem onRead_frame_full (hroom : 0 < 4 + smsg.length) (hs : (stored.length : ℤ) = 4 + smsg.length) :
    (serverProcess host).onRead (.frame smsg i (.start (4 + smsg.length))) stored =
      .received host smsg i stored := by
  have hne : stored ≠ [] := List.ne_nil_of_length_pos (by omega)
  have hfull : ¬(stored.length : ℤ) < 4 + smsg.length := by omega
  simp only [serverProcess, ReadN.onRead, ReadN.start, if_neg hne, ReadN.loop, List.nil_append, if_neg hfull]

/-- The length field of the first frame does not lie in its payload. -/
theorem reached_fault (hnumber : IsInt32 smsg.number) (hlength : IsInt32 smsg.length) (hpos : 0 < smsg.number)
    (hge : -4 ≤ smsg.length) (hneg : smsg.length < 0) :
    Reached (serverProcess host) (.opened host (smsg.bytes peer)) (.died .fault) := by
  have hle : smsg.length ≤ maxBufferLength := hneg.le.trans (by norm_num [maxBufferLength])
  have hopened : Server.opened host (smsg.bytes peer) = .round host smsg 0 := opened_bytes hnumber hlength hle
  let stored : Bytes := List.replicate (4 + smsg.length).toNat 0
  have hs : (stored.length : ℤ) = 4 + smsg.length := by
    rw [List.length_replicate]
    omega
  have hfault : Server.received host smsg 0 stored = .died .fault := received_negative hlength hle hneg hs
  by_cases hroom : 0 < 4 + smsg.length
  · rw [round_reads hlength hle hpos hroom] at hopened
    have hne : stored ≠ [] := List.ne_nil_of_length_pos (by omega)
    have hwant : stored.length ≤ (ReadN.start (4 + smsg.length)).want := by
      change stored.length ≤ (4 + smsg.length - 0).toNat
      omega
    have hstart : Reached (serverProcess host) (.frame smsg 0 (.start (4 + smsg.length))) _ := .start
    have hread := hstart.read rfl hne hwant
    rw [onRead_frame_full hroom hs, hfault] at hread
    rwa [hopened]
  · have hstored : stored = [] := List.length_eq_zero_iff.mp (by omega)
    have hfirst : ((0 : ℕ) : ℤ) < smsg.number := hpos
    have hround : Server.round host smsg 0 = .received host smsg 0 [] := by
      rw [Server.round, if_pos hfirst, intTotalLen_eq_add hlength hle, ReadN.loop]
      exact if_neg hroom
    rw [hopened, hround, ← hstored, hfault]
    exact .start

/-- The server stays inside of its payload exactly when the length is not negative. The length field lies outside of
it in some run exactly when a frame is to come and the payload is shorter than the field. -/
theorem staysInside_iff (hnumber : IsInt32 smsg.number) (hlength : IsInt32 smsg.length)
    (hle : smsg.length ≤ maxBufferLength) :
    (StaysInside host peer smsg ↔ 0 ≤ smsg.length) ∧
      (Reached (serverProcess host) (.opened host (smsg.bytes peer)) (.died .fault) ↔
        0 < smsg.number ∧ -4 ≤ smsg.length ∧ smsg.length < 0) := by
  have htotal := intTotalLen_eq_add hlength hle
  refine ⟨⟨fun h => ?_, fun hpos => ⟨htotal, ?_, by omega, fun s hs => ?_⟩⟩, fun h => ?_, fun h => ?_⟩
  · have := h.four_le
    omega
  · have hmax : smsg.length ≤ 10485760 := hle
    omega
  · cases Behind.of_reached hnumber hlength hle hs with
    | @frame i r hi hr hlt =>
      refine ⟨hr.trans htotal.symm, by omega, ?_⟩
      rw [ReadN.want]
      omega
    | ack => trivial
    | returned => trivial
    | @died d hd =>
      cases d with
      | fault => exact absurd rfl hd
      | _ => trivial
    | fault _ _ hneg => exact absurd hneg (Int.not_lt.mpr hpos)
  · cases Behind.of_reached hnumber hlength hle h with
    | died hd => exact absurd rfl hd
    | fault hpos hge hneg => exact ⟨hpos, hge, hneg⟩
  · exact reached_fault hnumber hlength h.1 h.2.1 h.2.2

/-- Two frames with three bytes of data each, and a length that is negative. -/
theorem staysInside_iff_data : StaysInside .little .big ⟨2, 3⟩ ∧
    ¬Reached (serverProcess .little) (.opened .little (SessionMessage.bytes .big ⟨2, 3⟩)) (.died .fault) ∧
    ¬StaysInside .little .big ⟨2, -3⟩ ∧
    Reached (serverProcess .little) (.opened .little (SessionMessage.bytes .big ⟨2, -3⟩)) (.died .fault) := by
  have hnumber : IsInt32 2 := ⟨by decide, by decide⟩
  obtain ⟨hinside, hfault⟩ := @staysInside_iff .little .big ⟨2, 3⟩ hnumber ⟨by decide, by decide⟩ (by decide)
  obtain ⟨hinside', hfault'⟩ := @staysInside_iff .little .big ⟨2, -3⟩ hnumber ⟨by decide, by decide⟩ (by decide)
  exact ⟨hinside.mpr (by decide), hfault.not.mpr (by decide), hinside'.not.mpr (by decide), hfault'.mpr (by decide)⟩

/-- A length of -1 announces a payload of three bytes. -/
theorem negative_length_faults : ¬∀ host peer smsg, IsInt32 smsg.number → IsInt32 smsg.length →
    smsg.length ≤ maxBufferLength → StaysInside host peer smsg := by
  intro h
  let smsg : SessionMessage := ⟨1, -1⟩
  have hnumber : IsInt32 smsg.number := ⟨by decide, by decide⟩
  have hlength : IsInt32 smsg.length := ⟨by decide, by decide⟩
  have hinside := h .little .big smsg hnumber hlength (by decide)
  exact hinside.inPayload _ (reached_fault hnumber hlength (by decide) (by decide) (by decide))

end LinuxSocket.Ttcp
