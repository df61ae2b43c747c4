import LinuxSocket.Rot13.Folding
import LinuxSocket.Rot13.Relaying
import Mathlib.Data.List.DropRight

/-! # The two rot13 servers

While its buffer is large enough, the low-level server sends the image of the bytes up to the last line end, and so
does the simpler one when the lines are short.
-/
namespace LinuxSocket.Rot13

def ended (xs : Bytes) : Bytes := xs.rdropWhile (· ≠ LF)

section Ended
variable {xs ys : Bytes} {c : UInt8}

theorem ended_lf (xs : Bytes) : ended (xs ++ [LF]) = xs ++ [LF] := List.rdropWhile_concat_neg _ _ _ (by decide)

theorem ended_concat (hc : c ≠ LF) (xs : Bytes) : ended (xs ++ [c]) = ended xs :=
  List.rdropWhile_concat_pos _ _ _ (decide_eq_true hc)

theorem ended_isPrefix (xs : Bytes) : ended xs <+: xs := List.rdropWhile_prefix _ xs

theorem ended_append_of_not_mem (h : LF ∉ ys) (xs : Bytes) : ended (xs ++ ys) = ended xs := by
  induction ys using List.reverseRecOn with
  | nil => rw [List.append_nil]
  | append_singleton ys c ih =>
    obtain ⟨hys, hc⟩ : LF ∉ ys ∧ LF ≠ c := by simpa using h
    rw [← List.append_assoc, ended_concat hc.symm, ih hys]

theorem ended_append (h : ended ys = ys) (hne : ys ≠ []) (xs : Bytes) : ended (xs ++ ys) = xs ++ ys := by
  obtain rfl | ⟨ys, c, rfl⟩ := ys.eq_nil_or_concat'
  · exact absurd rfl hne
  · by_cases hc : c = LF
    · rw [hc, ← List.append_assoc, ended_lf]
    · rw [ended_concat hc] at h
      have hle := h ▸ (ended_isPrefix ys).length_le
      rw [List.length_append, List.length_singleton] at hle
      omega

theorem ended_mono (xs ys : Bytes) : ended xs <+: ended (xs ++ ys) := by
  induction ys using List.reverseRecOn with
  | nil => exact (List.append_nil xs).symm ▸ List.prefix_rfl
  | append_singleton ys c ih =>
    rw [← List.append_assoc]
    by_cases hc : c = LF
    · rw [hc, ended_lf]
      exact (ended_isPrefix xs).trans ((List.prefix_append xs ys).trans (List.prefix_append _ _))
    · rwa [ended_concat hc]

end Ended

section LowLevel
variable {s s' : Session} {st st' : FdState} {q bytes : Bytes} {c : Callback}

/-- What has been sent and what is to be sent of the stored bytes reaches up to the last line end. -/
def Reaches (st : FdState) (sent received : Bytes) : Prop :=
  sent.length + (st.writeUpto - st.nWritten) = (ended received).length

theorem Reaches.readChar {sent received : Bytes} (h : Reaches st sent received) (hq : Holds st q)
    (hall : sent ++ q = received.map rot13Char) (hroom : st.bufferUsed < maxLine) (c : UInt8) :
    Reaches (st.readChar c) sent (received ++ [c]) := by
  have hlen := congrArg List.length hall
  rw [List.length_append, List.length_map, hq.length_eq] at hlen
  have hle := hq.written_le.trans hq.upto_le
  have hused := st.bufferUsed_put c
  rw [if_pos hroom] at hused
  have hwritten : (st.put c).nWritten = st.nWritten := by
    rw [FdState.put, if_pos hroom]
  have hupto : (st.put c).writeUpto = st.writeUpto := by
    rw [FdState.put, if_pos hroom]
  unfold Reaches FdState.readChar
  dsimp only
  split
  · next hc =>
    rw [hc, ended_lf, List.length_append, List.length_singleton, ← hc]
    dsimp only
    omega
  · next hc =>
    rw [ended_concat hc, hwritten, hupto]
    exact h

theorem Reaches.readChars {sent received : Bytes} (h : Reaches st sent received) (hq : Holds st q)
    (hall : sent ++ q = received.map rot13Char) (hroom : st.bufferUsed + bytes.length ≤ maxLine) :
    Reaches (bytes.foldl FdState.readChar st) sent (received ++ bytes) := by
  induction bytes generalizing st q received with
  | nil => rwa [List.append_nil]
  | cons c bytes ih =>
    rw [List.length_cons] at hroom
    have hlt : st.bufferUsed < maxLine := by omega
    obtain ⟨hq', hused⟩ := hq.readChar hlt c
    have hall' : sent ++ (q ++ [rot13Char c]) = (received ++ [c]).map rot13Char := by
      rw [← List.append_assoc, hall, List.map_append]
      rfl
    rw [List.foldl_cons, List.append_cons]
    exact ih (h.readChar hq hall hlt c) hq' hall' (by rw [hused]; omega)

/-- What `do_write` sends is taken from what is to be sent. -/
theorem Holds.writes_upto (h : Holds st q) {results : List SendResult} {r : Conn × Bytes} (hw : Writes st results r) :
    r.2.length ≤ st.writeUpto - st.nWritten ∧
      ∀ st', r.1 = .running st' → r.2.length + (st'.writeUpto - st'.nWritten) = st.writeUpto - st.nWritten := by
  induction hw generalizing q with
  | done hle =>
    refine ⟨Nat.zero_le _, fun st' hst' => ?_⟩
    unfold FdState.written at hst'
    split at hst'
    · obtain rfl := Conn.running.inj hst'
      dsimp only [List.length_nil]
      omega
    · cases hst'
  | again => exact ⟨Nat.zero_le _, fun st' hst' => Conn.running.inj hst' ▸ Nat.zero_add _⟩
  | failed => exact ⟨Nat.zero_le _, fun st' hst' => Conn.noConfusion hst'⟩
  | outside => exact ⟨Nat.zero_le _, fun st' hst' => Conn.noConfusion hst'⟩
  | zero => exact ⟨Nat.zero_le _, fun st' hst' => Conn.noConfusion hst'⟩
  | @sent st k results bytes r hk hcells _ ih =>
    obtain ⟨hfront, hrest⟩ := h.sent hk
    obtain rfl := Option.some.inj (hcells.symm.trans hfront)
    obtain ⟨hle, hst⟩ := ih hrest
    have hused := h.upto_le
    have hlen : (q.take k).length = k := by
      rw [List.length_take, h.length_eq]
      omega
    rw [List.length_append, hlen]
    dsimp only at hle hst
    refine ⟨by omega, fun st' hst' => ?_⟩
    have heq := hst st' hst'
    omega

/-- The low-level server has sent what it is to send at most. -/
structure Bounded (s : Session) : Prop where
  sent_le : s.sent.length ≤ (ended s.received).length
  reaches : ∀ st, s.conn = .running st → Reaches st s.sent s.received

theorem Bounded.step (h : Bounded s) (hr : Relays s) (hc : FitsBuffer s c) (hs : s.step c = some s') : Bounded s' := by
  obtain ⟨st, hst⟩ := Session.step_running hs
  obtain ⟨conn, received, sent⟩ := s
  obtain rfl : conn = .running st := hst
  obtain ⟨q, hq, hall⟩ := hr.stored st rfl
  have hreach := h.reaches st rfl
  cases c with
  | read chunks last =>
    obtain ⟨-, hs⟩ := Option.ite_none_right_eq_some.mp hs
    obtain rfl := Option.some.inj hs
    refine ⟨h.sent_le.trans (ended_mono received _).length_le, fun st' hst' => ?_⟩
    cases last with
    | again =>
      obtain rfl := Conn.running.inj hst'
      exact hreach.readChars hq hall (hc st rfl)
    | closed => cases hst'
    | failed => cases hst'
  | write results =>
    obtain ⟨-, hs⟩ := Option.ite_none_right_eq_some.mp hs
    obtain ⟨r, hr, rfl⟩ := Option.map_eq_some_iff.mp hs
    obtain ⟨hle, heq⟩ := hq.writes_upto (writes_of_doWrite hr)
    have hreach : sent.length + (st.writeUpto - st.nWritten) = (ended received).length := hreach
    constructor
    · dsimp only
      rw [List.length_append]
      omega
    · intro st' hst'
      have heq := heq st' hst'
      unfold Reaches
      dsimp only
      rw [List.length_append]
      omega

theorem Run.bounded (h : Run FitsBuffer s) : Bounded s := by
  induction h with
  | start h =>
    refine ⟨Nat.zero_le _, fun st hst => ?_⟩
    obtain rfl := Conn.running.inj hst
    rfl
  | step hrun hc hs ih => exact ih.step hrun.relays hc hs

theorem Run.sent_prefix (h : Run FitsBuffer s) : s.sent <+: (ended s.received).map rot13Char := by
  refine List.prefix_of_prefix_length_le h.relays.sent ((ended_isPrefix s.received).map rot13Char) ?_
  rw [List.length_map]
  exact h.bounded.sent_le

end LowLevel

section Simper
open Bufferevent Pieces

/-- Short lines are not folded. -/
theorem ofLines_short {lines : List Bytes} (hne : lines ≠ []) (hshort : ∀ line ∈ lines, line.length < maxLine)
    (output : Bytes) : ∃ front last, last ∈ lines ∧ [LF].intercalate lines = front ++ last ∧
      ended front = front ∧ ofLines output lines = ⟨last, output ++ front.map rot13Char⟩ := by
  induction lines generalizing output with
  | nil => exact absurd rfl hne
  | cons line lines ih =>
    obtain ⟨hlt, hshort⟩ := List.forall_mem_cons.mp hshort
    by_cases hnil : lines = []
    · subst hnil
      refine ⟨[], line, List.mem_cons_self, ?_, rfl, ?_⟩
      · simp
      · rw [ofLines, rest_of_lt hlt, folded_of_lt hlt]
        rfl
    · obtain ⟨front, last, hmem, hlines, hended, heq⟩ := ih hnil hshort (output ++ line.map rot13Char ++ [LF])
      refine ⟨line ++ [LF] ++ front, last, List.mem_cons_of_mem _ hmem, ?_, ?_, ?_⟩
      · rw [List.intercalate_cons_of_ne_nil hnil, hlines]
        simp only [List.append_assoc]
      · by_cases hfront : front = []
        · rw [hfront, List.append_nil, ended_lf]
        · exact ended_append hended hfront _
      · rw [ofLines_cons _ _ hnil, rest_of_lt hlt, folded_of_lt hlt, List.append_nil, heq]
        simp only [List.map_append, List.map_cons, List.map_nil, rot13Char_lf, List.append_assoc]

/-- The simpler server has sent the image of the lines that have ended. -/
theorem serve_short [Libevent] {chunks : List Bytes} (h : Within ⟨[], []⟩ chunks) (hshort : ShortLines chunks.flatten) :
    (serve chunks).output = (ended chunks.flatten).map rot13Char := by
  have hserve : serve chunks = ofLines [] (chunks.flatten.splitOn LF) := by
    rw [serve, foldl_receive short_start h, foldl_deliver short_start]
    rfl
  obtain ⟨front, last, hmem, hlines, hended, heq⟩ := ofLines_short (List.splitOn_ne_nil LF chunks.flatten) hshort []
  have hno : LF ∉ last := by
    have hinput := (short_start.foldl chunks.flatten).no_lf
    rwa [foldl_deliver short_start, List.nil_append, heq] at hinput
  rw [List.intercalate_splitOn] at hlines
  rw [hserve, heq, hlines, ended_append_of_not_mem hno, hended]
  rfl

/-- When the lines are short and the buffer of the low-level server never overflows, the two servers send the same: what
the low-level server has sent is a prefix of what the simpler one adds to its output for the same bytes, however these
are read, and all of it once nothing is left to be written. -/
theorem servers_agree [Libevent] {s : Session} (hrun : Run FitsBuffer s) (hshort : ShortLines s.received)
    {chunks : List Bytes} (hwithin : Within ⟨[], []⟩ chunks) (hsame : chunks.flatten = s.received) :
    s.sent <+: (serve chunks).output ∧
      ∀ st, s.conn = .running st → st.nWritten = st.writeUpto → s.sent = (serve chunks).output := by
  have hserve := serve_short hwithin (hsame ▸ hshort)
  rw [hsame] at hserve
  rw [hserve]
  refine ⟨hrun.sent_prefix, fun st hst hall => hrun.sent_prefix.eq_of_length ?_⟩
  have hreach : s.sent.length + (st.writeUpto - st.nWritten) = (ended s.received).length := hrun.bounded.reaches st hst
  rw [List.length_map]
  omega

/-- A line of one character, which the simpler server reads in two parts. -/
theorem servers_agree_line : ∃ s : Session, s.received = [97, LF] ∧ s.sent = [110, LF] ∧
    s.sent <+: (@serve .reference [[97], [LF]]).output := by
  let _ := Libevent.reference
  have hbuffer : (List.replicate maxLine (0 : UInt8)).length = maxLine := List.length_replicate
  obtain ⟨q, hq, hall⟩ := (relays_start hbuffer).stored _ rfl
  have hroom : 0 + [97, LF].length ≤ maxLine := by decide
  have hfits : FitsBuffer (.start _ hbuffer) (.read [[97, LF]] .again) := by
    intro st hst
    obtain rfl := Conn.running.inj hst
    exact hroom
  obtain ⟨st, hrun, -⟩ := relay_line (.start hbuffer) hfits (fun _ _ => trivial) (by decide)
    (show [[97, LF]].flatten = [97] ++ [LF] from rfl) (hq.readChars hroom)
  obtain rfl : q = [] := hall
  have hwithin : Within ⟨[], []⟩ [[97], [LF]] := ⟨by decide, by decide, trivial⟩
  have hshort : ShortLines [97, LF] := by
    unfold ShortLines
    decide
  exact ⟨_, rfl, rfl, (servers_agree hrun hshort hwithin rfl).1⟩

end Simper

end LinuxSocket.Rot13
