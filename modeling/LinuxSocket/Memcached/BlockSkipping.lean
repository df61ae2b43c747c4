import LinuxSocket.Memcached.Iterations
import LinuxSocket.Memcached.Pipeline

/-! # The data block behind a `set` line

The block of an accepted `set` is consumed as a value, in whatever pieces it arrives,
and the next command is the one behind it. A `set` refused for its length leaves its
block in the stream, where the next iterations read commands from it.
-/
namespace LinuxSocket.Memcached

section
variable [Muduo] [Freed] (hashRange : Bytes → ℕ)

def Head.line (h : Head) : Option Bytes :=
  match h.world.session.receiveState with
  | .kReadCommandLine => (Muduo.findCRLF h.buf h.world.session.searchStart).map fun crlf => h.buf.take crlf
  | .kReadValue => none

/-- The commands that are parsed, with the streams in front of which they stand. -/
def parsed (heads : List Head) : List (Bytes × Bytes) :=
  heads.filterMap fun h => h.line.map fun line => (line, h.stream)

/-- No command is parsed from bytes in front of `rest`, and the first one is parsed from its beginning. -/
structure BlockSkipped (rest : Bytes) (commands : List (Bytes × Bytes)) : Prop where
  never : ∀ c ∈ commands, c.2 <:+ rest
  first : ∀ c, commands.head? = some c → c.2 = rest

/-- In every run the first command that is parsed is the line, and the next one is behind the block. -/
def PayloadSkipped (line rest : Bytes) (h : Head) : Prop :=
  ∀ log k, Run hashRange h log k →
    ∃ commands, parsed (log ++ [k]) = (line, h.stream) :: commands ∧ BlockSkipped rest commands

/-- The heads at which a block is to come behind a `set` line, and those at which it is awaited. -/
structure SetAhead (line data rest : Bytes) (h : Head) : Prop where
  state : h.world.session.receiveState = .kReadCommandLine
  search : h.world.session.searchStart ≤ line.length
  buf : ∃ b, h.buf = line ++ CRLF ++ b ∧ b ++ h.coming = data ++ CRLF ++ rest

structure BlockAhead (data rest : Bytes) (h : Head) : Prop where
  state : h.world.session.receiveState = .kReadValue
  pending : ValuePending h.world.session
  len : h.world.session.curValueLen = data.length
  stream : h.stream = data ++ CRLF ++ rest

variable {hashRange} {h k : Head} {log : List Head} {w : World} {b data rest : Bytes}

theorem Head.next_suffix (hnext : h.next hashRange = .inl (w, b)) : b <:+ h.buf := by
  cases onMessageStep_next hnext with
  | command _ _ _ _ => exact List.drop_suffix _ _
  | value _ _ _ => exact List.drop_suffix _ _

theorem Head.next_return (hnext : h.next hashRange = .inr (.ok (w, b))) :
    b = h.buf ∧ w.session.receiveState = h.world.session.receiveState := by
  cases onMessageStep_exit hnext with
  | noLine _ _ => exact ⟨rfl, rfl⟩
  | noValue _ _ => exact ⟨rfl, rfl⟩

theorem Run.stream_suffix (hr : Run hashRange h log k) : ∀ l ∈ log ++ [k], l.stream <:+ h.stream := by
  have hrun := hr.invariant (I := fun l => l.stream <:+ h.stream) ?_ ?_ (fun _ hl => hl) (List.suffix_refl _)
  · intro l hl
    rcases List.mem_append.mp hl with hl | hl
    · exact hrun.2 l hl
    · exact List.mem_singleton.mp hl ▸ hrun.1
  · intro l w b hl hnext
    obtain ⟨front, hfront⟩ := Head.next_suffix hnext
    refine List.IsSuffix.trans ⟨front, ?_⟩ hl
    simp only [Head.stream, ← hfront, List.append_assoc]
  · intro l w b chunk coming hl hnext hc
    obtain ⟨rfl, -⟩ := Head.next_return hnext
    simpa only [Head.stream, hc, List.append_assoc] using hl

omit [Muduo] [Freed] in
theorem BlockSkipped.nil (rest : Bytes) : BlockSkipped rest [] := by
  constructor <;> simp

omit [Muduo] [Freed] in
theorem not_blockSkipped (line data rest : Bytes) (commands : List (Bytes × Bytes)) :
    ¬BlockSkipped rest ((line, data ++ CRLF ++ rest) :: commands) := by
  intro h
  have hlen := congrArg List.length (h.first _ rfl)
  simp [CRLF] at hlen
  omega

omit [Freed] in
theorem mem_parsed {heads : List Head} {c : Bytes × Bytes} (hc : c ∈ parsed heads) : ∃ l ∈ heads, l.stream = c.2 := by
  obtain ⟨l, hl, hc⟩ := List.mem_filterMap.mp hc
  obtain ⟨_, _, rfl⟩ := Option.map_eq_some_iff.mp hc
  exact ⟨l, hl, rfl⟩

theorem Run.parsed_suffix (hr : Run hashRange h log k) : ∀ c ∈ parsed (log ++ [k]), c.2 <:+ h.stream := by
  intro c hc
  obtain ⟨l, hl, hs⟩ := mem_parsed hc
  exact hs ▸ hr.stream_suffix l hl

omit [Freed] in
theorem parsed_cons_some {line : Bytes} (hl : h.line = some line) (heads : List Head) :
    parsed (h :: heads) = (line, h.stream) :: parsed heads := by
  unfold parsed
  rw [List.filterMap_cons, hl]
  rfl

omit [Freed] in
theorem parsed_cons_none (hl : h.line = none) (heads : List Head) : parsed (h :: heads) = parsed heads := by
  unfold parsed
  rw [List.filterMap_cons, hl]
  rfl

omit [Freed] in
theorem line_of_findCRLF {crlf : ℕ} (hs : h.world.session.receiveState = .kReadCommandLine)
    (hf : Muduo.findCRLF h.buf h.world.session.searchStart = some crlf) : h.line = some (h.buf.take crlf) := by
  simp only [Head.line, hs, hf, Option.map_some]

/-- The first command of a session that waits for one is parsed from its unread bytes. -/
theorem Run.parsed_first (hr : Run hashRange h log k) (hs : h.world.session.receiveState = .kReadCommandLine)
    {c : Bytes × Bytes} (hfirst : (parsed (log ++ [k])).head? = some c) : c.2 = h.stream := by
  induction hr with
  | nil h =>
    obtain ⟨l, hl, hc⟩ := mem_parsed (List.mem_of_head? hfirst)
    rw [← hc, List.mem_singleton.mp hl]
  | @iterate h w b log k hnext _ _ =>
    cases onMessageStep_next hnext with
    | command hs hf _ _ =>
      rw [List.cons_append, parsed_cons_some (line_of_findCRLF hs hf)] at hfirst
      rw [← Option.some.inj hfirst]
    | value hs' _ _ =>
      rw [hs] at hs'
      cases hs'
  | receive hnext hc _ ih =>
    obtain ⟨rfl, hstate⟩ := Head.next_return hnext
    simpa only [Head.stream, hc, List.append_assoc] using ih (hstate.trans hs) hfirst
  | share server _ ih => exact ih hs hfirst

/-- While the block is awaited no command is parsed, and behind it the session waits for one. -/
theorem Run.after_block (hr : Run hashRange h log k) (hh : BlockAhead data rest h) :
    BlockSkipped rest (parsed (log ++ [k])) := by
  have hline : ∀ {h : Head}, BlockAhead data rest h → h.line = none := by
    intro h hh
    simp only [Head.line, hh.state]
  induction hr with
  | nil h =>
    rw [List.nil_append, parsed_cons_none (hline hh)]
    exact .nil rest
  | @iterate h w b log k hnext hr _ =>
    rw [List.cons_append, parsed_cons_none (hline hh)]
    cases onMessageStep_next hnext with
    | command hs _ _ _ =>
      rw [hh.state] at hs
      cases hs
    | value hs hle _ =>
      have hend := hh.pending.valueEnd_eq
      have hlen := hh.len
      have hrest : h.buf.drop (h.world.session.curValueLen.toNat + 2) ++ h.coming = rest := by
        rw [← List.drop_append_of_le_length (by omega), hlen]
        change h.stream.drop _ = rest
        rw [hh.stream]
        exact List.drop_left' (by simp [CRLF])
      refine ⟨fun c hc => ?_, fun c hc => ?_⟩
      · have hsuffix := hr.parsed_suffix c hc
        rwa [Head.stream, hrest] at hsuffix
      · rw [hr.parsed_first (by rw [World.valueDone_session]) hc]
        exact hrest
  | @receive h w b chunk coming log k hnext hc _ ih =>
    apply ih
    have hstream := hh.stream
    cases onMessageStep_exit hnext with
    | noLine hs _ =>
      rw [hh.state] at hs
      cases hs
    | noValue _ _ =>
      refine ⟨hh.state, hh.pending, hh.len, ?_⟩
      simpa only [Head.stream, hc, List.append_assoc] using hstream
  | share server _ ih => exact ih ⟨hh.state, hh.pending, hh.len, hh.stream⟩

omit [Freed] in
theorem exists_findCRLF (data rest : Bytes) : ∃ crlf, Muduo.findCRLF (data ++ CRLF ++ rest) 0 = some crlf := by
  have hat : CrlfAt (data ++ CRLF ++ rest) data.length := by
    simp [CrlfAt, CRLF]
  obtain ⟨crlf, hcrlf⟩ := exists_firstCrlf ⟨_, Nat.zero_le _, hat⟩
  exact ⟨crlf, Muduo.findCRLF_eq_some.mpr hcrlf⟩

section SetLine
variable {line : Bytes}

theorem SetAhead.next {good : Bool} {w' : World} (hh : SetAhead line data rest h) (hline : NoCrlf line)
    (hlt : line.length < 2 ^ 31) (hd : doRequestCommand hashRange line h.world = .ok (good, w')) :
    h.line = some line ∧ ∃ b, h.next hashRange = .inl (w'.commandDone good, b) ∧
      b ++ h.coming = data ++ CRLF ++ rest := by
  obtain ⟨b, hbuf, hb⟩ := hh.buf
  have hf : Muduo.findCRLF h.buf h.world.session.searchStart = some line.length := by
    have := findCRLF_line_from hline hh.search b
    rw [hbuf]
    simpa [CRLF] using this
  refine ⟨?_, b, ?_, hb⟩
  · rw [line_of_findCRLF hh.state hf, hbuf, List.append_assoc, List.take_left]
  · rw [Head.next, hbuf]
    exact onMessageStep_searched hh.state hh.search hline hlt b hd

/-- The runs of a session whose unread bytes begin with an accepted `set` line. -/
theorem Run.after_set {key : Bytes} {flag exptime : ℕ} (hk : IsKey key) (hf : flag < 2 ^ 31)
    (he : exptime < 2 ^ 31) (hl : data.length < 1048576) (hr : Run hashRange h log k)
    (hh : SetAhead (setLine key flag exptime data.length) data rest h) : ∃ commands,
      parsed (log ++ [k]) = (setLine key flag exptime data.length, h.stream) :: commands ∧
        BlockSkipped rest commands := by
  have hline := noCrlf_setLine hk flag exptime data.length
  have hlt := length_setLine hk hf he (by omega : data.length < 2 ^ 31)
  have hnext : ∀ {h : Head}, SetAhead (setLine key flag exptime data.length) data rest h → _ :=
    fun hh => hh.next hline hlt (doRequestCommand_set hashRange hk hf he hl _)
  induction hr with
  | nil h => exact ⟨[], parsed_cons_some (hnext hh).1 [], .nil rest⟩
  | @iterate h w b log k hw hr _ =>
    obtain ⟨hc, b', hb', hstream⟩ := hnext hh
    rw [hw] at hb'
    cases hb'
    refine ⟨_, parsed_cons_some hc _, ?_⟩
    apply hr.after_block
    rw [readSet_eq]
    exact ⟨rfl, ⟨⟨⟨hk.pos, hk.le⟩, Int.natCast_nonneg _, Int.natCast_nonneg _, Int.natCast_nonneg _,
      by dsimp only; omega⟩, rfl, rfl⟩, rfl, hstream⟩
  | receive hw _ _ _ =>
    obtain ⟨_, b', hb', _⟩ := hnext hh
    rw [hw] at hb'
    cases hb'
  | share server _ ih => exact ih ⟨hh.state, hh.search, hh.buf⟩

variable (hashRange w data rest) in
/-- Behind a refused `set` line the next command is parsed from the beginning of the block. -/
theorem not_skipped_refused {key : Bytes} {flag exptime : ℕ} (hk : IsKey key) (hf : flag < 2 ^ 31)
    (he : exptime < 2 ^ 31) (hl : data.length < 2 ^ 31) (hlarge : 1048576 ≤ data.length)
    (hs : w.session.receiveState = .kReadCommandLine)
    (hp : w.session.searchStart ≤ (setLine key flag exptime data.length).length) :
    ¬PayloadSkipped hashRange (setLine key flag exptime data.length) rest
      ⟨w, setLine key flag exptime data.length ++ CRLF ++ (data ++ CRLF ++ rest), []⟩ := by
  intro hskip
  have hh : SetAhead (setLine key flag exptime data.length) data rest
      ⟨w, setLine key flag exptime data.length ++ CRLF ++ (data ++ CRLF ++ rest), []⟩ :=
    ⟨hs, hp, _, rfl, List.append_nil _⟩
  obtain ⟨hc, b, hb, hstream⟩ := hh.next (noCrlf_setLine hk flag exptime data.length)
    (length_setLine hk hf he hl) (doRequestCommand_set_large hashRange hk hf he hl hlarge w)
  rw [List.append_nil] at hstream
  subst hstream
  obtain ⟨crlf, hcrlf⟩ := exists_findCRLF data rest
  obtain ⟨commands, hparsed, hblock⟩ := hskip _ _ (.iterate hb (.nil _))
  rw [List.cons_append, parsed_cons_some hc] at hparsed
  obtain ⟨-, rfl⟩ := List.cons.inj hparsed
  rw [List.nil_append, parsed_cons_some (line_of_findCRLF hs hcrlf), Head.stream, List.append_nil] at hblock
  exact not_blockSkipped _ data rest _ hblock

/-- A search that begins behind the CR of the line passes something else to `doRequestCommand`, or nothing. -/
theorem searchStart_of_skipped (hs : h.world.session.receiveState = .kReadCommandLine)
    (hskip : PayloadSkipped hashRange line rest h) : h.world.session.searchStart ≤ line.length := by
  obtain ⟨commands, hparsed, -⟩ := hskip [] h (.nil h)
  have hline : h.line = some line := by
    cases hl : h.line with
    | none =>
      rw [List.nil_append, parsed_cons_none hl] at hparsed
      cases hparsed
    | some l =>
      rw [List.nil_append, parsed_cons_some hl] at hparsed
      rw [(Prod.mk.inj (List.cons.inj hparsed).1).1]
  simp only [Head.line, hs, Option.map_eq_some_iff] at hline
  obtain ⟨crlf, hf, htake⟩ := hline
  have hcrlf := Muduo.findCRLF_eq_some.mp hf
  have hlen := congrArg List.length htake
  rw [List.length_take, Nat.min_eq_left (Nat.le_of_lt (Nat.lt_of_succ_lt (findCRLF_lt hf)))] at hlen
  exact hlen ▸ hcrlf.le

/-- Over every arrival of the bytes behind a `set` line, the line is the first command parsed, no byte of its data
block is parsed as a command and the next command is the one behind the block, exactly when the length is below the
limit of the server and the search for the end of the line does not begin behind its CR. -/
theorem block_skipped_iff {key : Bytes} {flag exptime len : ℕ} (hk : IsKey key) (hf : flag < 2 ^ 31)
    (he : exptime < 2 ^ 31) (hl : len < 2 ^ 31) (hs : w.session.receiveState = .kReadCommandLine)
    (hd : data.length = len) (rest : Bytes) : (∀ b coming, b ++ coming = data ++ CRLF ++ rest →
      PayloadSkipped hashRange (setLine key flag exptime len) rest
        ⟨w, setLine key flag exptime len ++ CRLF ++ b, coming⟩) ↔
    len < 1048576 ∧ w.session.searchStart ≤ (setLine key flag exptime len).length := by
  subst hd
  constructor
  · intro h
    have hskip := h _ _ (List.append_nil _)
    have hp : w.session.searchStart ≤ (setLine key flag exptime data.length).length :=
      searchStart_of_skipped hs hskip
    refine ⟨?_, hp⟩
    by_contra hlarge
    exact not_skipped_refused hashRange w data rest hk hf he hl (Nat.le_of_not_lt hlarge) hs hp hskip
  · rintro ⟨hsmall, hp⟩ b coming hb log k hr
    exact hr.after_set hk hf he hsmall ⟨hs, hp, b, rfl, hb⟩

end SetLine

end

/-- The block of `set k 0 0 1` on a fresh session, cut within its line end, and a `get` behind it. -/
theorem block_skipped_one_byte : @PayloadSkipped Muduo.reference Freed.untouched (fun _ => 0)
    (setLine (ascii "k") 0 0 1) (ascii "get k\r\n")
    ⟨World.fresh .init, setLine (ascii "k") 0 0 1 ++ CRLF ++ ascii "x\r", ascii "\nget k\r\n"⟩ := by
  have hkey : IsKey (ascii "k") := ⟨by decide, by decide, by decide, by decide, by decide⟩
  have hlen : (ascii "x").length = 1 := rfl
  let M := Muduo.reference
  let F := Freed.untouched
  exact (block_skipped_iff hkey (by norm_num) (by norm_num) (by norm_num) rfl hlen _).mpr
    ⟨by norm_num, Nat.zero_le _⟩ (ascii "x\r") _ (by decide)

/-- A `set` of 1048576 bytes on a fresh session: its value is parsed as a command. -/
theorem block_parsed : ¬∀ (_ : Muduo) (_ : Freed) (hashRange : Bytes → ℕ) (w : World) (key : Bytes)
    (flag exptime len : ℕ) (data rest b coming : Bytes), w.session.receiveState = .kReadCommandLine → IsKey key →
      flag < 2 ^ 31 → exptime < 2 ^ 31 → len < 2 ^ 31 → data.length = len → b ++ coming = data ++ CRLF ++ rest →
      PayloadSkipped hashRange (setLine key flag exptime len) rest
        ⟨w, setLine key flag exptime len ++ CRLF ++ b, coming⟩ := by
  intro h
  let M := Muduo.reference
  let F := Freed.untouched
  have hkey : IsKey (ascii "k") := ⟨by decide, by decide, by decide, by decide, by decide⟩
  have hlen : (List.replicate 1048576 (120 : UInt8)).length = 1048576 := List.length_replicate
  have hskip := h M F (fun _ => 0) (World.fresh .init) _ 0 0 _ (List.replicate 1048576 120) [] _ [] rfl hkey
    (by norm_num) (by norm_num) (by omega) rfl (List.append_nil _)
  exact not_skipped_refused _ _ _ _ hkey (by norm_num) (by norm_num) (by omega) (by omega) rfl (Nat.zero_le _) hskip

end LinuxSocket.Memcached
