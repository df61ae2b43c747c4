import LinuxSocket.Tbuf.Tbuf

/-! # The buffer is a queue of bytes

`contents` is the range between the two indices. Every operation keeps the indices in order and
acts on that range as the operation of a queue, in all three regimes of `append`.
-/
namespace LinuxSocket.Tbuf

structure Inv (b : Tbuf) : Prop where
  ridx_le : b.ridx ≤ b.widx
  widx_le : b.widx ≤ b.buf.length

def contents (b : Tbuf) : Bytes := (b.buf.drop b.ridx).take (b.widx - b.ridx)

section Operations
variable {b : Tbuf}

theorem inv_init : init.Inv := ⟨le_rfl, Nat.zero_le _⟩

theorem Inv.length_contents (h : b.Inv) : b.contents.length = b.readableBytes := by
  have := h.ridx_le
  have := h.widx_le
  rw [contents, readableBytes, List.length_take, List.length_drop]
  omega

/-- Sliding and growing make room and leave the queue as it is. -/
theorem Inv.makeRoom (h : b.Inv) (size : ℕ) :
    ∃ b', b.makeRoom size = some b' ∧ b'.Inv ∧ b'.contents = b.contents ∧ size ≤ b'.writeableBytes := by
  have hr := h.ridx_le
  have hw := h.widx_le
  unfold Tbuf.makeRoom
  by_cases hfit : b.writeableBytes < size
  · rw [if_pos hfit]
    by_cases hslide : size ≤ b.writeableBytes + b.prependableBytes
    · have hlen := h.length_contents
      have hto : 0 + b.contents.length ≤ b.buf.length := by
        rw [hlen, readableBytes]
        omega
      have hcopy := length_copyTo hto
      refine ⟨{ b with buf := copyTo b.buf 0 b.contents, ridx := 0, widx := 0 + b.readableBytes }, ?_, ?_, ?_, ?_⟩
      · rw [if_pos hslide, cells_of_le hw]
        change (do let buf ← copyInto b.buf 0 b.contents; _) = _
        rw [copyInto_of_le hto]
        rfl
      · refine ⟨Nat.zero_le _, ?_⟩
        change 0 + b.readableBytes ≤ (copyTo b.buf 0 b.contents).length
        rw [hcopy, readableBytes]
        omega
      · change ((copyTo b.buf 0 b.contents).drop 0).take (0 + b.readableBytes - 0) = b.contents
        simp [copyTo, hlen]
      · change size ≤ (copyTo b.buf 0 b.contents).length - (0 + b.readableBytes)
        rw [hcopy]
        unfold writeableBytes prependableBytes at hslide
        unfold readableBytes
        omega
    · have hgrow : b.buf.length ≤ b.widx + size := by
        unfold writeableBytes at hfit
        omega
      refine ⟨{ b with buf := resize b.buf (b.widx + size) }, by rw [if_neg hslide], ⟨hr, ?_⟩, ?_, ?_⟩
      · change b.widx ≤ (resize b.buf (b.widx + size)).length
        rw [length_resize hgrow]
        omega
      · exact range_resize hw hgrow
      · change size ≤ (resize b.buf (b.widx + size)).length - b.widx
        rw [length_resize hgrow]
        omega
  · rw [if_neg hfit]
    exact ⟨b, rfl, h, rfl, by omega⟩

/-- Bytes written behind `widx_` prolong the queue. -/
theorem Inv.written (h : b.Inv) {str : Bytes} (hfit : str.length ≤ b.writeableBytes) :
    copyInto b.buf b.widx str = some (copyTo b.buf b.widx str) ∧
      Inv { b with buf := copyTo b.buf b.widx str, widx := b.widx + str.length } ∧
      contents { b with buf := copyTo b.buf b.widx str, widx := b.widx + str.length } = b.contents ++ str := by
  have hr := h.ridx_le
  have hw := h.widx_le
  have hto : b.widx + str.length ≤ b.buf.length := by
    unfold writeableBytes at hfit
    omega
  refine ⟨copyInto_of_le hto, ⟨?_, ?_⟩, range_copyTo hr hto⟩
  · exact hr.trans (Nat.le_add_right _ _)
  · exact (length_copyTo hto).symm ▸ hto

theorem Inv.append (h : b.Inv) (str : Bytes) :
    ∃ b', b.append str = some b' ∧ b'.Inv ∧ b'.contents = b.contents ++ str := by
  obtain ⟨b₁, hroom, h₁, hc, hfit⟩ := h.makeRoom str.length
  obtain ⟨hcopy, h₂, hc₂⟩ := h₁.written hfit
  refine ⟨_, ?_, h₂, by rw [hc₂, hc]⟩
  rw [Tbuf.append, hroom]
  change (do let buf ← copyInto b₁.buf b₁.widx str; _) = _
  rw [hcopy]
  rfl

theorem Inv.retrieve (h : b.Inv) {len : ℕ} (hlen : len ≤ b.readableBytes) :
    (b.retrieve len).Inv ∧ (b.retrieve len).contents = b.contents.drop len := by
  have hr := h.ridx_le
  have hw := h.widx_le
  unfold Tbuf.retrieve
  unfold readableBytes at *
  by_cases hlt : len < b.widx - b.ridx
  · rw [if_pos hlt]
    refine ⟨⟨?_, hw⟩, ?_⟩
    · change b.ridx + len ≤ b.widx
      omega
    · change (b.buf.drop (b.ridx + len)).take (b.widx - (b.ridx + len)) = b.contents.drop len
      rw [contents, List.drop_take, List.drop_drop, Nat.sub_sub]
  · rw [if_neg hlt]
    refine ⟨⟨le_rfl, Nat.zero_le _⟩, ?_⟩
    have : b.contents.length ≤ len := by
      rw [h.length_contents, readableBytes]
      omega
    rw [List.drop_eq_nil_of_le this]
    rfl

theorem Inv.peekInt32 (h : b.Inv) (host : Endian) (hn : 4 ≤ b.readableBytes) :
    b.peekInt32 host = some (toInt32 (bigEndian (b.contents.take 4))) := by
  have hr := h.ridx_le
  have hw := h.widx_le
  unfold readableBytes at hn
  have hcells : cells b.buf b.ridx (b.ridx + 4) = some (b.contents.take 4) := by
    rw [cells_of_le (by omega), contents, List.take_take]
    congr 2
    omega
  have hlen : (b.contents.take 4).length = 4 := by
    rw [List.length_take, h.length_contents, readableBytes]
    omega
  rw [Tbuf.peekInt32, hcells]
  change some (toInt32 (host.ntohl (host.load _))) = _
  rw [ntohl_load host hlen]

theorem Inv.readInt32 (h : b.Inv) (host : Endian) (hn : 4 ≤ b.readableBytes) :
    ∃ b', b.readInt32 host = some (toInt32 (bigEndian (b.contents.take 4)), b') ∧ b'.Inv ∧
      b'.contents = b.contents.drop 4 := by
  obtain ⟨h', hc⟩ := h.retrieve hn
  refine ⟨_, ?_, h', hc⟩
  rw [Tbuf.readInt32, h.peekInt32 host hn]
  rfl

/-- Whatever part of the read lands in `extrabuf`, all its bytes are queued in order. -/
theorem Inv.readfd (h : b.Inv) (bytes : Bytes) :
    ∃ b', b.readfd (some bytes) = some ((bytes.length : ℤ), b') ∧ b'.Inv ∧ b'.contents = b.contents ++ bytes := by
  have hfit : (bytes.take b.writeableBytes).length ≤ b.writeableBytes := List.length_take_le _ _
  obtain ⟨hcopy, h₁, hc₁⟩ := h.written hfit
  unfold Tbuf.readfd
  dsimp only
  rw [hcopy]
  by_cases hn : bytes.length ≤ b.writeableBytes
  · rw [List.take_of_length_le hn] at h₁ hc₁ ⊢
    exact ⟨_, if_pos hn, h₁, hc₁⟩
  · have hw := h.widx_le
    have hfull : (bytes.take b.writeableBytes).length = b.writeableBytes := by
      rw [List.length_take]
      omega
    have hend : (copyTo b.buf b.widx (bytes.take b.writeableBytes)).length = b.widx + b.writeableBytes := by
      rw [length_copyTo (by rw [hfull, writeableBytes]; omega), writeableBytes]
      omega
    rw [hfull, ← hend] at h₁ hc₁
    obtain ⟨b₂, happ, h₂, hc₂⟩ := h₁.append (bytes.drop b.writeableBytes)
    refine ⟨b₂, ?_, h₂, ?_⟩
    · have hextra : (bytes.drop b.writeableBytes).take (bytes.length - b.writeableBytes) =
          bytes.drop b.writeableBytes := List.take_of_length_le (by rw [List.length_drop])
      change (if bytes.length ≤ b.writeableBytes then _ else _) = _
      rw [if_neg hn, hextra]
      change (do let b' ← Tbuf.append _ _; some ((bytes.length : ℤ), b')) = _
      rw [happ]
      rfl
    · rw [hc₂, hc₁, List.append_assoc, List.take_append_drop]

end Operations

section Runs

inductive Op
  | append (str : Bytes)
  | retrieve (len : ℕ)
  | readInt32
  | readfd (bytes : Bytes)

/-- The callers' part, and the part of `readv`: it delivers no more than it is offered. -/
def Op.Allowed (b : Tbuf) : Op → Prop
  | .append _ => True
  | .retrieve len => len ≤ b.readableBytes
  | .readInt32 => 4 ≤ b.readableBytes
  | .readfd bytes => bytes.length ≤ b.offered

def Op.delivers : Op → Bytes
  | .append str => str
  | .readfd bytes => bytes
  | _ => []

def Op.retrieves : Op → ℕ
  | .retrieve len => len
  | .readInt32 => 4
  | _ => 0

def exec (host : Endian) (b : Tbuf) : Op → Option Tbuf
  | .append str => b.append str
  | .retrieve len => some (b.retrieve len)
  | .readInt32 => (b.readInt32 host).map Prod.snd
  | .readfd bytes => (b.readfd (some bytes)).map Prod.snd

/-- The buffers that calls lead to from the initial one, with all bytes delivered on the way and the
number of bytes retrieved. -/
inductive Run (host : Endian) : Tbuf → Bytes → ℕ → Prop
  | init : Run host init [] 0
  | call {b b' delivered retrieved} (op : Op) : Run host b delivered retrieved → op.Allowed b →
      b.exec host op = some b' → Run host b' (delivered ++ op.delivers) (retrieved + op.retrieves)

variable {host : Endian} {b : Tbuf}

variable (host) in
/-- An allowed call copies within the vector and acts on the queue. -/
theorem Inv.exec (h : b.Inv) {op : Op} (ha : op.Allowed b) : ∃ b', b.exec host op = some b' ∧ b'.Inv ∧
    op.retrieves ≤ b.contents.length ∧ b'.contents = b.contents.drop op.retrieves ++ op.delivers := by
  cases op with
  | append str =>
    obtain ⟨b', he, h', hc⟩ := h.append str
    exact ⟨b', he, h', Nat.zero_le _, hc⟩
  | retrieve len =>
    obtain ⟨h', hc⟩ := h.retrieve ha
    exact ⟨_, rfl, h', h.length_contents.symm ▸ ha, hc.trans (List.append_nil _).symm⟩
  | readInt32 =>
    obtain ⟨b', he, h', hc⟩ := h.readInt32 host ha
    exact ⟨b', by rw [Tbuf.exec, he]; rfl, h', h.length_contents.symm ▸ ha, hc.trans (List.append_nil _).symm⟩
  | readfd bytes =>
    obtain ⟨b', he, h', hc⟩ := h.readfd bytes
    exact ⟨b', by rw [Tbuf.exec, he]; rfl, h', Nat.zero_le _, hc⟩

/-- The invariant of a run: the range holds the bytes delivered and not yet retrieved. -/
theorem Run.inv {delivered : Bytes} {retrieved : ℕ} (h : Run host b delivered retrieved) :
    b.Inv ∧ retrieved ≤ delivered.length ∧ b.contents = delivered.drop retrieved := by
  induction h with
  | init => exact ⟨inv_init, le_rfl, rfl⟩
  | @call b b' delivered retrieved op _ ha he ih =>
    obtain ⟨hb, hle, hc⟩ := ih
    obtain ⟨b'', he', hb', hle', hc'⟩ := hb.exec host ha
    obtain rfl := Option.some.inj (he.symm.trans he')
    rw [hc, List.length_drop] at hle'
    refine ⟨hb', by rw [List.length_append]; omega, ?_⟩
    rw [hc', hc, List.drop_drop, List.drop_append_of_le_length (by omega)]

/-- What holds of the buffer in every state of a run, for the queue `q` of bytes not yet retrieved. -/
structure IsQueue (host : Endian) (b : Tbuf) (q : Bytes) : Prop where
  ridx_le : b.ridx ≤ b.widx
  widx_le : b.widx ≤ b.buf.length
  contents_eq : b.contents = q
  /-- every byte of every allowed call is copied within the vector -/
  within : ∀ op : Op, op.Allowed b → (b.exec host op).isSome
  readInt32_value : 4 ≤ b.readableBytes → ∃ b',
    b.readInt32 host = some (toInt32 (bigEndian (q.take 4)), b') ∧ b'.contents = q.drop 4

/-- In every run the buffer is a queue of the bytes delivered and not yet retrieved. -/
theorem run_isQueue {delivered : Bytes} {retrieved : ℕ} (h : Run host b delivered retrieved) :
    IsQueue host b (delivered.drop retrieved) := by
  obtain ⟨hb, -, hc⟩ := h.inv
  refine ⟨hb.ridx_le, hb.widx_le, hc, ?_, ?_⟩
  · intro op ha
    obtain ⟨b', he, -⟩ := hb.exec host ha
    rw [he]
    rfl
  · intro hn
    obtain ⟨b', he, -, hc'⟩ := hb.readInt32 host hn
    exact ⟨b', hc ▸ he, hc ▸ hc'⟩

theorem run_isQueue_append_retrieve : ∃ b, IsQueue .little b [2, 3] := by
  obtain ⟨b₁, he, h₁, hc⟩ := inv_init.append [1, 2, 3]
  have hlen : 1 ≤ b₁.readableBytes := by
    rw [← h₁.length_contents, hc]
    decide
  exact ⟨_, run_isQueue (.call (.retrieve 1) (.call (.append [1, 2, 3]) .init trivial he) hlen rfl)⟩

end Runs

end LinuxSocket.Tbuf
