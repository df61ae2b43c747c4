import LinuxSocket.Http.ServerCgi
import Mathlib.Data.List.Induction

/-! # When the parent and the CGI program wait for each other

The parent reads nothing before it has written the whole body. It gets there unless the program fills the
output pipe while more of the body is left than the input pipe holds.
-/
namespace LinuxSocket.Http
open Duplex

variable {body : Bytes} {actions pre rest : List CgiAction} {m n k : ℕ}

section Actions

@[simp] theorem output_append (pre rest : List CgiAction) : output (pre ++ rest) = output pre ++ output rest := by
  induction pre with
  | nil => rfl
  | cons a pre ih => cases a <;> simp [output, ih]

@[simp] theorem inputLength_append (pre rest : List CgiAction) :
    inputLength (pre ++ rest) = inputLength pre + inputLength rest := by
  induction pre with
  | nil => simp [inputLength]
  | cons a pre ih =>
    cases a
    · simp only [List.cons_append, inputLength, ih]
      omega
    · simp only [List.cons_append, inputLength, ih]

/-- The leading writes are the first part of the output. -/
theorem prefix_leadingWrites (actions : List CgiAction) : leadingWrites actions <+: output actions := by
  induction actions with
  | nil => exact List.nil_prefix
  | cons a actions ih =>
    cases a with
    | read => exact List.nil_prefix
    | write c => exact List.cons_prefix_cons.mpr ⟨rfl, ih⟩

theorem take_leadingWrites (hk : k ≤ (leadingWrites actions).length) :
    (output (actions.take k)).length = k ∧ inputLength (actions.take k) = 0 := by
  induction actions generalizing k with
  | nil =>
    obtain rfl : k = 0 := Nat.le_zero.mp hk
    exact ⟨rfl, rfl⟩
  | cons a actions ih =>
    cases k with
    | zero => exact ⟨rfl, rfl⟩
    | succ k =>
      cases a with
      | read => exact absurd hk (Nat.not_succ_le_zero k)
      | write c =>
        obtain ⟨hout, hin⟩ := ih (Nat.le_of_succ_le_succ hk)
        exact ⟨congrArg (· + 1) hout, hin⟩

theorem take_leadingReads (hk : k ≤ leadingReads actions) :
    output (actions.take k) = [] ∧ inputLength (actions.take k) = k := by
  induction actions generalizing k with
  | nil =>
    obtain rfl : k = 0 := Nat.le_zero.mp hk
    exact ⟨rfl, rfl⟩
  | cons a actions ih =>
    cases k with
    | zero => exact ⟨rfl, rfl⟩
    | succ k =>
      cases a with
      | write c => exact absurd hk (Nat.not_succ_le_zero k)
      | read =>
        obtain ⟨hout, hin⟩ := ih (Nat.le_of_succ_le_succ hk)
        exact ⟨hout, congrArg (· + 1) hin⟩

/-- The write that follows the first `n` ones. -/
theorem exists_write (hn : n < (output actions).length) :
    ∃ pre c rest, actions = pre ++ .write c :: rest ∧ (output pre).length = n := by
  induction actions generalizing n with
  | nil => exact absurd hn (Nat.not_lt_zero n)
  | cons a actions ih =>
    cases a with
    | read =>
      obtain ⟨pre, c, rest, rfl, hpre⟩ := ih hn
      exact ⟨.read :: pre, c, rest, rfl, hpre⟩
    | write b =>
      cases n with
      | zero => exact ⟨[], b, actions, rfl, rfl⟩
      | succ n =>
        obtain ⟨pre, c, rest, rfl, hpre⟩ := ih (Nat.lt_of_succ_lt_succ hn)
        exact ⟨.write b :: pre, c, rest, rfl, congrArg (· + 1) hpre⟩

end Actions

section Streams

/-- The parent after `a` bytes written and `b` bytes read. -/
inductive ParentAt (body out : Bytes) : CgiParent → ℕ → ℕ → Prop
  | writing {a b} (ha : a < body.length) (hb : b = 0) : ParentAt body out (.writing (body.drop a)) a b
  | reading {a b} (ha : a = body.length) : ParentAt body out (.reading (out.take b)) a b
  | closed {a b} (ha : a = body.length) (hb : b = out.length) : ParentAt body out (.closed out) a b

/-- The child after `d` bytes written and `c` bytes read. -/
def ChildAt (actions rest : List CgiAction) (d c : ℕ) : Prop :=
  ∃ pre, actions = pre ++ rest ∧ d = (output pre).length ∧ c = inputLength pre

theorem parentAt_start {out : Bytes} {a : ℕ} (ha : a ≤ body.length) :
    ParentAt body out (.start (body.drop a)) a 0 := by
  unfold CgiParent.start
  split
  · next hnil =>
    rw [List.drop_eq_nil_iff] at hnil
    exact .reading (b := 0) (Nat.le_antisymm ha hnil)
  · next hne =>
    rw [List.drop_eq_nil_iff] at hne
    exact .writing (Nat.lt_of_not_le hne) rfl

/-- The parent has read nothing while it writes. -/
theorem ParentAt.of_write {out xs : Bytes} {p : CgiParent} {a b : ℕ} (h : ParentAt body out p a b)
    (hcall : cgiParent.call p = .write xs) : a < body.length ∧ b = 0 := by
  cases h with
  | writing ha hb => exact ⟨ha, hb⟩
  | reading => cases hcall
  | closed => cases hcall

/-- The parent has written all of the body when it reads. -/
theorem ParentAt.of_read {out : Bytes} {p : CgiParent} {a b i : ℕ} (h : ParentAt body out p a b)
    (hcall : cgiParent.call p = .read i) : a = body.length := by
  cases h with
  | writing => cases hcall
  | reading ha => exact ha
  | closed => cases hcall

/-- The parent writes the body and reads the output. -/
theorem parent_streams (body out : Bytes) : Streams cgiParent body out (ParentAt body out) where
  proper h := by
    cases h with
    | writing ha _ => exact drop_ne_nil ha
    | reading => exact (by decide : 0 < 8192)
    | closed => trivial
  write {_ a b _} h hcall := by
    cases h with
    | writing ha hb =>
      obtain rfl := Pending.write.inj hcall
      refine ⟨List.prefix_rfl, fun k _ hk => ?_⟩
      rw [List.length_drop] at hk
      change ParentAt body out (.start ((body.drop a).drop k)) (a + k) b
      rw [List.drop_drop, hb]
      exact parentAt_start (by omega)
    | reading => cases hcall
    | closed => cases hcall
  read {_ a b _} h hcall := by
    cases h with
    | writing => cases hcall
    | reading ha =>
      intro k hpos _ hle
      have hne : (out.drop b).take k ≠ [] := List.ne_nil_of_length_pos (by rwa [length_take_drop hle])
      change ParentAt body out
        (if (out.drop b).take k = [] then _ else .reading (out.take b ++ (out.drop b).take k)) a _
      rw [if_neg hne, ← List.take_add]
      exact .reading ha
    | closed => cases hcall
  eof {_ a _} h hcall := by
    cases h with
    | writing => cases hcall
    | reading ha =>
      change ParentAt body out (.closed (out.take out.length)) a out.length
      rw [List.take_length]
      exact .closed ha rfl
    | closed => cases hcall
  interrupt h _ := h
  exit h hcall := by
    cases h with
    | writing => cases hcall
    | reading => cases hcall
    | closed ha hb => exact ⟨ha, hb⟩

theorem leadingWrites_of_call {xs : Bytes} (h : cgiChild.call rest = .write xs) :
    xs = leadingWrites rest ∧ ∃ c rest', rest = .write c :: rest' := by
  cases rest with
  | nil => cases h
  | cons a rest =>
    cases a with
    | read => cases h
    | write c => exact ⟨(Pending.write.inj h).symm, c, rest, rfl⟩

theorem leadingReads_of_call {count : ℕ} (h : cgiChild.call rest = .read count) :
    count = leadingReads rest ∧ 0 < inputLength rest := by
  cases rest with
  | nil => cases h
  | cons a rest =>
    cases a with
    | read => exact ⟨(Pending.read.inj h).symm, Nat.succ_pos _⟩
    | write c => cases h

theorem ChildAt.writes {d c : ℕ} (h : ChildAt actions rest d c) (hk : k ≤ (leadingWrites rest).length) :
    ChildAt actions (rest.drop k) (d + k) c := by
  obtain ⟨pre, rfl, rfl, rfl⟩ := h
  obtain ⟨hout, hin⟩ := take_leadingWrites hk
  refine ⟨pre ++ rest.take k, ?_, ?_, ?_⟩
  · rw [List.append_assoc, List.take_append_drop]
  · rw [output_append, List.length_append, hout]
  · rw [inputLength_append, hin, Nat.add_zero]

theorem ChildAt.reads {d c : ℕ} (h : ChildAt actions rest d c) (hk : k ≤ leadingReads rest) :
    ChildAt actions (rest.drop k) d (c + k) := by
  obtain ⟨pre, rfl, rfl, rfl⟩ := h
  obtain ⟨hout, hin⟩ := take_leadingReads hk
  refine ⟨pre ++ rest.take k, ?_, ?_, ?_⟩
  · rw [List.append_assoc, List.take_append_drop]
  · rw [output_append, hout, List.append_nil]
  · rw [inputLength_append, hin]

/-- The child writes its output and reads the body. -/
theorem child_streams (hreads : inputLength actions = body.length) :
    Streams cgiChild (output actions) body (ChildAt actions) where
  proper {rest _ _} _ := by
    cases rest with
    | nil => trivial
    | cons a rest =>
      cases a with
      | read => exact Nat.succ_pos _
      | write c => exact List.cons_ne_nil _ _
  write {rest d c xs} h hcall := by
    obtain ⟨rfl, -⟩ := leadingWrites_of_call hcall
    refine ⟨?_, fun k _ hk => h.writes hk⟩
    obtain ⟨pre, rfl, rfl, rfl⟩ := h
    rw [output_append, List.drop_left]
    exact prefix_leadingWrites rest
  read {rest d c count} h hcall := by
    obtain ⟨rfl, -⟩ := leadingReads_of_call hcall
    intro k _ hk hle
    have hlen : ((body.drop c).take k).length = k := length_take_drop hle
    change ChildAt actions (rest.drop ((body.drop c).take k).length) d (c + k)
    rw [hlen]
    exact h.reads hk
  eof {rest d count} h hcall := by
    -- all of the body is read, but the program reads on
    obtain ⟨-, hpos⟩ := leadingReads_of_call hcall
    obtain ⟨pre, rfl, rfl, hc⟩ := h
    rw [inputLength_append] at hreads
    omega
  interrupt h _ := h
  exit {rest d c} h hcall := by
    obtain ⟨pre, rfl, rfl, rfl⟩ := h
    cases rest with
    | nil =>
      rw [List.append_nil] at hreads ⊢
      exact ⟨rfl, hreads⟩
    | cons a rest => cases a <;> cases hcall

end Streams

section Deadlock
variable {s : Link UInt8 CgiParent (List CgiAction) m n}

/-- At every point of the program its output so far fits into the output pipe, or what it has not read of the
body fits into the input pipe. -/
def Fits (body : Bytes) (actions : List CgiAction) (capIn capOut : ℕ) : Prop :=
  ∀ pre, pre <+: actions → body.length ≤ inputLength pre + capIn ∨ (output pre).length ≤ capOut

instance (capIn capOut : ℕ) : Decidable (Fits body actions capIn capOut) :=
  decidable_of_iff (∀ pre ∈ actions.inits, body.length ≤ inputLength pre + capIn ∨ (output pre).length ≤ capOut)
    (by simp only [List.mem_inits, Fits])

/-- The parent collects the output in every schedule: while it has not, something can happen. -/
def Collects (body : Bytes) (actions : List CgiAction) (capIn capOut : ℕ) : Prop :=
  ∀ s : Link UInt8 CgiParent (List CgiAction) capIn capOut,
    Link.Reachable cgiParent cgiChild (.start (.start body) actions) s →
      (s.Stuck cgiParent cgiChild → ∃ collected, s.left = .closed collected) ∧
      ∀ collected, s.left = .closed collected → collected = output actions

/-- The two never write to full pipes at the same time. -/
theorem Fits.not_both_full (h : Fits body actions m n) {xs ys : Bytes}
    (hs : Matched body (output actions) (ParentAt body (output actions)) (ChildAt actions) s)
    (hl : cgiParent.call s.left = .write xs) (hr : cgiChild.call s.right = .write ys)
    (hright : s.toRight.sent.length = s.toRight.taken + m) (hleft : s.toLeft.sent.length = s.toLeft.taken + n) :
    False := by
  obtain ⟨ha, hb⟩ := hs.left.of_write hl
  obtain ⟨pre, hactions, hd, hc⟩ := hs.right
  -- the next byte of the output is one too many
  obtain ⟨-, c, rest, hrest⟩ := leadingWrites_of_call hr
  have hpre : pre ++ [.write c] <+: actions := by
    rw [hactions, hrest]
    exact ⟨rest, by simp⟩
  have hfits := h _ hpre
  simp only [inputLength_append, output_append, inputLength, output, List.length_append, List.length_singleton]
    at hfits
  omega

/-- The parent reads only when the whole body is written, and then the program does not wait for it. -/
theorem not_both_reading (hreads : inputLength actions = body.length) {i j : ℕ}
    (hs : Matched body (output actions) (ParentAt body (output actions)) (ChildAt actions) s)
    (hl : cgiParent.call s.left = .read i) (hr : cgiChild.call s.right = .read j)
    (hempty : s.toRight.taken = s.toRight.sent.length) : False := by
  have ha := hs.left.of_read hl
  obtain ⟨-, hpos⟩ := leadingReads_of_call hr
  obtain ⟨pre, hactions, hd, hc⟩ := hs.right
  rw [hactions, inputLength_append] at hreads
  omega

section Schedule
variable {s₀ : Link UInt8 CgiParent (List CgiAction) m n}

/-- The parent writes a part of the body that is not the last one. -/
theorem parent_writes (h : s₀.Reachable cgiParent cgiChild s) {a : ℕ}
    (hl : s.left = .writing (body.drop a)) (hk : 0 < k) (hrest : a + k < body.length)
    (hroom : s.toRight.sent.length + k ≤ s.toRight.taken + m) :
    ∃ t, s₀.Reachable cgiParent cgiChild t ∧ t.left = .writing (body.drop (a + k)) ∧ t.right = s.right ∧
      t.toRight.sent.length = s.toRight.sent.length + k ∧ t.toRight.taken = s.toRight.taken ∧
      t.toLeft = s.toLeft := by
  have hcall : cgiParent.call s.left = .write (body.drop a) := by rw [hl]; rfl
  have hle : k ≤ (body.drop a).length := by
    rw [List.length_drop]
    omega
  obtain ⟨c, hstep, hsent, htaken⟩ := Link.stepLeft_write (Q := cgiChild) hcall ⟨hk, hle⟩ hroom
  refine ⟨_, h.left hstep, ?_, rfl, ?_, htaken, rfl⟩
  · change cgiParent.onWrite s.left k = _
    rw [hl]
    change CgiParent.start ((body.drop a).drop k) = _
    rw [List.drop_drop, CgiParent.start, if_neg (drop_ne_nil hrest)]
  · change c.sent.length = _
    rw [hsent, List.length_append, List.length_take_of_le hle]

/-- The program reads one byte. -/
theorem child_reads (h : s₀.Reachable cgiParent cgiChild s) (hr : s.right = .read :: rest)
    (hdata : s.toRight.taken < s.toRight.sent.length) :
    ∃ t, s₀.Reachable cgiParent cgiChild t ∧ t.left = s.left ∧ t.right = rest ∧
      t.toRight.sent = s.toRight.sent ∧ t.toRight.taken = s.toRight.taken + 1 ∧ t.toLeft = s.toLeft := by
  have hcall : cgiChild.call s.swap.left = .read (leadingReads rest + 1) := by
    change cgiChild.call s.right = _
    rw [hr]
    rfl
  obtain ⟨c, hstep, hsent, htaken⟩ :=
    Link.stepLeft_read (Q := cgiParent) hcall ⟨Nat.one_pos, Nat.succ_pos _⟩ hdata
  refine ⟨_, h.right hstep, rfl, ?_, hsent, htaken, rfl⟩
  have hone : (s.toRight.content.take 1).length = 1 := length_take_drop hdata
  change s.right.drop (s.toRight.content.take 1).length = rest
  rw [hone, hr]
  rfl

/-- The program writes one byte. -/
theorem child_writes (h : s₀.Reachable cgiParent cgiChild s) {c : UInt8} (hr : s.right = .write c :: rest)
    (hroom : s.toLeft.sent.length < s.toLeft.taken + n) :
    ∃ t, s₀.Reachable cgiParent cgiChild t ∧ t.left = s.left ∧ t.right = rest ∧ t.toRight = s.toRight ∧
      t.toLeft.sent.length = s.toLeft.sent.length + 1 ∧ t.toLeft.taken = s.toLeft.taken := by
  have hcall : cgiChild.call s.swap.left = .write (c :: leadingWrites rest) := by
    change cgiChild.call s.right = _
    rw [hr]
    rfl
  obtain ⟨d, hstep, hsent, htaken⟩ :=
    Link.stepLeft_write (Q := cgiParent) hcall ⟨Nat.one_pos, Nat.succ_pos _⟩ hroom
  refine ⟨_, h.right hstep, rfl, ?_, rfl, ?_, htaken⟩
  · change s.right.drop 1 = rest
    rw [hr]
    rfl
  · change d.sent.length = _
    rw [hsent]
    exact List.length_append

/-- The input pipe is full and nothing of the output is read when the program has run up to `rest`. -/
structure Filled (body : Bytes) (pre rest : List CgiAction) (s : Link UInt8 CgiParent (List CgiAction) m n) :
    Prop where
  left : s.left = .writing (body.drop (inputLength pre + m))
  right : s.right = rest
  sent : s.toRight.sent.length = inputLength pre + m
  taken : s.toRight.taken = inputLength pre
  written : s.toLeft.sent.length = (output pre).length
  unread : s.toLeft.taken = 0

theorem filled_start (hm : 0 < m) (hleft : m < body.length) (rest : List CgiAction) :
    ∃ s : Link UInt8 CgiParent (List CgiAction) m n,
      Link.Reachable cgiParent cgiChild (.start (.start body) rest) s ∧ Filled body [] rest s := by
  have hne : body ≠ [] := List.ne_nil_of_length_pos (by omega)
  obtain ⟨t, ht, hl, hr, hsent, htaken, hin⟩ := parent_writes (n := n) (s := .start (.start body) rest) .refl
    (a := 0) (if_neg hne) hm (by omega) (Nat.le_refl _)
  refine ⟨t, ht, hl, hr, hsent, htaken, ?_, ?_⟩
  · rw [hin]
    rfl
  · rw [hin]
    rfl

/-- The parent refills the input pipe after the program has read. -/
theorem Filled.read (h : Filled body pre (.read :: rest) s) (hs : s₀.Reachable cgiParent cgiChild s) (hm : 0 < m)
    (hleft : inputLength pre + m + 1 < body.length) :
    ∃ t, s₀.Reachable cgiParent cgiChild t ∧ Filled body (pre ++ [.read]) rest t := by
  have hsent := h.sent
  have htaken := h.taken
  obtain ⟨t, ht, htl, htr, htsent, httaken, htin⟩ := child_reads hs h.right (by omega)
  obtain ⟨u, hu, hul, hur, husent, hutaken, huin⟩ := parent_writes ht (htl.trans h.left) Nat.one_pos hleft
    (by rw [htsent, httaken]; omega)
  have hin : inputLength (pre ++ [.read]) = inputLength pre + 1 := inputLength_append pre [.read]
  refine ⟨u, hu, ?_, hur.trans htr, ?_, ?_, ?_, ?_⟩
  · rw [hul, hin, Nat.add_right_comm]
  · rw [husent, htsent, hsent, hin, Nat.add_right_comm]
  · rw [hutaken, httaken, htaken, hin]
  · rw [huin, htin, h.written, output_append, output, output, List.append_nil]
  · rw [huin, htin, h.unread]

theorem Filled.write {c : UInt8} (h : Filled body pre (.write c :: rest) s) (hs : s₀.Reachable cgiParent cgiChild s)
    (hout : (output pre).length < n) :
    ∃ t, s₀.Reachable cgiParent cgiChild t ∧ Filled body (pre ++ [.write c]) rest t := by
  have hwritten := h.written
  have hunread := h.unread
  obtain ⟨t, ht, htl, htr, htin, htsent, httaken⟩ := child_writes hs h.right (by omega)
  have hin : inputLength (pre ++ [.write c]) = inputLength pre := inputLength_append pre [.write c]
  refine ⟨t, ht, ?_, htr, ?_, ?_, ?_, httaken.trans hunread⟩
  · rw [htl, h.left, hin]
  · rw [htin, h.sent, hin]
  · rw [htin, h.taken, hin]
  · rw [htsent, hwritten, output_append, List.length_append]
    rfl

/-- A schedule in which the parent keeps the input pipe full while the program runs up to some point. -/
theorem exists_filled (hm : 0 < m) (pre rest : List CgiAction) (hleft : inputLength pre + m < body.length)
    (hout : (output pre).length ≤ n) : ∃ s : Link UInt8 CgiParent (List CgiAction) m n,
      Link.Reachable cgiParent cgiChild (.start (.start body) (pre ++ rest)) s ∧ Filled body pre rest s := by
  induction pre using List.reverseRecOn generalizing rest with
  | nil => exact filled_start hm (by simpa [inputLength] using hleft) rest
  | append_singleton pre a ih =>
    rw [inputLength_append] at hleft
    rw [output_append, List.length_append] at hout
    rw [List.append_assoc, List.singleton_append]
    obtain ⟨s, hs, hfilled⟩ := ih (a :: rest) (by omega) (by omega)
    cases a with
    | read => exact hfilled.read hs hm (by simp only [inputLength] at hleft; omega)
    | write c => exact hfilled.write hs hout

end Schedule

/-- A program that does not fit: the two can fill both pipes. -/
theorem not_collects_of_not_fits (hm : 0 < m) (h : ¬Fits body actions m n) : ¬Collects body actions m n := by
  intro hcollects
  simp only [Fits, not_forall, not_or, Nat.not_le] at h
  obtain ⟨pre, ⟨rest, rfl⟩, hin, hout⟩ := h
  -- the write that finds the output pipe full
  obtain ⟨p, c, q, rfl, hlen⟩ := exists_write hout
  rw [inputLength_append] at hin
  have hleft : inputLength p + m < body.length := by omega
  obtain ⟨s, hs, h⟩ := exists_filled hm p (.write c :: q ++ rest) hleft (Nat.le_of_eq hlen)
  have hstuck : s.Stuck cgiParent cgiChild := by
    refine Link.stuck_of_full (by rw [h.left]; rfl) (by rw [h.right]; rfl) ?_ ?_
    · rw [h.sent, h.taken]
    · rw [h.written, h.unread, hlen, Nat.zero_add]
  rw [List.append_assoc] at hcollects
  obtain ⟨collected, hclosed⟩ := (hcollects s hs).1 hstuck
  rw [h.left] at hclosed
  cases hclosed

/-- The parent collects the output of a program that reads the whole body, in every schedule, exactly if the
program fits. -/
theorem collects_iff (hm : 0 < m) (hn : 0 < n) (hreads : inputLength actions = body.length) :
    Collects body actions m n ↔ Fits body actions m n := by
  refine ⟨fun hcollects => by_contra fun hfits => not_collects_of_not_fits hm hfits hcollects, fun hfits s hs => ?_⟩
  have hP := parent_streams body (output actions)
  have hQ := child_streams hreads
  have hstart : Matched body (output actions) (ParentAt body (output actions)) (ChildAt actions)
      (.start (.start body) actions : Link UInt8 CgiParent (List CgiAction) m n) :=
    .start (parentAt_start (Nat.zero_le _)) ⟨[], rfl, rfl, rfl⟩
  have hmatched := Matched.of_reachable hP hQ hstart hs
  constructor
  · intro hstuck
    obtain ⟨hl, -⟩ | ⟨xs, ys, hl, hr, hright, hleft⟩ | ⟨i, j, hl, hr, hempty, -⟩ := hmatched.stuck hP hQ hm hn hstuck
    · generalize s.left = p at hl
      cases p with
      | closed collected => exact ⟨collected, rfl⟩
      | _ => cases hl
    · exact (hfits.not_both_full hmatched hl hr hright hleft).elim
    · exact (not_both_reading hreads hmatched hl hr hempty).elim
  · intro collected hl
    have hparent := hmatched.left
    rw [hl] at hparent
    cases hparent
    rfl

/-- A program that answers after it has read the body. -/
theorem collects_iff_answer : Collects [1, 2, 3] [.read, .read, .read, .write 4, .write 5] 1 1 :=
  (collects_iff (by decide) (by decide) rfl).mpr (by decide)

/-- A program that writes two bytes before it reads the body of two bytes: the parent still writes when the
output pipe is full. -/
theorem not_collects : ¬∀ (body : Bytes) (actions : List CgiAction) (m n : ℕ), 0 < m → 0 < n →
    inputLength actions = body.length → Collects body actions m n := by
  intro hall
  have hnot : ¬Collects [1, 2] [.write 3, .write 4, .read, .read] 1 1 :=
    not_collects_of_not_fits (by decide) (by decide)
  exact hnot (hall _ _ _ _ (by decide) (by decide) rfl)

end Deadlock

end LinuxSocket.Http
