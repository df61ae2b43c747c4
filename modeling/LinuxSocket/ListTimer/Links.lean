import LinuxSocket.Lib.Fuel
import LinuxSocket.Lib.StableList
import LinuxSocket.ListTimer.SortTimerLst

/-! # The links of the sorted timer list

`Rep` is a well-formed list from head to tail with the timers `xs` in order. Each lemma says what a
piece of pointer code does to the list; the tail is only required to be right while there is one.
-/
namespace LinuxSocket.ListTimer
open DoublyLinked StableList
variable {P : Type}

namespace SortTimerLst

def key (s : SortTimerLst P) (p : P) : ℤ := (s.expire p).getD 0

end SortTimerLst

open SortTimerLst

structure Rep (s : SortTimerLst P) (xs : List P) : Prop where
  head_eq : s.head = xs.head?
  tail_eq : xs ≠ [] → s.tail = xs.getLast?
  chain : Chain s.heap none xs none
  nodup : xs.Nodup

variable {s s' : SortTimerLst P} {x p : P} {l r xs : List P}

theorem key_congr (h : ∀ q, s'.heap.dataAt q = s.heap.dataAt q) : s'.key = s.key := by
  funext q
  rw [SortTimerLst.key, SortTimerLst.key, expire, expire, h q]

theorem expire_of_node {n : Node P UtilTimer} (h : s.heap p = some n) : s.expire p = some (s.key p) := by
  rw [SortTimerLst.key, expire, Heap.dataAt, h]
  rfl

theorem Rep.expire_eq (h : Rep s xs) (hp : p ∈ xs) : s.expire p = some (s.key p) := by
  obtain ⟨n, hn⟩ := h.chain.exists_node hp
  exact expire_of_node hn

variable [DecidableEq P]

section Insertion

/-- The writes of the private `add_timer` behind the last node. -/
theorem insert_last {heap : Heap P UtilTimer} {n : Node P UtilTimer} (hc : Chain heap none (l ++ [p]) none)
    (hn : (x :: (l ++ [p])).Nodup) (hx : heap x = some n) : ∃ h₁ h₂ h₃, heap.setNext p (some x) = some h₁ ∧
      h₁.setPrev x (some p) = some h₂ ∧ h₂.setNext x none = some h₃ ∧ Chain h₃ none (l ++ p :: [x]) none ∧
      (∀ q, h₃.dataAt q = heap.dataAt q) := by
  obtain ⟨hxl, hnl⟩ := List.nodup_cons.mp hn
  have hpl : p ∉ l := by
    rw [List.nodup_append] at hnl
    exact fun hp => hnl.2.2 p hp p (by simp) rfl
  obtain ⟨h₁, h₂, hnext, hprev, hc₂, hr₁, hr₂⟩ := hc.link (chain_singleton hx) hpl (by simp) (by
    intro y hy hyx
    exact hxl (List.mem_singleton.mp hyx ▸ hy))
  rw [show l ++ p :: [x] = (l ++ [p]) ++ [x] by simp] at hc₂ ⊢
  obtain ⟨h₃, hset, hc₃, hr₃⟩ := hc₂.setNext hxl none
  exact ⟨h₁, h₂, h₃, hnext, hprev, hset, hc₃, fun q => ((hr₁.trans hr₂).trans hr₃).data q⟩

/-- The writes of the private `add_timer` between two nodes. -/
theorem insert_between {heap : Heap P UtilTimer} {n : Node P UtilTimer} {t : P}
    (hc : Chain heap none (l ++ p :: t :: r) none) (hn : (x :: (l ++ p :: t :: r)).Nodup) (hx : heap x = some n) :
    ∃ h₁ h₂ h₃ h₄, heap.setNext p (some x) = some h₁ ∧ h₁.setNext x (some t) = some h₂ ∧
      h₂.setPrev t (some x) = some h₃ ∧ h₃.setPrev x (some p) = some h₄ ∧
      Chain h₄ none (l ++ p :: x :: t :: r) none ∧ ∀ q, h₄.dataAt q = heap.dataAt q := by
  rw [show l ++ p :: t :: r = (l ++ [p]) ++ t :: r by simp] at hc hn
  obtain ⟨hxall, hnall⟩ := List.nodup_cons.mp hn
  obtain ⟨hnl, hnr, hdis⟩ := List.nodup_append.mp hnall
  obtain ⟨hcl, hcr⟩ := chain_append.mp hc
  rw [List.mem_append, not_or] at hxall
  have hpl : p ∉ l := fun hp => (List.nodup_append.mp hnl).2.2 p hp p (by simp) rfl
  have htr := (List.nodup_cons.mp hnr).1
  have hpr : ∀ y ∈ t :: r, y ∉ [p] := fun y hy hyp => hdis p (by simp) y hy (List.mem_singleton.mp hyp).symm
  have hxp : x ∉ [p] := fun h => hxall.1 (by simp [List.mem_singleton.mp h])
  obtain ⟨h₁, hset₁, hcl₁, hr₁⟩ := hcl.setNext hpl (some x)
  have hx₁ : h₁ x = some n := (hr₁.other x hxp).trans hx
  obtain ⟨h₂, h₃, hset₂, hset₃, hc₃, hr₂, hr₃⟩ := (hcr.relinked hr₁ hpr).push hx₁ htr hxall.2
  have hcl₃ : Chain h₃ none (l ++ [p]) (some x) := by
    refine (hcl₁.relinked hr₂ ?_).relinked hr₃ ?_
    · exact fun y hy hyx => hxall.1 (List.mem_singleton.mp hyx ▸ hy)
    · exact fun y hy hyt => hdis y hy t (by simp) (List.mem_singleton.mp hyt)
  obtain ⟨h₄, hset₄, hc₄, hr₄⟩ := hc₃.setPrev hxall.2 (some p)
  refine ⟨h₁, h₂, h₃, h₄, hset₁, hset₂, hset₃, hset₄, ?_, ?_⟩
  · rw [show l ++ p :: x :: t :: r = (l ++ [p]) ++ x :: t :: r by simp]
    refine chain_append.mpr ⟨hcl₃.relinked hr₄ ?_, ?_⟩
    · exact fun y hy hyx => hxall.1 (List.mem_singleton.mp hyx ▸ hy)
    · rw [List.getLast?_concat, Option.some_or]
      exact hc₄
  · exact fun q => (((hr₁.trans hr₂).trans hr₃).trans hr₄).data q

/-- The private `add_timer` inserts a timer behind the timers of the rest of the list that expire no later. -/
theorem addAfterLoop_spec {n : Node P UtilTimer} (hc : Chain s.heap none (l ++ p :: r) none)
    (hn : (x :: (l ++ p :: r)).Nodup) (hx : s.heap x = some n) (ht : s.tail = (l ++ p :: r).getLast?) :
    ∃ s', Returns (fun fuel => addAfterLoop x fuel s p r.head?) s' ∧ s'.head = s.head ∧
      s'.tail = (l ++ p :: insertBy s.key x r).getLast? ∧ Chain s'.heap none (l ++ p :: insertBy s.key x r) none ∧
      ∀ q, s'.heap.dataAt q = s.heap.dataAt q := by
  induction r generalizing l p with
  | nil =>
    obtain ⟨h₁, h₂, h₃, hset₁, hset₂, hset₃, hc₃, hdata⟩ := insert_last hc hn hx
    refine ⟨{ s with heap := h₃, tail := some x }, ?_, rfl, ?_, hc₃, hdata⟩
    · refine Returns.of_succ fun fuel => ?_
      simp [addAfterLoop, hset₁, hset₂, hset₃]
    · simp [insertBy]
  | cons t r ih =>
    obtain ⟨nt, hnt⟩ := hc.exists_node (p := t) (by simp)
    have hex := expire_of_node hx
    have het := expire_of_node hnt
    by_cases hlt : s.key x < s.key t
    · obtain ⟨h₁, h₂, h₃, h₄, hset₁, hset₂, hset₃, hset₄, hc₄, hdata⟩ := insert_between hc hn hx
      rw [insertBy_cons_of_lt hlt]
      refine ⟨{ s with heap := h₄ }, ?_, rfl, ?_, hc₄, hdata⟩
      · refine Returns.of_succ fun fuel => ?_
        simp [addAfterLoop, hex, het, hlt, hset₁, hset₂, hset₃, hset₄]
      · rw [ht]
        simp
    · rw [insertBy_cons_of_le (not_lt.mp hlt)]
      have hnext : s.heap.next t = some r.head? := by
        rw [show l ++ p :: t :: r = (l ++ [p]) ++ t :: r by simp] at hc
        rw [hc.node_next, Option.or_none]
      obtain ⟨s', hrun, hhead, htail, hc', hdata⟩ := ih (l := l ++ [p]) (p := t) (by simpa using hc)
        (by simpa using hn) (by simpa using ht)
      refine ⟨s', ?_, hhead, by simpa using htail, by simpa using hc', hdata⟩
      refine hrun.succ fun fuel => ?_
      simp only [List.head?_cons, addAfterLoop, hex, het, Option.bind_eq_bind, Option.bind_some, if_neg hlt, hnext]

/-- The private `add_timer` of a timer outside of the list. -/
theorem Rep.addTimerAfter {n : Node P UtilTimer} (h : Rep s (l ++ p :: r)) (hx : s.heap x = some n)
    (hnew : x ∉ l ++ p :: r) : ∃ s', Returns (fun fuel => s.addTimerAfter fuel x p) s' ∧
      Rep s' (l ++ p :: insertBy s.key x r) ∧ ∀ q, s'.heap.dataAt q = s.heap.dataAt q := by
  have hnod : (x :: (l ++ p :: r)).Nodup := List.nodup_cons.mpr ⟨hnew, h.nodup⟩
  obtain ⟨s', hrun, hhead, htail, hc, hdata⟩ := addAfterLoop_spec h.chain hnod hx (h.tail_eq (by simp))
  refine ⟨s', ?_, ⟨?_, fun _ => htail, hc, ?_⟩, hdata⟩
  · refine hrun.congr fun fuel => ?_
    rw [SortTimerLst.addTimerAfter, h.chain.node_next, Option.or_none]
    rfl
  · rw [hhead, h.head_eq]
    simp
  · have hperm : (l ++ p :: insertBy s.key x r).Perm (x :: (l ++ p :: r)) := by
      refine ((((insertBy_perm s.key x r).cons p).trans (.swap x p r)).append_left l).trans List.perm_middle
    exact hperm.nodup_iff.mpr hnod

end Insertion

section Removal

omit [DecidableEq P] in
theorem Rep.head_eq_iff (h : Rep s (l ++ x :: r)) : s.head = some x ↔ l = [] := by
  rw [h.head_eq]
  cases l with
  | nil => simp
  | cons y l =>
    have hne : y ≠ x := by
      rintro rfl
      have := h.nodup
      simp at this
    simpa using hne

omit [DecidableEq P] in
theorem Rep.tail_eq_iff (h : Rep s (l ++ x :: r)) : s.tail = some x ↔ r = [] := by
  rw [h.tail_eq (by simp)]
  rcases List.eq_nil_or_concat' r with rfl | ⟨r, y, rfl⟩
  · simp
  · have hne : y ≠ x := by
      rintro rfl
      have := (List.nodup_append.mp h.nodup).2.1
      simp at this
    rw [show l ++ x :: (r ++ [y]) = (l ++ x :: r) ++ [y] by simp, List.getLast?_concat]
    simpa using hne

/-- The timer is deleted when its links have been taken out: what is left of the list and of the data. -/
structure Deleted (s s' : SortTimerLst P) (x : P) (xs : List P) : Prop where
  rep : Rep s' xs
  gone : s'.heap x = none
  data : ∀ q, q ≠ x → s'.heap.dataAt q = s.heap.dataAt q

theorem Deleted.of_free (s : SortTimerLst P) (xs : List P) (head tail : Option P) {h₁ : Heap P UtilTimer}
    {d : Node P UtilTimer} (hx : h₁ x = some d) (hc : Chain h₁ none xs none)
    (hdata : ∀ q, h₁.dataAt q = s.heap.dataAt q) (hhead : head = xs.head?)
    (htail : xs ≠ [] → tail = xs.getLast?) (hn : xs.Nodup) (hxs : x ∉ xs) :
    h₁.free x = some (Function.update h₁ x none) ∧ Deleted s ⟨Function.update h₁ x none, head, tail⟩ x xs := by
  refine ⟨free_of_node hx, ⟨hhead, htail, hc.freed hxs, hn⟩, Function.update_self _ _ _, ?_⟩
  intro q hq
  rw [← hdata q]
  exact congrArg (Option.map Node.data) (Function.update_of_ne hq _ _)

/-- `del_timer` of a timer in the list. -/
theorem Rep.delTimer (h : Rep s (l ++ x :: r)) : ∃ s', s.delTimer (some x) = some s' ∧ Deleted s s' x (l ++ r) := by
  obtain ⟨d, hd⟩ := h.chain.node
  have hprev := h.chain.node_prev
  have hnext := h.chain.node_next
  have hhead := h.head_eq_iff
  have htail := h.tail_eq_iff
  have hnod : (l ++ r).Nodup := h.nodup.sublist (List.Sublist.append_left (List.sublist_cons_self x r) l)
  have hx : x ∉ l ++ r := (List.nodup_middle.mp h.nodup |> List.nodup_cons.mp).1
  rcases List.eq_nil_or_concat' l with rfl | ⟨l, p, rfl⟩
  · cases r with
    | nil =>
      obtain ⟨hfree, hdel⟩ := Deleted.of_free s [] none none hd trivial (fun _ => rfl) rfl (absurd rfl) .nil (by simp)
      exact ⟨_, by simp [SortTimerLst.delTimer, hhead.mpr, htail.mpr, hfree], hdel⟩
    | cons n r =>
      obtain ⟨h₁, hset, hc₁, hr₁, hx₁⟩ := Chain.unlink_first h.chain h.nodup
      obtain ⟨hfree, hdel⟩ := Deleted.of_free s _ _ s.tail (hx₁.trans hd) hc₁ hr₁.data rfl
        (fun _ => by simpa using h.tail_eq (by simp)) hnod hx
      exact ⟨_, by simp [SortTimerLst.delTimer, hhead.mpr, htail, hnext, hset, hfree], hdel⟩
  · cases r with
    | nil =>
      obtain ⟨h₁, hset, hc₁, hr₁, hx₁⟩ := Chain.unlink_last (by simpa using h.chain) (by simpa using h.nodup)
      obtain ⟨hfree, hdel⟩ := Deleted.of_free s _ s.head _ (hx₁.trans hd) hc₁ hr₁.data
        (by simpa using h.head_eq) (fun _ => rfl) (by simpa using hnod) (by simpa using hx)
      refine ⟨⟨Function.update h₁ x none, s.head, (l ++ [p]).getLast?⟩, ?_, by simpa using hdel⟩
      simp [SortTimerLst.delTimer, hhead, htail.mpr, hprev, hset, hfree]
    | cons n r =>
      obtain ⟨h₁, h₂, hset₁, hset₂, hc₂, hr₂, hx₁, hx₂⟩ :=
        Chain.unlink_between (by simpa using h.chain) (by simpa using h.nodup)
      obtain ⟨hfree, hdel⟩ := Deleted.of_free s _ s.head s.tail (hx₂.trans hd) hc₂ hr₂.data
        (by simpa using h.head_eq) (fun _ => by simpa using h.tail_eq (by simp)) (by simpa using hnod)
        (by simpa using hx)
      refine ⟨⟨Function.update h₂ x none, s.head, s.tail⟩, ?_, by simpa using hdel⟩
      have hprev₁ : h₁.prev x = s.heap.prev x := by rw [Heap.prev, hx₁, Heap.prev]
      have hnext₁ : h₁.next x = s.heap.next x := by rw [Heap.next, hx₁, Heap.next]
      simp [SortTimerLst.delTimer, hhead, htail, hprev, hnext, hprev₁, hnext₁, hset₁, hset₂, hfree]

/-- What one round of the loop of `tick` does to the list. -/
theorem Rep.popHead (h : Rep s (x :: r)) : ∃ s₁ h₁, clearHeadPrev { s with head := r.head? } = some s₁ ∧
    s₁.heap.free x = some h₁ ∧ Deleted s { s₁ with heap := h₁ } x r := by
  obtain ⟨hxr, hnod⟩ := List.nodup_cons.mp h.nodup
  obtain ⟨d, hd⟩ := h.chain.1
  cases r with
  | nil =>
    obtain ⟨hfree, hdel⟩ := Deleted.of_free s [] none s.tail hd trivial (fun _ => rfl) rfl (absurd rfl) hnod hxr
    exact ⟨{ s with head := none }, _, rfl, hfree, hdel⟩
  | cons n r =>
    obtain ⟨h₁, hset, hc₁, hr₁, hx₁⟩ := h.chain.unlink_first h.nodup
    obtain ⟨hfree, hdel⟩ := Deleted.of_free s _ _ s.tail (hx₁.trans hd) hc₁ hr₁.data rfl
      (fun _ => by simpa using h.tail_eq (by simp)) hnod hxr
    refine ⟨⟨h₁, some n, s.tail⟩, _, ?_, hfree, hdel⟩
    simp [clearHeadPrev, hset]

end Removal

end LinuxSocket.ListTimer
