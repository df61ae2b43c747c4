import Mathlib.Data.List.Nodup
import Mathlib.Logic.Function.Basic
import Mathlib.Tactic.Common

/-! # Doubly linked lists in a heap

A heap maps addresses to the nodes that exist. `Chain` is the part of a heap that links a list of
addresses; `b` and `a` are the pointers out of the list at its two ends. Writing the outer pointer
of an end node and leaving the nodes of a list alone are the two ways such a part is kept.
-/
namespace LinuxSocket.DoublyLinked

structure Node (P δ : Type) where
  data : δ
  prev : Option P
  next : Option P

abbrev Heap (P δ : Type) := P → Option (Node P δ)

variable {P δ : Type}

def Heap.dataAt (h : Heap P δ) (p : P) : Option δ := (h p).map Node.data

def Heap.next (h : Heap P δ) (p : P) : Option (Option P) := (h p).map Node.next

def Heap.prev (h : Heap P δ) (p : P) : Option (Option P) := (h p).map Node.prev

section Writes
variable [DecidableEq P]

/-- Writes to a node; `none` when it does not exist. -/
def Heap.modify (h : Heap P δ) (p : P) (f : Node P δ → Node P δ) : Option (Heap P δ) :=
  (h p).map fun n => Function.update h p (some (f n))

def Heap.setNext (h : Heap P δ) (p : P) (v : Option P) : Option (Heap P δ) :=
  h.modify p fun n => { n with next := v }

def Heap.setPrev (h : Heap P δ) (p : P) (v : Option P) : Option (Heap P δ) :=
  h.modify p fun n => { n with prev := v }

def Heap.setPrevIf (h : Heap P δ) (p : Option P) (v : Option P) : Option (Heap P δ) :=
  match p with
  | none => some h
  | some p => h.setPrev p v

def Heap.setData (h : Heap P δ) (p : P) (f : δ → δ) : Option (Heap P δ) :=
  h.modify p fun n => { n with data := f n.data }

/-- `new`, at an address of the allocator's choice. -/
def Heap.alloc (h : Heap P δ) (p : P) (data : δ) : Heap P δ := Function.update h p (some ⟨data, none, none⟩)

/-- `delete`; `none` when the node does not exist. -/
def Heap.free (h : Heap P δ) (p : P) : Option (Heap P δ) := (h p).map fun _ => Function.update h p none

end Writes

/-- The nodes of the list exist and point to each other; the first one points back to `b`, the last one
on to `a`. -/
def Chain (h : Heap P δ) : Option P → List P → Option P → Prop
  | _, [], _ => True
  | b, x :: xs, a => (∃ d, h x = some ⟨d, b, xs.head?.or a⟩) ∧ Chain h (some x) xs a

/-- `h'` is `h` with other pointers in the nodes of `ps`. -/
structure Relinked (h h' : Heap P δ) (ps : List P) : Prop where
  other : ∀ q, q ∉ ps → h' q = h q
  data : ∀ q, h'.dataAt q = h.dataAt q

section Chains
variable {h h' h'' : Heap P δ} {b b' a a' : Option P} {p q : P} {xs ys : List P}

theorem chain_append : Chain h b (xs ++ ys) a ↔
    Chain h b xs (ys.head?.or a) ∧ Chain h (xs.getLast?.or b) ys a := by
  induction xs generalizing b with
  | nil => simp [Chain]
  | cons x xs ih =>
    have hhead : (xs ++ ys).head?.or a = xs.head?.or (ys.head?.or a) := by
      rw [List.head?_append, Option.or_assoc]
    have hlast : (x :: xs).getLast?.or b = xs.getLast?.or (some x) := by
      cases xs with
      | nil => rfl
      | cons y ys => simp [List.getLast?_cons]
    rw [List.cons_append, Chain, Chain, ih, hhead, hlast, and_assoc]

theorem Chain.frame (hc : Chain h b xs a) (heq : ∀ x ∈ xs, h' x = h x) : Chain h' b xs a := by
  induction xs generalizing b with
  | nil => trivial
  | cons x xs ih =>
    obtain ⟨⟨d, hd⟩, hrest⟩ := hc
    exact ⟨⟨d, by rw [heq x (by simp), hd]⟩, ih hrest fun y hy => heq y (List.mem_cons_of_mem _ hy)⟩

theorem Chain.exists_node (hc : Chain h b xs a) (hp : p ∈ xs) : ∃ n, h p = some n := by
  induction xs generalizing b with
  | nil => cases hp
  | cons x xs ih =>
    obtain ⟨⟨d, hd⟩, hrest⟩ := hc
    rcases List.mem_cons.mp hp with rfl | hp
    · exact ⟨_, hd⟩
    · exact ih hrest hp

/-- Any node is a list between its two neighbours. -/
theorem chain_singleton {n : Node P δ} (hn : h p = some n) : Chain h n.prev [p] n.next := ⟨⟨n.data, hn⟩, trivial⟩

/-- The node between two parts of a list. -/
theorem Chain.node (hc : Chain h b (xs ++ p :: ys) a) :
    ∃ d, h p = some ⟨d, xs.getLast?.or b, ys.head?.or a⟩ := (chain_append.mp hc).2.1

theorem Chain.node_prev (hc : Chain h b (xs ++ p :: ys) a) : h.prev p = some (xs.getLast?.or b) := by
  obtain ⟨d, hd⟩ := hc.node
  rw [Heap.prev, hd]
  rfl

theorem Chain.node_next (hc : Chain h b (xs ++ p :: ys) a) : h.next p = some (ys.head?.or a) := by
  obtain ⟨d, hd⟩ := hc.node
  rw [Heap.next, hd]
  rfl

theorem Chain.head_next (hc : Chain h b (p :: ys) a) : h.next p = some (ys.head?.or a) := by
  obtain ⟨d, hd⟩ := hc.1
  rw [Heap.next, hd]
  rfl

theorem Relinked.refl (h : Heap P δ) : Relinked h h [] := ⟨fun _ _ => rfl, fun _ => rfl⟩

theorem Relinked.trans {ps qs : List P} (h₁ : Relinked h h' ps) (h₂ : Relinked h' h'' qs) :
    Relinked h h'' (ps ++ qs) where
  other q hq := by
    rw [List.mem_append, not_or] at hq
    rw [h₂.other q hq.2, h₁.other q hq.1]
  data q := (h₂.data q).trans (h₁.data q)

theorem Chain.relinked {ps : List P} (hc : Chain h b xs a) (hr : Relinked h h' ps) (hd : ∀ x ∈ xs, x ∉ ps) :
    Chain h' b xs a := hc.frame fun x hx => hr.other x (hd x hx)

end Chains

section Ends
variable [DecidableEq P] {h : Heap P δ} {b b' a a' : Option P} {p : P} {xs : List P}

theorem modify_relinked {n : Node P δ} (hn : h p = some n) {f : Node P δ → Node P δ} (hf : (f n).data = n.data) :
    h.modify p f = some (Function.update h p (some (f n))) ∧
      Relinked h (Function.update h p (some (f n))) [p] := by
  refine ⟨by rw [Heap.modify, hn]; rfl, ?_, ?_⟩
  · intro q hq
    exact Function.update_of_ne (fun he => hq (List.mem_singleton.mpr he)) _ _
  · intro q
    by_cases hq : q = p
    · subst hq
      rw [Heap.dataAt, Heap.dataAt, Function.update_self, hn]
      exact congrArg some hf
    · rw [Heap.dataAt, Heap.dataAt, Function.update_of_ne hq]

/-- Writing the `next` pointer of the last node. -/
theorem Chain.setNext (hc : Chain h b (xs ++ [p]) a) (hp : p ∉ xs) (a' : Option P) :
    ∃ h', h.setNext p a' = some h' ∧ Chain h' b (xs ++ [p]) a' ∧ Relinked h h' [p] := by
  obtain ⟨hl, ⟨d, hd⟩, -⟩ := chain_append.mp hc
  obtain ⟨hset, hr⟩ := modify_relinked hd (f := fun n => { n with next := a' }) rfl
  refine ⟨_, hset, chain_append.mpr ⟨hl.relinked hr ?_, ⟨d, Function.update_self _ _ _⟩, trivial⟩, hr⟩
  intro x hx
  exact mt List.mem_singleton.mp (ne_of_mem_of_not_mem hx hp)

/-- Writing the `prev` pointer of the first node. -/
theorem Chain.setPrev (hc : Chain h b (p :: xs) a) (hp : p ∉ xs) (b' : Option P) :
    ∃ h', h.setPrev p b' = some h' ∧ Chain h' b' (p :: xs) a ∧ Relinked h h' [p] := by
  obtain ⟨⟨d, hd⟩, hrest⟩ := hc
  obtain ⟨hset, hr⟩ := modify_relinked hd (f := fun n => { n with prev := b' }) rfl
  refine ⟨_, hset, ⟨⟨d, Function.update_self _ _ _⟩, hrest.relinked hr ?_⟩, hr⟩
  intro x hx
  exact mt List.mem_singleton.mp (ne_of_mem_of_not_mem hx hp)

/-- Writing the data of a node leaves all links alone. -/
theorem setData_of_node {n : Node P δ} (hn : h p = some n) (f : δ → δ) : ∃ h', h.setData p f = some h' ∧
    (∀ b xs a, Chain h b xs a → Chain h' b xs a) ∧ h' p = some { n with data := f n.data } ∧
      ∀ q, q ≠ p → h' q = h q := by
  refine ⟨Function.update h p (some { n with data := f n.data }), by rw [Heap.setData, Heap.modify, hn]; rfl, ?_,
    Function.update_self _ _ _, fun q hq => Function.update_of_ne hq _ _⟩
  intro b xs a hc
  induction xs generalizing b with
  | nil => trivial
  | cons x xs ih =>
    obtain ⟨⟨d, hd⟩, hrest⟩ := hc
    refine ⟨?_, ih _ hrest⟩
    by_cases hx : x = p
    · subst hx
      obtain rfl := Option.some.inj (hn.symm.trans hd)
      exact ⟨f d, Function.update_self _ _ _⟩
    · exact ⟨d, (Function.update_of_ne hx _ _).trans hd⟩

/-- Linking the last node of one list and the first node of another. -/
theorem Chain.link {q : P} {ys : List P} {a₁ b₂ : Option P} (h₁ : Chain h b (xs ++ [p]) a₁)
    (h₂ : Chain h b₂ (q :: ys) a) (hp : p ∉ xs) (hq : q ∉ ys) (hd : ∀ x ∈ xs ++ [p], x ∉ q :: ys) :
    ∃ h' h'', h.setNext p (some q) = some h' ∧ h'.setPrev q (some p) = some h'' ∧
      Chain h'' b (xs ++ p :: q :: ys) a ∧ Relinked h h' [p] ∧ Relinked h' h'' [q] := by
  obtain ⟨h', hnext, hc₁, hr₁⟩ := h₁.setNext hp (some q)
  have hpq : ∀ y ∈ q :: ys, y ∉ [p] := by
    intro y hy hyp
    exact hd p (by simp) (List.mem_singleton.mp hyp ▸ hy)
  obtain ⟨h'', hprev, hc₂, hr₂⟩ := (h₂.relinked hr₁ hpq).setPrev hq (some p)
  have hqx : ∀ x ∈ xs ++ [p], x ∉ [q] := by
    intro x hx hxq
    exact hd x hx (by rw [List.mem_singleton.mp hxq]; simp)
  refine ⟨h', h'', hnext, hprev, ?_, hr₁, hr₂⟩
  rw [show xs ++ p :: q :: ys = (xs ++ [p]) ++ q :: ys by simp]
  refine chain_append.mpr ⟨hc₁.relinked hr₂ hqx, ?_⟩
  rw [List.getLast?_concat, Option.some_or]
  exact hc₂

/-- Linking a node in front of a list. -/
theorem Chain.push {n : Node P δ} {q : P} {ys : List P} (hc : Chain h b (q :: ys) a) (hn : h p = some n) (hq : q ∉ ys)
    (hp : p ∉ q :: ys) : ∃ h' h'', h.setNext p (some q) = some h' ∧ h'.setPrev q (some p) = some h'' ∧
      Chain h'' n.prev (p :: q :: ys) a ∧ Relinked h h' [p] ∧ Relinked h' h'' [q] := by
  have hlist : Chain h n.prev ([] ++ [p]) n.next := chain_singleton hn
  refine hlist.link hc List.not_mem_nil hq ?_
  intro x hx
  rwa [List.mem_singleton.mp hx]

theorem free_of_node {n : Node P δ} (hn : h p = some n) : h.free p = some (Function.update h p none) := by
  rw [Heap.free, hn]
  rfl

/-- Other nodes are not touched by a deletion. -/
theorem Chain.freed (hc : Chain h b xs a) (hp : p ∉ xs) : Chain (Function.update h p none) b xs a :=
  hc.frame fun _ hx => Function.update_of_ne (ne_of_mem_of_not_mem hx hp) _ _

end Ends

section Removal
variable [DecidableEq P] {h : Heap P δ} {a b : Option P} {p x n : P} {l r : List P}

/-- A node between two others, taken out of the list. -/
theorem Chain.unlink_between (hc : Chain h b (l ++ p :: x :: n :: r) a) (hn : (l ++ p :: x :: n :: r).Nodup) :
    ∃ h₁ h₂, h.setNext p (some n) = some h₁ ∧ h₁.setPrev n (some p) = some h₂ ∧ Chain h₂ b (l ++ p :: n :: r) a ∧
      Relinked h h₂ ([p] ++ [n]) ∧ h₁ x = h x ∧ h₂ x = h x := by
  rw [show l ++ p :: x :: n :: r = (l ++ [p]) ++ x :: n :: r by simp] at hc hn
  obtain ⟨hnl, hnr, hdis⟩ := List.nodup_append.mp hn
  obtain ⟨hxr, hnr⟩ := List.nodup_cons.mp hnr
  obtain ⟨hcl, -, hcr⟩ := chain_append.mp hc
  have hpl : p ∉ l := fun hp => (List.nodup_append.mp hnl).2.2 p hp p (by simp) rfl
  obtain ⟨h₁, h₂, hset₁, hset₂, hc₂, hr₁, hr₂⟩ := hcl.link hcr hpl (List.nodup_cons.mp hnr).1
    fun y hy hyr => hdis y hy y (List.mem_cons_of_mem _ hyr) rfl
  have hx₁ : h₁ x = h x := hr₁.other x fun hx => hdis p (by simp) x (by simp) (List.mem_singleton.mp hx).symm
  have hx₂ : h₂ x = h₁ x := hr₂.other x fun hx => hxr (by simp [List.mem_singleton.mp hx])
  exact ⟨h₁, h₂, hset₁, hset₂, hc₂, hr₁.trans hr₂, hx₁, hx₂.trans hx₁⟩

/-- The last node, taken out of the list. -/
theorem Chain.unlink_last (hc : Chain h b (l ++ [p, x]) a) (hn : (l ++ [p, x]).Nodup) : ∃ h₁,
    h.setNext p none = some h₁ ∧ Chain h₁ b (l ++ [p]) none ∧ Relinked h h₁ [p] ∧ h₁ x = h x := by
  rw [show l ++ [p, x] = (l ++ [p]) ++ [x] by simp] at hc hn
  obtain ⟨hnl, -, hdis⟩ := List.nodup_append.mp hn
  have hpl : p ∉ l := fun hp => (List.nodup_append.mp hnl).2.2 p hp p (by simp) rfl
  obtain ⟨h₁, hset, hc₁, hr₁⟩ := (chain_append.mp hc).1.setNext hpl none
  exact ⟨h₁, hset, hc₁, hr₁, hr₁.other x fun hx => hdis p (by simp) x (by simp) (List.mem_singleton.mp hx).symm⟩

/-- The first of two or more nodes, taken out of the list. -/
theorem Chain.unlink_first (hc : Chain h b (x :: n :: r) a) (hn : (x :: n :: r).Nodup) : ∃ h₁,
    h.setPrev n b = some h₁ ∧ Chain h₁ b (n :: r) a ∧ Relinked h h₁ [n] ∧ h₁ x = h x := by
  obtain ⟨hxr, hnr⟩ := List.nodup_cons.mp hn
  obtain ⟨h₁, hset, hc₁, hr₁⟩ := hc.2.setPrev (List.nodup_cons.mp hnr).1 b
  exact ⟨h₁, hset, hc₁, hr₁, hr₁.other x fun hx => hxr (by simp [List.mem_singleton.mp hx])⟩

omit [DecidableEq P] in
theorem Relinked.mono {h' : Heap P δ} {ps qs : List P} (hr : Relinked h h' ps) (hs : ∀ q ∈ ps, q ∈ qs) :
    Relinked h h' qs := ⟨fun q hq => hr.other q (mt (hs q) hq), hr.data⟩

/-- Writing the pointer that leads out of a list at its front, if the list has a node. -/
theorem Chain.setPrevIf (hc : Chain h b r a) (hn : r.Nodup) (b' : Option P) : ∃ h₁,
    h.setPrevIf r.head? b' = some h₁ ∧ Chain h₁ b' r a ∧ Relinked h h₁ r := by
  cases r with
  | nil => exact ⟨h, rfl, trivial, Relinked.refl h⟩
  | cons n r =>
    obtain ⟨h₁, hset, hc₁, hr₁⟩ := hc.setPrev (List.nodup_cons.mp hn).1 b'
    exact ⟨h₁, hset, hc₁, hr₁.mono (by simp)⟩

/-- A node behind another one, taken out of the list. -/
theorem Chain.unlink_behind (hc : Chain h b (l ++ p :: x :: r) none) (hn : (l ++ p :: x :: r).Nodup) : ∃ h₁ h₂,
    h.setNext p r.head? = some h₁ ∧ h₁.setPrevIf r.head? (some p) = some h₂ ∧ Chain h₂ b (l ++ p :: r) none ∧
      Relinked h h₂ (p :: r) ∧ h₁ x = h x ∧ h₂ x = h x := by
  cases r with
  | nil =>
    obtain ⟨h₁, hset, hc₁, hr₁, hx₁⟩ := hc.unlink_last hn
    exact ⟨h₁, h₁, hset, rfl, hc₁, hr₁, hx₁, hx₁⟩
  | cons n r =>
    obtain ⟨h₁, h₂, hset₁, hset₂, hc₂, hr₂, hx₁, hx₂⟩ := hc.unlink_between hn
    exact ⟨h₁, h₂, hset₁, hset₂, hc₂, hr₂.mono (by simp), hx₁, hx₂⟩

/-- `x` is deleted and its list is linked without it; nothing else has changed. -/
structure Removed (h h' : Heap P δ) (x : P) (xs : List P) : Prop where
  chain : Chain h' none xs none
  gone : h' x = none
  other : ∀ q, q ≠ x → q ∉ xs → h' q = h q
  data : ∀ q, q ≠ x → h'.dataAt q = h.dataAt q

/-- A node is deleted after it has been taken out. -/
theorem Relinked.removed {h₁ : Heap P δ} {ps xs : List P} (hr : Relinked h h₁ ps) (hc : Chain h₁ none xs none)
    (hps : ∀ q ∈ ps, q ∈ xs) (hx : x ∉ xs) : Removed h (Function.update h₁ x none) x xs where
  chain := hc.freed hx
  gone := Function.update_self _ _ _
  other := fun q hq hxs => (Function.update_of_ne hq _ _).trans (hr.other q (mt (hps q) hxs))
  data := fun q hq => (congrArg (Option.map Node.data) (Function.update_of_ne hq _ _)).trans (hr.data q)

/-- The first node of a list, unlinked and deleted. -/
theorem Chain.remove_first (hc : Chain h none (x :: r) none) (hn : (x :: r).Nodup) : ∃ h₁ h₂,
    h.setPrevIf r.head? none = some h₁ ∧ h₁.free x = some h₂ ∧ Removed h h₂ x r := by
  obtain ⟨hxr, hnr⟩ := List.nodup_cons.mp hn
  obtain ⟨⟨d, hd⟩, hrest⟩ := hc
  obtain ⟨h₁, hset, hc₁, hr₁⟩ := hrest.setPrevIf hnr none
  exact ⟨h₁, _, hset, free_of_node ((hr₁.other x hxr).trans hd), hr₁.removed hc₁ (fun _ hq => hq) hxr⟩

/-- The first node of a list, deleted before the rest is unlinked from it. -/
theorem Chain.remove_freed (hc : Chain h none (x :: r) none) (hn : (x :: r).Nodup) : ∃ h₁ h₂,
    h.free x = some h₁ ∧ h₁.setPrevIf r.head? none = some h₂ ∧ Removed h h₂ x r := by
  obtain ⟨hxr, hnr⟩ := List.nodup_cons.mp hn
  obtain ⟨⟨d, hd⟩, hrest⟩ := hc
  obtain ⟨h₂, hset, hc₂, hr₂⟩ := (hrest.freed hxr).setPrevIf hnr none
  refine ⟨_, h₂, free_of_node hd, hset, hc₂, ?_, ?_, ?_⟩
  · exact (hr₂.other x hxr).trans (Function.update_self _ _ _)
  · exact fun q hq hqr => (hr₂.other q hqr).trans (Function.update_of_ne hq _ _)
  · exact fun q hq => (hr₂.data q).trans (congrArg (Option.map Node.data) (Function.update_of_ne hq _ _))

/-- A node behind another one, unlinked and deleted. -/
theorem Chain.remove_behind (hc : Chain h none (l ++ p :: x :: r) none) (hn : (l ++ p :: x :: r).Nodup) :
    ∃ h₁ h₂ h₃, h.setNext p r.head? = some h₁ ∧ h₁.next x = some r.head? ∧ h₁.prev x = some (some p) ∧
      h₁.setPrevIf r.head? (some p) = some h₂ ∧ h₂.next x = some r.head? ∧ h₂.free x = some h₃ ∧
      Removed h h₃ x (l ++ p :: r) := by
  obtain ⟨h₁, h₂, hset₁, hset₂, hc₂, hr₂, hx₁, hx₂⟩ := hc.unlink_behind hn
  have hmid : l ++ p :: x :: r = (l ++ [p]) ++ x :: r := by simp
  rw [hmid] at hc hn
  obtain ⟨d, hd⟩ := hc.node
  rw [List.getLast?_concat, Option.some_or, Option.or_none] at hd
  have hxl := (List.nodup_cons.mp (List.nodup_middle.mp hn)).1
  rw [show (l ++ [p]) ++ r = l ++ p :: r by simp] at hxl
  refine ⟨h₁, h₂, _, hset₁, ?_, ?_, hset₂, ?_, free_of_node (hx₂.trans hd), hr₂.removed hc₂ ?_ hxl⟩
  · rw [Heap.next, hx₁, hd]
    rfl
  · rw [Heap.prev, hx₁, hd]
    rfl
  · rw [Heap.next, hx₂, hd]
    rfl
  · exact fun q hq => List.mem_append_right _ hq

end Removal

end LinuxSocket.DoublyLinked
