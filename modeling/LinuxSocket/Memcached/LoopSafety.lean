import LinuxSocket.Memcached.Iterations

/-! # What the loop of the session relies on

The invariant of a session that waits for a value bounds the length it has read, so
the length arithmetic of the loop stays in the buffer and the items it stores are legal.
-/
namespace LinuxSocket.Memcached

def toSize (n : ℤ) : ℕ := (n % 2 ^ 64).toNat

/-- The assertions of the constructor `Item::Item`. `malloc` has no address where it returns null. -/
structure Item.Asserts (malloc : ℕ → Option ℕ) (x : Item) : Prop where
  keyLen : 0 < toInt x.key.length
  exptime : 0 ≤ x.exptime
  valueLen : 0 ≤ toInt x.value.length
  data : malloc (toSize (toInt x.key.length + toInt x.value.length)) ≠ none

section
variable [Muduo] [Freed] (hashRange : Bytes → ℕ)

/-- The target of `retrieveUntil`, counted from `peek()`, in an iteration that gets there. -/
def Head.retrieveUntil (h : Head) : Option ℤ :=
  match h.world.session.receiveState with
  | .kReadCommandLine => (Muduo.findCRLF h.buf h.world.session.searchStart).map fun crlf : ℕ => (crlf : ℤ) + 2
  | .kReadValue => if h.world.session.valueEnd ≤ h.buf.length then some (h.world.session.curValueLen + 2) else none

structure SafeAt (malloc : ℕ → Option ℕ) (h : Head) : Prop where
  pending : SessionInv h.world.session
  valueEnd : h.world.session.receiveState = .kReadValue →
    (h.world.session.valueEnd : ℤ) = h.world.session.curValueLen + 2
  target : ∀ n, h.retrieveUntil = some n → 0 ≤ n ∧ n ≤ h.buf.length
  items : ∀ w b, h.next hashRange = .inl (w, b) → ∃ calls, w.calls = h.world.calls ++ calls ∧
    ∀ x, Call.storeItem x ∈ calls → x.Asserts malloc
  /-- An iteration that does not break removes what is in front of its target, two bytes at least. -/
  progress : ∀ w b, h.next hashRange = .inl (w, b) → b.length + 2 ≤ h.buf.length ∧
    ∃ n, h.retrieveUntil = some n ∧ b = h.buf.drop n.toNat
  ends : ∃ p, (onMessageBody hashRange Session.searchStart).Visits (h.world, h.buf) p ∧
    onMessageStep hashRange Session.searchStart p = .inr (onMessage hashRange (h.world, h.buf))

variable {hashRange} {h : Head}

theorem LoopHead.sessionInv (hh : LoopHead hashRange h) : SessionInv h.world.session := by
  obtain ⟨server, chunk, coming, log, hr⟩ := hh
  refine (hr.invariant (I := fun h => SessionInv h.world.session) ?_ ?_ ?_ SessionInv.fresh).1
  · intro h w b _ hnext
    exact SessionInv.step hnext
  · intro h w b chunk coming hI hnext _
    exact (Head.return_keeps hI hnext).1
  · intro h server hI
    exact hI

omit [Muduo] [Freed] in
theorem ValuePending.asserts {s : Session} (hs : ValuePending s) {malloc : ℕ → Option ℕ}
    (hmalloc : ∀ n, 0 < n → n < 2 ^ 21 → malloc n ≠ none) {data : Bytes} (hd : data.length = s.curValueLen.toNat) :
    (Item.makeItem s.curKey s.curFlag s.curExptime data).Asserts malloc := by
  obtain ⟨hpos, hlong⟩ := hs.key
  obtain ⟨hnonneg, hsmall⟩ := hs.valueLen
  have hbound : s.curKey.length ≤ 250 := hlong
  have hkey : toInt s.curKey.length = s.curKey.length := toInt_of_lt (by omega)
  have hvalue : toInt data.length = data.length := toInt_of_lt (by omega)
  have hsize : toSize (s.curKey.length + data.length) = s.curKey.length + data.length := by
    unfold toSize
    omega
  refine ⟨?_, hs.exptime, ?_, ?_⟩
  · change 0 < toInt s.curKey.length
    omega
  · change 0 ≤ toInt data.length
    omega
  · change malloc (toSize (toInt s.curKey.length + toInt data.length)) ≠ none
    rw [hkey, hvalue, hsize]
    exact hmalloc _ (by omega) (by omega)

omit [Freed] in
theorem SessionInv.target (hI : SessionInv h.world.session) {n : ℤ} (ht : h.retrieveUntil = some n) :
    0 ≤ n ∧ n ≤ h.buf.length := by
  unfold Head.retrieveUntil at ht
  cases hs : h.world.session.receiveState with
  | kReadCommandLine =>
    simp only [hs, Option.map_eq_some_iff] at ht
    obtain ⟨crlf, hf, rfl⟩ := ht
    have hlt := findCRLF_lt hf
    omega
  | kReadValue =>
    have hend := (hI hs).valueEnd_eq
    have hlen := (hI hs).valueLen
    simp only [hs, Option.ite_none_right_eq_some, Option.some.injEq] at ht
    omega

theorem SessionInv.progress (hI : SessionInv h.world.session) {w : World} {b : Bytes}
    (hnext : h.next hashRange = .inl (w, b)) :
    b.length + 2 ≤ h.buf.length ∧ ∃ n, h.retrieveUntil = some n ∧ b = h.buf.drop n.toNat := by
  unfold Head.retrieveUntil
  cases onMessageStep_next hnext with
  | command hs hf _ _ =>
    have hlt := findCRLF_lt hf
    refine ⟨?_, _, by rw [hs, hf]; rfl, ?_⟩
    · rw [List.length_drop]
      omega
    · congr 1
  | value hs hle _ =>
    have hend := (hI hs).valueEnd_eq
    have hlen := (hI hs).valueLen
    refine ⟨?_, h.world.session.curValueLen + 2, by simp only [hs, if_pos hle], ?_⟩
    · rw [List.length_drop]
      omega
    · congr 1
      omega

omit [Muduo] [Freed] in
theorem Handled.not_storeItem {request : Bytes} {good : Bool} {calls : List Call} (hc : Handled request good calls)
    (x : Item) : Call.storeItem x ∉ calls := by
  cases hc <;> simp

omit [Freed] in
theorem Iteration.asserts (hI : SessionInv h.world.session) {s : ReceiveState} {calls : List Call}
    (hi : Iteration h s calls) {malloc : ℕ → Option ℕ} (hmalloc : ∀ n, 0 < n → n < 2 ^ 21 → malloc n ≠ none)
    (x : Item) (hx : Call.storeItem x ∈ calls) : x.Asserts malloc := by
  cases hi with
  | command _ hc => exact absurd hx (hc.not_storeItem x)
  | stored hblock _ =>
    obtain ⟨hs, hle, rfl⟩ := Head.block_eq_some.mp hblock
    have hend := (hI hs).valueEnd_eq
    have hx' := Call.storeItem.inj (by simpa using hx)
    rw [hx']
    apply (hI hs).asserts hmalloc
    rw [List.length_take]
    omega
  | dropped _ _ => cases hx

/-- At every loop head, over every stream in any chunks, the invariant of a session that waits for a value
holds; what the loop computes from the length stays in the buffer, the items it builds pass their
assertions, and every iteration that does not break removes two bytes. -/
theorem loopHead_safe (malloc : ℕ → Option ℕ) (hmalloc : ∀ n, 0 < n → n < 2 ^ 21 → malloc n ≠ none)
    (hh : LoopHead hashRange h) : SafeAt hashRange malloc h := by
  have hI := hh.sessionInv
  refine ⟨hI, ?_, fun n => hI.target, ?_, fun w b => hI.progress, ?_⟩
  · intro hs
    have hend := (hI hs).valueEnd_eq
    have hlen := (hI hs).valueLen
    omega
  · intro w b hnext
    obtain ⟨calls, hcalls, hi⟩ := iteration_of_next hI hnext
    exact ⟨calls, hcalls, hi.asserts hI hmalloc⟩
  · exact (onMessageBody hashRange Session.searchStart).exists_exit (h.world, h.buf)

end

/-- The session of `set k 0 0 1`, which waits for its value. -/
theorem loopHead_safe_pending : ∃ h, @LoopHead Muduo.reference Freed.untouched (fun _ => 0) h ∧
    h.world.session.receiveState = .kReadValue ∧ @SafeAt Muduo.reference Freed.untouched (fun _ => 0) some h := by
  let M := Muduo.reference
  let F := Freed.untouched
  have hvisit : (onMessageBody (fun _ => 0) Session.searchStart).Visits
      (World.fresh MemcachedServer.init, ascii "set k 0 0 1\r\n") _ :=
    (Loop.Body.visits_self _ _).next rfl
  have hconnected : ([] : List Bytes).foldl (deliver (fun _ => 0)) (connected .init) = .ok (World.fresh .init, []) :=
    rfl
  have hh := loopHead_of_deliver hconnected hvisit
  exact ⟨_, hh, rfl, loopHead_safe some (by simp) hh⟩

end LinuxSocket.Memcached
