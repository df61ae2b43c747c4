import LinuxSocket.Lib.Split
import LinuxSocket.Memcached.MemcachedServer

/-! # Which of several stores of a key wins

Every session's calls are atomic under the mutex of a shard, so a history is one
sequence of calls, each with the session that made it. The store keeps the first
item of a key; it answers with the last one only where the two agree.
-/
namespace LinuxSocket.Memcached

inductive StoreOp
  | storeItem (itemPtr : Item)
  | getItem (key : Bytes)

abbrev History := List (ℕ × StoreOp)

variable (hashRange : Bytes → ℕ)

def execOp (srv : MemcachedServer) : StoreOp → MemcachedServer × Option (Option Item)
  | .storeItem itemPtr => (srv.storeItem hashRange itemPtr, none)
  | .getItem key => (srv, some (srv.getItem hashRange (Item.makeKeyItem key)))

def execHistory (srv : MemcachedServer) : History → List (Option Item)
  | [] => []
  | (_, op) :: ops =>
    let r := execOp hashRange srv op
    r.2.toList ++ execHistory r.1 ops

def StoreOp.item? : StoreOp → Option Item
  | .storeItem itemPtr => some itemPtr
  | .getItem _ => none

def storedUnder (ops : History) (key : Bytes) : List Item :=
  (ops.filterMap fun p => p.2.item?).filter fun x => x.key == key

def firstStored (ops : History) (key : Bytes) : Option Item := (storedUnder ops key).head?

def lastStored (ops : History) (key : Bytes) : Option Item := (storedUnder ops key).getLast?

/-- What the `getItem` calls after `pre` return when `pick` chooses among the items stored before. -/
def resultsWith (pick : History → Bytes → Option Item) (pre : History) : History → List (Option Item)
  | [] => []
  | (s, .storeItem itemPtr) :: ops => resultsWith pick (pre ++ [(s, .storeItem itemPtr)]) ops
  | (s, .getItem key) :: ops => pick pre key :: resultsWith pick (pre ++ [(s, .getItem key)]) ops

def HoldsFirst (srv : MemcachedServer) (pre : History) : Prop :=
  ∀ key, srv.getItem hashRange (Item.makeKeyItem key) = firstStored pre key

theorem storedUnder_append (pre ops : History) (key : Bytes) :
    storedUnder (pre ++ ops) key = storedUnder pre key ++ storedUnder ops key := by
  simp [storedUnder]

theorem storedUnder_store (s : ℕ) (x : Item) (key : Bytes) :
    storedUnder [(s, .storeItem x)] key = if x.key = key then [x] else [] := by
  by_cases h : x.key = key <;> simp [storedUnder, StoreOp.item?, h]

theorem holdsFirst_init : HoldsFirst hashRange MemcachedServer.init [] := fun _ => rfl

theorem HoldsFirst.storeItem {srv : MemcachedServer} {pre : History} (h : HoldsFirst hashRange srv pre)
    (s : ℕ) (x : Item) : HoldsFirst hashRange (srv.storeItem hashRange x) (pre ++ [(s, .storeItem x)]) := by
  intro key
  rw [MemcachedServer.getItem_storeItem, h key, firstStored, firstStored, storedUnder_append,
    storedUnder_store, List.head?_append]
  by_cases hk : x.key = key <;> simp [Item.makeKeyItem, hk]

theorem HoldsFirst.getItem {srv : MemcachedServer} {pre : History} (h : HoldsFirst hashRange srv pre)
    (s : ℕ) (k : Bytes) : HoldsFirst hashRange srv (pre ++ [(s, .getItem k)]) := by
  intro key
  rw [h key, firstStored, firstStored, storedUnder_append]
  simp [storedUnder, StoreOp.item?]

/-- Along any history the store answers with the first item of the key. -/
theorem execHistory_eq_first {srv : MemcachedServer} {pre : History} (h : HoldsFirst hashRange srv pre)
    (ops : History) : execHistory hashRange srv ops = resultsWith firstStored pre ops := by
  induction ops generalizing srv pre with
  | nil => rfl
  | cons p ops ih =>
    obtain ⟨s, op⟩ := p
    cases op with
    | storeItem x => exact ih (h.storeItem hashRange s x)
    | getItem k =>
      simp only [execHistory, execOp, resultsWith, Option.toList_some, List.singleton_append, h k]
      rw [ih (h.getItem hashRange s k)]

theorem resultsWith_eq_iff (f g : History → Bytes → Option Item) (pre ops : History) :
    resultsWith f pre ops = resultsWith g pre ops ↔
      AtEvery (fun before call => ∀ key, call.2 = .getItem key →
        f (pre ++ before) key = g (pre ++ before) key) ops := by
  induction ops generalizing pre with
  | nil => simp [resultsWith]
  | cons p ops ih =>
    obtain ⟨s, op⟩ := p
    rw [atEvery_cons]
    cases op with
    | storeItem x => simp [resultsWith, ih]
    | getItem k => simp [resultsWith, ih]

/-- The answers of the store are those of a last-write-wins map exactly when, at every `getItem` of
the history, the first and the last earlier `storeItem` of the key carry the same item. -/
theorem execHistory_eq_last_iff (ops : History) :
    execHistory hashRange MemcachedServer.init ops = resultsWith lastStored [] ops ↔
      AtEvery (fun before call => ∀ key, call.2 = .getItem key →
        firstStored before key = lastStored before key) ops := by
  rw [execHistory_eq_first hashRange (holdsFirst_init hashRange), resultsWith_eq_iff]
  simp only [List.nil_append]

/-- A key stored twice by two sessions: the second item is dropped. -/
theorem execHistory_overwrite_lost : ¬∀ (hashRange : Bytes → ℕ) (ops : History),
    execHistory hashRange MemcachedServer.init ops = resultsWith lastStored [] ops := by
  intro h
  have := h (fun _ => 0) [(1, .storeItem (Item.makeItem (ascii "k") 0 0 (ascii "old"))),
    (2, .storeItem (Item.makeItem (ascii "k") 0 0 (ascii "new"))), (1, .getItem (ascii "k"))]
  revert this
  decide

end LinuxSocket.Memcached
