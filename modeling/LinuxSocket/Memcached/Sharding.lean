import Mathlib.Algebra.BigOperators.Fin
import LinuxSocket.Memcached.LastWrite

/-! # The shards together are one item map

The abstract store is one `ItemMap`. A server refines it when every shard is the part of the
map whose items hash to that shard; placement, uniqueness of keys and all answers follow.
-/
namespace LinuxSocket.Memcached

structure ItemObject where
  keyLen : ℕ
  flag : ℤ
  exptime : ℤ
  valueLen : ℕ
  hash : ℕ
  /-- key and value in one allocation -/
  data : Bytes

namespace ItemObject
variable (hashRange : Bytes → ℕ)

/-- `Item::Item`, the constructor behind `makeItem` and `makeKeyItem`. -/
def construct (keyArg : Bytes) (flag exptime : ℤ) (valueArg : Bytes) : ItemObject where
  keyLen := keyArg.length
  flag := flag
  exptime := exptime
  valueLen := valueArg.length
  hash := hashRange keyArg
  data := keyArg ++ valueArg

def key (x : ItemObject) : Bytes := x.data.take x.keyLen

def value (x : ItemObject) : Bytes := (x.data.drop x.keyLen).take x.valueLen

def toItem (x : ItemObject) : Item := ⟨x.key, x.flag, x.exptime, x.value⟩

/-- An object shows the four arguments it was built from, and its stored hash is that of its key. -/
theorem toItem_construct (keyArg : Bytes) (flag exptime : ℤ) (valueArg : Bytes) :
    (construct hashRange keyArg flag exptime valueArg).toItem = Item.makeItem keyArg flag exptime valueArg ∧
      (construct hashRange keyArg flag exptime valueArg).hash =
        Hash hashRange (Item.makeItem keyArg flag exptime valueArg) := by
  constructor
  · simp [toItem, key, value, construct, Item.makeItem]
  · simp [construct, Hash, Item.hash, Item.makeItem]

end ItemObject

variable (hashRange : Bytes → ℕ)

def serverAfter (srv : MemcachedServer) : History → MemcachedServer
  | [] => srv
  | (_, op) :: ops => serverAfter (execOp hashRange srv op).1 ops

def execMapOp (m : ItemMap) : StoreOp → ItemMap × Option (Option Item)
  | .storeItem itemPtr => (m.insert hashRange itemPtr, none)
  | .getItem key => (m, some (m.find hashRange (Item.makeKeyItem key)))

def execMap (m : ItemMap) : History → List (Option Item)
  | [] => []
  | (_, op) :: ops =>
    let r := execMapOp hashRange m op
    r.2.toList ++ execMap r.1 ops

namespace MemcachedServer

/-- Every shard is the part of the map whose items hash to it. -/
def Refines (srv : MemcachedServer) (m : ItemMap) : Prop :=
  ∀ i, srv.shards i = m.filter fun x => decide (shardOf hashRange x = i)

structure Representation (srv : MemcachedServer) (ops : History) : Prop where
  placed : ∀ i, ∀ x ∈ srv.shards i, Hash hashRange x % kShards = i
  unique : ∀ key, ∑ i, (srv.shards i).countP (fun x => x.key == key) ≤ 1
  whole : ∀ i, ∀ x ∈ srv.shards i, ∃ s, (s, StoreOp.storeItem x) ∈ ops

theorem shardOf_eq_of_key {x y : Item} (h : x.key = y.key) : shardOf hashRange x = shardOf hashRange y := by
  simp only [shardOf, Item.hash, h]

theorem refines_init : init.Refines hashRange [] := fun _ => rfl

variable {hashRange}

theorem Refines.storeItem {srv : MemcachedServer} {m : ItemMap} (h : srv.Refines hashRange m) (x : Item) :
    (srv.storeItem hashRange x).Refines hashRange (m.insert hashRange x) := by
  intro i
  simp only [MemcachedServer.storeItem]
  by_cases hi : i = shardOf hashRange x
  · subst hi
    rw [Function.update_self, h]
    refine UnorderedSet.insert_filter ?_ (by simp)
    intro y hy
    simpa using shardOf_eq_of_key hashRange ((same_iff hashRange y x).mp hy)
  · rw [Function.update_of_ne hi, h]
    exact (UnorderedSet.filter_insert (by simpa using Ne.symm hi)).symm

theorem Refines.getItem {srv : MemcachedServer} {m : ItemMap} (h : srv.Refines hashRange m) (key : Item) :
    srv.getItem hashRange key = m.find hashRange key := by
  rw [MemcachedServer.getItem, h]
  refine UnorderedSet.find_filter ?_
  intro y hy
  simpa using shardOf_eq_of_key hashRange ((same_iff hashRange y key).mp hy)

/-- A key has at most one item in a map that keeps one item of each. -/
theorem countP_key_le_one {m : ItemMap} (hu : UnorderedSet.Unique (Hash hashRange) Equal m) (key : Bytes) :
    m.countP (fun x => x.key == key) ≤ 1 := by
  have hn : (m.map Item.key).Nodup := by
    refine List.pairwise_map.mpr (hu.imp ?_)
    intro x y hxy hk
    exact hxy ((same_iff hashRange x y).mpr hk)
  calc m.countP (fun x => x.key == key) = (m.map Item.key).count key := by
        rw [List.count, List.countP_map]; rfl
    _ ≤ 1 := List.nodup_iff_count_le_one.mp hn key

/-- All items of one key are in one shard, so the shards hold together as many as the map. -/
theorem Refines.sum_countP {srv : MemcachedServer} {m : ItemMap} (h : srv.Refines hashRange m) (key : Bytes) :
    ∑ i, (srv.shards i).countP (fun x => x.key == key) = m.countP (fun x => x.key == key) := by
  have home : ∀ x : Item, x.key = key → shardOf hashRange x = shardOf hashRange (Item.makeKeyItem key) :=
    fun x hx => shardOf_eq_of_key hashRange hx
  rw [Finset.sum_eq_single (shardOf hashRange (Item.makeKeyItem key))]
  · rw [h, List.countP_filter]
    congr 1
    funext x
    by_cases hx : x.key = key <;> simp [hx, home]
  · intro i _ hi
    rw [h, List.countP_filter, List.countP_eq_zero]
    intro x _
    by_cases hx : x.key = key
    · simp [home x hx, Ne.symm hi]
    · simp [hx]
  · intro hn
    exact absurd (Finset.mem_univ _) hn

end MemcachedServer

open MemcachedServer

/-- The relation kept along a history: the server refines the map, the map holds one item of a key,
and only items that were stored. -/
structure Tracks (srv : MemcachedServer) (m : ItemMap) (stored : Item → Prop) : Prop where
  refines : srv.Refines hashRange m
  unique : UnorderedSet.Unique (Hash hashRange) Equal m
  whole : ∀ x ∈ m, stored x

variable {hashRange}

theorem Tracks.execOp {srv : MemcachedServer} {m : ItemMap} {stored : Item → Prop}
    (h : Tracks hashRange srv m stored) (op : StoreOp) (hop : ∀ x, op = .storeItem x → stored x) :
    Tracks hashRange (execOp hashRange srv op).1 (execMapOp hashRange m op).1 stored ∧
      (execOp hashRange srv op).2 = (execMapOp hashRange m op).2 := by
  cases op with
  | getItem key => exact ⟨h, by simp only [Memcached.execOp, execMapOp, h.refines.getItem]⟩
  | storeItem x =>
    refine ⟨⟨h.refines.storeItem x, h.unique.insert x, ?_⟩, rfl⟩
    intro y hy
    rcases UnorderedSet.mem_of_mem_insert hy with hy | rfl
    · exact h.whole y hy
    · exact hop y rfl

theorem Tracks.history {srv : MemcachedServer} {m : ItemMap} {stored : Item → Prop}
    (h : Tracks hashRange srv m stored) (ops : History) (hops : ∀ s x, (s, .storeItem x) ∈ ops → stored x) :
    (∃ m', Tracks hashRange (serverAfter hashRange srv ops) m' stored) ∧
      execHistory hashRange srv ops = execMap hashRange m ops := by
  induction ops generalizing srv m with
  | nil => exact ⟨⟨m, h⟩, rfl⟩
  | cons p ops ih =>
    obtain ⟨s, op⟩ := p
    obtain ⟨h', hr⟩ := h.execOp op fun x hx => hops s x (by simp [hx])
    obtain ⟨hafter, hres⟩ := ih h' fun s x hx => hops s x (by simp [hx])
    refine ⟨hafter, ?_⟩
    simp only [execHistory, execMap, hr, hres]

theorem Tracks.representation {srv : MemcachedServer} {m : ItemMap} {ops : History}
    (h : Tracks hashRange srv m fun x => ∃ s, (s, StoreOp.storeItem x) ∈ ops) :
    srv.Representation hashRange ops := by
  have mem : ∀ {i x}, x ∈ srv.shards i → x ∈ m ∧ shardOf hashRange x = i := by
    intro i x hx
    rw [h.refines i] at hx
    simpa using hx
  constructor
  · intro i x hx
    exact congrArg Fin.val (mem hx).2
  · intro key
    rw [h.refines.sum_countP]
    exact countP_key_le_one h.unique key
  · intro i x hx
    exact h.whole x (mem hx).1

variable (hashRange) in
/-- Whatever the hash function, the shards keep their representation after every history, and the
answers are those of one unsharded map. -/
theorem sharding_invisible (ops : History) :
    (serverAfter hashRange MemcachedServer.init ops).Representation hashRange ops ∧
      execHistory hashRange MemcachedServer.init ops = execMap hashRange [] ops := by
  have start : Tracks hashRange MemcachedServer.init [] fun x => ∃ s, (s, StoreOp.storeItem x) ∈ ops :=
    ⟨refines_init hashRange, List.Pairwise.nil, by simp⟩
  obtain ⟨⟨m, hm⟩, hres⟩ := start.history ops fun s x hx => ⟨s, hx⟩
  exact ⟨hm.representation, hres⟩

end LinuxSocket.Memcached
