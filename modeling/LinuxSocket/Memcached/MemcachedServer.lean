import LinuxSocket.Memcached.Item

/-! # The sharded store

Each operation runs under the mutex of one shard, so it is one step of the model.
`getItem_storeItem` is all later proofs use of the two functions.
-/
namespace LinuxSocket.Memcached

def kShards : ℕ := 4096

/-- The part of the server that the sessions share. -/
structure MemcachedServer where
  shards : Fin kShards → ItemMap

namespace MemcachedServer

def init : MemcachedServer := ⟨fun _ => []⟩

variable (hashRange : Bytes → ℕ)

def shardOf (x : Item) : Fin kShards := ⟨x.hash hashRange % kShards, Nat.mod_lt _ (by decide)⟩

def storeItem (srv : MemcachedServer) (itemPtr : Item) : MemcachedServer :=
  let i := shardOf hashRange itemPtr
  ⟨Function.update srv.shards i ((srv.shards i).insert hashRange itemPtr)⟩

/-- `none` is the null pointer. -/
def getItem (srv : MemcachedServer) (key : Item) : Option Item :=
  (srv.shards (shardOf hashRange key)).find hashRange key

theorem getItem_storeItem (srv : MemcachedServer) (x key : Item) :
    (srv.storeItem hashRange x).getItem hashRange key =
      (srv.getItem hashRange key).or (if x.key = key.key then some x else none) := by
  simp only [getItem, storeItem]
  by_cases hi : shardOf hashRange key = shardOf hashRange x
  · rw [hi, Function.update_self, ItemMap.find_insert]
  · have hk : x.key ≠ key.key := by
      intro hk
      apply hi
      simp only [shardOf, Item.hash, hk]
    rw [Function.update_of_ne hi, if_neg hk, Option.or_none]

theorem key_of_getItem {srv : MemcachedServer} {key x : Item} (h : srv.getItem hashRange key = some x) :
    x.key = key.key := ItemMap.key_of_find hashRange h

end MemcachedServer

end LinuxSocket.Memcached
