import LinuxSocket.ThirdParty
import LinuxSocket.Lib.UnorderedSet

/-! # Items of the memcached server and the sets that hold them -/
namespace LinuxSocket.Memcached

/-- A stored item. `keyLen_` and `valueLen_` are the lengths of its two byte strings. -/
structure Item where
  key : Bytes
  flag : ℤ
  exptime : ℤ
  value : Bytes
  deriving DecidableEq

def Item.makeItem (keyArg : Bytes) (flag exptime : ℤ) (valueArg : Bytes) : Item :=
  ⟨keyArg, flag, exptime, valueArg⟩

def Item.makeKeyItem (keyArg : Bytes) : Item := ⟨keyArg, 0, 0, []⟩

def Item.valueLen (x : Item) : ℤ := x.value.length

variable (hashRange : Bytes → ℕ)

/-- `hash_`, which the constructor computes with `boost::hash_range` over the key bytes. -/
def Item.hash (x : Item) : ℕ := hashRange x.key

def Hash (x : Item) : ℕ := x.hash hashRange

def Equal (x y : Item) : Bool := x.key == y.key

abbrev ItemMap := List Item

def ItemMap.insert (m : ItemMap) (x : Item) : ItemMap := UnorderedSet.insert (Hash hashRange) Equal m x

def ItemMap.find (m : ItemMap) (x : Item) : Option Item := UnorderedSet.find (Hash hashRange) Equal m x

@[simp] theorem same_iff (x y : Item) : UnorderedSet.Same (Hash hashRange) Equal x y ↔ x.key = y.key := by
  simp only [UnorderedSet.Same, Hash, Item.hash, Equal, beq_iff_eq]
  exact ⟨And.right, fun h => ⟨congrArg hashRange h, h⟩⟩

theorem ItemMap.find_insert (m : ItemMap) (x y : Item) :
    (m.insert hashRange x).find hashRange y =
      (m.find hashRange y).or (if x.key = y.key then some x else none) := by
  have h := UnorderedSet.find_insert (Hash hashRange) Equal
    (by simp only [same_iff]; exact fun h₁ h₂ => h₁.trans h₂) m x y
  simpa only [same_iff, find, insert] using h

theorem ItemMap.key_of_find {m : ItemMap} {x y : Item} (h : m.find hashRange x = some y) : y.key = x.key :=
  (same_iff hashRange y x).mp (UnorderedSet.same_of_find h)

end LinuxSocket.Memcached
