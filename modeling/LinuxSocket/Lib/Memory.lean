import Mathlib.Tactic.NormNum
import LinuxSocket.Lib.Line

/-! # Memory: blocks of bytes and words in network order

`none` is an access outside of the block.
-/
namespace LinuxSocket

section Blocks

/-- `std::copy` of `src` to the cells of `dst` from index `i` on. -/
def copyTo (dst : Bytes) (i : ℕ) (src : Bytes) : Bytes := dst.take i ++ src ++ dst.drop (i + src.length)

def resize (xs : Bytes) (n : ℕ) : Bytes := xs.take n ++ List.replicate (n - xs.length) 0

def copyInto (dst : Bytes) (i : ℕ) (src : Bytes) : Option Bytes :=
  if i + src.length ≤ dst.length then some (copyTo dst i src) else none

/-- The bytes from index `i` to before index `j`. -/
def cells (xs : Bytes) (i j : ℕ) : Option Bytes :=
  if j ≤ xs.length then some ((xs.drop i).take (j - i)) else none

theorem copyInto_of_le {dst src : Bytes} {i : ℕ} (h : i + src.length ≤ dst.length) :
    copyInto dst i src = some (copyTo dst i src) := if_pos h

theorem cells_of_le {xs : Bytes} {i j : ℕ} (h : j ≤ xs.length) :
    cells xs i j = some ((xs.drop i).take (j - i)) := if_pos h

theorem length_copyTo {dst src : Bytes} {i : ℕ} (h : i + src.length ≤ dst.length) :
    (copyTo dst i src).length = dst.length := by
  simp only [copyTo, List.length_append, List.length_take, List.length_drop]
  omega

theorem length_resize {xs : Bytes} {n : ℕ} (h : xs.length ≤ n) : (resize xs n).length = n := by
  simp only [resize, List.length_append, List.length_take, List.length_replicate]
  omega

theorem copyTo_zero (xs src : Bytes) : copyTo xs 0 src = src ++ xs.drop src.length := by
  rw [copyTo, Nat.zero_add]
  rfl

theorem copyTo_append (xs ys src : Bytes) :
    copyTo (xs ++ ys) xs.length src = xs ++ src ++ ys.drop src.length := by
  rw [copyTo, List.take_left, List.drop_length_add_append]

/-- A copy right behind a range of the block prolongs what the range holds. -/
theorem range_copyTo {dst src : Bytes} {i j : ℕ} (hij : i ≤ j) (hj : j + src.length ≤ dst.length) :
    ((copyTo dst j src).drop i).take (j + src.length - i) = (dst.drop i).take (j - i) ++ src := by
  have hlen : (dst.take j).length = j := by
    rw [List.length_take]
    omega
  have hpre : ((dst.take j).drop i).length = j - i := by
    rw [List.length_drop, hlen]
  rw [copyTo, List.append_assoc, List.drop_append_of_le_length (by omega), ← List.append_assoc,
    List.take_append_of_le_length (by rw [List.length_append, hpre]; omega),
    List.take_of_length_le (by rw [List.length_append, hpre]; omega), List.drop_take]

theorem range_resize {xs : Bytes} {i j n : ℕ} (hj : j ≤ xs.length) (hn : xs.length ≤ n) :
    ((resize xs n).drop i).take (j - i) = (xs.drop i).take (j - i) := by
  rw [resize, List.take_of_length_le hn, ← List.drop_take, ← List.drop_take,
    List.take_append_of_le_length hj]

end Blocks

section Words

/-- The bytes of a word in memory are its digits in the order of the host. -/
inductive Endian
  | little
  | big

def Endian.load : Endian → Bytes → ℕ
  | .little, bytes => bytes.foldr (fun c x => c.toNat + 256 * x) 0
  | .big, bytes => bytes.foldl (fun x c => 256 * x + c.toNat) 0

/-- `ntohl`: the word is in network order, and a little-endian host exchanges its four bytes. -/
def Endian.ntohl : Endian → ℕ → ℕ
  | .little, x => x % 256 * 2 ^ 24 + x / 2 ^ 8 % 256 * 2 ^ 16 + x / 2 ^ 16 % 256 * 2 ^ 8 + x / 2 ^ 24 % 256
  | .big, x => x

def Endian.htonl (host : Endian) (x : ℕ) : ℕ := host.ntohl x

/-- The four bytes of a word in memory. -/
def Endian.store : Endian → ℕ → Bytes
  | .little, x => [UInt8.ofNat x, UInt8.ofNat (x / 2 ^ 8), UInt8.ofNat (x / 2 ^ 16), UInt8.ofNat (x / 2 ^ 24)]
  | .big, x => [UInt8.ofNat (x / 2 ^ 24), UInt8.ofNat (x / 2 ^ 16), UInt8.ofNat (x / 2 ^ 8), UInt8.ofNat x]

def toInt32 (x : ℕ) : ℤ := Int.bmod x (2 ^ 32)

def ofInt32 (n : ℤ) : ℕ := (n % 2 ^ 32).toNat

def bigEndian (bytes : Bytes) : ℕ := bytes.foldl (fun x c => 256 * x + c.toNat) 0

/-- Loading a word from memory and converting it from network order is the same on every host. -/
theorem ntohl_load (host : Endian) {bytes : Bytes} (h : bytes.length = 4) :
    host.ntohl (host.load bytes) = bigEndian bytes := by
  obtain ⟨a, c, d, e, rfl⟩ : ∃ a c d e, bytes = [a, c, d, e] := by
    rcases bytes with _ | ⟨a, _ | ⟨c, _ | ⟨d, _ | ⟨e, _ | ⟨x, bytes⟩⟩⟩⟩⟩ <;> simp at h
    exact ⟨a, c, d, e, rfl⟩
  cases host with
  | big => rfl
  | little =>
    have ha := a.toNat_lt
    have hc := c.toNat_lt
    have hd := d.toNat_lt
    have he := e.toNat_lt
    simp only [Endian.ntohl, Endian.load, bigEndian, List.foldr_cons, List.foldr_nil, List.foldl_cons,
      List.foldl_nil]
    generalize hx : a.toNat + 256 * (c.toNat + 256 * (d.toNat + 256 * (e.toNat + 256 * 0))) = x
    have h0 : x % 256 = a.toNat := by omega
    have h1 : x / 2 ^ 8 % 256 = c.toNat := by omega
    have h2 : x / 2 ^ 16 % 256 = d.toNat := by omega
    have h3 : x / 2 ^ 24 % 256 = e.toNat := by omega
    rw [h0, h1, h2, h3]
    omega

def networkOrder (x : ℕ) : Bytes :=
  [UInt8.ofNat (x / 2 ^ 24), UInt8.ofNat (x / 2 ^ 16), UInt8.ofNat (x / 2 ^ 8), UInt8.ofNat x]

@[simp] theorem length_store (host : Endian) (x : ℕ) : (host.store x).length = 4 := by
  cases host <;> rfl

theorem ofNat_eq_of_mod {x y : ℕ} (h : x % 256 = y % 256) : UInt8.ofNat x = UInt8.ofNat y := by
  apply UInt8.toNat_inj.mp
  simpa only [UInt8.toNat_ofNat'] using h

/-- Storing a word converted to network order lays it out the same on every host. -/
theorem store_htonl (host : Endian) (x : ℕ) : host.store (host.htonl x) = networkOrder x := by
  cases host with
  | big => rfl
  | little =>
    have ha : x % 256 < 256 := Nat.mod_lt _ (by decide)
    have hb : x / 2 ^ 8 % 256 < 256 := Nat.mod_lt _ (by decide)
    have hc : x / 2 ^ 16 % 256 < 256 := Nat.mod_lt _ (by decide)
    have hd : x / 2 ^ 24 % 256 < 256 := Nat.mod_lt _ (by decide)
    simp only [Endian.store, Endian.htonl, Endian.ntohl, networkOrder, List.cons.injEq, and_true]
    refine ⟨ofNat_eq_of_mod ?_, ofNat_eq_of_mod ?_, ofNat_eq_of_mod ?_, ofNat_eq_of_mod ?_⟩
    all_goals
      generalize x % 256 = a, x / 2 ^ 8 % 256 = b, x / 2 ^ 16 % 256 = c, x / 2 ^ 24 % 256 = d at *
      omega

theorem bigEndian_networkOrder {x : ℕ} (h : x < 2 ^ 32) : bigEndian (networkOrder x) = x := by
  simp only [bigEndian, networkOrder, List.foldl_cons, List.foldl_nil, UInt8.toNat_ofNat']
  omega

theorem ofInt32_lt (n : ℤ) : ofInt32 n < 2 ^ 32 := by
  unfold ofInt32
  omega

theorem ofInt32_cast (n : ℤ) : (ofInt32 n : ℤ) = n % 2 ^ 32 := by
  unfold ofInt32
  omega

theorem toInt32_natCast {x : ℕ} (h : x < 2 ^ 31) : toInt32 x = x := by
  unfold toInt32
  rw [Int.bmod_eq_of_le] <;> omega

theorem toInt32_le (x : ℕ) : toInt32 x ≤ x := by
  unfold toInt32
  rw [Int.bmod_def]
  split_ifs <;> omega

theorem toInt32_lt (x : ℕ) : toInt32 x < 2 ^ 31 := by
  unfold toInt32
  rw [Int.bmod_def]
  split_ifs <;> omega

theorem toInt32_ofInt32 {n : ℤ} (hl : -2 ^ 31 ≤ n) (hr : n < 2 ^ 31) : toInt32 (ofInt32 n) = n := by
  have h := ofInt32_cast n
  unfold toInt32
  rw [Int.bmod_def]
  push_cast
  split_ifs <;> omega

end Words

end LinuxSocket
