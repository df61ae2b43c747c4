import LinuxSocket.Lib.Memory

/-! # The messages of ttcp -/
namespace LinuxSocket.Ttcp

def maxBufferLength : ℤ := 1024 * 1024 * 10

structure SessionMessage where
  number : ℤ
  length : ℤ
  deriving DecidableEq

def int32Bytes (host : Endian) (n : ℤ) : Bytes := host.store (host.htonl (ofInt32 n))

def int32OfBytes (host : Endian) (bytes : Bytes) : ℤ := toInt32 (host.ntohl (host.load bytes))

@[irreducible] def word (bytes : Bytes) : ℤ := toInt32 (bigEndian (bytes.take 4))

def IsInt32 (n : ℤ) : Prop := -2 ^ 31 ≤ n ∧ n < 2 ^ 31

@[simp] theorem length_int32Bytes (host : Endian) (n : ℤ) : (int32Bytes host n).length = 4 :=
  length_store host _

theorem toInt32_bigEndian_int32Bytes (peer : Endian) {n : ℤ} (h : IsInt32 n) :
    toInt32 (bigEndian (int32Bytes peer n)) = n := by
  rw [int32Bytes, store_htonl, bigEndian_networkOrder (ofInt32_lt n), toInt32_ofInt32 h.1 h.2]

/-- An `int32_t` is received as it was sent, whatever the two hosts. -/
theorem int32OfBytes_int32Bytes (host peer : Endian) {n : ℤ} (h : IsInt32 n) :
    int32OfBytes host (int32Bytes peer n) = n := by
  rw [int32OfBytes, ntohl_load host (length_int32Bytes peer n), toInt32_bigEndian_int32Bytes peer h]

def SessionMessage.bytes (peer : Endian) (smsg : SessionMessage) : Bytes :=
  int32Bytes peer smsg.number ++ int32Bytes peer smsg.length

section Words
variable {peer : Endian} {smsg : SessionMessage} {n : ℤ} {bytes more : Bytes}

theorem isInt32_word (bytes : Bytes) : IsInt32 (word bytes) := by
  unfold word toInt32
  generalize bigEndian (bytes.take 4) = x
  have hle : -(2 ^ 32 / 2 : ℤ) ≤ Int.bmod x (2 ^ 32) := Int.le_bmod (by decide)
  have hlt : Int.bmod x (2 ^ 32) < (2 ^ 32 + 1) / 2 := Int.bmod_lt (by decide)
  exact ⟨hle, hlt⟩

theorem word_append (h : 4 ≤ bytes.length) (more : Bytes) : word (bytes ++ more) = word bytes := by
  unfold word
  rw [List.take_append_of_le_length h]

theorem word_drop_append {k : ℕ} (h : k + 4 ≤ bytes.length) (more : Bytes) :
    word ((bytes ++ more).drop k) = word (bytes.drop k) := by
  rw [List.drop_append_of_le_length (by omega), word_append (by rw [List.length_drop]; omega)]

theorem word_int32Bytes (h : IsInt32 n) (more : Bytes) : word (int32Bytes peer n ++ more) = n := by
  unfold word
  rw [List.take_left' (length_int32Bytes peer n), toInt32_bigEndian_int32Bytes peer h]

@[simp] theorem SessionMessage.length_bytes : (smsg.bytes peer).length = 8 := by simp [SessionMessage.bytes]

theorem word_bytes (h : IsInt32 smsg.number) (more : Bytes) : word (smsg.bytes peer ++ more) = smsg.number := by
  rw [SessionMessage.bytes, List.append_assoc, word_int32Bytes h]

theorem word_drop_bytes (h : IsInt32 smsg.length) (more : Bytes) :
    word ((smsg.bytes peer ++ more).drop 4) = smsg.length := by
  rw [SessionMessage.bytes, List.append_assoc, List.drop_left' (length_int32Bytes peer _), word_int32Bytes h]

theorem drop_bytes (more : Bytes) : (smsg.bytes peer ++ more).drop 8 = more :=
  List.drop_left' SessionMessage.length_bytes

end Words

def payloadMessage (peer : Endian) (length : ℤ) (data : Bytes) : Bytes := int32Bytes peer length ++ data

structure SessionMessage.Accepted (smsg : SessionMessage) : Prop where
  number_pos : 0 < smsg.number
  number_lt : smsg.number < 2 ^ 31
  length_pos : 0 < smsg.length
  length_le : smsg.length ≤ maxBufferLength

/-- The unsigned total length of a frame does not wrap. -/
theorem totalLen_eq {length : ℤ} (h : 0 < length ∧ length ≤ maxBufferLength) :
    ofInt32 (4 + length) = 4 + length.toNat := by
  have hle : length ≤ 10485760 := h.2
  unfold ofInt32
  omega

end LinuxSocket.Ttcp
