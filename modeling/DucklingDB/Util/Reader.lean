import DucklingDB.Util.Bytes

/-!
# Reading binary formats

The files and blobs of the storage layers are sequences of little-endian numbers and of byte strings
whose lengths precede them, and checksums guard them. `readFull` is `io.ReadFull`: it takes so many
bytes off the front of what is left, or fails. A number that does not fit its width is cut to the
width when it is written, as a Go conversion does.
-/

namespace DucklingDB.Bytes

open List

/-! ## Little-endian numbers -/

/-- The `w` bytes of `n`, the least significant first. -/
def leBytes (w n : ℕ) : Bytes := (beBytes w n).reverse

/-- The number with these bytes. -/
def ofLeBytes (b : Bytes) : ℕ := ofBeBytes b.reverse

@[simp] theorem length_leBytes (w n : ℕ) : (leBytes w n).length = w := by
  rw [leBytes, length_reverse, length_beBytes]

theorem ofLeBytes_leBytes {w n : ℕ} (hn : n < 256 ^ w) : ofLeBytes (leBytes w n) = n := by
  rw [ofLeBytes, leBytes, reverse_reverse, ofBeBytes_beBytes hn]

theorem ofLeBytes_lt {w : ℕ} {b : Bytes} (h : b.length = w) : ofLeBytes b < 256 ^ w := by
  have := ofBeBytes_lt b.reverse
  rwa [length_reverse, h] at this

theorem leBytes_ofLeBytes {w : ℕ} {b : Bytes} (h : b.length = w) : leBytes w (ofLeBytes b) = b := by
  have := beBytes_ofBeBytes b.reverse
  rw [length_reverse, h] at this
  rw [leBytes, ofLeBytes, this, reverse_reverse]

/-! ## Readers -/

variable {n : ℕ}

theorem exists_append {r : Bytes} (h : n ≤ r.length) : ∃ a b, r = a ++ b ∧ a.length = n :=
  ⟨r.take n, r.drop n, (take_append_drop n r).symm, length_take_of_le h⟩

/-- `io.ReadFull` of `n` bytes: those bytes and what is left. -/
def readFull (n : ℕ) (r : Bytes) : Option (Bytes × Bytes) :=
  if n ≤ r.length then some (r.take n, r.drop n) else none

theorem readFull_append {a : Bytes} (h : a.length = n) (b : Bytes) :
    readFull n (a ++ b) = some (a, b) := by
  rw [readFull, if_pos (by rw [length_append]; omega), take_left' h, drop_left' h]

theorem readFull_eq_none {r : Bytes} : readFull n r = none ↔ r.length < n := by
  rw [readFull]
  split <;> rename_i hle
  · simpa using hle
  · simpa using hle

/-! ## Checksums -/

/-- One bit of the reflected CRC-32. -/
def crcShift (c : UInt32) : UInt32 := if c &&& 1 = 1 then (c >>> 1) ^^^ 0xEDB88320 else c >>> 1

def crcByte (c : UInt32) (b : UInt8) : UInt32 := Nat.iterate crcShift 8 (c ^^^ b.toUInt32)

variable (data : Bytes)

/-- `crc32.ChecksumIEEE`. -/
def crc32 : UInt32 := data.foldl crcByte 0xFFFFFFFF ^^^ 0xFFFFFFFF

/-- The checksum as it is stored. -/
def checksum : Bytes := leBytes 4 (crc32 data).toNat

-- the check value of CRC-32/ISO-HDLC, for the digits from 1 to 9
example : crc32 [0x31, 0x32, 0x33, 0x34, 0x35, 0x36, 0x37, 0x38, 0x39] = 0xCBF43926 := by
  decide +kernel

@[simp] theorem length_checksum : (checksum data).length = 4 := length_leBytes ..

theorem ofLeBytes_checksum : ofLeBytes (checksum data) = (crc32 data).toNat :=
  ofLeBytes_leBytes (crc32 data).toNat_lt

end DucklingDB.Bytes
