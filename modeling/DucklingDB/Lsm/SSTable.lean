import DucklingDB.Lsm.Iterator

/-!
# SSTables

What an SSTable file holds: its records in ascending order, and a Bloom filter over their keys.
`SSTableReader.Get` asks the filter first and then searches the records by bisection. The filter
never rejects a key that was added to it (`BloomFilter.mayContain_build`), so the answer is that of
the list of records (`SSTable.get_ofRecords`).

The filter's size is computed in floating point. `BloomSizing` is what is needed of it: some whole
number of bytes, at least one, and at least one hash function.
-/

namespace DucklingDB.Lsm

open Overlay SortedMap
open List hiding lookup

/-! ## Bloom filters -/

/-- `NewBloomFilter`'s sizing for a number of keys. -/
class BloomSizing where
  numBits : ℕ → ℕ
  numHashes : ℕ
  numBits_pos : ∀ n, 0 < numBits n
  dvd_numBits : ∀ n, 8 ∣ numBits n
  numHashes_pos : 0 < numHashes

/-- The sizing at a false positive rate of one percent, with decimals in place of floating point. -/
instance : BloomSizing where
  numBits n := 8 * ((max n 1 * 9585058377 / 1000000000 + 8) / 8)
  numHashes := 7
  numBits_pos n := by omega
  dvd_numBits n := Nat.dvd_mul_right _ _
  numHashes_pos := by decide

structure BloomFilter where
  bits : List UInt8
  numBits : ℕ
  numHashes : ℕ
  deriving DecidableEq

namespace BloomFilter

/-- FNV-64a, continued from a hash value. -/
def fnv64a (h : UInt64) (data : Bytes) : UInt64 :=
  data.foldl (fun h b ↦ (h ^^^ b.toUInt64) * 1099511628211) h

def bloomHash (key : Bytes) : UInt64 × UInt64 :=
  (fnv64a 14695981039346656037 (0x01 :: key), fnv64a 14695981039346656037 (0x02 :: key))

/-- The bits of a key. -/
def positions (bf : BloomFilter) (key : Bytes) : List ℕ :=
  let h := bloomHash key
  (List.range bf.numHashes).map fun i ↦ (h.1 + h.2 * UInt64.ofNat i).toNat % bf.numBits

/-- The bit of a position within its byte. -/
def mask (pos : ℕ) : UInt8 := 1 <<< UInt8.ofNat (pos % 8)

variable (bits : List UInt8)

def setBit (pos : ℕ) : List UInt8 := bits.modify (pos / 8) (· ||| mask pos)

def testBit (pos : ℕ) : Bool := bits.getD (pos / 8) 0 &&& mask pos != 0

def add (bf : BloomFilter) (key : Bytes) : BloomFilter :=
  { bf with bits := (bf.positions key).foldl setBit bf.bits }

def mayContain (bf : BloomFilter) (key : Bytes) : Bool := (bf.positions key).all (testBit bf.bits)

/-- `NewBloomFilter` for a number of keys. -/
def new [BloomSizing] (numKeys : ℕ) : BloomFilter where
  bits := List.replicate (BloomSizing.numBits numKeys / 8) 0
  numBits := BloomSizing.numBits numKeys
  numHashes := BloomSizing.numHashes

/-- The filter that `Finish` builds. -/
def build [BloomSizing] (keys : List Bytes) : BloomFilter :=
  keys.foldl add (new (max keys.length 1))

theorem mask_ne_zero (pos : ℕ) : mask pos ≠ 0 := by
  have h : ∀ i < 8, (1 : UInt8) <<< UInt8.ofNat i ≠ 0 := by decide
  exact h _ (Nat.mod_lt _ (by decide))

theorem or_and_self (x m : UInt8) : (x ||| m) &&& m = m := by
  apply UInt8.toBitVec_inj.mp
  ext i hi
  simpa using Or.inr

theorem and_ne_zero_of_or {x m m' : UInt8} (h : x &&& m ≠ 0) : (x ||| m') &&& m ≠ 0 := by
  intro h0
  apply h
  apply UInt8.toBitVec_inj.mp
  ext i hi
  have hbit : ((x ||| m') &&& m).toBitVec[i] = false := by
    simp [h0]
  simp only [UInt8.toBitVec_and, UInt8.toBitVec_or, BitVec.getElem_and, BitVec.getElem_or] at hbit ⊢
  simp_all

/-- Every position of the filter lies in its bit array. -/
structure Sized (bf : BloomFilter) : Prop where
  numBits_pos : 0 < bf.numBits
  length_bits : bf.numBits ≤ 8 * bf.bits.length

theorem length_setBit (pos : ℕ) : (setBit bits pos).length = bits.length := length_modify ..

theorem length_foldl_setBit (ps : List ℕ) (bits : List UInt8) :
    (ps.foldl setBit bits).length = bits.length := by
  induction ps generalizing bits with
  | nil => rfl
  | cons p ps ih => rw [foldl_cons, ih, length_setBit]

variable {bits : List UInt8} {pos : ℕ}

theorem testBit_setBit_self (h : pos / 8 < bits.length) : testBit (setBit bits pos) pos = true := by
  have hget : (setBit bits pos).getD (pos / 8) 0 = bits[pos / 8] ||| mask pos := by
    simp [setBit, getD_eq_getElem?_getD, h]
  rw [testBit, hget, or_and_self]
  simpa using mask_ne_zero pos

theorem testBit_setBit (p : ℕ) (h : testBit bits pos = true) :
    testBit (setBit bits p) pos = true := by
  rw [testBit, bne_iff_ne] at h ⊢
  by_cases hp : p / 8 = pos / 8
  · by_cases hlen : pos / 8 < bits.length
    · have hget : (setBit bits p).getD (pos / 8) 0 = bits.getD (pos / 8) 0 ||| mask p := by
        simp [setBit, getD_eq_getElem?_getD, hp, hlen]
      rw [hget]
      exact and_ne_zero_of_or h
    · exact absurd (by simp [getD_eq_getElem?_getD, not_lt.mp hlen]) h
  · have hget : (setBit bits p).getD (pos / 8) 0 = bits.getD (pos / 8) 0 := by
      simp [setBit, getD_eq_getElem?_getD, hp]
    rwa [hget]

theorem testBit_foldl_setBit (ps : List ℕ) (h : testBit bits pos = true) :
    testBit (ps.foldl setBit bits) pos = true := by
  induction ps generalizing bits with
  | nil => exact h
  | cons p ps ih => exact ih (testBit_setBit p h)

theorem testBit_foldl_setBit_of_mem {ps : List ℕ} (hmem : pos ∈ ps)
    (h : pos / 8 < bits.length) : testBit (ps.foldl setBit bits) pos = true := by
  induction ps generalizing bits with
  | nil => cases hmem
  | cons p ps ih =>
    rw [foldl_cons]
    obtain rfl | hmem := mem_cons.mp hmem
    · exact testBit_foldl_setBit ps (testBit_setBit_self h)
    · exact ih hmem (by rwa [length_setBit])

variable {bf : BloomFilter} {key : Bytes} {keys : List Bytes}

theorem Sized.add (h : bf.Sized) (key : Bytes) : (bf.add key).Sized where
  numBits_pos := h.numBits_pos
  length_bits := by
    rw [BloomFilter.add, length_foldl_setBit]
    exact h.length_bits

theorem sized_new [BloomSizing] (n : ℕ) : (new n).Sized where
  numBits_pos := BloomSizing.numBits_pos n
  length_bits := by
    obtain ⟨m, hm⟩ := BloomSizing.dvd_numBits n
    simp only [new, length_replicate, hm]
    omega

theorem mayContain_add_self (h : bf.Sized) (key : Bytes) : (bf.add key).mayContain key = true := by
  refine all_eq_true.mpr fun pos hpos ↦ testBit_foldl_setBit_of_mem hpos ?_
  obtain ⟨i, -, rfl⟩ := mem_map.mp hpos
  have hlt :=
    Nat.mod_lt ((bloomHash key).1 + (bloomHash key).2 * UInt64.ofNat i).toNat h.numBits_pos
  have hlen := h.length_bits
  change _ % bf.numBits / 8 < _
  omega

theorem mayContain_add (key' : Bytes) (h : bf.mayContain key = true) :
    (bf.add key').mayContain key = true :=
  all_eq_true.mpr fun pos hpos ↦ testBit_foldl_setBit _ (all_eq_true.mp h pos hpos)

theorem mayContain_foldl_add (hbf : bf.Sized)
    (h : key ∈ keys ∨ bf.mayContain key = true) : (keys.foldl add bf).mayContain key = true := by
  induction keys generalizing bf with
  | nil => exact h.resolve_left not_mem_nil
  | cons k keys ih =>
    refine ih (hbf.add k) ?_
    obtain hmem | hbf' := h
    · obtain rfl | hmem := mem_cons.mp hmem
      · exact .inr (mayContain_add_self hbf key)
      · exact .inl hmem
    · exact .inr (mayContain_add k hbf')

/-- No false negatives. -/
theorem mayContain_build [BloomSizing] (h : key ∈ keys) : (build keys).mayContain key = true :=
  mayContain_foldl_add (sized_new _) (.inl h)

end BloomFilter

/-! ## The reader -/

/-- The contents of an SSTable file. -/
structure SSTable where
  records : List Record
  bloom : BloomFilter
  deriving DecidableEq

namespace SSTable

/-- `WriteSSTableFromIterator`, for the records the iterator yields. -/
def ofRecords [BloomSizing] (records : List Record) : SSTable :=
  ⟨records, BloomFilter.build (records.map Prod.fst)⟩

/-- The bisection of `SSTableReader.Get`, over the closed interval from `left` to `right`. -/
def getLoop (records : List Record) (key : Bytes) : ℕ → ℤ → ℤ → Option (Option Bytes)
  | 0, _, _ => none
  | fuel + 1, left, right =>
    if left ≤ right then
      let mid := left + (right - left) / 2
      match records[mid.toNat]? with
      | none => none
      | some record =>
        if record.1 = key then some record.2
        else if record.1 < key then getLoop records key fuel (mid + 1) right
        else getLoop records key fuel left (mid - 1)
    else none

/-- `SSTableReader.Get`: `none` is not found, `some none` a tombstone. -/
def get (t : SSTable) (key : Bytes) : Option (Option Bytes) :=
  if t.bloom.mayContain key then
    getLoop t.records key t.records.length 0 ((t.records.length : ℤ) - 1)
  else none

/-- The closed interval from `left` to `right` holds the index of the key, if there is one. -/
def Covers (records : List Record) (key : Bytes) (left right : ℤ) : Prop :=
  ∀ (i : ℕ) (hi : i < records.length), records[i].1 = key → left ≤ i ∧ i ≤ right

theorem Covers.lookup_eq_none {records : List Record} {key : Bytes} {left right : ℤ}
    (h : Covers records key left right) (hlr : right < left) :
    lookup key records = none := by
  refine SortedMap.lookup_eq_none fun r hr heq ↦ ?_
  obtain ⟨i, hi, rfl⟩ := mem_iff_getElem.mp hr
  obtain ⟨hl, hr⟩ := h i hi heq
  omega

section Search

variable {records : List Record} {key : Bytes} {left right : ℤ} {m : ℕ}

section

variable (h : Ascending records)
include h

theorem getElem_lt_getElem {i j : ℕ} (hij : i < j) (hj : j < records.length) :
    records[i].1 < records[j].1 :=
  pairwise_iff_getElem.mp h i j (hij.trans hj) hj hij

theorem Covers.above (hc : Covers records key left right) (hm : m < records.length)
    (hlt : records[m].1 < key) : Covers records key (m + 1) right := by
  refine fun i hi hik ↦ ⟨?_, (hc i hi hik).2⟩
  by_contra hle
  obtain rfl | him : i = m ∨ i < m := by omega
  · exact hlt.ne hik
  · exact lt_asymm (getElem_lt_getElem h him hm) (hik ▸ hlt)

theorem Covers.below (hc : Covers records key left right) (hm : m < records.length)
    (hlt : key < records[m].1) : Covers records key left (m - 1) := by
  refine fun i hi hik ↦ ⟨(hc i hi hik).1, ?_⟩
  by_contra hle
  obtain rfl | him : i = m ∨ m < i := by omega
  · exact hlt.ne' hik
  · exact lt_asymm (getElem_lt_getElem h him hi) (hik ▸ hlt)

theorem getLoop_eq {fuel : ℕ} (hleft : 0 ≤ left) (hright : right < records.length)
    (hfuel : right < left + fuel) (hc : Covers records key left right) :
    getLoop records key fuel left right = lookup key records := by
  induction fuel generalizing left right with
  | zero => rw [getLoop, hc.lookup_eq_none (by simpa using hfuel)]
  | succ fuel ih =>
    rw [getLoop]
    split
    · rename_i hlr
      obtain ⟨m, hm⟩ : ∃ m : ℕ, left + (right - left) / 2 = m :=
        ⟨_, (Int.toNat_of_nonneg (by omega)).symm⟩
      have hlen : m < records.length := by omega
      simp only [hm, Int.toNat_natCast, getElem?_eq_getElem hlen]
      split_ifs with heq hlt
      · have hmem : (key, records[m].2) ∈ records := by
          rw [← heq]
          exact getElem_mem hlen
        exact (lookup_of_mem h hmem).symm
      · exact ih (by omega) hright (by omega) (hc.above h hlen hlt)
      · have hgt : key < records[m].1 := lt_of_le_of_ne (not_lt.mp hlt) (Ne.symm heq)
        exact ih hleft (by omega) (by omega) (hc.below h hlen hgt)
    · exact (hc.lookup_eq_none (by omega)).symm

end

end Search

/-- A table written from ascending records answers as the list of records does. -/
theorem get_ofRecords [BloomSizing] {records : List Record} (h : Ascending records) (key : Bytes) :
    (ofRecords records).get key = lookup key records := by
  rw [get]
  split
  · refine getLoop_eq h le_rfl (by simp [ofRecords]) (by simp [ofRecords]) fun i hi _ ↦ ?_
    simp only [ofRecords]
    omega
  · rename_i hbloom
    refine (lookup_eq_none fun r hr heq ↦ hbloom ?_).symm
    exact BloomFilter.mayContain_build (mem_map.mpr ⟨r, hr, heq⟩)

end SSTable

end DucklingDB.Lsm
