import DucklingDB.Util.Bytes
import DucklingDB.Util.Hlc

/-!
# MVCC keys

The encoding of `key.go`. A raw key `k` owns one metadata entry, at `k 0x00`, and one entry per
version, at `k 0x00` followed by twelve bytes: the timestamp, big-endian and complemented, so that
newer versions come first. `Decode` finds the separator by length alone.

Nothing escapes a zero byte within a raw key, so the entries of one key may lie among those of
another. `Separated` is the condition under which they do not: no raw key starts with another one
followed by the separator.
-/

namespace DucklingDB.Mvcc

open Hlc Bytes List Timestamp

/-- A raw key with a timestamp. -/
structure MVCCKey where
  key : Bytes
  timestamp : Timestamp
  deriving DecidableEq, Repr

def keySeparator : UInt8 := 0

/-- The bytes of an encoded timestamp. -/
def tsSize : ℕ := 12

variable (ts : Timestamp)

/-- `encodeTimestampDesc`: larger timestamps get smaller byte strings. -/
def encodeTimestampDesc : Bytes :=
  complement (beBytes 8 ts.wallTime.toUInt64.toNat) ++
    complement (beBytes 4 ts.logical.toUInt32.toNat)

def decodeTimestampDesc (src : Bytes) : Timestamp where
  wallTime := (UInt64.ofNat (ofBeBytes (complement (src.take 8)))).toInt64
  logical := (UInt32.ofNat (ofBeBytes (complement ((src.drop 8).take 4)))).toInt32

def encodeMeta (key : Bytes) : Bytes := key ++ [keySeparator]

/-- `Encode`; a key without timestamp is a metadata key. -/
def encode (k : MVCCKey) : Bytes :=
  if k.timestamp.isEmpty then encodeMeta k.key
  else k.key ++ keySeparator :: encodeTimestampDesc k.timestamp

/-- The errors of `Decode`. -/
inductive KeyError where
  | empty
  | malformed
  deriving DecidableEq, Repr

/-- `Decode`: the raw key, its timestamp, and whether the entry is a version. -/
def decode (encoded : Bytes) : Except KeyError (MVCCKey × Bool) :=
  if encoded = [] then .error .empty
  else
    let sepIdx := encoded.length - tsSize - 1
    if encoded.length > tsSize ∧ encoded[sepIdx]? = some keySeparator then
      .ok ({ key := encoded.take sepIdx
             timestamp := decodeTimestampDesc (encoded.drop (sepIdx + 1)) }, true)
    else if encoded.getLast? = some keySeparator then
      .ok ({ key := encoded.dropLast, timestamp := {} }, false)
    else .error .malformed

/-! ## Timestamps -/

@[simp] theorem length_encodeTimestampDesc : (encodeTimestampDesc ts).length = tsSize := by
  simp [encodeTimestampDesc, tsSize]

theorem decodeTimestampDesc_encode : decodeTimestampDesc (encodeTimestampDesc ts) = ts := by
  have hw : ts.wallTime.toUInt64.toNat < 256 ^ 8 := UInt64.toNat_lt _
  have hl : ts.logical.toUInt32.toNat < 256 ^ 4 := UInt32.toNat_lt _
  have htake : (encodeTimestampDesc ts).take 8 =
      complement (beBytes 8 ts.wallTime.toUInt64.toNat) := by
    rw [encodeTimestampDesc, take_left']
    simp
  have hdrop : ((encodeTimestampDesc ts).drop 8).take 4 =
      complement (beBytes 4 ts.logical.toUInt32.toNat) := by
    rw [encodeTimestampDesc, drop_left' (by simp), take_of_length_le (by simp)]
  rw [decodeTimestampDesc, htake, hdrop, complement_complement, complement_complement,
    ofBeBytes_beBytes hw, ofBeBytes_beBytes hl, UInt64.ofNat_toNat, UInt32.ofNat_toNat]
  rfl

theorem encodeTimestampDesc_injective : Function.Injective encodeTimestampDesc := fun t u h ↦ by
  rw [← decodeTimestampDesc_encode t, h, decodeTimestampDesc_encode]

/-- **Newer versions come first.** -/
theorem encodeTimestampDesc_lt {t u : Timestamp} (ht : t.Nonneg) (hu : u.Nonneg) :
    encodeTimestampDesc t < encodeTimestampDesc u ↔ u < t := by
  have hwall : ∀ v : Timestamp, v.Nonneg → (v.wallTime.toUInt64.toNat : ℤ) = v.wallTime.toInt := by
    intro v hv
    have h0 : 0 ≤ v.wallTime := Int64.le_iff_toInt_le.mpr hv.1
    rw [Int64.toNat_toUInt64_of_le h0]
    exact Int.toNat_of_nonneg hv.1
  have hlog : ∀ v : Timestamp, v.Nonneg → (v.logical.toUInt32.toNat : ℤ) = v.logical.toInt := by
    intro v hv
    have h0 : 0 ≤ v.logical := Int32.le_iff_toInt_le.mpr hv.2
    rw [Int32.toNat_toUInt32_of_le h0]
    exact Int.toNat_of_nonneg hv.2
  have hw : ∀ v : Timestamp, v.wallTime.toUInt64.toNat < 256 ^ 8 := fun v ↦ UInt64.toNat_lt _
  have hl : ∀ v : Timestamp, v.logical.toUInt32.toNat < 256 ^ 4 := fun v ↦ UInt32.toNat_lt _
  have hinj : ∀ {m n : ℕ}, m < 256 ^ 8 → n < 256 ^ 8 →
      complement (beBytes 8 m) = complement (beBytes 8 n) → m = n := by
    intro m n hm hn h
    rw [← ofBeBytes_beBytes hm, ← ofBeBytes_beBytes hn, ← complement_complement (beBytes 8 m), h,
      complement_complement]
  rw [encodeTimestampDesc, encodeTimestampDesc, append_lt_append (by simp),
    complement_lt (by simp), complement_lt (by simp), beBytes_lt (hw u) (hw t),
    beBytes_lt (hl u) (hl t), lt_iff, ← hwall t ht, ← hwall u hu, ← hlog t ht, ← hlog u hu]
  constructor
  · rintro (h | ⟨h, h'⟩)
    · exact .inl (by exact_mod_cast h)
    · exact .inr ⟨by exact_mod_cast (hinj (hw t) (hw u) h).symm, by exact_mod_cast h'⟩
  · rintro (h | ⟨h, h'⟩)
    · exact .inl (by exact_mod_cast h)
    · refine .inr ⟨?_, by exact_mod_cast h'⟩
      rw [show u.wallTime.toUInt64.toNat = t.wallTime.toUInt64.toNat by exact_mod_cast h]

/-! ## Keys -/

variable {k : Bytes} {ts : Timestamp} {t u : Timestamp}

theorem encode_version (h : ts ≠ {}) :
    encode ⟨k, ts⟩ = k ++ keySeparator :: encodeTimestampDesc ts := by
  rw [encode, if_neg]
  rwa [Timestamp.isEmpty_iff]

theorem decode_encode (k : Bytes) (h : ts ≠ {}) :
    decode (encode ⟨k, ts⟩) = .ok (⟨k, ts⟩, true) := by
  have hlen : (k ++ keySeparator :: encodeTimestampDesc ts).length = k.length + 1 + tsSize := by
    rw [length_append, length_cons, length_encodeTimestampDesc]
    omega
  have hsep : (k ++ keySeparator :: encodeTimestampDesc ts).length - tsSize - 1 = k.length := by
    rw [hlen]
    omega
  rw [encode_version h, decode, if_neg (by simp), hsep]
  rw [if_pos ⟨by omega, by simp⟩, take_left, drop_append, drop_of_length_le (by omega)]
  simp [decodeTimestampDesc_encode]

/-- What decodes to a version of `k` is `k`, the separator and twelve bytes. -/
theorem eq_of_decode_version {b : Bytes} (h : decode b = .ok (⟨k, ts⟩, true)) :
    ∃ s, s.length = tsSize ∧ b = k ++ keySeparator :: s ∧ ts = decodeTimestampDesc s := by
  rw [decode] at h
  split at h
  · cases h
  · dsimp only at h
    split at h
    · rename_i hc
      cases h
      refine ⟨b.drop (b.length - tsSize - 1 + 1), ?_, ?_, rfl⟩
      · rw [length_drop]
        omega
      · obtain ⟨hlt, hget⟩ := List.getElem?_eq_some_iff.mp hc.2
        rw [← hget, cons_getElem_drop_succ, take_append_drop]
    · split at h <;> cases h

/-- A metadata key never fails to decode, though it may be taken for a version. -/
theorem decode_encodeMeta (k : Bytes) : ∃ r, decode (encodeMeta k) = .ok r := by
  rw [decode, if_neg (by simp [encodeMeta])]
  dsimp only
  split
  · exact ⟨_, rfl⟩
  · rw [if_pos (by simp [encodeMeta])]
    exact ⟨_, rfl⟩

/-! ## Versions of one key -/

/-- A timestamp that a version can have. -/
def Valid (ts : Timestamp) : Prop := ts.Nonneg ∧ ts ≠ {}

instance (ts : Timestamp) : Decidable (Valid ts) := inferInstanceAs (Decidable (_ ∧ _))

theorem Valid.isEmpty (h : Valid ts) : ts.isEmpty = false := by
  rw [Bool.eq_false_iff, ne_eq, Timestamp.isEmpty_iff]
  exact h.2

theorem Valid.next (h : Valid ts) (hn : ts.HasNext) : Valid ts.next := by
  refine ⟨h.1.next hn, fun heq ↦ ?_⟩
  have hlt := lt_next hn
  rw [heq] at hlt
  exact absurd h.1.empty_le (not_le.mpr hlt)

theorem encode_le_encode (ht : Valid t) (hu : Valid u) : encode ⟨k, t⟩ ≤ encode ⟨k, u⟩ ↔ u ≤ t := by
  rw [← not_lt, ← not_lt, encode_version ht.2, encode_version hu.2, append_lt_append_left,
    cons_lt_cons_iff]
  simp [encodeTimestampDesc_lt hu.1 ht.1]

theorem encode_lt_encode (ht : Valid t) (hu : Valid u) : encode ⟨k, t⟩ < encode ⟨k, u⟩ ↔ u < t := by
  rw [← not_le, ← not_le, encode_le_encode hu ht]

theorem encodeMeta_lt_encode (k : Bytes) (hts : Valid ts) : encodeMeta k < encode ⟨k, ts⟩ := by
  rw [encode_version hts.2, append_cons]
  exact lt_append_of_ne_nil _ fun hnil ↦ by
    have := congrArg List.length hnil
    simp [tsSize] at this

/-! ## Separated keys -/

/-- No raw key starts with another one followed by the separator. -/
def Separated (K : Set Bytes) : Prop := ∀ k ∈ K, ∀ k' ∈ K, ¬ k ++ [keySeparator] <+: k'

section Separated

variable {K : Set Bytes} {k k' : Bytes}

section

variable (hK : Separated K) (hk : k ∈ K) (hk' : k' ∈ K)
include hK hk hk'

theorem Separated.eq_of_prefix_meta (h : k ++ [keySeparator] <+: encodeMeta k') : k' = k := by
  rcases prefix_concat_iff.mp h with h | h
  · exact (append_inj_left' h rfl).symm
  · exact absurd h (hK k hk k' hk')

theorem Separated.eq_of_prefix_append {s : Bytes}
    (h : k ++ [keySeparator] <+: k' ++ keySeparator :: s) : k' = k := by
  have h' : k' ++ [keySeparator] <+: k' ++ keySeparator :: s :=
    (prefix_append_right_inj k').mpr ⟨s, rfl⟩
  rcases le_total k.length k'.length with hle | hle
  · exact hK.eq_of_prefix_meta hk hk' (prefix_of_prefix_length_le h h' (by simp [encodeMeta, hle]))
  · exact (hK.eq_of_prefix_meta hk' hk
      (prefix_of_prefix_length_le h' h (by simp [encodeMeta, hle]))).symm

/-- Entries of distinct keys are distinct, and a version is not a metadata entry. -/
theorem Separated.encodeMeta_ne {ts : Timestamp} (h : ts ≠ {}) :
    encodeMeta k ≠ encode ⟨k', ts⟩ := by
  intro heq
  rw [encode_version h] at heq
  have hpre : k' ++ [keySeparator] <+: encodeMeta k :=
    heq ▸ (prefix_append_right_inj k').mpr ⟨encodeTimestampDesc ts, rfl⟩
  have hkk := hK.eq_of_prefix_meta hk' hk hpre
  subst hkk
  have := congrArg List.length heq
  simp [encodeMeta, tsSize] at this

end

theorem encodeMeta_injective : Function.Injective encodeMeta := fun _ _ h ↦ append_inj_left' h rfl

theorem Separated.encode_inj (hK : Separated K) (hk : k ∈ K) (hk' : k' ∈ K) {t u : Timestamp}
    (ht : t ≠ {}) (hu : u ≠ {}) (h : encode ⟨k, t⟩ = encode ⟨k', u⟩) : k = k' ∧ t = u := by
  rw [encode_version ht, encode_version hu] at h
  have hpre : k ++ [keySeparator] <+: k' ++ keySeparator :: encodeTimestampDesc u :=
    h ▸ (prefix_append_right_inj k).mpr ⟨encodeTimestampDesc t, rfl⟩
  have hkk := hK.eq_of_prefix_append hk hk' hpre
  subst hkk
  have htail := append_cancel_left h
  exact ⟨rfl, encodeTimestampDesc_injective (List.cons.inj htail).2⟩

theorem separated_length (n : ℕ) : Separated {k | k.length = n} := by
  intro k hk k' hk' hpre
  have hle := hpre.length_le
  rw [length_append, hk, hk', length_singleton] at hle
  exact absurd hle (by simp)

end Separated

end DucklingDB.Mvcc
