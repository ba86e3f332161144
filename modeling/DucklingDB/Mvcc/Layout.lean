import DucklingDB.Mvcc.Key

/-!
# What the key layout promises

Two promises of `key.go`: a key decodes to what was encoded, and the entries of a key are
contiguous, its metadata first and its versions from the newest to the oldest.

Neither holds for all raw keys. `Decode` tells a version from metadata by the thirteenth byte from
the end, which in the metadata of a raw key of at least twelve bytes is a byte of the raw key
(`Ambiguous`). And nothing escapes a separator within a raw key, so that a key that continues
another one with a separator lies among the versions of the other. All else the layout promises, it
keeps.
-/

namespace DucklingDB.Mvcc

open Hlc Bytes List

/-! ## Decoding -/

/-- The byte of the metadata key that `Decode` takes for the separator of a version is one. -/
def Ambiguous (k : Bytes) : Prop := tsSize ≤ k.length ∧ k[k.length - tsSize]? = some keySeparator

instance (k : Bytes) : Decidable (Ambiguous k) := inferInstanceAs (Decidable (_ ∧ _))

/-- The test of `Decode`, on a metadata key. -/
theorem ambiguous_iff (k : Bytes) : Ambiguous k ↔ (encodeMeta k).length > tsSize ∧
      (encodeMeta k)[(encodeMeta k).length - tsSize - 1]? = some keySeparator := by
  have hlen : (encodeMeta k).length = k.length + 1 := by simp [encodeMeta]
  have hidx : (encodeMeta k).length - tsSize - 1 = k.length - tsSize := by omega
  rw [hidx, hlen, Ambiguous, gt_iff_lt, Nat.lt_succ_iff, encodeMeta]
  refine and_congr_right fun hle ↦ ?_
  rw [getElem?_append_left (by simp only [tsSize] at hle ⊢; omega)]

theorem decode_encodeMeta_of_not_ambiguous {k : Bytes} (h : ¬ Ambiguous k) :
    decode (encodeMeta k) = .ok (⟨k, {}⟩, false) := by
  rw [ambiguous_iff] at h
  rw [decode, if_neg (by simp [encodeMeta])]
  rw [if_neg h, if_pos (by simp [encodeMeta]), encodeMeta, dropLast_concat]

theorem decode_encodeMeta_of_ambiguous {k : Bytes} (h : Ambiguous k) :
    ∃ mk, decode (encodeMeta k) = .ok (mk, true) := by
  rw [ambiguous_iff] at h
  rw [decode, if_neg (by simp [encodeMeta])]
  rw [if_pos h]
  exact ⟨_, rfl⟩

/-- **When the codec is unambiguous.** A version always decodes to itself. Metadata decodes to
itself, and is not taken for a version of another key, if and only if the raw key has no separator
where `Decode` looks for that of a version. -/
theorem codec_unambiguous_iff (k : Bytes) (t : Timestamp) :
    ((t ≠ {} → decode (encode ⟨k, t⟩) = .ok (⟨k, t⟩, true)) ∧
      decode (encodeMeta k) = .ok (⟨k, {}⟩, false) ∧
      ∀ k' u, decode (encodeMeta k) ≠ .ok (⟨k', u⟩, true)) ↔ ¬ Ambiguous k := by
  constructor
  · rintro ⟨-, hmeta, -⟩ hamb
    obtain ⟨mk, hmk⟩ := decode_encodeMeta_of_ambiguous hamb
    cases hmeta.symm.trans hmk
  · intro h
    have hmeta := decode_encodeMeta_of_not_ambiguous h
    refine ⟨fun ht ↦ decode_encode k ht, hmeta, fun k' u hk' ↦ ?_⟩
    cases hmeta.symm.trans hk'

/-- The schema key of a table whose name has four letters, `"\x00schema/rows"`: its metadata is
taken for a version of the empty key. -/
theorem exists_ambiguous_schemaKey :
    (decode (encodeMeta [0x00, 0x73, 0x63, 0x68, 0x65, 0x6d, 0x61, 0x2f, 0x72, 0x6f, 0x77,
      0x73])).toOption.map (fun r ↦ (r.1.key, r.2)) = some ([], true) := by
  decide +kernel

/-! ## Order -/

theorem encodeMeta_lt_encodeMeta {a b : Bytes} (h : a < b) : encodeMeta a < encodeMeta b :=
  (append_zero_le h).trans_lt (lt_append_of_ne_nil b (by simp))

/-- A version of `a` precedes the metadata of a greater key, unless that key continues `a` with a
separator; then the timestamp is compared with what follows. -/
theorem encode_lt_encodeMeta_iff {a b : Bytes} (hab : a < b) {t : Timestamp} (ht : t ≠ {}) :
    encode ⟨a, t⟩ < encodeMeta b ↔
      ∀ c, b = a ++ keySeparator :: c → encodeTimestampDesc t < c ++ [keySeparator] := by
  have hver : encode ⟨a, t⟩ = (a ++ [keySeparator]) ++ encodeTimestampDesc t := by
    rw [encode_version ht, append_cons]
  have hmeta : ∀ c, encodeMeta (a ++ keySeparator :: c) =
      (a ++ [keySeparator]) ++ (c ++ [keySeparator]) := fun c ↦ by simp [encodeMeta]
  rw [hver]
  constructor
  · rintro hlt c rfl
    rwa [hmeta, append_lt_append_left] at hlt
  · intro hc
    by_contra hle
    -- the metadata of `b` lies between the metadata of `a` and a version of `a`
    have hpre : a ++ [keySeparator] <+: encodeMeta b := by
      refine isPrefix_of_between (a := []) ?_ (not_lt.mp hle)
      rw [append_nil]
      exact (encodeMeta_lt_encodeMeta hab).le
    rcases prefix_concat_iff.mp hpre with heq | ⟨c, rfl⟩
    · exact absurd (append_inj_left' heq rfl) hab.ne
    · have hb : a ++ [keySeparator] ++ c = a ++ keySeparator :: c := by simp
      rw [hb, hmeta, append_lt_append_left] at hle
      exact hle (hc c hb)

/-- **When the entries of two keys do not interleave.** For keys `a < b` and a version of `a` at
`t`: the metadata is in order, metadata precedes the version, versions come newest first; and the
version precedes the metadata and all versions of `b`, if and only if `b` is not `a` followed by a
separator and something that sorts below the encoded timestamp. -/
theorem key_order_iff {a b : Bytes} (hab : a < b) {t : Timestamp} (ht : Valid t) :
    (encodeMeta a < encodeMeta b ∧ encodeMeta a < encode ⟨a, t⟩ ∧
      (∀ u, Valid u → (encode ⟨a, t⟩ < encode ⟨a, u⟩ ↔ u < t)) ∧
      encode ⟨a, t⟩ < encodeMeta b ∧ ∀ u, Valid u → encode ⟨a, t⟩ < encode ⟨b, u⟩) ↔
    ∀ c, b = a ++ keySeparator :: c → encodeTimestampDesc t < c ++ [keySeparator] := by
  rw [← encode_lt_encodeMeta_iff hab ht.2]
  constructor
  · rintro ⟨-, -, -, hlt, -⟩
    exact hlt
  · intro hlt
    refine ⟨encodeMeta_lt_encodeMeta hab, encodeMeta_lt_encode a ht,
      fun u hu ↦ encode_lt_encode ht hu, hlt, fun u hu ↦ ?_⟩
    exact hlt.trans (encodeMeta_lt_encode b hu)

theorem key_order_iff_letters :
    ([0x61] : Bytes) < [0x62] ∧ Valid ⟨10, 0⟩ ∧ encode ⟨[0x61], ⟨10, 0⟩⟩ < encodeMeta [0x62] := by
  have hab : ([0x61] : Bytes) < [0x62] := by decide
  have ht : Valid ⟨10, 0⟩ := by decide
  refine ⟨hab, ht, ((key_order_iff hab ht).mpr fun c hc ↦ ?_).2.2.2.1⟩
  cases hc

/-- The key `a` followed by a zero byte lies among the versions of `a`: its metadata, and with it
the position that `nextKeyPrefix` computes to skip the versions of `a`, precedes them. -/
theorem exists_interleaved :
    ([0x61] : Bytes) < [0x61, 0x00] ∧ encodeMeta [0x61, 0x00] < encode ⟨[0x61], ⟨10, 0⟩⟩ ∧
      encode ⟨[0x61, 0x00], ⟨10, 0⟩⟩ < encode ⟨[0x61], ⟨10, 0⟩⟩ := by
  decide +kernel

end DucklingDB.Mvcc
