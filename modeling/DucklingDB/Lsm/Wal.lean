import DucklingDB.Util.Reader
import Mathlib.Data.List.Basic
import Mathlib.Order.Basic

/-!
# The write-ahead log

A log file is a sequence of encoded entries. Each starts with the CRC-32 of the rest, the lengths of
key and value, and the operation. `ReadAll` decodes from the start of the file and stops at the
first entry that is incomplete or does not verify, whatever follows it.

What a crash can leave behind the complete entries is `Torn`: bytes that do not start with an entry.
A strict prefix of an entry is torn whether or not the checksum detects anything, because the
header's lengths ask for more bytes than there are (`torn_take_encode`). So a byte prefix of the log
reads as a prefix of its entries (`take_encodeAll`).

The two lengths are added as 32-bit numbers when an entry is read. An `Entry` carries the bound
under which they do not wrap.
-/

namespace DucklingDB.Lsm

open Bytes List Nat

/-- The operation codes. -/
def opPut : UInt8 := 0
def opDelete : UInt8 := 1

def entryHeaderSize : ℕ := 13

structure Entry where
  key : Bytes
  value : Bytes
  op : UInt8
  fits : key.length + value.length < 256 ^ 4
  deriving DecidableEq

/-- Why an entry cannot be decoded. -/
inductive DecodeError where
  | eof
  | unexpectedEOF
  | checksumMismatch
  /-- The slice expression for the key is out of range, and the program panics. -/
  | outOfRange
  deriving DecidableEq

/-- The error of `io.ReadFull` when the bytes run out. -/
def shortRead (r : Bytes) : DecodeError := if r = [] then .eof else .unexpectedEOF

theorem shortRead_ne (r : Bytes) : shortRead r ≠ .outOfRange := by
  rw [shortRead]
  split <;> simp

namespace Entry

/-- What the checksum covers. -/
def body (e : Entry) : Bytes :=
  leBytes 4 e.key.length ++ leBytes 4 e.value.length ++ [e.op] ++ (e.key ++ e.value)

def encode (e : Entry) : Bytes := checksum e.body ++ e.body

def decode (r : Bytes) : Except DecodeError (Entry × Bytes) :=
  match readFull entryHeaderSize r with
  | none => .error (shortRead r)
  | some (header, r) =>
    let keyLen := ofLeBytes ((header.drop 4).take 4)
    let valueLen := ofLeBytes ((header.drop 8).take 4)
    match readFull ((keyLen + valueLen) % 256 ^ 4) r with
    | none => .error (shortRead r)
    | some (payload, r) =>
      if ofLeBytes (header.take 4) ≠ (crc32 (header.drop 4 ++ payload)).toNat then
        .error .checksumMismatch
      -- the second bound always holds, since the payload's length was reduced
      else if h : keyLen ≤ payload.length ∧ payload.length < 256 ^ 4 then
        .ok (⟨payload.take keyLen, payload.drop keyLen, header.getD 12 0, by
          rw [length_take, length_drop]; omega⟩, r)
      else .error .outOfRange

/-! ## Round trips -/

/-- `Decode` by the fields of the header. -/
theorem decode_fields {c k v : Bytes} (hc : c.length = 4) (hk : k.length = 4) (hv : v.length = 4)
    (op : UInt8) (r : Bytes) : decode (c ++ (k ++ v ++ [op]) ++ r) =
      match readFull ((ofLeBytes k + ofLeBytes v) % 256 ^ 4) r with
      | none => .error (shortRead r)
      | some (payload, r) =>
        if ofLeBytes c ≠ (crc32 (k ++ v ++ [op] ++ payload)).toNat then .error .checksumMismatch
        else if h : ofLeBytes k ≤ payload.length ∧ payload.length < 256 ^ 4 then
          .ok (⟨payload.take (ofLeBytes k), payload.drop (ofLeBytes k), op, by
            rw [length_take, length_drop]; omega⟩, r)
        else .error .outOfRange := by
  have hkey : (k ++ v ++ [op]).take 4 = k := by rw [append_assoc, take_left' hk]
  have hvalue : ((c ++ (k ++ v ++ [op])).drop 8).take 4 = v := by
    rw [← append_assoc, ← append_assoc, append_assoc,
      drop_left' (by rw [length_append, hc, hk]), take_left' hv]
  have hop : (c ++ (k ++ v ++ [op])).getD 12 0 = op := by
    rw [getD_eq_getElem?_getD, ← append_assoc, getElem?_append_right (by simp [hc, hk, hv])]
    simp [hc, hk, hv]
  rw [decode, readFull_append (by simp [hc, hk, hv, entryHeaderSize])]
  simp only [hvalue, hop, take_left' hc, drop_left' hc, hkey]

/-- The bytes before the payload. -/
def header (e : Entry) : Bytes :=
  checksum e.body ++ (leBytes 4 e.key.length ++ leBytes 4 e.value.length ++ [e.op])

section

variable (e : Entry)
include e

theorem encode_eq : e.encode = e.header ++ (e.key ++ e.value) := by
  simp only [encode, header, body, append_assoc]

theorem length_header : e.header.length = entryHeaderSize := by
  simp [header, entryHeaderSize]

theorem length_encode : e.encode.length = entryHeaderSize + (e.key.length + e.value.length) := by
  rw [encode_eq, length_append, length_header, length_append]

theorem ofLeBytes_lengths : ofLeBytes (leBytes 4 e.key.length) = e.key.length ∧
    ofLeBytes (leBytes 4 e.value.length) = e.value.length := by
  have h := e.fits
  exact ⟨ofLeBytes_leBytes (by omega), ofLeBytes_leBytes (by omega)⟩

theorem payloadLen : (e.key.length + e.value.length) % 256 ^ 4 = (e.key ++ e.value).length := by
  rw [mod_eq_of_lt e.fits, length_append]

theorem decode_encode_append (rest : Bytes) : decode (e.encode ++ rest) = .ok (e, rest) := by
  have hlen : e.key.length ≤ (e.key ++ e.value).length ∧ (e.key ++ e.value).length < 256 ^ 4 := by
    rw [length_append]
    exact ⟨le_add_right _ _, e.fits⟩
  rw [encode_eq, append_assoc, header,
    decode_fields (length_checksum _) (length_leBytes ..) (length_leBytes ..)]
  simp only [e.ofLeBytes_lengths, payloadLen, readFull_append rfl]
  rw [if_neg (by rw [ofLeBytes_checksum, body]; exact not_not.mpr rfl), dif_pos hlen]
  simp

end

/-! ## What can be decoded -/

/-- The bytes start with a header whose two lengths add up to `2 ^ 32` or more, and its checksum is
that of as many bytes as the sum, cut to 32 bits, asks for. -/
def Wraps (r : Bytes) : Prop :=
  ∃ c k v p rest op, r = c ++ (k ++ v ++ [op]) ++ (p ++ rest) ∧ c.length = 4 ∧ k.length = 4 ∧
    v.length = 4 ∧ p.length = (ofLeBytes k + ofLeBytes v) % 256 ^ 4 ∧
    ofLeBytes c = (crc32 (k ++ v ++ [op] ++ p)).toNat ∧ 256 ^ 4 ≤ ofLeBytes k + ofLeBytes v

theorem exists_fields {r : Bytes} (h : ∀ s, decode r ≠ .error (shortRead s)) :
    ∃ c k v p rest op, r = c ++ (k ++ v ++ [op]) ++ (p ++ rest) ∧ c.length = 4 ∧ k.length = 4 ∧
      v.length = 4 ∧ p.length = (ofLeBytes k + ofLeBytes v) % 256 ^ 4 := by
  have hlen : entryHeaderSize ≤ r.length := by
    by_contra hlt
    refine h r ?_
    rw [decode, readFull_eq_none.mpr (not_le.mp hlt)]
  obtain ⟨f, s, rfl, hf⟩ := exists_append hlen
  rw [entryHeaderSize] at hf
  obtain ⟨c, f, rfl, hc⟩ := exists_append (n := 4) (r := f) (by omega)
  rw [length_append] at hf
  obtain ⟨k, f, rfl, hk⟩ := exists_append (n := 4) (r := f) (by omega)
  rw [length_append] at hf
  obtain ⟨v, f, rfl, hv⟩ := exists_append (n := 4) (r := f) (by omega)
  rw [length_append] at hf
  obtain ⟨op, rfl⟩ := length_eq_one_iff.mp (by omega : f.length = 1)
  rw [← append_assoc k] at h ⊢
  have hle : (ofLeBytes k + ofLeBytes v) % 256 ^ 4 ≤ s.length := by
    by_contra hlt
    refine h s ?_
    rw [decode_fields hc hk hv, readFull_eq_none.mpr (not_le.mp hlt)]
  obtain ⟨p, rest, rfl, hp⟩ := exists_append hle
  exact ⟨c, k, v, p, rest, op, rfl, hc, hk, hv, hp⟩

theorem decode_eq_outOfRange_iff {r : Bytes} : decode r = .error .outOfRange ↔ Wraps r := by
  constructor
  · intro h
    obtain ⟨c, k, v, p, rest, op, rfl, hc, hk, hv, hp⟩ := exists_fields (r := r) fun s hs ↦ by
      rw [h, Except.error.injEq] at hs
      exact shortRead_ne s hs.symm
    rw [decode_fields hc hk hv, readFull_append hp] at h
    dsimp only at h
    split at h
    · cases h
    · rename_i hsum
      split at h
      · cases h
      · exact ⟨c, k, v, p, rest, op, rfl, hc, hk, hv, hp, not_not.mp hsum, by omega⟩
  · rintro ⟨c, k, v, p, rest, op, rfl, hc, hk, hv, hp, hsum, hwrap⟩
    have := ofLeBytes_lt hv
    rw [decode_fields hc hk hv, readFull_append hp]
    dsimp only
    rw [if_neg (not_not.mpr hsum), dif_neg (by omega)]

theorem eq_encode_of_decode {r rest : Bytes} {e : Entry} (h : decode r = .ok (e, rest)) :
    r = e.encode ++ rest := by
  obtain ⟨c, k, v, p, rest, op, rfl, hc, hk, hv, hp⟩ := exists_fields (r := r) fun s hs ↦ by
    rw [h] at hs
    cases hs
  rw [decode_fields hc hk hv, readFull_append hp] at h
  dsimp only at h
  split at h
  · cases h
  · rename_i hsum
    split at h
    · rename_i hle
      cases h
      have := ofLeBytes_lt hv
      have hvalue : p.length - ofLeBytes k = ofLeBytes v := by omega
      dsimp only [encode, body]
      rw [length_take_of_le hle.1, length_drop, hvalue, leBytes_ofLeBytes hk,
        leBytes_ofLeBytes hv, take_append_drop, checksum, ← not_not.mp hsum,
        leBytes_ofLeBytes hc]
      simp only [append_assoc]
    · cases h

/-- **`Decode` does not panic, and takes nothing but encoded entries**, exactly if the lengths in
the header do not wrap. -/
theorem decode_exact_iff (r : Bytes) :
    (decode r ≠ .error .outOfRange ∧ ∀ e rest, decode r = .ok (e, rest) → r = e.encode ++ rest) ↔
      ¬Wraps r := by
  rw [and_iff_left fun e rest ↦ eq_encode_of_decode, ne_eq, decode_eq_outOfRange_iff]

/-- A key of `2 ^ 32 - 1` bytes and a value of one byte: the checksum is that of the header
alone. -/
theorem exists_decode_outOfRange :
    decode (checksum (leBytes 4 (256 ^ 4 - 1) ++ leBytes 4 1 ++ [0]) ++
      (leBytes 4 (256 ^ 4 - 1) ++ leBytes 4 1 ++ [0])) = .error .outOfRange := by
  decide +kernel

end Entry

/-! ## Torn entries -/

/-- The bytes do not start with an entry, and `ReadAll` stops at them. -/
def Torn (r : Bytes) : Prop := ∃ err, Entry.decode r = .error err ∧ err ≠ .outOfRange

theorem torn_nil : Torn [] := ⟨.eof, rfl, by simp⟩

theorem torn_take_encode (e : Entry) {n : ℕ} (hn : n < e.encode.length) :
    Torn (e.encode.take n) := by
  by_cases hhead : n < entryHeaderSize
  · -- the header is cut
    refine ⟨shortRead (e.encode.take n), ?_, shortRead_ne _⟩
    have hnone : readFull entryHeaderSize (e.encode.take n) = none := by
      rw [readFull_eq_none, length_take]
      omega
    rw [Entry.decode, hnone]
  · -- the payload is cut
    obtain ⟨m, rfl⟩ := Nat.exists_eq_add_of_le (not_lt.mp hhead)
    have hm : m < (e.key ++ e.value).length := by
      rw [Entry.length_encode, ← length_append] at hn
      omega
    have htake : e.encode.take (entryHeaderSize + m) = e.header ++ (e.key ++ e.value).take m := by
      rw [Entry.encode_eq, ← e.length_header, take_length_add_append]
    have hnone : readFull (e.key ++ e.value).length ((e.key ++ e.value).take m) = none := by
      rw [readFull_eq_none, length_take]
      omega
    refine ⟨shortRead ((e.key ++ e.value).take m), ?_, shortRead_ne _⟩
    rw [htake, Entry.header, Entry.decode_fields (length_checksum _) (length_leBytes ..)
      (length_leBytes ..)]
    simp only [e.ofLeBytes_lengths, e.payloadLen, hnone]

/-! ## Reading the log -/

/-- The loop of `ReadAll`; `none` is a panic. -/
def readLoop : ℕ → Bytes → Option (List Entry)
  | 0, _ => some []
  | fuel + 1, r =>
    match Entry.decode r with
    | .ok (e, r) => (readLoop fuel r).map (e :: ·)
    | .error .outOfRange => none
    | .error _ => some []

/-- `WAL.ReadAll`. An entry takes at least one byte, so there are no more rounds than bytes. -/
def readAll (r : Bytes) : Option (List Entry) := readLoop r.length r

variable (es : List Entry) {t : Bytes}

/-- The log of these entries. -/
def encodeAll : Bytes := es.flatMap Entry.encode

theorem encodeAll_append (es es' : List Entry) :
    encodeAll (es ++ es') = encodeAll es ++ encodeAll es' :=
  flatMap_append

theorem encodeAll_singleton (e : Entry) : encodeAll [e] = e.encode := flatMap_singleton ..

theorem readLoop_torn {r : Bytes} (h : Torn r) (fuel : ℕ) : readLoop fuel r = some [] := by
  cases fuel with
  | zero => rfl
  | succ fuel =>
    obtain ⟨err, herr, hne⟩ := h
    rw [readLoop, herr]
    cases err with
    | outOfRange => exact absurd rfl hne
    | eof => rfl
    | unexpectedEOF => rfl
    | checksumMismatch => rfl

theorem readLoop_encodeAll_append (ht : Torn t) {es : List Entry} {fuel : ℕ}
    (hfuel : es.length ≤ fuel) : readLoop fuel (encodeAll es ++ t) = some es := by
  induction es generalizing fuel with
  | nil => exact readLoop_torn ht fuel
  | cons e es ih =>
    obtain ⟨fuel, rfl⟩ := Nat.exists_eq_add_of_le' (Nat.lt_of_lt_of_le (Nat.succ_pos _) hfuel)
    rw [encodeAll, flatMap_cons, append_assoc, readLoop, Entry.decode_encode_append]
    simp only
    rw [← encodeAll, ih (le_of_succ_le_succ hfuel), Option.map_some]

theorem length_le_length_encodeAll : es.length ≤ (encodeAll es).length := by
  induction es with
  | nil => exact zero_le _
  | cons e es ih =>
    rw [encodeAll, flatMap_cons, length_append, ← encodeAll, Entry.length_encode,
      length_cons, entryHeaderSize]
    omega

theorem readAll_encodeAll_append (ht : Torn t) (es : List Entry) :
    readAll (encodeAll es ++ t) = some es := by
  refine readLoop_encodeAll_append ht ?_
  rw [length_append]
  exact (length_le_length_encodeAll es).trans (le_add_right _ _)

theorem readAll_encodeAll : readAll (encodeAll es) = some es := by
  have h := readAll_encodeAll_append torn_nil es
  rwa [append_nil] at h

/-- A byte prefix of a log holds a prefix of its entries and a torn rest. -/
theorem take_encodeAll (n : ℕ) :
    ∃ k t, (encodeAll es).take n = encodeAll (es.take k) ++ t ∧ Torn t := by
  induction es generalizing n with
  | nil => exact ⟨0, [], by simp [encodeAll], torn_nil⟩
  | cons e es ih =>
    rw [encodeAll, flatMap_cons, ← encodeAll]
    by_cases hn : n < e.encode.length
    · refine ⟨0, e.encode.take n, ?_, torn_take_encode e hn⟩
      rw [take_append_of_le_length hn.le]
      rfl
    · obtain ⟨m, rfl⟩ := Nat.exists_eq_add_of_le (not_lt.mp hn)
      obtain ⟨k, t, hk, ht⟩ := ih m
      refine ⟨k + 1, t, ?_, ht⟩
      rw [take_length_add_append, hk, take_succ_cons, encodeAll, encodeAll, flatMap_cons,
        append_assoc]

theorem Torn.not_prefix (h : Torn t) (e : Entry) : ¬e.encode <+: t := by
  rintro ⟨s, rfl⟩
  obtain ⟨err, herr, -⟩ := h
  rw [Entry.decode_encode_append] at herr
  cases herr

/-- **A byte prefix of a log reads as the entries that lie in it entirely**, and the whole log as
all of them. -/
theorem readAll_take (es : List Entry) :
    (∀ n, ∃ k ≤ es.length, readAll ((encodeAll es).take n) = some (es.take k) ∧
      ∀ j ≤ es.length, encodeAll (es.take j) <+: (encodeAll es).take n ↔ j ≤ k) ∧
    readAll (encodeAll es) = some es := by
  refine ⟨fun n ↦ ?_, readAll_encodeAll es⟩
  obtain ⟨k, t, htake, ht⟩ := take_encodeAll es n
  refine ⟨min k es.length, min_le_right _ _, ?_, fun j hj ↦ ?_⟩
  · rw [htake, readAll_encodeAll_append ht, ← take_eq_take_min]
  · rw [htake, le_min_iff, and_iff_left hj]
    constructor
    · intro hpre
      by_contra hlt
      obtain ⟨m, rfl⟩ := Nat.exists_eq_add_of_lt (not_le.mp hlt)
      -- the next entry would lie in the torn rest
      rw [Nat.add_assoc, take_add, encodeAll_append, prefix_append_right_inj,
        drop_eq_getElem_cons (by omega), take_succ_cons, encodeAll, flatMap_cons] at hpre
      exact ht.not_prefix _ ((prefix_append _ _).trans hpre)
    · intro hle
      obtain ⟨m, rfl⟩ := Nat.exists_eq_add_of_le hle
      rw [take_add, encodeAll_append, append_assoc]
      exact prefix_append _ _

end DucklingDB.Lsm
