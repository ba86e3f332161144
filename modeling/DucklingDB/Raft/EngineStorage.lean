import DucklingDB.Raft.LogView
import DucklingDB.Util.SortedMap
import DucklingDB.Util.Wire
import Mathlib.Data.List.TakeWhile

/-!
# The log storage over the engine

`internal/raft/storage.go` down to the keys: every item of the storage is a key of the engine, which
is a sorted map here, and the last index is cached. Log entries have keys that are ordered as their
indices are, so a scan from the prefix of the log meets them in order and stops at the first other
key.

What the storage is for is `LogReference`: a snapshot and a map from indices to entries. The two
answer alike after any calls, and the cached last index is the one a scan would find. The loops over
the keys are related to the map once, by `scan_eq`.

Marshalled values are only assumed to decode to what was marshalled.
-/

namespace DucklingDB.Raft

open Bytes Function SortedMap List Nat

/-! ## Keys and values -/

/-- `"\x00raft/hardstate"`. -/
def keyRaftHardState : Bytes :=
  [0x00, 0x72, 0x61, 0x66, 0x74, 0x2f, 0x68, 0x61, 0x72, 0x64, 0x73, 0x74, 0x61, 0x74, 0x65]

/-- `"\x00raft/applied"`. -/
def keyRaftApplied : Bytes :=
  [0x00, 0x72, 0x61, 0x66, 0x74, 0x2f, 0x61, 0x70, 0x70, 0x6c, 0x69, 0x65, 0x64]

/-- `"\x00raft/log/"`. -/
def keyRaftLogPrefix : Bytes := [0x00, 0x72, 0x61, 0x66, 0x74, 0x2f, 0x6c, 0x6f, 0x67, 0x2f]

/-- `"\x00raft/snapshot/meta"`. -/
def keyRaftSnapshotMeta : Bytes :=
  [0x00, 0x72, 0x61, 0x66, 0x74, 0x2f, 0x73, 0x6e, 0x61, 0x70, 0x73, 0x68, 0x6f, 0x74, 0x2f,
    0x6d, 0x65, 0x74, 0x61]

/-- `"\x00raft/snapshot/data"`. -/
def keyRaftSnapshotData : Bytes :=
  [0x00, 0x72, 0x61, 0x66, 0x74, 0x2f, 0x73, 0x6e, 0x61, 0x70, 0x73, 0x68, 0x6f, 0x74, 0x2f,
    0x64, 0x61, 0x74, 0x61]

def raftLogKey (index : ℕ) : Bytes := keyRaftLogPrefix ++ beBytes 8 index

/-- The JSON of the stored values. -/
class StorageCodec where
  marshalEntry : Entry → Bytes
  unmarshalEntry : Bytes → Option Entry
  unmarshalEntry_marshal : ∀ e, unmarshalEntry (marshalEntry e) = some e
  marshalMeta : SnapshotMetadata → Bytes
  unmarshalMeta : Bytes → Option SnapshotMetadata
  unmarshalMeta_marshal : ∀ m, unmarshalMeta (marshalMeta m) = some m
  marshalHardState : HardState → Bytes

def Entry.wire : Wire Entry :=
  (Wire.unary.pair (Wire.unary.pair Wire.byte.list.option)).via (fun e ↦ (e.term, e.index, e.data))
    (fun x ↦ some ⟨x.1, x.2.1, x.2.2⟩) (fun _ ↦ rfl)

def SnapshotMetadata.wire : Wire SnapshotMetadata :=
  (Wire.unary.pair Wire.unary).via (fun m ↦ (m.index, m.term)) (fun x ↦ some ⟨x.1, x.2⟩)
    (fun _ ↦ rfl)

def HardState.wire : Wire HardState :=
  (Wire.unary.pair (Wire.unary.pair Wire.unary)).via (fun hs ↦ (hs.term, hs.votedFor, hs.commit))
    (fun x ↦ some ⟨x.1, x.2.1, x.2.2⟩) (fun _ ↦ rfl)

instance : StorageCodec where
  marshalEntry := Entry.wire.put
  unmarshalEntry := Entry.wire.decode
  unmarshalEntry_marshal := Entry.wire.decode_put
  marshalMeta := SnapshotMetadata.wire.put
  unmarshalMeta := SnapshotMetadata.wire.decode
  unmarshalMeta_marshal := SnapshotMetadata.wire.decode_put
  marshalHardState := HardState.wire.put

open StorageCodec

/-! ## The storage -/

/-- How a call can fail when the engine does not. -/
inductive StorageError where
  /-- `errUnavailable`. -/
  | unavailable
  /-- `ErrCompacted`. -/
  | compacted
  /-- `raft: entry %d not found`. -/
  | entryNotFound (index : ℕ)
  /-- A stored value that is not JSON. -/
  | unmarshal
  /-- `raft: cannot save empty snapshot`. -/
  | emptySnapshot
  /-- `make` of a slice with a capacity below zero: the runtime panics. -/
  | makeslice
  deriving DecidableEq, Repr

/-- `LSMLogStorage`, with its engine and its cache. -/
structure EngineStorage where
  eng : SortedMap Bytes Bytes
  lastIdx : ℕ := 0
  lastIdxValid : Bool := false

/-- The test that the loops over the log keys make. -/
def isLogKey (k : Bytes) : Bool :=
  !(decide (k.length < keyRaftLogPrefix.length + 8) || k.take keyRaftLogPrefix.length !=
    keyRaftLogPrefix)

/-- The index in a log key. -/
def indexOf (k : Bytes) : ℕ := ofBeBytes ((k.drop keyRaftLogPrefix.length).take 8)

namespace EngineStorage

variable [StorageCodec]

variable (s : EngineStorage)

def loadSnapshotMeta : Except StorageError SnapshotMetadata :=
  match s.eng.get keyRaftSnapshotMeta with
  | none => .ok {}
  | some data =>
    match unmarshalMeta data with
    | none => .error .unmarshal
    | some m => .ok m

def firstIndex : Except StorageError ℕ := do
  let snap ← s.loadSnapshotMeta
  if snap.index > 0 then return (snap.index + 1) % 2 ^ 64 else return 1

/-- The keys that a scan of the log goes through. -/
def logKeys : List Bytes :=
  ((s.eng.seek keyRaftLogPrefix).takeWhile fun x ↦ isLogKey x.1).map Prod.fst

def scanLastIndex : Except StorageError ℕ := do
  let last := s.logKeys.foldl (fun last k ↦ if indexOf k > last then indexOf k else last) 0
  let snap ← s.loadSnapshotMeta
  if snap.index > last then return snap.index else return last

/-- `LastIndex`: the answer, and the storage with the cache filled. -/
def lastIndex : Except StorageError ℕ × EngineStorage :=
  if s.lastIdxValid then (.ok s.lastIdx, s)
  else
    match s.scanLastIndex with
    | .error e => (.error e, s)
    | .ok last => (.ok last, { s with lastIdx := last, lastIdxValid := true })

def term (index : ℕ) : Except StorageError ℕ := do
  let snap ← s.loadSnapshotMeta
  if snap.index > 0 ∧ index = snap.index then return snap.term
  else if snap.index > 0 ∧ index < snap.index then throw .compacted
  else
    match s.eng.get (raftLogKey index) with
    | none => throw .unavailable
    | some data =>
      match unmarshalEntry data with
      | none => throw .unmarshal
      | some e => return e.term

/-- The loop of `Entries`, from `lo` on with `n` entries to go. -/
def entriesFrom (s : EngineStorage) (lo : ℕ) : ℕ → Except StorageError (List Entry)
  | 0 => .ok []
  | n + 1 =>
    match s.eng.get (raftLogKey lo) with
    | none => .error (.entryNotFound lo)
    | some data =>
      match unmarshalEntry data with
      | none => .error .unmarshal
      | some e => (s.entriesFrom (lo + 1) n).map (e :: ·)

/-- `Entries(lo, hi)`. The capacity `hi - lo` wraps around if `hi < lo`. -/
def entries (lo hi : ℕ) : Except StorageError (List Entry) :=
  if hi < lo then .error .makeslice else s.entriesFrom lo (hi - lo)

def snapshot : Except StorageError Snapshot := do
  let m ← s.loadSnapshotMeta
  if m.index = 0 then return {}
  else
    match s.eng.get keyRaftSnapshotData with
    | none => return {}
    | some data => return { metadata := m, data := data }

def saveHardState (hs : HardState) : EngineStorage :=
  { s with eng := s.eng.insert keyRaftHardState (marshalHardState hs) }

def saveApplied (index : ℕ) : EngineStorage :=
  { s with eng := s.eng.insert keyRaftApplied (beBytes 8 index) }

/-- One round of `AppendEntries`. -/
def appendEntry (e : Entry) : EngineStorage :=
  { s with
    eng := s.eng.insert (raftLogKey e.index) (marshalEntry e)
    lastIdx := if s.lastIdxValid ∧ e.index > s.lastIdx then e.index else s.lastIdx }

def appendEntries (es : List Entry) : EngineStorage := es.foldl appendEntry s

/-- The writes of `SaveSnapshot`, in order. -/
def snapshotWrites (snap : Snapshot) : List (Bytes × Bytes) :=
  if snap.isEmpty then []
  else [(keyRaftSnapshotData, snap.data), (keyRaftSnapshotMeta, marshalMeta snap.metadata)]

/-- `SaveSnapshot`, which does nothing but report an error if the snapshot is empty. -/
def saveSnapshot (snap : Snapshot) : EngineStorage :=
  if snap.isEmpty then s
  else
    { s with
      eng := (snapshotWrites snap).foldl (fun eng x ↦ eng.insert x.1 x.2) s.eng
      lastIdxValid := false }

/-- `Compact`: the loop stops at the first index above `compactIndex`. -/
def compact (compactIndex : ℕ) : EngineStorage :=
  if compactIndex = 0 then s
  else
    let toDelete := ((s.eng.seek keyRaftLogPrefix).takeWhile fun x ↦
      isLogKey x.1 && decide (indexOf x.1 ≤ compactIndex)).map Prod.fst
    { s with
      eng := toDelete.foldl erase s.eng
      lastIdxValid := false }

end EngineStorage

/-! ## The reference -/

open SortedMap (empty get_insert_of_ne get_insert_self mem_entries mem_seek)

/-- A snapshot, empty if there is none, and the live entries by index. -/
structure LogReference where
  snapshot : Snapshot := {}
  live : SortedMap ℕ Entry := empty

namespace LogReference

variable (r : LogReference)

def firstIndex : ℕ :=
  if r.snapshot.metadata.index > 0 then (r.snapshot.metadata.index + 1) % 2 ^ 64 else 1

/-- The greatest live index, zero if there is none. -/
def greatest : ℕ := (r.live.entries.getLast?.map Prod.fst).getD 0

def lastIndex : ℕ := max r.greatest r.snapshot.metadata.index

def term (index : ℕ) : Except StorageError ℕ :=
  if index = r.snapshot.metadata.index ∧ index > 0 then .ok r.snapshot.metadata.term
  else if index < r.snapshot.metadata.index then .error .compacted
  else
    match r.live.get index with
    | none => .error .unavailable
    | some e => .ok e.term

/-- The entries from `lo` on, `n` of them, or the first index without one. -/
def entriesFrom (r : LogReference) (lo : ℕ) : ℕ → Except StorageError (List Entry)
  | 0 => .ok []
  | n + 1 =>
    match r.live.get lo with
    | none => .error (.entryNotFound lo)
    | some e => (r.entriesFrom (lo + 1) n).map (e :: ·)

def append (e : Entry) : LogReference := { r with live := r.live.insert e.index e }

def saveSnapshot (snap : Snapshot) : LogReference :=
  if snap.isEmpty then r else { r with snapshot := snap }

/-- The entries up to `c` are gone. -/
def compact (c : ℕ) : LogReference :=
  { r with live := ⟨r.live.entries.filter fun x ↦ decide (c < x.1), r.live.sorted.filter _⟩ }

theorem get_compact (c i : ℕ) :
    (r.compact c).live.get i = if i ≤ c then none else r.live.get i := by
  refine Option.ext fun e ↦ ?_
  rw [← mem_entries]
  change (i, e) ∈ r.live.entries.filter _ ↔ _
  rw [mem_filter, mem_entries]
  by_cases hi : i ≤ c
  · simp [hi]
  · simp [hi, not_le.mp hi]

theorem le_greatest {r : LogReference} {i : ℕ} {e : Entry} (h : r.live.get i = some e) :
    i ≤ r.greatest := by
  have hmem : (i, e) ∈ r.live.entries := mem_entries.mpr h
  obtain ⟨es, last, heq⟩ := eq_nil_or_concat r.live.entries |>.resolve_left (ne_nil_of_mem hmem)
  have hsorted := r.live.sorted
  rw [concat_eq_append] at heq
  rw [greatest, heq, getLast?_concat]
  rw [heq] at hmem hsorted
  obtain hmem | hmem := mem_append.mp hmem
  · exact ((pairwise_append.mp hsorted).2.2 _ hmem _ (.head _)).le
  · rw [← mem_singleton.mp hmem]
    exact le_rfl

theorem greatest_mem : r.greatest = 0 ∨ ∃ e, r.live.get r.greatest = some e := by
  rw [greatest]
  cases hlast : r.live.entries.getLast? with
  | none => exact .inl rfl
  | some x => exact .inr ⟨x.2, mem_entries.mp (mem_of_getLast? hlast)⟩

theorem greatest_append (e : Entry) : (r.append e).greatest = max e.index r.greatest := by
  refine le_antisymm ?_ (max_le ?_ ?_)
  · obtain hzero | ⟨e', he'⟩ := (r.append e).greatest_mem
    · omega
    · by_cases heq : (r.append e).greatest = e.index
      · exact heq ▸ le_max_left _ _
      · have hget := (get_insert_of_ne r.live heq e).symm.trans he'
        exact (le_greatest hget).trans (le_max_right _ _)
  · exact le_greatest (get_insert_self ..)
  · obtain hzero | ⟨e', he'⟩ := r.greatest_mem
    · omega
    · by_cases heq : r.greatest = e.index
      · exact heq ▸ le_greatest (get_insert_self ..)
      · exact le_greatest ((get_insert_of_ne _ heq e).trans he')

end LogReference

/-! ## Keys in order -/

theorem raftLogKey_lt {i j : ℕ} (hi : i < 2 ^ 64) (hj : j < 2 ^ 64) :
    raftLogKey i < raftLogKey j ↔ i < j := by
  rw [raftLogKey, raftLogKey, append_lt_append_left, beBytes_lt hi hj]

theorem raftLogKey_inj {i j : ℕ} (hi : i < 2 ^ 64) (hj : j < 2 ^ 64)
    (h : raftLogKey i = raftLogKey j) : i = j := by
  have hij := (raftLogKey_lt hi hj).not.mp h.not_lt
  have hji := (raftLogKey_lt hj hi).not.mp h.symm.not_lt
  omega

theorem prefix_raftLogKey (i : ℕ) : keyRaftLogPrefix <+: raftLogKey i := prefix_append _ _

theorem isLogKey_raftLogKey (i : ℕ) : isLogKey (raftLogKey i) = true := by
  simp [isLogKey, raftLogKey]

theorem indexOf_raftLogKey {i : ℕ} (hi : i < 2 ^ 64) : indexOf (raftLogKey i) = i := by
  rw [indexOf, raftLogKey, drop_left, take_of_length_le (by simp), ofBeBytes_beBytes hi]

theorem prefix_of_isLogKey {k : Bytes} (h : isLogKey k = true) : keyRaftLogPrefix <+: k := by
  rw [isLogKey, Bool.not_eq_true', Bool.or_eq_false_iff, bne_eq_false_iff_eq] at h
  exact h.2 ▸ take_prefix _ _

theorem ne_raftLogKey {k : Bytes} (h : ¬keyRaftLogPrefix <+: k) (i : ℕ) : raftLogKey i ≠ k := by
  rintro rfl
  exact h (prefix_raftLogKey i)

/-! ## Representation -/

/-- The storage holds the reference. -/
structure EngineStorage.Represents [StorageCodec] (s : EngineStorage) (r : LogReference) :
    Prop where
  bounded : ∀ i e, r.live.get i = some e → i < 2 ^ 64
  get_log : ∀ i < 2 ^ 64, s.eng.get (raftLogKey i) = (r.live.get i).map marshalEntry
  log_key : ∀ k v, s.eng.get k = some v → keyRaftLogPrefix <+: k → ∃ i < 2 ^ 64, k = raftLogKey i
  snapMeta : s.eng.get keyRaftSnapshotMeta =
    if r.snapshot.isEmpty then none else some (marshalMeta r.snapshot.metadata)
  snapData : s.eng.get keyRaftSnapshotData = if r.snapshot.isEmpty then none
    else some r.snapshot.data
  empty : r.snapshot.isEmpty = true → r.snapshot = {}
  cache : s.lastIdxValid = true → s.lastIdx = r.lastIndex

namespace EngineStorage

variable [StorageCodec] {s : EngineStorage} {r : LogReference}

section

variable (h : s.Represents r)
include h

/-- **A scan of the log goes through the live entries**, in order. -/
theorem Represents.scan_eq : ((s.eng.seek keyRaftLogPrefix).takeWhile fun x ↦ isLogKey x.1) =
      r.live.entries.map fun x ↦ (raftLogKey x.1, marshalEntry x.2) := by
  have hsorted := s.eng.sorted_seek keyRaftLogPrefix
  have hmem {k v : Bytes} (hx : (k, v) ∈ s.eng.seek keyRaftLogPrefix) :
      isLogKey k = true ↔ keyRaftLogPrefix <+: k := by
    refine ⟨prefix_of_isLogKey, fun hk ↦ ?_⟩
    obtain ⟨i, -, rfl⟩ := h.log_key k v (mem_entries.mp (mem_seek.mp hx).1) hk
    exact isLogKey_raftLogKey i
  rw [takeWhile_eq_filter hsorted]
  · refine entries_ext (hsorted.filter _) ?_ ?_
    · refine pairwise_map.mpr (r.live.sorted.imp_of_mem fun {a b} ha hb hab ↦ ?_)
      exact (raftLogKey_lt (h.bounded _ _ (mem_entries.mp ha))
        (h.bounded _ _ (mem_entries.mp hb))).mpr hab
    · rintro ⟨k, v⟩
      rw [mem_filter, mem_map, mem_seek, mem_entries]
      constructor
      · rintro ⟨⟨hget, -⟩, hk⟩
        obtain ⟨i, hi, rfl⟩ := h.log_key k v hget (prefix_of_isLogKey hk)
        rw [h.get_log i hi] at hget
        obtain ⟨e, he, rfl⟩ := Option.map_eq_some_iff.mp hget
        exact ⟨(i, e), mem_entries.mpr he, rfl⟩
      · rintro ⟨⟨i, e⟩, he, heq⟩
        obtain ⟨rfl, rfl⟩ := Prod.mk.inj heq
        have hget := mem_entries.mp he
        refine ⟨⟨?_, ?_⟩, isLogKey_raftLogKey i⟩
        · rw [h.get_log i (h.bounded i e hget), hget]
          rfl
        · have hle := (append_le_append_left keyRaftLogPrefix [] (beBytes 8 i)).mpr
            (not_lt.mp (not_lt_nil _))
          rwa [append_nil] at hle
  · -- below a key of the log there are only keys of the log
    rintro ⟨k, v⟩ hk ⟨k', v'⟩ hk' hlt hlog
    obtain ⟨t, rfl⟩ := (hmem hk').mp hlog
    refine (hmem hk).mpr (isPrefix_of_between (a := []) ?_ hlt.le)
    rw [append_nil]
    exact (mem_seek.mp hk).2

theorem Represents.loadSnapshotMeta : s.loadSnapshotMeta = .ok r.snapshot.metadata := by
  rw [EngineStorage.loadSnapshotMeta, h.snapMeta]
  by_cases hempty : r.snapshot.isEmpty = true
  · rw [if_pos hempty, h.empty hempty]
  · simp [if_neg hempty, unmarshalMeta_marshal]

/-! ### Queries -/

theorem Represents.firstIndex : s.firstIndex = .ok r.firstIndex := by
  rw [EngineStorage.firstIndex, h.loadSnapshotMeta, LogReference.firstIndex]
  simp only [bind, Except.bind]
  split <;> rfl

theorem Represents.snapshot : s.snapshot = .ok r.snapshot := by
  rw [EngineStorage.snapshot, h.loadSnapshotMeta, h.snapData]
  by_cases hempty : r.snapshot.isEmpty = true
  · rw [h.empty hempty]
    rfl
  · have hindex : r.snapshot.metadata.index ≠ 0 := by simpa [Snapshot.isEmpty] using hempty
    simp only [bind, Except.bind, if_neg hindex, if_neg hempty]
    rfl

theorem Represents.term {i : ℕ} (hi : i < 2 ^ 64) : s.term i = r.term i := by
  rw [EngineStorage.term, h.loadSnapshotMeta, h.get_log i hi, LogReference.term]
  simp only [bind, Except.bind]
  by_cases hat : i = r.snapshot.metadata.index ∧ i > 0
  · rw [if_pos hat, if_pos ⟨hat.1 ▸ hat.2, hat.1⟩]
    rfl
  · have hat' : ¬(r.snapshot.metadata.index > 0 ∧ i = r.snapshot.metadata.index) :=
      fun hc ↦ hat ⟨hc.2, hc.2 ▸ hc.1⟩
    rw [if_neg hat, if_neg hat']
    by_cases hlt : i < r.snapshot.metadata.index
    · rw [if_pos hlt, if_pos ⟨zero_lt_of_lt hlt, hlt⟩]
      rfl
    · rw [if_neg hlt, if_neg fun hc ↦ hlt hc.2]
      cases r.live.get i with
      | none => rfl
      | some e => simp [unmarshalEntry_marshal, pure, Except.pure]

theorem Represents.entriesFrom {lo n : ℕ} (hn : lo + n ≤ 2 ^ 64) :
    s.entriesFrom lo n = r.entriesFrom lo n := by
  induction n generalizing lo with
  | zero => rfl
  | succ n ih =>
    rw [EngineStorage.entriesFrom, LogReference.entriesFrom, h.get_log lo (by omega), ih (by omega)]
    cases r.live.get lo with
    | none => rfl
    | some e => simp [unmarshalEntry_marshal]

end

omit [StorageCodec] in
/-- The maximum of an ascending list is its last element. -/
theorem foldl_greater {l : List ℕ} (hl : l.Pairwise (· < ·)) (a : ℕ) :
    l.foldl (fun last i ↦ if i > last then i else last) a = max a (l.getLast?.getD 0) := by
  induction l generalizing a with
  | nil => simp
  | cons i l ih =>
    obtain ⟨hi, hl⟩ := pairwise_cons.mp hl
    have hmax : (if i > a then i else a) = max a i := by
      split <;> omega
    rw [foldl_cons, ih hl, hmax]
    obtain _ | ⟨j, l⟩ := l
    · simp
    · have hlast := hi _ (getLast_mem (cons_ne_nil j l))
      rw [getLast?_cons_cons, getLast?_eq_some_getLast (cons_ne_nil j l)]
      simp only [Option.getD_some]
      omega

section

variable (h : s.Represents r)
include h

theorem Represents.logKeys : s.logKeys = r.live.entries.map fun x ↦ raftLogKey x.1 := by
  rw [EngineStorage.logKeys, h.scan_eq, map_map]
  rfl

theorem Represents.scanLastIndex : s.scanLastIndex = .ok r.lastIndex := by
  have hfold : s.logKeys.foldl (fun last k ↦ if indexOf k > last then indexOf k else last) 0 =
      r.greatest := by
    have hindex : s.logKeys.map indexOf = r.live.entries.map Prod.fst := by
      rw [h.logKeys, map_map]
      refine map_congr_left fun x hx ↦ ?_
      have hx' : r.live.get x.1 = some x.2 := mem_entries.mp hx
      rw [comp_apply, indexOf_raftLogKey (h.bounded x.1 x.2 hx')]
    have hmap : s.logKeys.foldl (fun last k ↦ if indexOf k > last then indexOf k else last) 0 =
        (s.logKeys.map indexOf).foldl (fun last i ↦ if i > last then i else last) 0 := by
      rw [foldl_map]
    rw [hmap, hindex, foldl_greater (pairwise_map.mpr r.live.sorted), getLast?_map, zero_max]
    rfl
  rw [EngineStorage.scanLastIndex, h.loadSnapshotMeta]
  simp only [bind, Except.bind, hfold, LogReference.lastIndex]
  split
  · rw [max_eq_right (by omega)]
    rfl
  · rw [max_eq_left (by omega)]
    rfl

theorem Represents.lastIndex : s.lastIndex.1 = .ok r.lastIndex ∧ s.lastIndex.2.Represents r := by
  rw [EngineStorage.lastIndex]
  split
  · rename_i hvalid
    exact ⟨congrArg _ (h.cache hvalid), h⟩
  · rw [h.scanLastIndex]
    exact ⟨rfl, { h with cache := fun _ ↦ rfl }⟩

/-! ### Calls -/

/-- Writes to other keys concern neither the log nor the snapshot. -/
theorem Represents.insert {k : Bytes} (v : Bytes) (hlog : ¬keyRaftLogPrefix <+: k)
    (hmeta : keyRaftSnapshotMeta ≠ k) (hdata : keyRaftSnapshotData ≠ k) :
    { s with eng := s.eng.insert k v : EngineStorage }.Represents r where
  bounded := h.bounded
  get_log i hi := (get_insert_of_ne _ (ne_raftLogKey hlog i) v).trans (h.get_log i hi)
  log_key k' v' hget hk' := by
    have hne : k' ≠ k := by
      rintro rfl
      exact hlog hk'
    rw [get_insert_of_ne _ hne v] at hget
    exact h.log_key k' v' hget hk'
  snapMeta := (get_insert_of_ne _ hmeta v).trans h.snapMeta
  snapData := (get_insert_of_ne _ hdata v).trans h.snapData
  empty := h.empty
  cache := h.cache

theorem Represents.appendEntry {e : Entry} (he : e.index < 2 ^ 64) :
    (s.appendEntry e).Represents (r.append e) where
  bounded i e' hget := by
    by_cases hi : i = e.index
    · exact hi ▸ he
    · rw [LogReference.append, get_insert_of_ne _ hi] at hget
      exact h.bounded i e' hget
  get_log i hi := by
    rw [EngineStorage.appendEntry, LogReference.append]
    by_cases heq : i = e.index
    · rw [heq, get_insert_self, get_insert_self]
      rfl
    · rw [get_insert_of_ne _ heq, get_insert_of_ne _ fun hk ↦ heq (raftLogKey_inj hi he hk)]
      exact h.get_log i hi
  log_key k v hget hk := by
    by_cases heq : k = raftLogKey e.index
    · exact ⟨e.index, he, heq⟩
    · rw [EngineStorage.appendEntry, get_insert_of_ne _ heq] at hget
      exact h.log_key k v hget hk
  snapMeta := (get_insert_of_ne _ (ne_raftLogKey (by decide) _).symm _).trans h.snapMeta
  snapData := (get_insert_of_ne _ (ne_raftLogKey (by decide) _).symm _).trans h.snapData
  empty := h.empty
  cache hvalid := by
    have hcache := h.cache hvalid
    have hvalid' : s.lastIdxValid = true := hvalid
    have hsnapshot : (r.append e).snapshot = r.snapshot := rfl
    rw [LogReference.lastIndex, r.greatest_append e, hsnapshot]
    rw [LogReference.lastIndex] at hcache
    simp only [EngineStorage.appendEntry, hvalid', true_and]
    split <;> omega

theorem Represents.appendEntries {es : List Entry} (hes : ∀ e ∈ es, e.index < 2 ^ 64) :
    (s.appendEntries es).Represents (es.foldl LogReference.append r) := by
  induction es generalizing s r with
  | nil => exact h
  | cons e es ih =>
    exact ih (h.appendEntry (hes e (.head _))) fun e' he' ↦ hes e' (mem_cons_of_mem e he')

end

theorem get_saveSnapshot {snap : Snapshot} (hsnap : snap.isEmpty = false) (k : Bytes) :
    (s.saveSnapshot snap).eng.get k = if k = keyRaftSnapshotMeta then some
      (marshalMeta snap.metadata)
      else if k = keyRaftSnapshotData then some snap.data else s.eng.get k := by
  simp only [EngineStorage.saveSnapshot, snapshotWrites, hsnap, Bool.false_eq_true, if_false,
    foldl_cons, foldl_nil]
  by_cases hmeta : k = keyRaftSnapshotMeta
  · rw [if_pos hmeta, hmeta, get_insert_self]
  · rw [if_neg hmeta, get_insert_of_ne _ hmeta]
    by_cases hdata : k = keyRaftSnapshotData
    · rw [if_pos hdata, hdata, get_insert_self]
    · rw [if_neg hdata, get_insert_of_ne _ hdata]

section

variable (h : s.Represents r)
include h

theorem Represents.saveSnapshot (snap : Snapshot) :
    (s.saveSnapshot snap).Represents (r.saveSnapshot snap) := by
  cases hsnap : snap.isEmpty with
  | true =>
    rw [EngineStorage.saveSnapshot, LogReference.saveSnapshot, if_pos hsnap, if_pos hsnap]
    exact h
  | false =>
    have hget {k : Bytes} (hmeta : k ≠ keyRaftSnapshotMeta) (hdata : k ≠ keyRaftSnapshotData) :
        (s.saveSnapshot snap).eng.get k = s.eng.get k := by
      rw [get_saveSnapshot hsnap, if_neg hmeta, if_neg hdata]
    have href : r.saveSnapshot snap = { r with snapshot := snap } := by
      rw [LogReference.saveSnapshot, if_neg (by simp [hsnap])]
    rw [href]
    refine ⟨h.bounded, fun i hi ↦ ?_, fun k v hv hk ↦ ?_, ?_, ?_, ?_, fun hvalid ↦ ?_⟩
    · rw [hget (ne_raftLogKey (by decide) i) (ne_raftLogKey (by decide) i)]
      exact h.get_log i hi
    · rw [hget (fun heq ↦ absurd (heq ▸ hk) (by decide)) fun heq ↦ absurd (heq ▸ hk) (by decide)]
        at hv
      exact h.log_key k v hv hk
    · rw [get_saveSnapshot hsnap, if_pos rfl]
      simp [hsnap]
    · rw [get_saveSnapshot hsnap, if_neg (by decide), if_pos rfl]
      simp [hsnap]
    · simp [hsnap]
    · simp [EngineStorage.saveSnapshot, hsnap] at hvalid

variable {c : ℕ}

theorem Represents.mem_toDelete {k : Bytes} : k ∈ ((s.eng.seek keyRaftLogPrefix).takeWhile fun x ↦
        isLogKey x.1 && decide (indexOf x.1 ≤ c)).map Prod.fst ↔
      ∃ i e, r.live.get i = some e ∧ i ≤ c ∧ k = raftLogKey i := by
  have hindex {x : ℕ × Entry} (hx : x ∈ r.live.entries) : indexOf (raftLogKey x.1) = x.1 :=
    indexOf_raftLogKey (h.bounded x.1 x.2 (mem_entries.mp hx))
  have htake : ((s.eng.seek keyRaftLogPrefix).takeWhile fun x ↦
      isLogKey x.1 && decide (indexOf x.1 ≤ c)) =
          (r.live.entries.filter fun x ↦ decide (x.1 ≤ c)).map
          fun x ↦ (raftLogKey x.1, marshalEntry x.2) := by
    have hboth : (fun x : Bytes × Bytes ↦ isLogKey x.1 && decide (indexOf x.1 ≤ c)) =
        fun x ↦ decide (decide (indexOf x.1 ≤ c) = true ∧ isLogKey x.1 = true) := by
      funext x
      simp [Bool.and_comm]
    rw [hboth, ← takeWhile_takeWhile (fun x : Bytes × Bytes ↦ decide (indexOf x.1 ≤ c)), h.scan_eq,
      takeWhile_map, takeWhile_eq_filter r.live.sorted]
    · refine congrArg _ (filter_congr fun x hx ↦ ?_)
      rw [comp_apply, hindex hx]
    · intro a ha b hb hab hle
      rw [comp_apply, hindex ha, decide_eq_true_eq]
      rw [comp_apply, hindex hb, decide_eq_true_eq] at hle
      exact hab.le.trans hle
  rw [htake, map_map, mem_map]
  constructor
  · rintro ⟨⟨i, e⟩, hmem, rfl⟩
    rw [mem_filter, mem_entries] at hmem
    exact ⟨i, e, hmem.1, of_decide_eq_true hmem.2, rfl⟩
  · rintro ⟨i, e, hget, hle, rfl⟩
    exact ⟨(i, e), mem_filter.mpr ⟨mem_entries.mpr hget, decide_eq_true hle⟩, rfl⟩

theorem Represents.get_compact_eq_none {c i : ℕ} (hc : c ≠ 0) {e : Entry}
    (hget : r.live.get i = some e) (hle : i ≤ c) : (s.compact c).eng.get (raftLogKey i) = none := by
  simp only [EngineStorage.compact, if_neg hc, get_foldl_erase]
  exact if_pos (h.mem_toDelete.mpr ⟨i, e, hget, hle, rfl⟩)

theorem Represents.get_compact_of_ne {k : Bytes}
    (hk : ∀ i e, r.live.get i = some e → i ≤ c → k ≠ raftLogKey i) :
    (s.compact c).eng.get k = s.eng.get k := by
  by_cases hc : c = 0
  · rw [EngineStorage.compact, if_pos hc]
  · simp only [EngineStorage.compact, if_neg hc, get_foldl_erase]
    refine if_neg fun hmem ↦ ?_
    obtain ⟨i, e, hget, hle, heq⟩ := h.mem_toDelete.mp hmem
    exact hk i e hget hle heq

theorem Represents.compact (hc : c ≠ 0) : (s.compact c).Represents (r.compact c) := by
  have hother {k : Bytes} (hk : ¬keyRaftLogPrefix <+: k) : (s.compact c).eng.get k = s.eng.get k :=
    h.get_compact_of_ne fun i _ _ _ ↦ (ne_raftLogKey hk i).symm
  have hlog (i : ℕ) (hi : i < 2 ^ 64) :
      (s.compact c).eng.get (raftLogKey i) = ((r.compact c).live.get i).map marshalEntry := by
    rw [LogReference.get_compact]
    split <;> rename_i hle
    · cases hlive : r.live.get i with
      | some e => exact h.get_compact_eq_none hc hlive hle
      | none =>
        rw [h.get_compact_of_ne, h.get_log i hi, hlive]
        rintro j e hget - heq
        rw [raftLogKey_inj hi (h.bounded j e hget) heq, hget] at hlive
        cases hlive
    · rw [h.get_compact_of_ne, h.get_log i hi]
      intro j e hget hj heq
      exact hle (raftLogKey_inj hi (h.bounded j e hget) heq ▸ hj)
  refine ⟨fun i e hget ↦ ?_, hlog, fun k v hget hk ↦ ?_, ?_, ?_, h.empty, fun hvalid ↦ ?_⟩
  · rw [LogReference.get_compact] at hget
    split at hget
    · cases hget
    · exact h.bounded i e hget
  · by_cases hdel : ∃ i e, r.live.get i = some e ∧ i ≤ c ∧ k = raftLogKey i
    · obtain ⟨i, e, hlive, -, rfl⟩ := hdel
      exact ⟨i, h.bounded i e hlive, rfl⟩
    · rw [h.get_compact_of_ne fun i e hi hle heq ↦ hdel ⟨i, e, hi, hle, heq⟩] at hget
      exact h.log_key k v hget hk
  · exact (hother (by decide)).trans h.snapMeta
  · exact (hother (by decide)).trans h.snapData
  · simp [EngineStorage.compact, hc] at hvalid

theorem Represents.compact_compact (c : ℕ) : (s.compact c).compact c = s.compact c := by
  by_cases hc : c = 0
  · have hsame (s : EngineStorage) : s.compact c = s := by rw [EngineStorage.compact, if_pos hc]
    rw [hsame, hsame]
  · have heng : ((s.compact c).compact c).eng = (s.compact c).eng := by
      refine ext_get fun k ↦ (h.compact hc).get_compact_of_ne fun i e hget hle ↦ ?_
      rw [LogReference.get_compact, if_pos hle] at hget
      cases hget
    simp only [EngineStorage.compact, if_neg hc] at heng ⊢
    rw [heng]

end

end EngineStorage

/-! ## Runs -/

/-- A call of the storage. Indices are 64-bit numbers. -/
inductive StorageCall where
  | appendEntries (es : List Entry) (h : ∀ e ∈ es, e.index < 2 ^ 64)
  | saveSnapshot (snap : Snapshot)
  | compact (compactIndex : ℕ)
  | saveHardState (hs : HardState)
  | saveApplied (index : ℕ)
  | lastIndex

/-- What the call means. `Compact(0)` returns at once. -/
def LogReference.call (r : LogReference) : StorageCall → LogReference
  | .appendEntries es _ => es.foldl append r
  | .saveSnapshot snap => r.saveSnapshot snap
  | .compact c => if c = 0 then r else r.compact c
  | _ => r

def LSMLogStorage.call (t : LSMLogStorage) : StorageCall → LSMLogStorage
  | .appendEntries es _ => t.appendEntries es
  | .saveSnapshot snap => t.saveSnapshot snap
  | .compact c => t.compact c
  | .saveHardState hs => t.saveHardState hs
  | .saveApplied i => t.saveApplied i
  | .lastIndex => t

namespace EngineStorage

section Calls

variable [StorageCodec] {s : EngineStorage} {r : LogReference}

def call (s : EngineStorage) : StorageCall → EngineStorage
  | .appendEntries es _ => s.appendEntries es
  | .saveSnapshot snap => s.saveSnapshot snap
  | .compact c => s.compact c
  | .saveHardState hs => s.saveHardState hs
  | .saveApplied i => s.saveApplied i
  | .lastIndex => s.lastIndex.2

theorem Represents.call (h : s.Represents r) (c : StorageCall) :
    (s.call c).Represents (r.call c) := by
  cases c with
  | appendEntries es hes => exact h.appendEntries hes
  | saveSnapshot snap => exact h.saveSnapshot snap
  | compact c =>
    by_cases hc : c = 0
    · rw [EngineStorage.call, EngineStorage.compact, LogReference.call, if_pos hc, if_pos hc]
      exact h
    · rw [LogReference.call, if_neg hc]
      exact h.compact hc
  | saveHardState hs => exact h.insert _ (by decide) (by decide) (by decide)
  | saveApplied i => exact h.insert _ (by decide) (by decide) (by decide)
  | lastIndex => exact h.lastIndex.2

theorem Represents.calls (h : s.Represents r) (cs : List StorageCall) :
    (cs.foldl EngineStorage.call s).Represents (cs.foldl LogReference.call r) := by
  induction cs generalizing s r with
  | nil => exact h
  | cons c cs ih => exact ih (h.call c)

omit [StorageCodec] in
/-- No key of the engine is one of the Raft keys. -/
def NoRaftKeys (eng : SortedMap Bytes Bytes) : Prop :=
  ∀ k, [0x00, 0x72, 0x61, 0x66, 0x74, 0x2f] <+: k → eng.get k = none

theorem represents_new {eng : SortedMap Bytes Bytes} (h : NoRaftKeys eng) :
    (⟨eng, 0, false⟩ : EngineStorage).Represents {} where
  bounded i e hget := by cases show none = some e from hget
  get_log i _ := h _ (List.IsPrefix.trans (by decide) (prefix_raftLogKey i))
  log_key k v hget hk := by
    rw [h k (List.IsPrefix.trans (by decide) hk)] at hget
    cases hget
  snapMeta := h _ (by decide)
  snapData := h _ (by decide)
  empty _ := rfl
  cache hvalid := by cases hvalid

end Calls

/-- A storage over an empty engine. -/
def new : EngineStorage := ⟨empty, 0, false⟩

end EngineStorage

/-! ## The decoded storage -/

/-- `LSMLogStorage`, over which the state machine is modelled, holds the reference. -/
structure LSMLogStorage.Decodes (t : LSMLogStorage) (r : LogReference) : Prop where
  lookup : ∀ i, AList.lookup i t.log = r.live.get i
  snapMeta : t.loadSnapshotMeta = r.snapshot.metadata
  snapshot : t.snapshot = r.snapshot

namespace LSMLogStorage.Decodes

variable {t : LSMLogStorage} {r : LogReference}

section

variable (h : t.Decodes r)
include h

theorem term (i : ℕ) : (t.term i).toOption = (r.term i).toOption := by
  rw [LSMLogStorage.term, LogReference.term, h.snapMeta, h.lookup i]
  by_cases hat : r.snapshot.metadata.index > 0 ∧ i = r.snapshot.metadata.index
  · rw [if_pos hat, if_pos ⟨hat.2, hat.2 ▸ hat.1⟩]
    rfl
  · have hat' : ¬(i = r.snapshot.metadata.index ∧ i > 0) := fun hc ↦ hat ⟨hc.1 ▸ hc.2, hc.1⟩
    rw [if_neg hat, if_neg hat']
    by_cases hlt : i < r.snapshot.metadata.index
    · rw [if_pos hlt, if_pos ⟨zero_lt_of_lt hlt, hlt⟩]
      rfl
    · rw [if_neg hlt, if_neg fun hc ↦ hlt hc.2]
      cases r.live.get i <;> rfl

theorem entriesFrom (lo n : ℕ) : (t.entriesFrom lo n).toOption = (r.entriesFrom lo n).toOption := by
  induction n generalizing lo with
  | zero => rfl
  | succ n ih =>
    rw [LSMLogStorage.entriesFrom, LogReference.entriesFrom, h.lookup lo]
    cases r.live.get lo with
    | none => rfl
    | some e =>
      have htail := ih (lo + 1)
      cases ht : t.entriesFrom (lo + 1) n <;> cases hr : r.entriesFrom (lo + 1) n <;>
        simp_all [Except.toOption, Except.map]

theorem lastIndex : t.lastIndex = r.lastIndex := by
  have hkeys (i : ℕ) : i ∈ t.log.keys ↔ ∃ e, r.live.get i = some e := by
    rw [← AList.mem_keys, ← AList.lookup_isSome, h.lookup i, Option.isSome_iff_exists]
  have hgreatest : t.log.keys.foldl max 0 = r.greatest := by
    refine le_antisymm (foldl_max_le (zero_le _) fun i hi ↦ ?_) ?_
    · obtain ⟨e, he⟩ := (hkeys i).mp hi
      exact LogReference.le_greatest he
    · obtain hzero | hlive := r.greatest_mem
      · rw [hzero]
        exact zero_le _
      · exact (le_foldl_max t.log.keys 0).2 _ ((hkeys _).mpr hlive)
  simp only [LSMLogStorage.lastIndex, hgreatest, h.snapMeta, LogReference.lastIndex]
  split <;> omega

theorem appendEntry (e : Entry) : (t.appendEntries [e]).Decodes (r.append e) where
  lookup i := by
    change AList.lookup i (AList.insert e.index e t.log) = (r.live.insert e.index e).get i
    by_cases hi : i = e.index
    · rw [hi, AList.lookup_insert, get_insert_self]
    · rw [AList.lookup_insert_ne hi, get_insert_of_ne _ hi, h.lookup i]
  snapMeta := h.snapMeta
  snapshot := h.snapshot

theorem appendEntries (es : List Entry) :
    (t.appendEntries es).Decodes (es.foldl LogReference.append r) := by
  induction es generalizing t r with
  | nil => exact h
  | cons e es ih => exact ih (h.appendEntry e)

theorem saveSnapshot (snap : Snapshot) : (t.saveSnapshot snap).Decodes (r.saveSnapshot snap) := by
  rw [LSMLogStorage.saveSnapshot, LogReference.saveSnapshot]
  split
  · exact h
  · rename_i hsnap
    have hindex : snap.metadata.index ≠ 0 := by simpa [Snapshot.isEmpty] using hsnap
    refine ⟨h.lookup, rfl, ?_⟩
    rw [LSMLogStorage.snapshot]
    exact if_neg hindex

theorem compact (c : ℕ) : (t.compact c).Decodes (if c = 0 then r else r.compact c) := by
  by_cases hc : c = 0
  · rw [if_pos hc, LSMLogStorage.compact, if_pos hc]
    exact h
  · rw [if_neg hc]
    refine ⟨fun i ↦ ?_, (compact_meta t c).trans h.snapMeta, ?_⟩
    · rw [lookup_compact, LogReference.get_compact, h.lookup i]
      simp [hc]
    · rw [LSMLogStorage.compact, if_neg hc]
      exact h.snapshot

/-- The state machine's storage and the one over the engine hold the same reference after any
calls. -/
theorem call (c : StorageCall) : (t.call c).Decodes (r.call c) := by
  cases c with
  | appendEntries es _ => exact h.appendEntries es
  | saveSnapshot snap => exact h.saveSnapshot snap
  | compact c => exact h.compact c
  | saveHardState hs => exact ⟨h.lookup, h.snapMeta, h.snapshot⟩
  | saveApplied i => exact ⟨h.lookup, h.snapMeta, h.snapshot⟩
  | lastIndex => exact h

theorem calls (cs : List StorageCall) :
    (cs.foldl LSMLogStorage.call t).Decodes (cs.foldl LogReference.call r) := by
  induction cs generalizing t r with
  | nil => exact h
  | cons c cs ih => exact ih (h.call c)

end

end LSMLogStorage.Decodes

namespace EngineStorage

section Crash

variable [StorageCodec] {s : EngineStorage} {snap : Snapshot}

/-- The engine when a crash lets `j` writes of `SaveSnapshot` through. -/
def crashed (s : EngineStorage) (snap : Snapshot) (j : ℕ) : EngineStorage :=
  ⟨((snapshotWrites snap).take j).foldl (fun eng x ↦ eng.insert x.1 x.2) s.eng, 0, false⟩

theorem snapshot_congr {s' : EngineStorage}
    (hmeta : s'.eng.get keyRaftSnapshotMeta = s.eng.get keyRaftSnapshotMeta)
    (hdata : s'.eng.get keyRaftSnapshotData = s.eng.get keyRaftSnapshotData) :
    s'.snapshot = s.snapshot := by
  rw [EngineStorage.snapshot, EngineStorage.snapshot, EngineStorage.loadSnapshotMeta,
    EngineStorage.loadSnapshotMeta, hmeta, hdata]

section

variable (hsnap : snap.isEmpty = false)
include hsnap

/-- With the data written and the metadata not, the metadata is that of the earlier snapshot. -/
theorem snapshot_crashed_one :
    (s.crashed snap 1).snapshot = s.loadSnapshotMeta.map fun m ↦
      if m.index = 0 then {} else { metadata := m, data := snap.data } := by
  have heng : (s.crashed snap 1).eng = s.eng.insert keyRaftSnapshotData snap.data := by
    simp [crashed, snapshotWrites, hsnap]
  have hload : (s.crashed snap 1).loadSnapshotMeta = s.loadSnapshotMeta := by
    rw [EngineStorage.loadSnapshotMeta, heng, get_insert_of_ne _ (by decide)]
    rfl
  rw [EngineStorage.snapshot, hload, heng, get_insert_self]
  cases s.loadSnapshotMeta with
  | error e => rfl
  | ok m =>
    simp only [bind, Except.bind, Except.map]
    split <;> rfl

theorem snapshot_crashed_two {j : ℕ} (hj : 2 ≤ j) :
    (s.crashed snap j).snapshot = .ok snap := by
  have htake : (snapshotWrites snap).take j = snapshotWrites snap := by
    refine take_of_length_le (le_trans ?_ hj)
    simp [snapshotWrites, hsnap]
  have heng (k : Bytes) : (s.crashed snap j).eng.get k = (s.saveSnapshot snap).eng.get k := by
    rw [crashed, htake, EngineStorage.saveSnapshot, if_neg (by simp [hsnap])]
  have hindex : snap.metadata.index ≠ 0 := by simpa [Snapshot.isEmpty] using hsnap
  rw [EngineStorage.snapshot, EngineStorage.loadSnapshotMeta, heng, heng, get_saveSnapshot hsnap,
    get_saveSnapshot hsnap, if_pos rfl, if_neg (by decide), if_pos rfl]
  simp only [unmarshalMeta_marshal, bind, Except.bind, if_neg hindex]
  rfl

/-- The answer between the two writes is one of the two snapshots only if they share what
differs. -/
theorem snapshot_between_iff {m : SnapshotMetadata}
    (hm : s.loadSnapshotMeta = .ok m) :
    (s.crashed snap 1).snapshot = s.snapshot ∨ (s.crashed snap 1).snapshot = .ok snap ↔
      m.index = 0 ∨ s.eng.get keyRaftSnapshotData = some snap.data ∨ m = snap.metadata := by
  rw [snapshot_crashed_one hsnap, EngineStorage.snapshot, hm]
  simp only [bind, Except.bind, Except.map]
  by_cases hindex : m.index = 0
  · simp [hindex, pure, Except.pure]
  · simp only [hindex, false_or]
    refine or_congr ?_ ?_
    · cases s.eng.get keyRaftSnapshotData with
      | none =>
        refine iff_of_false (fun heq ↦ hindex ?_) (by simp)
        exact congrArg (fun x : Snapshot ↦ x.metadata.index) (Except.ok.inj heq)
      | some data =>
        simp [pure, Except.pure, eq_comm]
    · rw [Except.ok.injEq]
      refine ⟨fun heq ↦ congrArg Snapshot.metadata heq, ?_⟩
      rintro rfl
      rfl

end

/-- **A crash in `SaveSnapshot` leaves the earlier or the new snapshot** exactly if there is no
earlier metadata, or the data or the metadata does not change. -/
theorem saveSnapshot_atomic_iff (s : EngineStorage) (snap : Snapshot) :
    (∀ j, (s.crashed snap j).snapshot = s.snapshot ∨ (s.crashed snap j).snapshot = .ok snap) ↔
      snap.isEmpty = true ∨ ∀ m, s.loadSnapshotMeta = .ok m →
        m.index = 0 ∨ s.eng.get keyRaftSnapshotData = some snap.data ∨ m = snap.metadata := by
  cases hsnap : snap.isEmpty with
  | true =>
    refine iff_of_true (fun j ↦ .inl (snapshot_congr ?_ ?_)) (.inl rfl) <;>
      simp [crashed, snapshotWrites, hsnap]
  | false =>
    simp only [Bool.false_eq_true, false_or]
    refine ⟨fun h m hm ↦ (snapshot_between_iff hsnap hm).mp (h 1), fun h j ↦ ?_⟩
    obtain _ | _ | j := j
    · exact .inl (snapshot_congr rfl rfl)
    · cases hm : s.loadSnapshotMeta with
      | ok m => exact (snapshot_between_iff hsnap hm).mpr (h m hm)
      | error e =>
        left
        rw [snapshot_crashed_one hsnap, EngineStorage.snapshot, hm]
        rfl
    · exact .inr (snapshot_crashed_two hsnap (by omega))

end Crash

/-- A crash between the writes of a second snapshot leaves the metadata of the first with the data
of the second. -/
theorem exists_mixed_snapshot :
    let s := new.saveSnapshot { metadata := { index := 1, term := 1 }, data := [1] }
    let snap : Snapshot := { metadata := { index := 2, term := 1 }, data := [2] }
    s.snapshot = .ok { metadata := { index := 1, term := 1 }, data := [1] } ∧
      (s.crashed snap 1).snapshot = .ok { metadata := { index := 1, term := 1 }, data := [2] } :=
  ⟨rfl, rfl⟩

end EngineStorage

end DucklingDB.Raft
