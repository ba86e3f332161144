import DucklingDB.Raft.Message

/-!
# The persistent log

`LSMLogStorage` keeps five kinds of keys in the engine: the hard state, the applied index, the
snapshot's metadata and its data, and one key for each log entry. The model holds the decoded value
behind each key; the log keys are a map from index to entry, because that is all the source does
with them: overwrite one key, read one key, scan all of them, delete those up to an index.

Two features of the source matter to everything above. `appendEntries` overwrites key by key and
never deletes, so persisting a shorter replacement leaves the old suffix in place. And `lastIndex`
is the largest key present, or the snapshot's index if that is larger. The source caches the latter
answer; the cache never changes it and is left out.
-/

namespace DucklingDB.Raft

/-- The errors of the log accessors. -/
inductive LogError where
  /-- `errUnavailable`. -/
  | unavailable
  /-- `ErrCompacted`. -/
  | compacted
  /-- `make` of a slice with a capacity below zero: the runtime panics. -/
  | makeslice
  deriving DecidableEq, Repr

structure LSMLogStorage where
  hardState : Option HardState := none
  applied : Option ℕ := none
  snapMeta : Option SnapshotMetadata := none
  snapData : Option Bytes := none
  log : GoMap ℕ Entry := ∅
  deriving DecidableEq

namespace LSMLogStorage

variable (s : LSMLogStorage)

/-- `InitialState`: the zero hard state if none was saved. -/
def initialState : HardState := s.hardState.getD {}

def saveHardState (hs : HardState) : LSMLogStorage :=
  { s with hardState := some hs }

def loadSnapshotMeta : SnapshotMetadata := s.snapMeta.getD {}

def firstIndex : ℕ :=
  if s.loadSnapshotMeta.index > 0 then s.loadSnapshotMeta.index + 1 else 1

/-- `scanLastIndex`: the largest log key, or the snapshot's anchor if that is larger. -/
def lastIndex : ℕ :=
  let last := s.log.keys.foldl max 0
  if s.loadSnapshotMeta.index > last then s.loadSnapshotMeta.index else last

def term (index : ℕ) : Except LogError ℕ :=
  if s.loadSnapshotMeta.index > 0 ∧ index = s.loadSnapshotMeta.index then
    .ok s.loadSnapshotMeta.term
  else if s.loadSnapshotMeta.index > 0 ∧ index < s.loadSnapshotMeta.index then
    .error .compacted
  else match AList.lookup index s.log with
    | some e => .ok e.term
    | none => .error .unavailable

/-- `Entries(lo, lo + n)`: the loop fails at the first missing key. -/
def entriesFrom (s : LSMLogStorage) (lo : ℕ) : ℕ → Except LogError (List Entry)
  | 0 => .ok []
  | n + 1 => match AList.lookup lo s.log with
    | none => .error .unavailable
    | some e => match s.entriesFrom (lo + 1) n with
      | .error err => .error err
      | .ok es => .ok (e :: es)

/-- `Entries(lo, hi)`. The capacity `hi - lo` wraps around if `hi < lo`. -/
def entries (lo hi : ℕ) : Except LogError (List Entry) :=
  if hi < lo then .error .makeslice else s.entriesFrom lo (hi - lo)

theorem entries_eq {lo hi : ℕ} (h : lo ≤ hi) : s.entries lo hi = s.entriesFrom lo (hi - lo) := by
  rw [entries, if_neg h.not_gt]

def saveApplied (index : ℕ) : LSMLogStorage :=
  { s with applied := some index }

def loadApplied : ℕ := s.applied.getD 0

/-- One `Put` for each entry, under the key of the entry's own index. -/
def appendEntries (entries : List Entry) : LSMLogStorage :=
  { s with log := entries.foldl (fun log e ↦ AList.insert e.index e log) s.log }

/-- `Snapshot`: the zero snapshot if there is no metadata, or metadata without data. -/
def snapshot : Snapshot :=
  if s.loadSnapshotMeta.index = 0 then {}
  else match s.snapData with
    | none => {}
    | some data => { metadata := s.loadSnapshotMeta, data := data }

/-- `SaveSnapshot` refuses the empty snapshot; the model then leaves the storage as it is. -/
def saveSnapshot (snap : Snapshot) : LSMLogStorage :=
  if snap.isEmpty then s
  else { s with snapData := some snap.data, snapMeta := some snap.metadata }

/-- Deletes every log key up to `compactIndex`. -/
def compact (compactIndex : ℕ) : LSMLogStorage :=
  if compactIndex = 0 then s
  else { s with
    log := (s.log.keys.filter (· ≤ compactIndex)).foldl (fun log k ↦ AList.erase k log) s.log }

end LSMLogStorage

end DucklingDB.Raft
