import DucklingDB.Lsm.SSTable
import DucklingDB.Lsm.MetaStore
import DucklingDB.Lsm.Wal
import DucklingDB.Util.Along
import DucklingDB.Util.Crash
import Mathlib.Data.List.DropRight

/-!
# The LSM engine

A write goes to the log and to the memtable. A full memtable becomes an SSTable of level 0, the log
is emptied, and levels with too many files are merged into the next one. What an operation does to
the directory is the list of its `Effect`s, in order, so that the state after a crash in the middle
is known too: `Disk.apply` performs one of them and `Effect.Torn` says what an interrupted one
leaves.

The loop of `MaybeTriggerCompaction` does not end for every choice of thresholds. It takes the
number of rounds as an argument, and an operation returns when some number of rounds is enough.

The engine holds the contents of the SSTables it has opened. The skip list of the memtable is a
sorted map, and one step of the level thresholds, which the source computes in floating point, is
any function.
-/

namespace DucklingDB.Lsm

open SortedMap

/-! ## The memtable -/

/-- The memtable: its entries, a tombstone being `none`, and the size that is compared with the
threshold. -/
structure MemTable where
  entries : SortedMap Bytes (Option Bytes) := empty
  size : ℤ := 0

namespace MemTable

variable (m : MemTable)

/-- The key of a tombstone that becomes live is counted a second time. -/
def put (key value : Bytes) : MemTable where
  entries := m.entries.insert key (some value)
  size :=
    match m.entries.get key with
    | some (some old) => m.size + (value.length - old.length)
    | some none => m.size + value.length + key.length
    | none => m.size + (key.length + value.length)

def delete (key : Bytes) : MemTable :=
  match m.entries.get key with
  | some none => m
  | some (some old) => ⟨m.entries.insert key none, m.size - old.length⟩
  | none => ⟨m.entries.insert key none, m.size + key.length⟩

/-- `none` is not found, `some none` a tombstone. -/
def get (key : Bytes) : Option (Option Bytes) := m.entries.get key

def len : ℕ := m.entries.entries.length

/-- What an iterator over the memtable shows. -/
def records : List Record := m.entries.entries

/-- One round of `applyEntriesToMemTable`; other operations are ignored. -/
def applyEntry (e : Entry) : MemTable :=
  if e.op = opPut then m.put e.key e.value else if e.op = opDelete then m.delete e.key else m

def applyEntries (es : List Entry) : MemTable := es.foldl applyEntry m

/-! ### Its size -/

/-- `Put`, or `Delete` where there is no value. -/
def write (r : Record) : MemTable := r.2.elim (m.delete r.1) (m.put r.1)

/-- What a record should count for: a tombstone has no value. -/
def weigh (r : Record) : ℕ := r.1.length + (r.2.getD []).length

def weight : ℕ := (m.records.map weigh).sum

/-- What the record of `key` counts for. -/
def weightAt (key : Bytes) : ℕ := (m.get key).elim 0 fun v ↦ weigh (key, v)

variable (m : MemTable) (key value : Bytes)

theorem weight_put :
    (m.put key value).weight + m.weightAt key = m.weight + (key.length + value.length) :=
  sum_insertEntry m.entries.sorted weigh (some value)

theorem size_put : (m.put key value).size + m.weightAt key =
    m.size + (key.length + value.length) + (if m.get key = some none then key.length
      else 0 : ℕ) := by
  simp only [put, weightAt, get]
  split <;> simp [*, weigh] <;> omega

theorem weight_delete : (m.delete key).weight + m.weightAt key = m.weight + key.length := by
  have hinsert : ((m.entries.insert key none).entries.map weigh).sum + m.weightAt key = m.weight +
      key.length :=
    sum_insertEntry m.entries.sorted weigh none
  rw [delete]
  split
  · rename_i hget
    rw [weightAt, get, hget]
    rfl
  · exact hinsert
  · exact hinsert

theorem size_delete : (m.delete key).size + m.weightAt key = m.size + key.length := by
  simp only [delete, weightAt, get]
  split <;> simp [*, weigh]

/-- The call brings no deleted key back, the empty one apart: its key would be counted twice. -/
def Counted (m : MemTable) (r : Record) : Prop := r.2.isSome → m.get r.1 = some none → r.1 = []

theorem size_write (r : Record) :
    ∃ d : ℕ, (m.write r).size + m.weight = m.size + (m.write r).weight + d ∧
      (d = 0 ↔ m.Counted r) := by
  obtain ⟨key, _ | value⟩ := r
  · have hw := m.weight_delete key
    have hs := m.size_delete key
    refine ⟨0, ?_, by simp [Counted]⟩
    simp only [write, Option.elim_none]
    omega
  · have hw := m.weight_put key value
    have hs := m.size_put key value
    refine ⟨if m.get key = some none then key.length else 0, ?_, by simp [Counted]⟩
    simp only [write, Option.elim_some]
    omega

theorem foldl_write_size_eq_iff (rs : List Record) (h : m.weight ≤ m.size) :
    (rs.foldl write m).size = (rs.foldl write m).weight ↔ m.size = m.weight ∧
      Along write Counted m rs := by
  induction rs generalizing m with
  | nil => simp [Along]
  | cons r rs ih =>
    obtain ⟨d, hd, hcounted⟩ := m.size_write r
    rw [List.foldl_cons, ih (m.write r) (by omega), Along, ← hcounted, ← and_assoc]
    refine and_congr_left fun _ ↦ ?_
    omega

/-- **The size is that of the records exactly when no call brings a deleted key back.** -/
theorem size_eq_weight_iff (rs : List Record) :
    (rs.foldl write {}).size = (rs.foldl write {}).weight ↔ Along write Counted {} rs := by
  rw [foldl_write_size_eq_iff {} rs le_rfl]
  exact and_iff_right rfl

theorem exists_recounted :
    ∃ rs : List Record, (rs.foldl write {}).size = 3 ∧ (rs.foldl write {}).weight = 2 :=
  ⟨[([97], some [49]), ([97], none), ([97], some [49])], by decide⟩

end MemTable

/-! ## The directory -/

/-- The directory: the SSTables by number, `none` for one that was not written to its end, the
metadata slots and the log. -/
structure Disk where
  files : SortedMap ℕ (Option SSTable) := empty
  metaStore : MetaStore := {}
  wal : Bytes := []

/-- The path of the directory, which `filepath.Glob` takes for a pattern. -/
structure GlobPath where
  /-- The pattern matches the path itself. With a metacharacter in the path, as in `db[1]`, it need
  not. -/
  matchesItself : Bool := true
  /-- The numbers of the SSTables in other directories that the pattern matches. -/
  elsewhere : List ℕ := []

/-- A change of the directory. -/
inductive Effect where
  | append (e : Entry)
  | truncateWal
  | writeTable (id : ℕ) (table : SSTable)
  | writeSlot (slot : Slot) (buf : Bytes)
  | removeTable (id : ℕ)
  deriving DecidableEq

namespace Disk

def apply (d : Disk) : Effect → Disk
  | .append e => { d with wal := d.wal ++ e.encode }
  | .truncateWal => { d with wal := [] }
  | .writeTable id table => { d with files := d.files.insert id (some table) }
  | .writeSlot slot buf => { d with metaStore := d.metaStore.write slot buf }
  | .removeTable id => { d with files := d.files.erase id }

def applyAll (d : Disk) (es : List Effect) : Disk := es.foldl apply d

end Disk

/-- What an interrupted change leaves. Emptying the log and removing a file are not interrupted. -/
inductive Effect.Torn : Disk → Effect → Disk → Prop
  | append (d : Disk) (e : Entry) {t : Bytes} (h : Lsm.Torn t) :
    Effect.Torn d (.append e) { d with wal := d.wal ++ t }
  | writeTable (d : Disk) (id : ℕ) (table : SSTable) :
    Effect.Torn d (.writeTable id table) { d with files := d.files.insert id none }
  | writeSlot (d : Disk) (slot : Slot) (buf : Bytes) {left : Bytes} (h : verify left = none) :
    Effect.Torn d (.writeSlot slot buf) { d with metaStore := d.metaStore.write slot left }

section Engine

variable [MetaDataCodec] [BloomSizing]

namespace Disk

variable (d : Disk)

/-- `OpenSSTable`. -/
def openTable (id : ℕ) : Option SSTable := (d.files.get id).join

def openTables (ids : List ℕ) : Option (List SSTable) := ids.mapM d.openTable

/-- The levels that `Load` lists. -/
def levels : List (List ℕ) := d.metaStore.load.levels

/-- `reloadLevels`, from the loaded metadata on. -/
def reloadLevels : Option (List (List SSTable)) := d.levels.mapM d.openTables

/-- The numbers of the files that the pattern `dir/sst-*.sst` matches. -/
def globbed (dir : GlobPath) : List ℕ :=
  (if dir.matchesItself then d.files.entries.map Prod.fst else []) ++ dir.elsewhere

/-- `scanDirForNextID`. The verb `%06d` reads at most six digits, so a longer number does not
match. -/
def scanDirForNextID (dir : GlobPath) : ℕ :=
  (d.globbed dir).foldl
    (fun nextID id ↦ if id < 1000000 then if id + 1 > nextID then id + 1 else nextID else nextID) 0

/-- The write of `MetaStore.Save`. -/
def saveEffect (levels : List (List ℕ)) : Effect :=
  .writeSlot d.metaStore.target (MetaStore.slotBytes (d.metaStore.saved levels))

end Disk

/-! ## Compaction -/

/-- The options of the engine. `grow` is one step of the level thresholds,
`t ↦ int(float64(t) * GrowthFactor)`. -/
structure LSMOptions where
  dir : GlobPath := {}
  memTableThreshold : ℤ
  l0Threshold : ℤ
  grow : ℤ → ℤ

namespace LSMOptions

variable (opts : LSMOptions)

/-- The threshold of the memtable, four mebibytes by default. -/
def memThreshold : ℤ :=
  if opts.memTableThreshold ≤ 0 then 4194304 else opts.memTableThreshold

def levelThreshold (level : ℕ) : ℤ :=
  Nat.iterate opts.grow level (if opts.l0Threshold ≤ 0 then 4 else opts.l0Threshold)

def firstOverThreshold (levels : List (List ℕ)) : Option ℕ :=
  (List.range levels.length).find? fun level ↦
    decide (opts.levelThreshold level ≤ (levels.getD level []).length)

end LSMOptions

/-- No level below `toLevel` has files. -/
def isBottomLevel (levels : List (List ℕ)) (toLevel : ℕ) : Bool :=
  (levels.drop (toLevel + 1)).all List.isEmpty

/-- Drop empty levels at the end, but never the first level. -/
def trimTrailingEmptyLevels : List (List ℕ) → List (List ℕ)
  | [] => []
  | level :: levels => level :: levels.rdropWhile List.isEmpty

/-- Append empty levels up to `toLevel`. -/
def growLevels (levels : List (List ℕ)) (toLevel : ℕ) : List (List ℕ) :=
  levels ++ List.replicate (toLevel + 1 - levels.length) []

/-- A position before the records of an open SSTable. -/
def SSTable.newIterator (t : SSTable) : Cursor where
  kind := .sstable
  records := t.records

/-- The records of a compaction: tombstones are dropped at the bottom level. -/
def compactRecords (bottom : Bool) (readers : List SSTable) : List Record :=
  let iters := readers.map SSTable.newIterator
  if bottom then (scan [] iters).map fun e ↦ (e.1, some e.2) else rawScan [] iters

/-- `compactLevelLocked`: its effects and the next number, or `none` if a file cannot be opened. -/
def compactLevel (d : Disk) (nextID fromLevel toLevel : ℕ) : Option (List Effect × ℕ) :=
  let levels := growLevels d.levels toLevel
  let fromFiles := levels.getD fromLevel []
  let toFiles := levels.getD toLevel []
  if fromFiles = [] then some ([], nextID)
  else
    (d.openTables (fromFiles ++ toFiles)).map fun readers ↦
      let records := compactRecords (isBottomLevel levels toLevel) readers
      let levels' := trimTrailingEmptyLevels ((levels.set fromLevel []).set toLevel [nextID])
      (.writeTable nextID (SSTable.ofRecords records) :: d.saveEffect levels' ::
        (fromFiles ++ toFiles).map .removeTable, nextID + 1)

/-- How an operation ends: it returns, it returns an error, or it is still in the compaction
loop. -/
inductive Status where
  | done
  | failed
  | running
  deriving DecidableEq

/-- What the compaction loop did. -/
structure Compaction where
  effects : List Effect
  nextID : ℕ
  status : Status

/-- `MaybeTriggerCompaction`, for a number of rounds. -/
def maybeTriggerCompaction (opts : LSMOptions) : ℕ → Disk → ℕ → Compaction
  | 0, _, nextID => ⟨[], nextID, .running⟩
  | fuel + 1, d, nextID =>
    match opts.firstOverThreshold d.levels with
    | none => ⟨[], nextID, .done⟩
    | some level =>
      match compactLevel d nextID level (level + 1) with
      | none => ⟨[], nextID, .failed⟩
      | some (es, nextID') =>
        let c := maybeTriggerCompaction opts fuel (d.applyAll es) nextID'
        ⟨es ++ c.effects, c.nextID, c.status⟩

/-! ## The engine -/

structure Engine where
  opts : LSMOptions
  nextID : ℕ
  mem : MemTable
  levels : List (List SSTable)
  disk : Disk

/-- An operation: the engine after it, its effects and how it ended. -/
structure Outcome where
  engine : Engine
  effects : List Effect
  status : Status

/-- The metadata of `FlushMemTable`: the newest file of level 0 comes first. -/
def prependLevel0 (id : ℕ) : List (List ℕ) → List (List ℕ)
  | [] => [[id]]
  | level :: levels => (id :: level) :: levels

/-- The effects of `FlushMemTable`. -/
def flushMemTable (d : Disk) (nextID : ℕ) (mem : MemTable) : List Effect :=
  [.writeTable nextID (SSTable.ofRecords mem.records), d.saveEffect (prependLevel0 nextID d.levels)]

/-- `OpenLSM`, or `none` if it fails. -/
def openLSM (opts : LSMOptions) (d : Disk) : Option Engine :=
  d.reloadLevels.bind fun levels ↦
    (readAll d.wal).map fun entries ↦
      { opts := opts
        nextID := d.scanDirForNextID opts.dir
        mem := MemTable.applyEntries {} entries
        levels := levels
        disk := d }

namespace Engine

variable (e : Engine)

/-- The end of a flush: level readers that cannot be reopened leave no levels. -/
def reload (es : List Effect) : Outcome :=
  match e.disk.reloadLevels with
  | none => ⟨{ e with levels := [] }, es, .failed⟩
  | some levels => ⟨{ e with levels := levels }, es, .done⟩

/-- `flushActiveMemTableLocked`. -/
def flush (fuel : ℕ) (e : Engine) : Outcome :=
  if e.mem.len = 0 then ⟨e, [], .done⟩
  else
    let es := flushMemTable e.disk e.nextID e.mem ++ [.truncateWal]
    let o := reload { e with disk := e.disk.applyAll es, nextID := e.nextID + 1, mem := {} } es
    match o.status with
    | .done =>
      let c := maybeTriggerCompaction e.opts fuel o.engine.disk o.engine.nextID
      let e' := { o.engine with disk := o.engine.disk.applyAll c.effects, nextID := c.nextID }
      match c.status with
      | .done => reload e' (es ++ c.effects)
      | status => ⟨e', es ++ c.effects, status⟩
    | _ => o

/-- `Put`, `Delete` and `Commit`: to the log, to the memtable, and flush if the memtable is full. -/
def write (fuel : ℕ) (e : Engine) (entries : List Entry) : Outcome :=
  let es := entries.map .append
  let e' := { e with disk := e.disk.applyAll es, mem := e.mem.applyEntries entries }
  if e'.mem.size < e.opts.memThreshold then ⟨e', es, .done⟩
  else
    let o := flush fuel e'
    { o with effects := es ++ o.effects }

def close (fuel : ℕ) (e : Engine) : Outcome := flush fuel e

def get (key : Bytes) : Option Bytes :=
  match e.mem.get key with
  | some r => r
  | none => (e.levels.flatten.findSome? fun t ↦ t.get key).join

/-- The sources of `NewIterator`, the freshest first. -/
def iters : List Cursor :=
  ⟨.memTable, e.mem.records, -1⟩ :: e.levels.flatten.map SSTable.newIterator

/-- What an iterator created now shows after `Seek(s)` and repeated `Next`. -/
def scan (s : Bytes) : List (Bytes × Bytes) := Lsm.scan s e.iters

end Engine

end Engine

end DucklingDB.Lsm
