import DucklingDB.Lsm.Runs
import DucklingDB.Util.RefCount

/-!
# Open SSTables

The level set and every iterator share readers of SSTable files. A reader is counted once for the
level set and once for each open iterator that pinned it; `reloadLevels` releases the whole level
set and opens the listed files anew, which may fail on the way.

A reader is a handle on a file, not on a name. Removing the file leaves the handle readable, but
writing to a name that still leads to it would change what it reads. The engine only writes to new
names (`safe_flushEffects`, `safe_maybeTriggerCompaction`), so what a reader shows never changes.

`created` and `moves` of an iterator are not in the source. They record what `Get` answered when the
iterator was created, and the last `Seek` with the number of `Next`s since.

A compaction that cannot open a file stops there, and the flush returns its error. What it leaves is
what the rounds before did, so a number of rounds stands for an error as well.
-/

namespace DucklingDB.Lsm

open Overlay

/-! ## Handles -/

/-- An open file: its number, what it reads, and whether the name still leads to it. -/
structure Handle where
  id : ℕ
  table : SSTable
  linked : Bool := true

/-- What a change of the directory does to an open file. -/
def Handle.after (d : Disk) (e : Effect) (h : Handle) : Handle :=
  match e with
  | .writeTable id t =>
    if h.linked ∧ h.id = id ∧ (d.files.get id).isSome then { h with table := t } else h
  | .removeTable id => if h.id = id then { h with linked := false } else h
  | _ => h

/-- The contents of the file behind a reader. -/
def tableOf (p : Pool Handle) (i : ℕ) : SSTable :=
  ((p.content i).map Handle.table).getD ⟨[], ⟨[], 0, 0⟩⟩

/-- What can be read from it: nothing once it is closed. -/
def visible (p : Pool Handle) (i : ℕ) : List Record :=
  if p.closed i then [] else (tableOf p i).records

/-! ## The engine with its readers and iterators -/

structure PinnedIterator where
  pinned : List ℕ
  inner : MergeIterator
  created : Bytes → Option Bytes
  moves : Option (Bytes × ℕ)

structure System where
  opts : LSMOptions
  nextID : ℕ
  mem : MemTable
  disk : Disk
  pool : Pool Handle := {}
  levels : List (List ℕ) := []
  iters : List PinnedIterator := []

/-- Number the files of the levels from `n` on. -/
def numbered : ℕ → List (List ℕ) → List (List ℕ)
  | _, [] => []
  | n, level :: levels => List.range' n level.length :: numbered (n + level.length) levels

/-- Open files in order, until one cannot be opened. The number given, if any, is that of a file
whose opening fails. -/
def openFiles (d : Disk) : Option ℕ → List ℕ → List Handle × Bool
  | _, [] => ([], true)
  | some 0, _ :: _ => ([], false)
  | fail, id :: ids =>
    match d.openTable id with
    | none => ([], false)
    | some t =>
      let r := openFiles d (fail.map (· - 1)) ids
      (⟨id, t, true⟩ :: r.1, r.2)

section System

variable [MetaDataCodec] [BloomSizing]

namespace System

variable (s : System)

/-- The engine that the readers are part of. -/
def engine : Engine where
  opts := s.opts
  nextID := s.nextID
  mem := s.mem
  levels := s.levels.map (List.map (tableOf s.pool))
  disk := s.disk

def apply (e : Effect) : System :=
  { s with
    disk := s.disk.apply e
    pool := s.pool.map (Handle.after s.disk e) }

def applyAll (es : List Effect) : System := es.foldl apply s

/-- `reloadLevels`: the system and whether it succeeded, or `none` if a release panics. -/
def reload (fail : Option ℕ) (s : System) : Option (System × Bool) :=
  (s.pool.unrefAll s.levels.flatten).bind fun pool ↦
    let opened := openFiles s.disk fail s.disk.ids
    let pool' := pool.allocAll opened.1
    if opened.2 then
      some ({ s with pool := pool', levels := numbered pool.next s.disk.levels }, true)
    else
      (pool'.unrefAll (List.range' pool.next opened.1.length)).map fun pool' ↦
        ({ s with pool := pool', levels := [] }, false)

/-- The first two steps of a flush: the memtable becomes an SSTable, and the log is emptied. -/
def writeOut : System :=
  { s.applyAll s.engine.flushEffects with
    nextID := s.nextID + 1
    mem := {} }

/-- `MaybeTriggerCompaction`. -/
def compact (rounds : ℕ) (s : System) : System × Status :=
  let c := maybeTriggerCompaction s.opts rounds s.disk s.nextID
  ({ s.applyAll c.effects with nextID := c.nextID }, c.status)

/-- `flushActiveMemTableLocked`, with the two places where reopening files may fail. -/
def flush (rounds : ℕ) (fail₁ fail₂ : Option ℕ) (s : System) : Option (System × Status) :=
  if s.mem.len = 0 then some (s, .done)
  else
    (s.writeOut.reload fail₁).bind fun r ↦
      if r.2 then
        let c := r.1.compact rounds
        if c.2 = .done then
          (c.1.reload fail₂).map fun r ↦ (r.1, if r.2 then .done else .failed)
        else some c
      else some (r.1, .failed)

/-- The memtable and the log take the entries. -/
def logged (entries : List Entry) (s : System) : System :=
  { s.applyAll (entries.map .append) with mem := s.mem.applyEntries entries }

/-- `Put`, `Delete` and `Commit`. -/
def write (rounds : ℕ) (fail₁ fail₂ : Option ℕ) (s : System) (entries : List Entry) :
    Option (System × Status) :=
  if (s.logged entries).mem.size < s.opts.memThreshold then some (s.logged entries, .done)
  else (s.logged entries).flush rounds fail₁ fail₂

/-- `newMergedIteratorLocked`: the memtable first, and then the level set. -/
def newMergedIterator : PinnedIterator where
  pinned := s.levels.flatten
  inner := MergeIterator.new (⟨.memTable, s.mem.records, -1⟩ ::
    s.levels.flatten.map fun i ↦ (tableOf s.pool i).newIterator)
  created := s.engine.get
  moves := none

/-- `NewIterator`: it pins the level set. -/
def newIterator : System :=
  { s with
    pool := s.pool.refAll s.levels.flatten
    iters := s.iters ++ [s.newMergedIterator] }

end System

variable (p : Pool Handle)

/-- The iterator, reading its files as they are now. -/
def PinnedIterator.refresh (it : PinnedIterator) : MergeIterator :=
  { it.inner with
    iters :=
      match it.inner.iters with
      | [] => []
      | c :: cs => c :: List.zipWith (fun c i ↦ { c with records := visible p i }) cs it.pinned }

def PinnedIterator.seek (key : Bytes) (it : PinnedIterator) : PinnedIterator :=
  { it with inner := DeletedFilterIterator.seek key (it.refresh p), moves := some (key, 0) }

def PinnedIterator.next (it : PinnedIterator) : PinnedIterator :=
  { it with
    inner := DeletedFilterIterator.next (it.refresh p)
    moves := it.moves.map fun x ↦ (x.1, x.2 + 1) }

namespace System

/-- Seek with the iterator at position `j`. -/
def seek (s : System) (j : ℕ) (key : Bytes) : System :=
  { s with iters := s.iters.modify j (PinnedIterator.seek s.pool key) }

def next (s : System) (j : ℕ) : System :=
  { s with iters := s.iters.modify j (PinnedIterator.next s.pool) }

/-- Close the iterator at position `j`: its readers are released. -/
def closeIterator (s : System) (j : ℕ) : Option System :=
  match s.iters[j]? with
  | none => some s
  | some it =>
    (s.pool.unrefAll it.pinned).map fun pool ↦ { s with pool := pool, iters := s.iters.eraseIdx j }

/-- `OpenLSM`, or `none` if it fails. -/
def openLSM (opts : LSMOptions) (d : Disk) : Option System :=
  (readAll d.wal).bind fun entries ↦
    let s : System :=
      { opts := opts
        nextID := d.scanDirForNextID opts.dir
        mem := MemTable.applyEntries {} entries
        disk := d }
    (s.reload none).bind fun r ↦ if r.2 then some r.1 else none

end System

/-- What is done to the engine or to one of the open iterators. -/
inductive Action where
  | write (w : Write)
  | commit (ws : List Write)
  | newIterator
  | seek (j : ℕ) (key : Bytes)
  | next (j : ℕ)
  | close (j : ℕ)

/-- What the action means for the map. -/
def Action.spec (m : SortedMap Bytes Bytes) : Action → SortedMap Bytes Bytes
  | .write w => w.spec m
  | .commit ws => ws.foldl Write.spec m
  | _ => m

/-- How an operation goes: the rounds that a compaction makes, and the files that cannot be opened
when the levels are reloaded before and after it. -/
structure Luck where
  rounds : ℕ
  fail₁ : Option ℕ
  fail₂ : Option ℕ

/-- Every file could be opened. -/
def Luck.good (l : Luck) : Bool := l.fail₁.isNone && l.fail₂.isNone

namespace System

/-- One action; `none` is a panic. -/
def act (l : Luck) (s : System) : Action → Option System
  | .write w => (s.write l.rounds l.fail₁ l.fail₂ [w.entry]).map Prod.fst
  | .commit ws => (s.write l.rounds l.fail₁ l.fail₂ (ws.map Write.entry)).map Prod.fst
  | .newIterator => some s.newIterator
  | .seek j key => some (s.seek j key)
  | .next j => some (s.next j)
  | .close j => s.closeIterator j

end System

/-! ## Files are not overwritten -/

/-- No file is written that exists. -/
def SafeAll : Disk → List Effect → Prop
  | _, [] => True
  | d, e :: es => (∀ id t, e = .writeTable id t → d.files.get id = none) ∧ SafeAll (d.apply e) es

section Safe

variable {d : Disk} {n : ℕ}

section

omit [MetaDataCodec] [BloomSizing]

theorem safeAll_append {es es' : List Effect} (h : SafeAll d es)
    (h' : SafeAll (d.applyAll es) es') : SafeAll d (es ++ es') := by
  induction es generalizing d with
  | nil => exact h'
  | cons e es ih => exact ⟨h.1, ih h.2 h'⟩

variable {es : List Effect}

theorem safeAll_of_not_mem (h : ∀ id t, .writeTable id t ∉ es) : SafeAll d es := by
  induction es generalizing d with
  | nil => trivial
  | cons e es ih =>
    refine ⟨fun id t he ↦ absurd (he ▸ List.mem_cons_self) (h id t), ih fun id t hmem ↦ ?_⟩
    exact h id t (List.mem_cons_of_mem e hmem)

theorem Disk.Fresh.get_eq_none (h : d.Fresh n) : d.files.get n = none := by
  cases hget : d.files.get n with
  | none => rfl
  | some f => exact absurd (h n f hget) (Nat.lt_irrefl n)

theorem safeAll_writeTable (h : d.Fresh n) (t : SSTable)
    (hes : ∀ id t, .writeTable id t ∉ es) : SafeAll d (.writeTable n t :: es) := by
  refine ⟨fun id t' he ↦ ?_, safeAll_of_not_mem hes⟩
  obtain ⟨rfl, -⟩ := Effect.writeTable.inj he
  exact h.get_eq_none

end

theorem safe_flushEffects {e : Engine} (h : e.disk.Fresh e.nextID) :
    SafeAll e.disk e.flushEffects :=
  safeAll_writeTable h _ fun id t hmem ↦ by simp [Disk.saveEffect] at hmem

theorem safe_compactLevel (h : d.Sound) (hn : d.Fresh n) {i n' : ℕ} {es : List Effect}
    (hc : compactLevel d n i (i + 1) = some (es, n')) : SafeAll d es := by
  obtain heq | ⟨above, fromFiles, toFiles, below, -, heq⟩ := compactLevel_eq h n i
  · obtain ⟨rfl, -⟩ : [] = es ∧ n = n' := by simpa [heq] using hc
    trivial
  · obtain ⟨rfl, -⟩ : compactEffects d n above below fromFiles toFiles = es ∧ n + 1 = n' := by
      simpa [heq] using hc
    exact safeAll_writeTable hn _ fun id t hmem ↦ by simp [Disk.saveEffect] at hmem

theorem safe_maybeTriggerCompaction (opts : LSMOptions) (fuel : ℕ) {mem : List Record}
    {m : SortedMap Bytes Bytes} {wal : Bytes} (h : d.Intact mem m wal) (hn : d.Fresh n) :
    SafeAll d (maybeTriggerCompaction opts fuel d n).effects := by
  induction fuel generalizing d n with
  | zero => trivial
  | succ fuel ih =>
    cases hlevel : opts.firstOverThreshold d.levels with
    | none =>
      simp only [maybeTriggerCompaction, hlevel]
      trivial
    | some level =>
      obtain ⟨es, n', heq, hkeeps, hfresh⟩ := exists_compactLevel h hn level
      simp only [maybeTriggerCompaction, hlevel, heq]
      exact safeAll_append (safe_compactLevel h.holds.sound hn heq) (ih hkeeps.last hfresh)

end Safe

end System

end DucklingDB.Lsm
