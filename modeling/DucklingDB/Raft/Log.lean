import DucklingDB.Raft.Storage

/-!
# The Raft log

`RaftLog` is the union of the persisted entries and of the entries appended since the last `Ready`,
which wait in `unstable`. The two overlap when an append replaces persisted entries: `term` and
`lastIndex` look at `unstable` first, `entries` at the storage first.

Index arithmetic of the source subtracts unsigned numbers and clamps the signed result at zero,
which is subtraction of natural numbers. An index outside `unstable` panics in the source; the
accessors below answer as if the entry were missing, and no run of the cluster reaches that case.
-/

namespace DucklingDB.Raft

structure RaftLog where
  storage : LSMLogStorage
  /-- Entries not yet persisted. -/
  unstable : List Entry := []
  /-- The last persisted index. -/
  offset : ℕ := 0
  committed : ℕ := 0
  applied : ℕ := 0
  /-- A snapshot received and not yet installed; empty if there is none. -/
  pendingSnapshot : Snapshot := {}
  deriving DecidableEq

def newRaftLog (storage : LSMLogStorage) : RaftLog :=
  let lastIdx := storage.lastIndex
  let floor := storage.firstIndex - 1
  let hs := storage.initialState
  { storage := storage
    unstable := []
    offset := lastIdx
    committed := if hs.commit > floor ∧ hs.commit ≤ lastIdx then hs.commit else floor
    applied := floor }

namespace RaftLog

def firstIndex (l : RaftLog) : ℕ := l.storage.firstIndex

def hasPendingSnapshot (l : RaftLog) : Bool := !l.pendingSnapshot.isEmpty

/-- `restore`: the log after receiving `snap`, and whether the snapshot advanced it. -/
def restore (l : RaftLog) (snap : Snapshot) : RaftLog × Bool :=
  if snap.metadata.index ≤ l.committed then (l, false)
  else
    ({ l with
        pendingSnapshot := snap
        committed := snap.metadata.index
        applied := max l.applied snap.metadata.index
        unstable := l.unstable.dropWhile (·.index ≤ snap.metadata.index)
        offset := max l.offset snap.metadata.index }, true)

def lastIndex (l : RaftLog) : ℕ :=
  match l.unstable.getLast? with
  | some e => e.index
  | none =>
    if l.pendingSnapshot.metadata.index > l.storage.lastIndex then l.pendingSnapshot.metadata.index
    else l.storage.lastIndex

/-- The part of `term` below the unstable entries: the pending snapshot, then the storage. -/
def stableTerm (l : RaftLog) (index : ℕ) : Except LogError ℕ :=
  if ¬l.pendingSnapshot.isEmpty ∧ index = l.pendingSnapshot.metadata.index then
    .ok l.pendingSnapshot.metadata.term
  else l.storage.term index

def term (l : RaftLog) (index : ℕ) : Except LogError ℕ :=
  if index = 0 then .ok 0
  else match l.unstable.head?, l.unstable.getLast? with
    | some first, some last =>
      if first.index ≤ index ∧ index ≤ last.index then
        match l.unstable[index - first.index]? with
        | some e => .ok e.term
        | none => .error .unavailable
      else l.stableTerm index
    | _, _ => l.stableTerm index

/-- `lastTerm` discards the error of `term`. -/
def lastTerm (l : RaftLog) : ℕ :=
  match l.term l.lastIndex with
  | .ok t => t
  | .error _ => 0

/-- `append`: cut `unstable` at the first new index, then add the new entries. -/
def append (l : RaftLog) (entries : List Entry) : RaftLog :=
  match entries.head? with
  | none => l
  | some e =>
    match l.unstable.head?, l.unstable.getLast? with
    | some first, some last =>
      if e.index ≤ last.index then
        { l with unstable := l.unstable.take (e.index - first.index) ++ entries }
      else { l with unstable := l.unstable ++ entries }
    | _, _ => { l with unstable := l.unstable ++ entries }

/-- The part of `entries` that comes from `unstable`, for `[lo, hi)`. -/
def unstableSlice (l : RaftLog) (lo hi : ℕ) : List Entry :=
  match l.unstable.head?, l.unstable.getLast? with
  | some first, some last =>
    if lo < hi ∧ lo ≤ last.index ∧ hi > first.index then
      (l.unstable.take (hi - first.index)).drop (lo - first.index)
    else []
  | _, _ => []

/-- The entries in `[lo, hi)`: what the storage has up to its last index, then `unstable`. -/
def entries (l : RaftLog) (lo hi : ℕ) : List Entry :=
  if lo ≥ hi then []
  else
    let stableMax := l.storage.lastIndex
    if lo ≤ stableMax then
      match l.storage.entries lo (min hi (stableMax + 1)) with
      | .error _ => []
      | .ok se => se ++ l.unstableSlice (stableMax + 1) hi
    else l.unstableSlice lo hi

def commitTo (l : RaftLog) (index : ℕ) : RaftLog :=
  if index > l.committed then { l with committed := index } else l

/-- `appliedTo`. The source panics when `index > committed`. -/
def appliedTo (l : RaftLog) (index : ℕ) : RaftLog :=
  if index > l.applied then { l with applied := index } else l

/-- The committed entries not yet applied. -/
def nextEntries (l : RaftLog) : List Entry :=
  if l.committed ≥ l.applied + 1 then l.entries (l.applied + 1) (l.committed + 1) else []

def unstableEntries (l : RaftLog) : List Entry := l.unstable

/-- `stableTo` marks the entries up to `(index, term)` as persisted. -/
def stableTo (l : RaftLog) (index term : ℕ) : RaftLog :=
  match l.unstable.head? with
  | none => l
  | some first =>
    if index < first.index then l
    else match l.unstable[index - first.index]? with
      | none => l
      | some e =>
        if e.term ≠ term then l
        else { l with unstable := l.unstable.drop (index - first.index + 1), offset := index }

/-- Whether a log ending at `(lastIndex, lastTerm)` is at least as up to date as `l`. -/
def isUpToDate (l : RaftLog) (lastIndex lastTerm : ℕ) : Bool :=
  if lastTerm ≠ l.lastTerm then lastTerm > l.lastTerm else lastIndex ≥ l.lastIndex

/-! ## What the operations change -/

section Frame

variable (l : RaftLog)
include l

variable (es : List Entry)

theorem append_eq : ∃ u, l.append es = { l with unstable := u } := by
  rw [append]
  split
  · exact ⟨_, rfl⟩
  · split
    · split <;> exact ⟨_, rfl⟩
    · exact ⟨_, rfl⟩

theorem append_storage : (l.append es).storage = l.storage := by
  obtain ⟨u, hu⟩ := l.append_eq es
  rw [hu]

theorem append_committed : (l.append es).committed = l.committed := by
  obtain ⟨u, hu⟩ := l.append_eq es
  rw [hu]

theorem append_behind {es : List Entry} (h : ∀ e ∈ es.head?, l.lastIndex < e.index) :
    l.append es = { l with unstable := l.unstable ++ es } := by
  cases es with
  | nil => rw [List.append_nil, append, List.head?_nil]
  | cons e es =>
    have he := h e rfl
    rw [append]
    simp only [List.head?_cons]
    split
    · rename_i first last hf hl
      have hlast : last.index = l.lastIndex := by rw [lastIndex, hl]
      rw [if_neg (by omega)]
    · rfl

theorem commitTo_eq (n : ℕ) : l.commitTo n = { l with committed := max l.committed n } := by
  rw [commitTo]
  split
  · rename_i hlt
    rw [max_eq_right (le_of_lt hlt)]
  · rename_i hle
    rw [max_eq_left (not_lt.mp hle)]

theorem appliedTo_eq (n : ℕ) : l.appliedTo n = { l with applied := max l.applied n } := by
  rw [appliedTo]
  split
  · rename_i hlt
    rw [max_eq_right (le_of_lt hlt)]
  · rename_i hle
    rw [max_eq_left (not_lt.mp hle)]

theorem stableTo_eq (index term : ℕ) :
    ∃ u o, l.stableTo index term = { l with unstable := u, offset := o } := by
  rw [stableTo]
  split
  · exact ⟨_, _, rfl⟩
  · split
    · exact ⟨_, _, rfl⟩
    · split
      · exact ⟨_, _, rfl⟩
      · split <;> exact ⟨_, _, rfl⟩

end Frame

end RaftLog

end DucklingDB.Raft
