import DucklingDB.KvServer.Proposals

/-!
# Keeping the log short

After every `Ready` cycle `maybeSnapshotAndCompact` captures a snapshot if one is due and then
truncates the log as far as the slowest follower allows. Whether the truncation runs is decided
against the first index read at the start, which is one above the stored snapshot; the index to
truncate to is never above the snapshot. So the truncation runs only in a cycle that captures a
snapshot, and what a slow follower held back then stays until the next snapshot.
-/

namespace DucklingDB.KvServer

open Raft LSMLogStorage

namespace Replica

variable {σ : Type} {sm : StateMachine σ} {r : Replica σ}

/-- The stored log entry with index `i`. -/
def logAt (r : Replica σ) (i : ℕ) : Option Entry := AList.lookup i r.rn.log.storage.log

/-- `CompactableIndex(lastSnapIndex)`. -/
def compactTo (r : Replica σ) : ℕ := r.rn.compactableIndex r.lastSnapIndex

/-- The test of `maybeSnapshotAndCompact` for a new snapshot. -/
def SnapshotDue (r : Replica σ) : Prop :=
  r.rn.log.applied > r.lastSnapIndex ∧
    r.rn.log.applied + 1 ≥ r.rn.log.storage.firstIndex + snapshotThreshold

instance (r : Replica σ) : Decidable r.SnapshotDue := inferInstanceAs (Decidable (_ ∧ _))

/-- The replica has the snapshot that `lastSnapIndex` speaks of, and a snapshot that is due can be
anchored at a known term. -/
structure Anchored (r : Replica σ) : Prop where
  pos : 0 < r.lastSnapIndex
  stored : r.rn.log.storage.loadSnapshotMeta.index = r.lastSnapIndex
  term : r.SnapshotDue → ∃ t, r.rn.log.term r.rn.log.applied = .ok t

/-- From `r` to `r'` exactly the truncatable entries are gone. Log indices start at one. -/
structure KeepsPace (r r' : Replica σ) : Prop where
  removed : ∀ i, 0 < i → i ≤ r'.compactTo → r'.logAt i = none
  kept : ∀ i, r'.compactTo < i → r'.logAt i = r.logAt i

/-- The second half of `maybeSnapshotAndCompact`; `first` was read before the first half. -/
def truncate (r : Replica σ) (first : ℕ) : Replica σ :=
  if r.lastSnapIndex = 0 then r
  else if r.compactTo + 1 > first then
    { r with rn := r.rn.setStorage (r.rn.log.storage.compact r.compactTo) }
  else r

theorem maybeSnapshotAndCompact_eq (sm : StateMachine σ) (r : Replica σ) :
    r.maybeSnapshotAndCompact sm = (if r.SnapshotDue then r.createSnapshotOnLoop sm else r).truncate
        r.rn.log.storage.firstIndex := rfl

@[simp] theorem truncate_compactTo (r : Replica σ) (first : ℕ) :
    (r.truncate first).compactTo = r.compactTo := by
  rw [truncate]
  split
  · rfl
  · split <;> rfl

theorem truncate_logAt (r : Replica σ) (first : ℕ) {i : ℕ} (hi : r.compactTo < i) :
    (r.truncate first).logAt i = r.logAt i := by
  rw [truncate]
  split
  · rfl
  · split
    · exact (lookup_compact _ _ _).trans (if_neg (by omega))
    · rfl

theorem truncate_logAt_eq_none (r : Replica σ) (first : ℕ) {i : ℕ} (hi : r.logAt i = none) :
    (r.truncate first).logAt i = none := by
  rw [truncate]
  split
  · exact hi
  · split
    · refine (lookup_compact _ _ _).trans ?_
      split
      · rfl
      · exact hi
    · exact hi

theorem Anchored.firstIndex (h : r.Anchored) :
    r.rn.log.storage.firstIndex = r.lastSnapIndex + 1 := by
  rw [LSMLogStorage.firstIndex, h.stored, if_pos h.pos]

/-- **Without a new snapshot the truncation does not run.** -/
theorem Anchored.maybeSnapshotAndCompact_of_not_due (h : r.Anchored) (hdue : ¬r.SnapshotDue) :
    r.maybeSnapshotAndCompact sm = r := by
  have hle : r.compactTo ≤ r.lastSnapIndex := compactableIndex_le _ _
  have hfirst : r.rn.log.storage.firstIndex = r.lastSnapIndex + 1 := h.firstIndex
  rw [maybeSnapshotAndCompact_eq, if_neg hdue, truncate, if_neg h.pos.ne', if_neg (by omega)]

/-- A new snapshot is anchored at the applied index and truncates as it is taken. -/
theorem createSnapshotOnLoop_eq (sm : StateMachine σ) {t : ℕ}
    (ht : r.rn.log.term r.rn.log.applied = .ok t) (hpos : r.rn.log.applied ≠ 0) :
    (r.createSnapshotOnLoop sm).compactTo = r.rn.compactableIndex r.rn.log.applied ∧
      ∀ i, (r.createSnapshotOnLoop sm).logAt i =
        if i ≤ (r.createSnapshotOnLoop sm).compactTo ∧ (r.createSnapshotOnLoop sm).compactTo ≠ 0
        then none else r.logAt i := by
  have hsave : ∀ (s : LSMLogStorage) (snap : Snapshot), (s.saveSnapshot snap).log = s.log := by
    intro s snap
    rw [saveSnapshot]
    split <;> rfl
  have hto : (r.createSnapshotOnLoop sm).compactTo = r.rn.compactableIndex r.rn.log.applied := by
    rw [createSnapshotOnLoop, ht]
    rw [if_neg hpos, RawNode.createSnapshot, ht]
    dsimp only
    rw [if_neg hpos]
    rfl
  refine ⟨hto, fun i ↦ ?_⟩
  rw [hto, createSnapshotOnLoop, ht]
  rw [if_neg hpos, RawNode.createSnapshot, ht]
  dsimp only
  rw [if_neg hpos]
  refine (lookup_compact _ _ i).trans ?_
  rw [hsave]
  rfl

/-- **A cycle that takes a snapshot keeps pace.** -/
theorem Anchored.keepsPace_of_due (h : r.Anchored) (hdue : r.SnapshotDue) :
    r.KeepsPace (r.maybeSnapshotAndCompact sm) := by
  obtain ⟨t, ht⟩ := h.term hdue
  have hpos : r.rn.log.applied ≠ 0 := by
    have := hdue.1
    omega
  obtain ⟨-, hlog⟩ := createSnapshotOnLoop_eq sm ht hpos
  rw [maybeSnapshotAndCompact_eq, if_pos hdue]
  constructor
  · intro i hi hle
    rw [truncate_compactTo] at hle
    apply truncate_logAt_eq_none
    rw [hlog, if_pos ⟨hle, by omega⟩]
  · intro i hi
    rw [truncate_compactTo] at hi
    rw [truncate_logAt _ _ hi, hlog, if_neg (by omega)]

/-- **Truncation keeps pace if and only if** a snapshot is due in this cycle, or nothing truncatable
was left by the cycles before. -/
theorem keepsPace_iff (sm : StateMachine σ) (r : Replica σ) (h : r.Anchored) :
    r.KeepsPace (r.maybeSnapshotAndCompact sm) ↔
      r.SnapshotDue ∨ ∀ i, 0 < i → i ≤ r.compactTo → r.logAt i = none := by
  by_cases hdue : r.SnapshotDue
  · exact iff_of_true (h.keepsPace_of_due hdue) (.inl hdue)
  · rw [h.maybeSnapshotAndCompact_of_not_due hdue]
    constructor
    · exact fun hpace ↦ .inr hpace.removed
    · rintro (hnow | hgone)
      · exact absurd hnow hdue
      · exact ⟨hgone, fun _ _ ↦ rfl⟩

end Replica

/-- Replica `1` is elected, its first entry gets to both other replicas, and a snapshot is
requested. -/
def allAcked : List Event :=
  Event.ofActions (Action.elect 1 2 1 0 0 ++
    [.append 1 2 1 0 0 0 [{ term := 1, index := 1 }], .ack 1 2 1 1,
      .append 1 3 1 0 0 0 [{ term := 1, index := 1 }], .ack 1 3 1 1]) ++
  [.snapshot 1]

/-- The entry is removed with the snapshot, and nothing is left behind. -/
theorem keepsPace_iff_allAcked :
    ∃ s ∈ (Replicas.init threeNodes []).run threeNodes journal allAcked,
      (s.nodes 1).rn.log.lastIndex = 1 ∧ (s.nodes 1).compactTo = 1 ∧
        (s.nodes 1).KeepsPace ((s.nodes 1).maybeSnapshotAndCompact journal) := by
  have hall : ∃ s ∈ (Replicas.init threeNodes []).run threeNodes journal allAcked,
      0 < (s.nodes 1).lastSnapIndex ∧
      (s.nodes 1).rn.log.storage.loadSnapshotMeta.index = (s.nodes 1).lastSnapIndex ∧
      ¬(s.nodes 1).SnapshotDue ∧ (s.nodes 1).rn.log.lastIndex = 1 ∧ (s.nodes 1).compactTo = 1 ∧
      (s.nodes 1).logAt 1 = none := by
    decide +kernel
  obtain ⟨s, hs, hpos, hstored, hdue, hlast, hto, hlog⟩ := hall
  refine ⟨s, hs, hlast, hto, (Replica.keepsPace_iff journal (s.nodes 1)
    ⟨hpos, hstored, fun h ↦ absurd h hdue⟩).mpr (.inr fun i hi hle ↦ ?_)⟩
  obtain rfl : i = 1 := le_antisymm (hto ▸ hle) hi
  exact hlog

/-- Replica `1` is elected and commits its first entry with replica `2`. A snapshot is requested,
and the entry is held back for replica `3`. Then replica `3` acknowledges it. -/
def heldBack : List Event :=
  Event.ofActions (Action.elect 1 2 1 0 0 ++
    [.append 1 2 1 0 0 0 [{ term := 1, index := 1 }], .ack 1 2 1 1]) ++
  [.snapshot 1] ++
  Event.ofActions [.append 1 3 1 0 0 0 [{ term := 1, index := 1 }], .ack 1 3 1 1]

/-- The slow follower has caught up, and the entry held back for it is not removed: not in the cycle
in which the acknowledgement arrives, and not in the next one. -/
theorem exists_entry_held_back :
    ∃ s, (Replicas.init threeNodes []).run threeNodes journal heldBack = some s ∧
      (s.nodes 1).Anchored ∧ (s.nodes 1).compactTo = 1 ∧ (s.nodes 1).logAt 1 ≠ none ∧
      ¬(s.nodes 1).KeepsPace ((s.nodes 1).maybeSnapshotAndCompact journal) := by
  have hall : ∃ s ∈ (Replicas.init threeNodes []).run threeNodes journal heldBack,
      0 < (s.nodes 1).lastSnapIndex ∧
      (s.nodes 1).rn.log.storage.loadSnapshotMeta.index = (s.nodes 1).lastSnapIndex ∧
      ¬(s.nodes 1).SnapshotDue ∧ (s.nodes 1).compactTo = 1 ∧ (s.nodes 1).logAt 1 ≠ none := by
    decide +kernel
  obtain ⟨s, hs, hpos, hstored, hdue, hto, hlog⟩ := hall
  have hanchored : (s.nodes 1).Anchored := ⟨hpos, hstored, fun h ↦ absurd h hdue⟩
  refine ⟨s, hs, hanchored, hto, hlog, fun hpace ↦ hlog ?_⟩
  rw [hanchored.maybeSnapshotAndCompact_of_not_due hdue] at hpace
  exact hpace.removed 1 one_pos hto.ge

end DucklingDB.KvServer
