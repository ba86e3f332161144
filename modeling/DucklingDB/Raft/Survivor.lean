import DucklingDB.Raft.Crash

/-!
# What a crash leaves

The storage after a part of the effects of a `Ready` cycle. Nothing is ever read from the log keys
that a snapshot covers, so two storages count as alike if they have the same hard state, the same
snapshot and the same entries above it. Once all entries are written, or the metadata of a received
snapshot is, the survivor is like the storage at the end of the cycle. Before the cycle begins it is
untouched.
-/

namespace DucklingDB.Raft

open List AList LSMLogStorage

/-! ## The surviving storage -/

namespace LSMLogStorage

variable {s s' s'' : LSMLogStorage} {L : List Entry} {rd : Ready} {w : ℕ}

/-- The two storages have the same hard state, the same snapshot, and the same entries above it. -/
structure Alike (s s' : LSMLogStorage) : Prop where
  hardState : s'.hardState = s.hardState
  snapMeta : s'.loadSnapshotMeta = s.loadSnapshotMeta
  lookup : ∀ i, s.loadSnapshotMeta.index < i → s'.log.lookup i = s.log.lookup i

theorem Alike.refl (s : LSMLogStorage) : s.Alike s := ⟨rfl, rfl, fun _ _ ↦ rfl⟩

theorem Alike.trans (h : s.Alike s') (h' : s'.Alike s'') : s.Alike s'' :=
  ⟨h'.hardState.trans h.hardState, h'.snapMeta.trans h.snapMeta, fun i hi ↦
    (h'.lookup i (h.snapMeta ▸ hi)).trans (h.lookup i hi)⟩

theorem Alike.initialState (h : s.Alike s') : s'.initialState = s.initialState := by
  rw [LSMLogStorage.initialState, h.hardState]
  rfl

/-- Nothing is ever read from below the snapshot. -/
theorem Holds.alike (h : s.Holds L False) (hs : s.Alike s') : s'.Holds L False := by
  refine ⟨?_, ?_, ?_, ?_⟩
  · intro i e hi he
    rw [hs.snapMeta] at hi
    have hi := hi.resolve_left id
    exact h.lookup (Or.inr hi) ((hs.lookup i hi).symm.trans he)
  · intro i hi hiL
    rw [hs.snapMeta] at hi
    rw [hs.lookup i hi]
    exact h.present hi hiL
  · exact hs.snapMeta ▸ h.snap_le
  · exact hs.snapMeta ▸ h.snap_term

theorem writeAll_append (s : LSMLogStorage) (ws ws' : List StorageWrite) :
    s.writeAll (ws ++ ws') = (s.writeAll ws).writeAll ws' := foldl_append

theorem writeAll_entry (s : LSMLogStorage) (es : List Entry) :
    s.writeAll (es.map .entry) = s.appendEntries es := by
  induction es generalizing s with
  | nil => rfl
  | cons e es ih => exact ih (s.write (.entry e))

theorem Alike.appendEntries (h : s.Alike s') (es : List Entry) :
    (s.appendEntries es).Alike (s'.appendEntries es) := by
  induction es generalizing s s' with
  | nil => exact h
  | cons e es ih =>
    have hstep : (s.write (.entry e)).Alike (s'.write (.entry e)) := by
      refine ⟨h.hardState, h.snapMeta, fun i hi ↦ ?_⟩
      change (AList.insert e.index e s'.log).lookup i = (AList.insert e.index e s.log).lookup i
      by_cases hie : i = e.index
      · rw [hie, lookup_insert, lookup_insert]
      · rw [lookup_insert_ne hie, lookup_insert_ne hie]
        exact h.lookup i hi
    exact ih hstep

theorem alike_dropEntries {is : List ℕ} (his : ∀ i ∈ is, i ≤ s.loadSnapshotMeta.index) :
    s.Alike (s.writeAll (is.map .dropEntry)) := by
  induction is generalizing s with
  | nil => exact .refl s
  | cons i is ih =>
    have hi : s.Alike (s.write (.dropEntry i)) := by
      refine ⟨rfl, rfl, fun k hk ↦ lookup_erase_ne ?_⟩
      have := his i (.head _)
      omega
    exact hi.trans (ih (s := s.write (.dropEntry i)) fun k hk ↦ his k (.tail _ hk))

/-- Once the metadata of a snapshot is written, it is installed as far as anybody can see. -/
theorem alike_installSnapshot {snap : Snapshot} (hne : snap.isEmpty = false) {is : List ℕ}
    (his : ∀ i ∈ is, i ≤ snap.metadata.index) :
    (s.installSnapshot snap).Alike (s.writeAll ([.applied snap.metadata.index,
      .snapshotData snap.data, .snapshotMeta snap.metadata] ++ is.map .dropEntry)) := by
  have h0 := Snapshot.isEmpty_eq_false.mp hne
  rw [writeAll_append]
  refine .trans ?_ (alike_dropEntries his)
  have hmeta := installSnapshot_meta (s := s) h0
  refine ⟨?_, hmeta.symm, fun i hi ↦ ?_⟩
  · rw [installSnapshot, compact_hardState, saveSnapshot_hardState]
    rfl
  · rw [hmeta] at hi
    rw [installSnapshot, lookup_compact, if_neg (by omega), saveSnapshot, hne]
    rfl

/-- The storage once the hard state is written, if there is one to be written. -/
def hardened (s : LSMLogStorage) (rd : Ready) : LSMLogStorage :=
  if rd.hardState.isEmpty then s else s.saveHardState rd.hardState

section

variable (s rd)

theorem hardened_log : (s.hardened rd).log = s.log := by
  rw [hardened]
  split <;> rfl

theorem hardened_meta : (s.hardened rd).loadSnapshotMeta = s.loadSnapshotMeta := by
  rw [hardened]
  split <;> rfl

theorem writeAll_hardState :
    s.writeAll (if rd.hardState.isEmpty then [] else [.hardState rd.hardState]) =
      s.hardened rd := by
  rw [hardened]
  split <;> rfl

theorem alike_saveApplied (last : Option Entry) : (match last with
      | none => s
      | some e => s.saveApplied e.index).Alike s := by
  cases last <;> exact ⟨rfl, rfl, fun _ _ ↦ rfl⟩

/-- The writes before the messages come to the same as `persist`. -/
theorem alike_persist : (s.persist rd).Alike (s.writeAll (s.persistWrites rd)) := by
  refine (alike_saveApplied _ _).trans ?_
  rw [persistWrites, writeAll_append, writeAll_hardState, writeAll_append, writeAll_entry]
  refine Alike.appendEntries ?_ rd.entries
  change (if rd.snapshot.isEmpty then s.hardened rd
    else (s.hardened rd).installSnapshot rd.snapshot).Alike _
  cases hsnap : rd.snapshot.isEmpty with
  | true => exact .refl _
  | false =>
    refine alike_installSnapshot hsnap fun i hi ↦ ?_
    exact of_decide_eq_true (mem_filter.mp (mem_mergeSort.mp hi)).2

end

/-- What is written after the hard state. -/
def bodyWrites (s : LSMLogStorage) (rd : Ready) : List StorageWrite :=
  (if rd.snapshot.isEmpty then [] else s.installWrites rd.snapshot) ++ rd.entries.map .entry

/-- How many writes there are for the hard state. -/
def hardWrites (rd : Ready) : ℕ := if rd.hardState.isEmpty then 0 else 1

theorem hardWrites_le (rd : Ready) : hardWrites rd ≤ 1 := by
  rw [hardWrites]
  split <;> simp

/-- A crash after the first effect finds the hard state written. -/
theorem take_persistWrites (s : LSMLogStorage) (rd : Ready) (h0 : 0 < w) :
    (s.persistWrites rd).take w = (if rd.hardState.isEmpty then []
      else [.hardState rd.hardState]) ++ (s.bodyWrites rd).take (w - hardWrites rd) := by
  rw [persistWrites, hardWrites]
  split
  · rfl
  · obtain ⟨k, rfl⟩ := Nat.exists_eq_add_of_lt h0
    simp [bodyWrites]

theorem drop_persistWrites (s : LSMLogStorage) (rd : Ready) (h0 : 0 < w) :
    (s.persistWrites rd).drop w = (s.bodyWrites rd).drop (w - hardWrites rd) := by
  rw [persistWrites, hardWrites]
  split
  · rfl
  · obtain ⟨k, rfl⟩ := Nat.exists_eq_add_of_lt h0
    simp [bodyWrites]

theorem length_persistWrites (s : LSMLogStorage) (rd : Ready) :
    (s.persistWrites rd).length = hardWrites rd + (s.bodyWrites rd).length := by
  rw [persistWrites, hardWrites, length_append]
  split <;> rfl

theorem take_effects_of_le (hw : w ≤ (s.persistWrites rd).length) :
    (s.effects rd).take w = ((s.persistWrites rd).take w).map .write := by
  rw [effects, take_append_of_le_length (by rwa [length_map]), map_take]

theorem take_effects_of_ge (hw : (s.persistWrites rd).length ≤ w) :
    (s.effects rd).take w = (s.persistWrites rd).map .write ++
      (laterEffects rd).take (w - (s.persistWrites rd).length) := by
  rw [effects, take_append, take_of_length_le (by rwa [length_map]), length_map]

theorem filterMap_written (ws : List StorageWrite) :
    (ws.map Effect.write).filterMap Effect.written = ws := by
  rw [filterMap_map]
  exact filterMap_some

theorem survivor_of_pos (h0 : 0 < w) (hw : w ≤ (s.persistWrites rd).length) :
    s.survivor rd w = (s.hardened rd).writeAll ((s.bodyWrites rd).take (w - hardWrites rd)) := by
  rw [survivor, take_effects_of_le hw, filterMap_written, take_persistWrites s rd h0,
    writeAll_append, writeAll_hardState]

theorem alike_install {k : ℕ} (hsnap : rd.snapshot.isEmpty = false) (hes : rd.entries = [])
    (hk : 3 ≤ k) : (s.persist rd).Alike ((s.hardened rd).writeAll ((s.bodyWrites rd).take k)) := by
  refine (alike_saveApplied _ _).trans ?_
  obtain ⟨j, rfl⟩ := Nat.exists_eq_add_of_le hk
  have htake : (s.bodyWrites rd).take (3 + j) = [.applied rd.snapshot.metadata.index,
      .snapshotData rd.snapshot.data, .snapshotMeta rd.snapshot.metadata] ++
        (((s.log.keys.filter (· ≤ rd.snapshot.metadata.index)).mergeSort).take j).map
          .dropEntry := by
    rw [bodyWrites, hsnap, hes, Nat.add_comm, map_take]
    simp [installWrites]
  rw [htake, hes]
  change (if rd.snapshot.isEmpty then s.hardened rd
    else (s.hardened rd).installSnapshot rd.snapshot).Alike _
  rw [if_neg (Bool.eq_false_iff.mp hsnap)]
  refine alike_installSnapshot hsnap fun i hi ↦ ?_
  exact of_decide_eq_true (mem_filter.mp (mem_mergeSort.mp (mem_of_mem_take hi))).2

/-- Before the metadata is written, nothing can be seen of a snapshot. -/
theorem unseen_install {k : ℕ} (hsnap : rd.snapshot.isEmpty = false) (hk : k < 3)
    (hs' : s' = (s.hardened rd).writeAll ((s.bodyWrites rd).take k)) :
    .snapshotMeta rd.snapshot.metadata ∈ (s.bodyWrites rd).drop k ∧ s'.log = s.log ∧
      s'.loadSnapshotMeta = s.loadSnapshotMeta ∧
      s'.initialState = (s.hardened rd).initialState := by
  rw [← s.hardened_log rd, ← s.hardened_meta rd, hs', bodyWrites, hsnap, installWrites]
  obtain rfl | rfl | rfl : k = 0 ∨ k = 1 ∨ k = 2 := by omega
  all_goals exact ⟨by simp, rfl, rfl, rfl⟩

theorem alike_survivor (hw : (s.persistWrites rd).length ≤ w) :
    (s.persist rd).Alike (s.survivor rd w) := by
  have hlater : ∀ (es : List Effect) (s : LSMLogStorage),
      (∀ x, .write x ∈ es → ∃ i, x = .applied i) →
      s.Alike (s.writeAll (es.filterMap Effect.written)) := by
    intro es
    induction es with
    | nil => exact fun s _ ↦ .refl s
    | cons e es ih =>
      intro s hes
      have hrest := fun s' : LSMLogStorage ↦ ih s' fun x hx ↦ hes x (.tail _ hx)
      cases e with
      | write x =>
        obtain ⟨i, rfl⟩ := hes x (.head _)
        have hsaved : s.Alike (s.saveApplied i) := ⟨rfl, rfl, fun _ _ ↦ rfl⟩
        exact hsaved.trans (hrest (s.saveApplied i))
      | send m => exact hrest s
      | apply x => exact hrest s
  rw [survivor, take_effects_of_ge hw, filterMap_append, filterMap_written, writeAll_append]
  refine (s.alike_persist rd).trans (hlater _ _ fun x hx ↦ ?_)
  have hx := mem_of_mem_take hx
  rw [laterEffects, mem_append, mem_append] at hx
  rcases hx with hx | hx | hx
  · simp at hx
  · simp at hx
  · cases hlast : rd.committedEntries.getLast? with
    | none => simp [hlast] at hx
    | some last =>
      simp only [hlast, mem_singleton, Effect.write.injEq] at hx
      exact ⟨_, hx⟩

theorem mem_sent {m : Message} (h : m ∈ ((s.effects rd).take w).filterMap Effect.sent) :
    (s.persistWrites rd).length < w ∧ m ∈ rd.messages := by
  obtain ⟨x, hx, hxm⟩ := mem_filterMap.mp h
  obtain rfl : x = .send m := by
    cases x <;> simp_all [Effect.sent]
  refine ⟨?_, ?_⟩
  · by_contra hle
    rw [take_effects_of_le (not_lt.mp hle)] at hx
    obtain ⟨y, -, hy⟩ := mem_map.mp hx
    cases hy
  · have hx := mem_of_mem_take hx
    simp only [effects, laterEffects, mem_append, mem_map, Effect.send.injEq, reduceCtorEq,
      and_false, exists_false, exists_eq_right, false_or] at hx
    refine hx.resolve_right fun hx ↦ ?_
    cases hlast : rd.committedEntries.getLast? <;> simp [hlast] at hx

theorem mem_applied {e : Entry} (h : e ∈ ((s.effects rd).take w).filterMap Effect.applied) :
    (s.persistWrites rd).length + rd.messages.length < w ∧ e ∈ rd.committedEntries := by
  obtain ⟨x, hx, hxe⟩ := mem_filterMap.mp h
  obtain rfl : x = .apply e := by
    cases x <;> simp_all [Effect.applied]
  refine ⟨?_, ?_⟩
  · by_contra hle
    rw [effects, laterEffects, ← append_assoc, take_append_of_le_length] at hx
    · simpa using mem_of_mem_take hx
    · rw [length_append, length_map, length_map]
      exact not_lt.mp hle
  · have hx := mem_of_mem_take hx
    simp only [effects, laterEffects, mem_append, mem_map, Effect.apply.injEq, reduceCtorEq,
      and_false, exists_false, exists_eq_right, false_or] at hx
    refine hx.resolve_right fun hx ↦ ?_
    cases hlast : rd.committedEntries.getLast? <;> simp [hlast] at hx

end LSMLogStorage

end DucklingDB.Raft
