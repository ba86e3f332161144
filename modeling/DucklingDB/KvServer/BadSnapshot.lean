import DucklingDB.KvServer.Install
import DucklingDB.Raft.EngineStorage

/-!
# Snapshots that cannot be applied

`installSnapshot` wipes the state machine before it looks at the payload, and `applyEngineSnapshot`
puts each record as soon as it is read. When the payload turns out to be too short, the wipe and the
records before the fault have happened. The applied index and the snapshot are saved later and are
reached only by records that carry Raft keys. So a rejected payload leaves everything alone only
when the records before its fault are what the state machine consisted of.
-/

namespace DucklingDB.KvServer

open Mvcc Raft Bytes SortedMap Option

/-- How `installSnapshot` fails when the engine does not. -/
inductive InstallError where
  /-- `apply: %w`. -/
  | apply (err : SnapshotError)
  /-- `save snapshot: %w`: the snapshot is empty. -/
  | saveSnapshot
  deriving DecidableEq, Repr

/-- `installSnapshot`, over one engine for the state machine and the Raft keys. -/
def installSnapshot [StorageCodec] (s : EngineStorage) (snap : Snapshot) :
    EngineStorage × Option InstallError :=
  match installEngine s.eng snap.data with
  | (eng, some err) => ({ s with eng := eng }, some (.apply err))
  | (eng, none) =>
    let s := { s with eng := eng }.saveApplied snap.metadata.index
    if snap.isEmpty then (s, some .saveSnapshot)
    else ((s.saveSnapshot snap).compact snap.metadata.index, none)

/-- The keys a failed installation should leave alone: the state machine, the applied index, and the
snapshot. -/
def Guarded (k : Bytes) : Prop :=
  ¬raftPrefix <+: k ∨ k = keyRaftApplied ∨ k = keyRaftSnapshotMeta ∨ k = keyRaftSnapshotData

/-! ## What a rejected payload has written -/

/-- The value of the last pair with key `k`. -/
def lastPut (k : Bytes) : List (Bytes × Bytes) → Option Bytes
  | [] => none
  | x :: xs => (lastPut k xs).or (if x.1 = k then some x.2 else none)

theorem get_puts (xs : List (Bytes × Bytes)) (e : Engine) (k : Bytes) :
    (xs.foldl (fun e x ↦ e.insert x.1 x.2) e).get k = (lastPut k xs).or (e.get k) := by
  induction xs generalizing e with
  | nil => rfl
  | cons x xs ih =>
    rw [List.foldl_cons, ih, lastPut, Option.or_assoc, get_insert]
    congr 1
    by_cases hk : k = x.1
    · rw [if_pos hk, if_pos hk.symm, some_or]
    · rw [if_neg hk, if_neg (Ne.symm hk), none_or]

/-- Whether the loop fails, and where, depends on the bytes alone. -/
theorem putEntries_snd (e e' : Engine) (r : Bytes) (i count : ℕ) :
    (putEntries e r i count).2 = (putEntries e' r i count).2 := by
  induction count generalizing e e' r i with
  | zero => rfl
  | succ count ih =>
    rw [putEntries, putEntries]
    cases readFull 8 r with
    | none => rfl
    | some x =>
      obtain ⟨scratch, r⟩ := x
      dsimp only
      cases readFull (ofLeBytes (scratch.take 4)) r with
      | none => rfl
      | some x =>
        obtain ⟨k, r⟩ := x
        dsimp only
        cases readFull (ofLeBytes (scratch.drop 4)) r with
        | none => rfl
        | some x => exact ih _ _ _ _

theorem applyEngineSnapshot_snd (e e' : Engine) (data : Bytes) :
    (applyEngineSnapshot e data).2 = (applyEngineSnapshot e' data).2 := by
  rw [applyEngineSnapshot, applyEngineSnapshot]
  cases readFull 8 data with
  | none => rfl
  | some x => exact putEntries_snd _ _ _ _ _

theorem applyEngineSnapshot_fst (e : Engine) (data : Bytes) :
    (applyEngineSnapshot e data).1 = (snapshotPuts data).foldl (fun e x ↦ e.insert x.1 x.2) e := by
  rw [applyEngineSnapshot, snapshotPuts]
  cases readFull 8 data with
  | none => rfl
  | some x => exact putEntries_fst _ _ _ _

section

variable [StorageCodec] {s : EngineStorage} {snap : Snapshot}

/-- A rejected payload ends the installation after its last readable record. -/
theorem installSnapshot_rejected (hbad : (applyEngineSnapshot s.eng snap.data).2 ≠ none) :
    (installSnapshot s snap).2 ≠ none ∧ ∀ k, (installSnapshot s snap).1.eng.get k =
      (lastPut k (snapshotPuts snap.data)).or (if raftPrefix <+: k then s.eng.get k else none) := by
  rw [applyEngineSnapshot_snd _ (clearStateMachine s.eng)] at hbad
  obtain ⟨err, herr⟩ := ne_none_iff_exists'.mp hbad
  have heq : installEngine s.eng snap.data = ((installEngine s.eng snap.data).1, some err) := by
    rw [← herr]
    rfl
  rw [installSnapshot, heq]
  refine ⟨by simp, fun k ↦ ?_⟩
  rw [installEngine, applyEngineSnapshot_fst, get_puts, get_clearStateMachine]

/-- The condition under which a rejected payload does no harm: its readable records put back exactly
the present state machine, and none of them overwrites the applied index or the snapshot with
another value. -/
structure Restores (e : Engine) (data : Bytes) : Prop where
  stateMachine : ∀ k, ¬raftPrefix <+: k → lastPut k (snapshotPuts data) = e.get k
  raft : ∀ k ∈ [keyRaftApplied, keyRaftSnapshotMeta, keyRaftSnapshotData],
    lastPut k (snapshotPuts data) = none ∨ lastPut k (snapshotPuts data) = e.get k

/-- **A snapshot that cannot be applied changes nothing if and only if** the records before its
fault are the state machine that was there. -/
theorem badSnapshot_harmless_iff (hbad : (applyEngineSnapshot s.eng snap.data).2 ≠ none) :
    ((installSnapshot s snap).2 ≠ none ∧
      ∀ k, Guarded k → (installSnapshot s snap).1.eng.get k = s.eng.get k) ↔
      Restores s.eng snap.data := by
  obtain ⟨herr, hget⟩ := installSnapshot_rejected hbad
  constructor
  · rintro ⟨-, hsame⟩
    constructor
    · intro k hk
      have := hsame k (.inl hk)
      rwa [hget, if_neg hk, or_none] at this
    · intro k hk
      have hguard : Guarded k := by
        simp only [List.mem_cons, List.not_mem_nil, or_false] at hk
        exact .inr hk
      have hsame := hsame k hguard
      rw [hget] at hsame
      cases hput : lastPut k (snapshotPuts snap.data) with
      | none => exact .inl rfl
      | some v =>
        rw [hput, some_or] at hsame
        exact .inr hsame
  · intro h
    refine ⟨herr, fun k hk ↦ ?_⟩
    rw [hget]
    by_cases hraft : raftPrefix <+: k
    · rw [if_pos hraft]
      have hmem : k ∈ [keyRaftApplied, keyRaftSnapshotMeta, keyRaftSnapshotData] := by
        simp only [List.mem_cons, List.not_mem_nil, or_false]
        exact hk.resolve_left (not_not_intro hraft)
      rcases h.raft k hmem with hput | hput
      · rw [hput, none_or]
      · rw [hput, Option.or_self]
    · rw [if_neg hraft, or_none]
      exact h.stateMachine k hraft

end

/-- A replica with one user key. -/
def userKey : EngineStorage := { eng := empty.insert [0x61] [1] }

/-- The snapshot of an engine with two keys, without its last byte. -/
def truncated : Snapshot :=
  { metadata := { index := 8, term := 1 }
    data := (serializeEngineState ((empty.insert [0x61] [2]).insert [0x62] [3])).dropLast }

/-- A payload that breaks off after the record the replica already has. -/
def repeated : Snapshot :=
  { metadata := { index := 8, term := 1 }
    data := (serializeEngineState ((empty.insert [0x61] [1]).insert [0x62] [3])).dropLast }

theorem badSnapshot_harmless_repeated :
    (installSnapshot userKey repeated).1.eng.get [0x61] = some [1] := by
  have hbad : (applyEngineSnapshot userKey.eng repeated.data).2 ≠ none := by decide +kernel
  have hputs : snapshotPuts repeated.data = [([0x61], [1])] := by decide +kernel
  have hrestores : Restores userKey.eng repeated.data := by
    constructor
    · intro k _
      rw [hputs, userKey, get_insert, lastPut, lastPut]
      by_cases hk : k = [0x61]
      · rw [if_pos hk, if_pos hk.symm, none_or]
      · rw [if_neg hk, if_neg (Ne.symm hk), none_or, get_empty]
    · rw [hputs]
      decide +kernel
  have hkey : Guarded [0x61] := .inl (by decide)
  exact ((badSnapshot_harmless_iff hbad).mpr hrestores).2 _ hkey

/-- A truncated payload is reported, and the replica's key has the value of the snapshot. -/
theorem exists_bad_snapshot :
    (applyEngineSnapshot userKey.eng truncated.data).2 = some (.entryValue 1) ∧
      (installSnapshot userKey truncated).2 = some (.apply (.entryValue 1)) ∧
      userKey.eng.get [0x61] = some [1] ∧
      (installSnapshot userKey truncated).1.eng.get [0x61] = some [2] := by
  decide +kernel

end DucklingDB.KvServer
