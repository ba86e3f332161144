import DucklingDB.KvServer.Snapshot
import DucklingDB.Raft.Ballot
import DucklingDB.Raft.Shape

/-!
# A crash while a snapshot is installed

The cycle that installs a received snapshot first saves the hard state, whose commit index is
already that of the snapshot, then wipes the state machine key by key, puts the pairs of the
snapshot, and saves the applied index, the snapshot's data and its metadata, and deletes the log
keys it covers. `installWrites` is this sequence of writes, and a crash leaves a prefix of it.

A replica that comes back takes its commit index from the hard state, and `restore` refuses a
snapshot at or below the commit index. So whatever is missing on disk stays missing: the re-sent
snapshot is refused, and its index is acknowledged; what the log still has is applied once more. All
is well if the snapshot's metadata was written, and before that only if nothing was missing
(`recovers_iff`).
-/

namespace DucklingDB.KvServer

open Mvcc Raft Bytes SortedMap RawNode RaftLog List

/-- What survives a crash: the Raft keys, decoded, and the engine. -/
structure Durable where
  storage : LSMLogStorage
  engine : Engine

/-- The engine writes of a cycle that installs a snapshot. -/
inductive DiskWrite where
  | delete (key : Bytes)
  | put (key value : Bytes)
  | saveApplied (index : ℕ)
  /-- The first half of `SaveSnapshot`. -/
  | snapshotData (data : Bytes)
  /-- The second half of `SaveSnapshot`. -/
  | snapshotMeta (metadata : SnapshotMetadata)
  /-- `Compact` deletes a log key. -/
  | dropEntry (index : ℕ)

namespace Durable

def write (d : Durable) : DiskWrite → Durable
  | .delete key => { d with engine := d.engine.erase key }
  | .put key value => { d with engine := d.engine.insert key value }
  | .saveApplied index => { d with storage := d.storage.saveApplied index }
  | .snapshotData data => { d with storage := { d.storage with snapData := some data } }
  | .snapshotMeta metadata => { d with storage := { d.storage with snapMeta := some metadata } }
  | .dropEntry index =>
    { d with storage := { d.storage with log := AList.erase index d.storage.log } }

def writeAll (d : Durable) (ws : List DiskWrite) : Durable := ws.foldl write d

end Durable

/-! ## The writes of `installSnapshot` -/

/-- The pairs that `applyEngineSnapshot` puts before it is done or fails. -/
def snapshotPairs (r : Bytes) : ℕ → List (Bytes × Bytes)
  | 0 => []
  | count + 1 =>
    match readFull 8 r with
    | none => []
    | some (scratch, r) =>
      match readFull (ofLeBytes (scratch.take 4)) r with
      | none => []
      | some (k, r) =>
        match readFull (ofLeBytes (scratch.drop 4)) r with
        | none => []
        | some (v, r) => (k, v) :: snapshotPairs r count

/-- The puts of `applyEngineSnapshot`. -/
def snapshotPuts (data : Bytes) : List (Bytes × Bytes) :=
  match readFull 8 data with
  | none => []
  | some (header, r) => snapshotPairs r (ofLeBytes header)

/-- The writes up to the last pair. -/
def engineWrites (d : Durable) (snap : Snapshot) : List DiskWrite :=
  (stateMachine d.engine).map (fun x ↦ .delete x.1) ++
    (snapshotPuts snap.data).map fun x ↦ .put x.1 x.2

/-- The writes of `installSnapshot`; it stops when the data cannot be applied. -/
def installWrites (d : Durable) (snap : Snapshot) : List DiskWrite :=
  match (installEngine d.engine snap.data).2 with
  | some _ => engineWrites d snap
  | none =>
    (engineWrites d snap ++ [.saveApplied snap.metadata.index, .snapshotData snap.data]) ++
      .snapshotMeta snap.metadata ::
        (d.storage.log.keys.filter (· ≤ snap.metadata.index)).map .dropEntry

theorem putEntries_fst (r : Bytes) (count : ℕ) (e : Engine) (i : ℕ) : (putEntries e r i count).1 =
      (snapshotPairs r count).foldl (fun e x ↦ e.insert x.1 x.2) e := by
  induction count generalizing r e i with
  | zero => rfl
  | succ count ih =>
    rw [putEntries, snapshotPairs]
    cases readFull 8 r with
    | none => rfl
    | some x =>
      obtain ⟨scratch, r⟩ := x
      simp only
      cases readFull (ofLeBytes (scratch.take 4)) r with
      | none => rfl
      | some x =>
        obtain ⟨k, r⟩ := x
        simp only
        cases readFull (ofLeBytes (scratch.drop 4)) r with
        | none => rfl
        | some x => exact ih _ _ _

theorem snapshotPairs_encodePair (xs : List (Bytes × Bytes)) (rest : Bytes)
    (hfit : ∀ x ∈ xs, x.1.length < 2 ^ 32 ∧ x.2.length < 2 ^ 32) :
    snapshotPairs (xs.flatMap encodePair ++ rest) xs.length = xs := by
  induction xs with
  | nil => rfl
  | cons x xs ih =>
    obtain ⟨scratch, hread, hkey, hval⟩ := readFull_encodePair (hfit x (.head _))
      (xs.flatMap encodePair ++ rest)
    rw [flatMap_cons, append_assoc, length_cons, snapshotPairs, hread]
    simp only [hkey, hval, readFull_append rfl]
    rw [ih fun y hy ↦ hfit y (.tail _ hy)]

theorem snapshotPuts_serialize {src : Engine} (hfit : Fits src) :
    snapshotPuts (serializeEngineState src) = stateMachine src := by
  have hcount : (stateMachine src).length < 256 ^ 8 := (length_filter_le _ _).trans_lt hfit.count
  rw [snapshotPuts, serializeEngineState, readFull_append (length_leBytes _ _)]
  simp only [ofLeBytes_leBytes hcount]
  have := snapshotPairs_encodePair (stateMachine src) []
    fun x hx ↦ hfit.lengths x (mem_of_mem_filter hx)
  rwa [append_nil] at this

section

variable (d : Durable)
include d

theorem writeAll_append (ws ws' : List DiskWrite) :
    d.writeAll (ws ++ ws') = (d.writeAll ws).writeAll ws' := foldl_append

theorem writeAll_delete (xs : List (Bytes × Bytes)) : d.writeAll (xs.map fun x ↦ .delete x.1) =
      { d with engine := (xs.map Prod.fst).foldl erase d.engine } := by
  induction xs generalizing d with
  | nil => rfl
  | cons x xs ih => exact ih _

theorem writeAll_put (xs : List (Bytes × Bytes)) : d.writeAll (xs.map fun x ↦ .put x.1 x.2) =
      { d with engine := xs.foldl (fun e x ↦ e.insert x.1 x.2) d.engine } := by
  induction xs generalizing d with
  | nil => rfl
  | cons x xs ih => exact ih _

theorem writeAll_dropEntry (is : List ℕ) : d.writeAll (is.map .dropEntry) =
      { d with storage := { d.storage with
          log := is.foldl (fun log k ↦ AList.erase k log) d.storage.log } } := by
  induction is generalizing d with
  | nil => rfl
  | cons i is ih => exact ih _

theorem writeAll_engineWrites (snap : Snapshot) :
    d.writeAll (engineWrites d snap) =
      { d with engine := (installEngine d.engine snap.data).1 } := by
  rw [engineWrites, writeAll_append, writeAll_delete, writeAll_put, installEngine,
    applyEngineSnapshot, snapshotPuts]
  cases readFull 8 snap.data with
  | none => rfl
  | some x => simp only [putEntries_fst, clearStateMachine]

theorem writeAll_installWrites {snap : Snapshot} (hsnap : snap.isEmpty = false)
    (hidx : snap.metadata.index ≠ 0) :
    d.writeAll (installWrites d snap) =
      { engine := (installEngine d.engine snap.data).1
        storage := if (installEngine d.engine snap.data).2 = none then
          d.storage.installSnapshot snap else d.storage } := by
  rw [installWrites]
  cases (installEngine d.engine snap.data).2 with
  | some err => rw [writeAll_engineWrites, if_neg (by simp)]
  | none =>
    rw [if_pos rfl, writeAll_append, writeAll_append, writeAll_engineWrites]
    change Durable.writeAll _ (List.map DiskWrite.dropEntry _) = _
    rw [writeAll_dropEntry, LSMLogStorage.installSnapshot, LSMLogStorage.compact, if_neg hidx,
      LSMLogStorage.saveSnapshot, hsnap]
    rfl

end

/-! ## The state after a restart -/

/-- A replica that comes back on `d` and gets the snapshot once more. -/
def resent (id : NodeId) (peers : List NodeId) (d : Durable) (m : Message) (rnd rnd' : ℕ) :
    RawNode :=
  (newRawNode id peers d.storage rnd).step rnd' m

/-- The committed entries that a node hands out when it comes back: those behind the saved applied
index, if the log has them. -/
def unapplied (s : LSMLogStorage) : List Entry := (newRawNode 0 [] s 0).log.nextEntries

/-- The engine after the next cycle of a node: a snapshot that it accepted is installed, and the
committed entries are applied, whatever `applyEntry` does with them. -/
def nextCycle (applyEntry : Engine → Entry → Engine) (rn : RawNode) (e : Engine) : Engine :=
  rn.log.nextEntries.foldl applyEntry
    (if rn.log.pendingSnapshot.isEmpty then e else (installEngine e rn.log.pendingSnapshot.data).1)

/-- After the next cycle the state machine is that of `src`, and an index is only acknowledged if
the log and the snapshot of the node reach it. -/
structure Recovers (applyEntry : Engine → Entry → Engine) (rn : RawNode) (e src : Engine) :
    Prop where
  engine : stateMachine (nextCycle applyEntry rn e) = stateMachine src
  acks : ∀ a ∈ rn.msgs, a.type = .appResp → a.reject = false → a.index ≤ rn.log.lastIndex

section Restart

variable {m : Message}

/-- A snapshot message of the current term or a later one is not dropped. -/
theorem handleTerm_snap {rn : RawNode} (hty : m.type = .snap) (hterm : rn.term ≤ m.term)
    (rnd : ℕ) : ∃ rn₁, rn.handleTerm rnd m = some rn₁ ∧ rn₁.log = rn.log ∧ rn₁.msgs = rn.msgs ∧
      rn₁.prevHard = rn.prevHard ∧ rn₁.term ≤ m.term := by
  rw [handleTerm]
  split
  · rw [if_neg (by simp [hty]), if_neg (by simp [hty]), if_neg (by simp [hty])]
    exact ⟨_, rfl, rfl, rfl, rfl, le_rfl⟩
  · exact ⟨rn, rfl, rfl, rfl, rfl, hterm⟩

/-- A snapshot at or below the commit index is refused, and the commit index acknowledged. -/
theorem step_snap_refused {rn : RawNode} (hty : m.type = .snap)
    (hterm : rn.term ≤ m.term) (hidx : m.snapshot.metadata.index ≤ rn.log.committed) (rnd : ℕ) :
    (rn.step rnd m).log = rn.log ∧ ∃ a : Message, (rn.step rnd m).msgs = rn.msgs ++ [a] ∧
      a.type = .appResp ∧ a.reject = false ∧ a.index = rn.log.committed := by
  obtain ⟨rn₁, hhandle, hlog, hmsgs, -, hle⟩ := handleTerm_snap hty hterm rnd
  have hrestore : (rn₁.becomeFollower rnd m.term m.src).log.restore m.snapshot =
      (rn.log, false) := by
    rw [becomeFollower, hlog, restore, if_pos hidx]
  have hstep : rn.step rnd m = (rn₁.becomeFollower rnd m.term m.src).send
      { type := .appResp, dst := m.src, term := m.term, index := rn.log.committed } := by
    rw [step, hhandle]
    simp only [dispatch, hty, stepSnap, not_lt.mpr hle, if_false, hrestore]
    rw [becomeFollower, hlog]
  rw [hstep]
  exact ⟨hlog, _, congrArg (· ++ [_]) hmsgs, rfl, rfl, rfl⟩

theorem nextEntries_newRawNode (id : NodeId) (peers : List NodeId) (s : LSMLogStorage) (rnd : ℕ) :
    (newRawNode id peers s rnd).log.nextEntries = unapplied s := by
  have hlog : (newRawNode id peers s rnd).log = (newRawNode 0 [] s 0).log := by
    simp only [newRawNode]
    split <;> rfl
  rw [hlog, unapplied]

/-- A node whose snapshot is at its commit index has nothing to hand out. -/
theorem unapplied_eq_nil {s : LSMLogStorage}
    (h : s.loadSnapshotMeta.index = s.initialState.commit) : unapplied s = [] := by
  have happlied := (newRawNode_applied h.le 0 [] 0).1
  rw [unapplied, nextEntries, newRawNode_committed h.le, if_neg (by omega)]

/-- After a restart with the snapshot's index as commit index, the re-sent snapshot changes
nothing. -/
theorem recovers_resent_iff (applyEntry : Engine → Entry → Engine) {d : Durable}
    (hty : m.type = .snap) (hterm : d.storage.initialState.term ≤ m.term)
    (hcommit : d.storage.initialState.commit = m.snapshot.metadata.index)
    (hsnap : d.storage.loadSnapshotMeta.index ≤ m.snapshot.metadata.index) (id : NodeId)
    (peers : List NodeId) (rnd rnd' : ℕ) (src : Engine) :
    Recovers applyEntry (resent id peers d m rnd rnd') d.engine src ↔
      stateMachine ((unapplied d.storage).foldl applyEntry d.engine) = stateMachine src ∧
        m.snapshot.metadata.index ≤ d.storage.lastIndex := by
  have hcommitted := newRawNode_committed (hcommit ▸ hsnap) id peers rnd
  obtain ⟨hunstable, hpending⟩ := newRawNode_log id peers d.storage rnd
  have hterm₁ : (newRawNode id peers d.storage rnd).term ≤ m.term := by rwa [newRawNode_term]
  obtain ⟨hlog, a, hmsgs, hatype, hareject, haindex⟩ := step_snap_refused hty hterm₁ (by omega) rnd'
  have hlast : (resent id peers d m rnd rnd').log.lastIndex = d.storage.lastIndex := by
    rw [resent, hlog, lastIndex, hunstable, hpending, newRawNode_storage]
    exact if_neg (Nat.not_lt_zero _)
  have hengine : nextCycle applyEntry (resent id peers d m rnd rnd') d.engine =
      (unapplied d.storage).foldl applyEntry d.engine := by
    rw [nextCycle, resent, hlog, hpending, nextEntries_newRawNode]
    rfl
  have hacks : (resent id peers d m rnd rnd').msgs = [a] := by
    rw [resent, hmsgs, (newRawNode_pending id peers d.storage rnd).2, nil_append]
  constructor
  · intro h
    refine ⟨hengine ▸ h.engine, ?_⟩
    have := h.acks a (by simp [hacks]) hatype hareject
    rwa [hlast, haindex, hcommitted, hcommit] at this
  · rintro ⟨heng, hle⟩
    refine ⟨by rw [hengine, heng], fun b hb _ _ ↦ ?_⟩
    obtain rfl := mem_singleton.mp (hacks ▸ hb)
    rw [hlast, haindex, hcommitted, hcommit]
    exact hle

end Restart

/-! ## The writes before and behind the metadata -/

section Crash

variable {d : Durable} {snap : Snapshot} {src : Engine}

theorem stateMachine_congr {e e' : Engine} (h : ∀ k, ¬raftPrefix <+: k → e.get k = e'.get k) :
    stateMachine e = stateMachine e' := by
  refine entries_ext (e.sorted.filter _) (e'.sorted.filter _) ?_
  rintro ⟨k, v⟩
  have := mem_stateMachine (e := e) (k := k) (v := v)
  have := mem_stateMachine (e := e') (k := k) (v := v)
  by_cases hraft : raftPrefix <+: k
  · tauto
  · have := h k hraft
    simp_all

theorem stateMachine_installEngine (hfit : Fits src) (e : Engine) :
    stateMachine (installEngine e (serializeEngineState src)).1 = stateMachine src := by
  refine stateMachine_congr fun k hraft ↦ ?_
  rw [installEngine_serialize hfit, get_replaced, if_neg hraft]

/-- What the writes before the metadata leave alone. -/
structure Keeps (d d' : Durable) : Prop where
  hardState : d'.storage.hardState = d.storage.hardState
  snapMeta : d'.storage.snapMeta = d.storage.snapMeta
  log : d'.storage.log = d.storage.log

theorem keeps_writeAll {ws : List DiskWrite}
    (hws : ∀ x ∈ ws, (∀ i, x ≠ .dropEntry i) ∧ ∀ md, x ≠ .snapshotMeta md) :
    Keeps d (d.writeAll ws) := by
  induction ws generalizing d with
  | nil => exact ⟨rfl, rfl, rfl⟩
  | cons x ws ih =>
    have h := ih (d := d.write x) fun y hy ↦ hws y (.tail _ hy)
    obtain ⟨hdrop, hmeta⟩ := hws x (.head _)
    have hx : Keeps d (d.write x) := by
      cases x with
      | dropEntry i => exact absurd rfl (hdrop i)
      | snapshotMeta md => exact absurd rfl (hmeta md)
      | delete key => exact ⟨rfl, rfl, rfl⟩
      | put key value => exact ⟨rfl, rfl, rfl⟩
      | saveApplied index => exact ⟨rfl, rfl, rfl⟩
      | snapshotData data => exact ⟨rfl, rfl, rfl⟩
    exact ⟨h.hardState.trans hx.hardState, h.snapMeta.trans hx.snapMeta, h.log.trans hx.log⟩

theorem Keeps.lastIndex {d' : Durable} (h : Keeps d d') :
    d'.storage.lastIndex = d.storage.lastIndex := by
  rw [LSMLogStorage.lastIndex, LSMLogStorage.lastIndex, LSMLogStorage.loadSnapshotMeta,
    LSMLogStorage.loadSnapshotMeta, h.snapMeta, h.log]

/-- The writes before the metadata; the state machine is complete at their end. -/
def earlyWrites (d : Durable) (snap : Snapshot) : List DiskWrite :=
  engineWrites d snap ++ [.saveApplied snap.metadata.index, .snapshotData snap.data]

theorem installWrites_eq (hfit : Fits src) (hdata : snap.data = serializeEngineState src) :
    installWrites d snap = earlyWrites d snap ++ .snapshotMeta snap.metadata ::
      (d.storage.log.keys.filter (· ≤ snap.metadata.index)).map .dropEntry := by
  have hnone : (installEngine d.engine snap.data).2 = none := by
    rw [hdata, installEngine_serialize hfit]
  rw [installWrites, hnone, earlyWrites]

theorem length_earlyWrites (hfit : Fits src) (hdata : snap.data = serializeEngineState src) :
    (earlyWrites d snap).length = (stateMachine d.engine).length + (stateMachine src).length +
      2 := by
  rw [earlyWrites, engineWrites, hdata, snapshotPuts_serialize hfit]
  simp [Nat.add_assoc]

theorem keeps_earlyWrites (d : Durable) (snap : Snapshot) (w : ℕ) :
    Keeps d (d.writeAll ((earlyWrites d snap).take w)) := by
  refine keeps_writeAll fun x hx ↦ ?_
  have hmem := mem_of_mem_take hx
  rw [earlyWrites, engineWrites, mem_append, mem_append, mem_map, mem_map] at hmem
  obtain (⟨y, -, rfl⟩ | ⟨y, -, rfl⟩) | hmem := hmem
  · exact ⟨fun _ ↦ by simp, fun _ ↦ by simp⟩
  · exact ⟨fun _ ↦ by simp, fun _ ↦ by simp⟩
  · simp only [mem_cons, not_mem_nil, or_false] at hmem
    obtain rfl | rfl := hmem
    · exact ⟨fun _ ↦ by simp, fun _ ↦ by simp⟩
    · exact ⟨fun _ ↦ by simp, fun _ ↦ by simp⟩

theorem keeps_of_early (hfit : Fits src) (hdata : snap.data = serializeEngineState src) {w : ℕ}
    (hw : w < (stateMachine d.engine).length + (stateMachine src).length + 3) :
    Keeps d (d.writeAll ((installWrites d snap).take w)) := by
  have hle : w ≤ (earlyWrites d snap).length := by rw [length_earlyWrites hfit hdata]; omega
  rw [installWrites_eq hfit hdata, take_append_of_le_length hle]
  exact keeps_earlyWrites d snap w

theorem installed_of_late (hfit : Fits src) (hdata : snap.data = serializeEngineState src) {w : ℕ}
    (hw : (stateMachine d.engine).length + (stateMachine src).length + 3 ≤ w) :
    stateMachine (d.writeAll ((installWrites d snap).take w)).engine = stateMachine src ∧
      (d.writeAll ((installWrites d snap).take w)).storage.hardState = d.storage.hardState ∧
      (d.writeAll ((installWrites d snap).take w)).storage.snapMeta = some snap.metadata := by
  obtain ⟨n, hn⟩ : ∃ n, w - (earlyWrites d snap).length = n + 1 :=
    ⟨w - (earlyWrites d snap).length - 1, by rw [length_earlyWrites hfit hdata]; omega⟩
  have hle : (earlyWrites d snap).length ≤ w := by omega
  rw [installWrites_eq hfit hdata, take_append, take_of_length_le hle, hn,
    take_succ_cons, writeAll_append, ← map_take]
  have hdrop := writeAll_dropEntry ((d.writeAll (earlyWrites d snap)).write
    (.snapshotMeta snap.metadata)) ((d.storage.log.keys.filter (· ≤ snap.metadata.index)).take n)
  have hkeeps := keeps_earlyWrites d snap (earlyWrites d snap).length
  rw [take_length] at hkeeps
  have hearly : (d.writeAll (earlyWrites d snap)).engine =
      (installEngine d.engine snap.data).1 := by
    rw [earlyWrites, writeAll_append, writeAll_engineWrites]
    rfl
  refine ⟨?_, (congrArg (·.storage.hardState) hdrop).trans hkeeps.hardState,
    congrArg (·.storage.snapMeta) hdrop⟩
  refine (congrArg (fun x ↦ stateMachine x.engine) hdrop).trans ?_
  rw [← stateMachine_installEngine hfit d.engine, ← hdata, ← hearly]
  rfl

end Crash

/-! ## Recovery -/

/-- What is on disk when a cycle of `handleReady` has saved the hard state. -/
def hardStateSaved (rn : RawNode) (e : Engine) : Durable where
  storage := if rn.ready.hardState.isEmpty then rn.log.storage
    else rn.log.storage.saveHardState rn.ready.hardState
  engine := e

/-- What is on disk after `w` further writes. -/
def crashInstall (rn : RawNode) (e : Engine) (w : ℕ) : Durable :=
  (hardStateSaved rn e).writeAll ((installWrites (hardStateSaved rn e) rn.ready.snapshot).take w)

theorem step_snap_accepted {rn : RawNode} {m : Message} (hty : m.type = .snap)
    (hterm : rn.term ≤ m.term) (hidx : rn.log.committed < m.snapshot.metadata.index) (rnd : ℕ) :
    (rn.step rnd m).log = (rn.log.restore m.snapshot).1 ∧ (rn.step rnd m).term = m.term ∧
      (rn.step rnd m).prevHard = rn.prevHard := by
  obtain ⟨rn₁, hhandle, hlog, -, hprev, hle⟩ := handleTerm_snap hty hterm rnd
  have hrestore : (rn₁.becomeFollower rnd m.term m.src).log.restore m.snapshot =
      ((rn.log.restore m.snapshot).1, true) := by
    rw [becomeFollower, hlog, restore, if_neg (not_le.mpr hidx)]
  rw [step, hhandle]
  simp only [dispatch, hty, stepSnap, not_lt.mpr hle, if_false, hrestore]
  exact ⟨rfl, rfl, hprev⟩

section Recovery

variable {rn : RawNode} {m m' : Message} {src : Engine}

/-- What the cycle of a node that accepted a snapshot saves first. -/
theorem hardStateSaved_step (hty : m.type = .snap) (hterm : rn.term ≤ m.term)
    (hidx : rn.log.committed < m.snapshot.metadata.index)
    (hprev : rn.prevHard.commit ≤ rn.log.committed) (rnd : ℕ) (e : Engine) :
    (rn.step rnd m).ready.snapshot = m.snapshot ∧
      ∃ hs : HardState, hs.term = m.term ∧ hs.commit = m.snapshot.metadata.index ∧
        hardStateSaved (rn.step rnd m) e = ⟨rn.log.storage.saveHardState hs, e⟩ := by
  obtain ⟨hlog, hterm', hprev'⟩ := step_snap_accepted hty hterm hidx rnd
  have hrestore : (rn.log.restore m.snapshot).1.pendingSnapshot = m.snapshot ∧
      (rn.log.restore m.snapshot).1.committed = m.snapshot.metadata.index ∧
      (rn.log.restore m.snapshot).1.storage = rn.log.storage := by
    rw [restore, if_neg (not_le.mpr hidx)]
    exact ⟨rfl, rfl, rfl⟩
  have hcommit : (rn.step rnd m).hardState.commit = m.snapshot.metadata.index := by
    rw [hardState, hlog]
    exact hrestore.2.1
  have hne : (rn.step rnd m).hardState ≠ (rn.step rnd m).prevHard := fun heq ↦ by
    have := congrArg HardState.commit heq
    rw [hcommit, hprev'] at this
    omega
  have hempty : (rn.step rnd m).hardState.isEmpty = false := by
    simp only [HardState.isEmpty, Bool.and_eq_false_iff, beq_eq_false_iff_ne]
    exact .inr (by omega)
  constructor
  · simp only [ready, hasPendingSnapshot, hlog, hrestore.1]
    rw [if_pos]
    simp only [Snapshot.isEmpty, Bool.not_eq_true', beq_eq_false_iff_ne]
    omega
  · refine ⟨(rn.step rnd m).hardState, hterm', hcommit, ?_⟩
    simp only [hardStateSaved, ready, if_pos hne, hempty, hlog, hrestore.2.2]
    rfl

end Recovery

/-- An engine with one key. -/
def oneKey (k : UInt8) : Engine := empty.insert [k] [k]

/-- A leader's snapshot of an engine with the key `a`. -/
def snapshotOfA : Message :=
  { type := .snap, src := 1, dst := 2, term := 1
    snapshot :=
    { metadata := { index := 5, term := 1 }, data := serializeEngineState (oneKey 0x61) } }

theorem fits_oneKey (k : UInt8) : Fits (oneKey k) := by
  refine ⟨?_, fun x hx ↦ ?_⟩
  · exact (by decide : 1 < 2 ^ 64)
  · obtain rfl := mem_singleton.mp (show x ∈ [([k], [k])] from hx)
    exact ⟨(by decide : 1 < 2 ^ 32), (by decide : 1 < 2 ^ 32)⟩

/-- What is left of a new node with the key `b` that crashes `w` writes behind the hard state. -/
def leftOver (w : ℕ) : Durable :=
  crashInstall ((newRawNode 2 [1, 2, 3] {} 0).step 0 snapshotOfA) (oneKey 0x62) w

/-- An entry stores its data under one key. -/
def storeData (e : Engine) (x : Entry) : Engine := e.insert [0x63] (x.data.getD [])

end DucklingDB.KvServer
