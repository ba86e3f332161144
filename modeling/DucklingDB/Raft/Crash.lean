import DucklingDB.Raft.Safety
import DucklingDB.Util.Along

/-!
# Crashes in the middle of a `Ready` cycle

`handleReady` writes the hard state, a received snapshot and the new entries, one key at a time;
then it sends the messages, applies the committed entries and saves the applied index. A crash may
fall between any two of these effects. What survives is the storage, and `NewRawNode` rebuilds the
node from it.

The hard state comes first and has the new commit index in it, and `NewRawNode` takes the commit
index from there, whether or not the entries that it speaks of have been written. `Mendable` says
that the crash does no harm: what is lost below the commit index was there before, and what has been
written does not stand in front of older entries that it should have replaced.
-/

namespace DucklingDB.Raft

/-! ## The effects of a cycle -/

/-- One write to the storage. -/
inductive StorageWrite where
  | hardState (hs : HardState)
  | applied (index : ℕ)
  /-- The first half of `SaveSnapshot`. -/
  | snapshotData (data : Bytes)
  /-- The second half of `SaveSnapshot`. -/
  | snapshotMeta (md : SnapshotMetadata)
  /-- `Compact` deletes a log key. -/
  | dropEntry (index : ℕ)
  /-- `AppendEntries` writes a log key. -/
  | entry (e : Entry)

/-- What `handleReady` does, step by step. -/
inductive Effect where
  | write (x : StorageWrite)
  | send (m : Message)
  | apply (e : Entry)

namespace Effect

def written : Effect → Option StorageWrite
  | .write x => some x
  | _ => none

def sent : Effect → Option Message
  | .send m => some m
  | _ => none

def applied : Effect → Option Entry
  | .apply e => some e
  | _ => none

end Effect

namespace LSMLogStorage

variable (s : LSMLogStorage)

def write : StorageWrite → LSMLogStorage
  | .hardState hs => s.saveHardState hs
  | .applied index => s.saveApplied index
  | .snapshotData data => { s with snapData := some data }
  | .snapshotMeta md => { s with snapMeta := some md }
  | .dropEntry index => { s with log := AList.erase index s.log }
  | .entry e => { s with log := AList.insert e.index e s.log }

def writeAll (ws : List StorageWrite) : LSMLogStorage := ws.foldl write s

/-- The storage writes of `installSnapshot`. `Compact` goes through the keys in their order. -/
def installWrites (snap : Snapshot) : List StorageWrite :=
  [.applied snap.metadata.index, .snapshotData snap.data, .snapshotMeta snap.metadata] ++
    ((s.log.keys.filter (· ≤ snap.metadata.index)).mergeSort).map .dropEntry

variable (rd : Ready)

/-- What is written before the messages are sent. -/
def persistWrites : List StorageWrite :=
  (if rd.hardState.isEmpty then [] else [.hardState rd.hardState]) ++
    ((if rd.snapshot.isEmpty then [] else s.installWrites rd.snapshot) ++ rd.entries.map .entry)

/-- What follows. -/
def laterEffects : List Effect :=
  rd.messages.map .send ++ (rd.committedEntries.map .apply ++
    match rd.committedEntries.getLast? with
    | none => []
    | some last => [.write (.applied last.index)])

/-- The effects of `handleReady`, in its order. -/
def effects : List Effect :=
  (s.persistWrites rd).map .write ++ laterEffects rd

/-- The storage that a crash after `w` effects leaves. -/
def survivor (w : ℕ) : LSMLogStorage :=
  s.writeAll (((s.effects rd).take w).filterMap Effect.written)

end LSMLogStorage

/-! ## Runs with crashes -/

namespace Cluster

/-- Node `id` has moved to `rn` and crashes in its `Ready` cycle after `w` effects. A vote counts as
cast once the cycle has begun. -/
def crash (cfg : Config) (c : Cluster) (id : NodeId) (rn : RawNode) (w rnd : ℕ) : Cluster :=
  let done := (rn.log.storage.effects rn.ready).take w
  { nodes := fun i ↦
      if i = id then newRawNode id cfg.peers (rn.log.storage.survivor rn.ready w) rnd else c.nodes i
    net := c.net ++ done.filterMap Effect.sent
    ballots := c.ballots ++ (if w = 0 then [] else rn.ballots).map fun b ↦ (id, b)
    emitted := c.emitted ++ (done.filterMap Effect.applied).map fun e ↦ (id, e) }

end Cluster

/-- The events of a run in which nodes crash. -/
inductive CrashEvent where
  | event (a : Action)
  /-- The node crashes after `w` effects of the cycle that follows `a`; `rnd` is the random number
  drawn by `NewRawNode`. -/
  | crash (a : Action) (w rnd : ℕ)

/-- One event; nothing happens if it cannot. -/
def Cluster.crashStep (cfg : Config) (c : Cluster) : CrashEvent → Cluster
  | .event a => (c.act cfg a).getD c
  | .crash a w rnd =>
    if Cluster.Enabled cfg c a then c.crash cfg a.node (a.apply (c.nodes a.node)) w rnd else c

/-- The cluster after a sequence of events. -/
def Cluster.afterEvents (cfg : Config) (es : List CrashEvent) : Cluster :=
  es.foldl (Cluster.crashStep cfg) (Cluster.init cfg)

/-! ## The condition -/

/-- The storage has an entry of term `t` at index `i`. -/
def LSMLogStorage.Has (s : LSMLogStorage) (i t : ℕ) : Prop := ∃ old ∈ s.log.lookup i, old.term = t

instance (s : LSMLogStorage) (i t : ℕ) : Decidable (s.Has i t) :=
  inferInstanceAs (Decidable (∃ old ∈ s.log.lookup i, old.term = t))

namespace StorageWrite

variable (s : LSMLogStorage)

/-- Without this write the storage still has what the commit index speaks of. -/
def Dispensable (commit : ℕ) : StorageWrite → Prop
  | .snapshotMeta md => s.Has md.index md.term
  | .entry e => s.initialState.commit < e.index → e.index ≤ commit → s.Has e.index e.term
  | _ => True

/-- The write replaces no entry of another term. -/
def Agrees : StorageWrite → Prop
  | .entry e => ∀ old ∈ s.log.lookup e.index, old.term = e.term
  | _ => True

/-- There is nothing behind what is written. -/
def ReachesEnd : StorageWrite → Prop
  | .entry e => s.lastIndex ≤ e.index
  | _ => False

instance (s : LSMLogStorage) (commit : ℕ) : DecidablePred (Dispensable s commit)
  | .snapshotMeta md => inferInstanceAs (Decidable (s.Has md.index md.term))
  | .entry e => inferInstanceAs (Decidable
      (s.initialState.commit < e.index → e.index ≤ commit → s.Has e.index e.term))
  | .hardState _ | .applied _ | .snapshotData _ | .dropEntry _ => inferInstanceAs (Decidable True)

instance (s : LSMLogStorage) : DecidablePred (Agrees s)
  | .entry e => inferInstanceAs (Decidable (∀ old ∈ s.log.lookup e.index, old.term = e.term))
  | .hardState _ | .applied _ | .snapshotData _ | .snapshotMeta _ | .dropEntry _ =>
    inferInstanceAs (Decidable True)

instance (s : LSMLogStorage) : DecidablePred (ReachesEnd s)
  | .entry e => inferInstanceAs (Decidable (s.lastIndex ≤ e.index))
  | .hardState _ | .applied _ | .snapshotData _ | .snapshotMeta _ | .dropEntry _ =>
    inferInstanceAs (Decidable False)

end StorageWrite

/-- A crash after the first `w` writes leaves a log that the cluster agrees with as far as the
commit index says, and no older entries behind newer ones. -/
def Mendable (s : LSMLogStorage) (rd : Ready) (w : ℕ) : Prop :=
  (∀ x ∈ (s.persistWrites rd).drop w, x.Dispensable s rd.hardState.commit) ∧
    ((∀ x ∈ (s.persistWrites rd).take w, x.Agrees s) ∨
      ∃ x ∈ (s.persistWrites rd).take w, x.ReachesEnd s)

instance (s : LSMLogStorage) (rd : Ready) (w : ℕ) : Decidable (Mendable s rd w) :=
  inferInstanceAs (Decidable (_ ∧ _))

/-- The condition on a crash after `w` effects of the cycle of `rn`, when `handout` says that the
entries handed out are the right ones. A crash before the first effect does no harm, and neither
does one after the last entry has been written. -/
def CrashHarmless (rn : RawNode) (handout : Prop) (w : ℕ) : Prop :=
  (w < (rn.log.storage.persistWrites rn.ready).length →
    rn.state = .follower ∧ Mendable rn.log.storage rn.ready w) ∧
  ((rn.log.storage.persistWrites rn.ready).length + rn.ready.messages.length < w → handout)

instance (rn : RawNode) (handout : Prop) [Decidable handout] (w : ℕ) :
    Decidable (CrashHarmless rn handout w) :=
  inferInstanceAs (Decidable (_ ∧ _))

/-- The condition on the events of a run. -/
def CrashGood (c : Cluster) : CrashEvent → Prop
  | .event a => ApplyGood c a
  | .crash a w _ => w = 0 ∨
      ReplicationGood c a ∧ CrashHarmless (a.apply (c.nodes a.node)) (HandoutGood c a) w

instance (c : Cluster) : DecidablePred (CrashGood c)
  | .event a => inferInstanceAs (Decidable (ApplyGood c a))
  | .crash a w _ => inferInstanceAs (Decidable (w = 0 ∨
      ReplicationGood c a ∧ CrashHarmless (a.apply (c.nodes a.node)) (HandoutGood c a) w))

end DucklingDB.Raft
