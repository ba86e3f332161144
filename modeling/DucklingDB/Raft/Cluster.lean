import DucklingDB.Raft.RawNode

/-!
# Clusters of Raft nodes

A cluster is a set of `RawNode`s over one peer list together with every message ever handed to the
transport. Delivering any of those messages, at any time and any number of times, covers reordering,
duplication, delay and loss. Every transition of a node is followed by its `Ready` cycle: the hard
state, a received snapshot and the unstable entries are persisted, the messages are sent, the
committed entries are handed to the state machine, and `Advance` is called. A node may also capture
a snapshot at its applied index and truncate its log, as the replica that owns it does.

Two fields are history and steer nothing: `ballots` collects the votes cast, `emitted` the entries
handed to state machines.
-/

namespace DucklingDB.Raft

/-! ## The `Ready` cycle of one node -/

/-- The storage part of `installSnapshot`. -/
def LSMLogStorage.installSnapshot (s : LSMLogStorage) (snap : Snapshot) : LSMLogStorage :=
  ((s.saveApplied snap.metadata.index).saveSnapshot snap).compact snap.metadata.index

/-- The storage writes of `handleReady`, in its order. -/
def LSMLogStorage.persist (s : LSMLogStorage) (rd : Ready) : LSMLogStorage :=
  let s := if rd.hardState.isEmpty then s else s.saveHardState rd.hardState
  let s := if rd.snapshot.isEmpty then s else s.installSnapshot rd.snapshot
  let s := s.appendEntries rd.entries
  match rd.committedEntries.getLast? with
  | none => s
  | some last => s.saveApplied last.index

namespace RawNode

variable (rn : RawNode)

def setStorage (s : LSMLogStorage) : RawNode :=
  { rn with log := { rn.log with storage := s } }

/-- `Ready`, the storage writes, `Advance`. -/
def handleReady : RawNode :=
  (rn.setStorage (rn.log.storage.persist rn.ready)).advance rn.ready

/-- `createSnapshotOnLoop`: capture `data` at the applied index, then truncate as far as the other
peers allow. Nothing happens when the term of the applied entry is unknown or nothing was
applied. -/
def createSnapshot (data : Bytes) : RawNode :=
  match rn.log.term rn.log.applied with
  | .error _ => rn
  | .ok t =>
    if rn.log.applied = 0 then rn
    else
      let snap : Snapshot := { metadata := { index := rn.log.applied, term := t }, data := data }
      rn.setStorage
        ((rn.log.storage.saveSnapshot snap).compact (rn.compactableIndex rn.log.applied))

/-- The truncation of `maybeSnapshotAndCompact` below the stored snapshot. -/
def compactLog : RawNode :=
  rn.setStorage (rn.log.storage.compact (rn.compactableIndex rn.log.storage.loadSnapshotMeta.index))

end RawNode

/-! ## Clusters -/

/-- What is fixed for a whole run. `NewRawNode` demands that a node's own id is among the peers. -/
structure Config where
  peers : List NodeId
  /-- The nodes that exist. -/
  ids : List NodeId
  ids_sub : ∀ id ∈ ids, id ∈ peers
  /-- The random numbers drawn at construction. -/
  seed : NodeId → ℕ := fun _ ↦ 0

structure Cluster where
  nodes : NodeId → RawNode
  /-- Every message sent so far. -/
  net : List Message := []
  /-- History: `(voter, term, candidate)`. -/
  ballots : List (NodeId × ℕ × NodeId) := []
  /-- History: the entries of `Ready.CommittedEntries`, with the node that emitted them. -/
  emitted : List (NodeId × Entry) := []

/-- The events of a run. `rnd` is the random number drawn by the transition. -/
inductive Action where
  | tick (id : NodeId) (rnd : ℕ)
  | propose (id : NodeId) (data : Option Bytes) (rnd : ℕ)
  | deliver (m : Message) (rnd : ℕ)
  | snapshot (id : NodeId) (data : Bytes)
  | compact (id : NodeId)

/-- The node an event happens at. -/
def Action.node : Action → NodeId
  | .tick id _ => id
  | .propose id _ _ => id
  | .deliver m _ => m.dst
  | .snapshot id _ => id
  | .compact id => id

/-- The transition of the node, before its `Ready` cycle. -/
def Action.apply (rn : RawNode) : Action → RawNode
  | .tick _ rnd => rn.tick rnd
  | .propose _ data rnd => rn.propose rnd data
  | .deliver m rnd => rn.step rnd m
  | .snapshot _ data => rn.createSnapshot data
  | .compact _ => rn.compactLog

namespace Cluster

/-- Fresh nodes over empty storages. -/
def init (cfg : Config) : Cluster :=
  { nodes := fun id ↦ newRawNode id cfg.peers {} (cfg.seed id) }

/-- The cluster after node `id` has moved to `rn` and completed its `Ready` cycle. -/
def settle (c : Cluster) (id : NodeId) (rn : RawNode) : Cluster :=
  { nodes := fun i ↦ if i = id then rn.handleReady else c.nodes i
    net := c.net ++ rn.ready.messages
    ballots := c.ballots ++ rn.ballots.map fun b ↦ (id, b)
    emitted := c.emitted ++ rn.ready.committedEntries.map fun e ↦ (id, e) }

/-- An event can happen at an existing node; a delivery needs a message that was sent. -/
def Enabled (cfg : Config) (c : Cluster) (a : Action) : Prop :=
  a.node ∈ cfg.ids ∧ ∀ m rnd, a = .deliver m rnd → m ∈ c.net

instance (cfg : Config) (c : Cluster) (a : Action) : Decidable (Enabled cfg c a) :=
  match a with
  | .deliver m _ => decidable_of_iff (m.dst ∈ cfg.ids ∧ m ∈ c.net)
      ⟨fun h ↦ ⟨h.1, fun _ _ heq ↦ by cases heq; exact h.2⟩, fun h ↦ ⟨h.1, h.2 m _ rfl⟩⟩
  | .tick id _ | .propose id _ _ | .snapshot id _ | .compact id =>
    decidable_of_iff (id ∈ cfg.ids) ⟨fun h ↦ ⟨h, fun _ _ heq ↦ by cases heq⟩, fun h ↦ h.1⟩

/-- One event. -/
def act (cfg : Config) (c : Cluster) (a : Action) : Option Cluster :=
  if Enabled cfg c a then some (c.settle a.node (a.apply (c.nodes a.node))) else none

/-- A sequence of events; `none` if one of them cannot happen. -/
def run (cfg : Config) (c : Cluster) : List Action → Option Cluster
  | [] => some c
  | a :: as => (c.act cfg a).bind fun c' ↦ run cfg c' as

end Cluster

end DucklingDB.Raft
