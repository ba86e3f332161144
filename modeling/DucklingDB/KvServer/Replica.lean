import DucklingDB.Raft.Cluster

/-!
# Replicas

A `Replica` owns a `RawNode` and runs its `Ready` loop: it persists what `Ready` demands, sends the
messages, applies the committed entries to the engine and reports each outcome to the proposal that
waits for it. A proposal passes through three places. `propc` is the channel between `Propose` and
the loop. `pendingProps` holds those that the loop has handed to the `RawNode` and that have no log
index yet; they are matched to the persisted entries in order. `pending` maps the index of a matched
entry to its proposal. Before that, `waiting` holds the calls of `Propose` that have seen the
replica as leader and not yet sent on the channel.

The engine is a parameter, `StateMachine`: nothing here depends on what a command does. A proposal
stands for the done channel it waits on. Errors of the engine's own storage are left out.

`applied` and `results` are histories that the loop only extends. A value sent on a done channel is
what `Propose` returns, unless its context ended before.
-/

namespace DucklingDB.KvServer

open Raft

/-- What can go wrong in `applyEntry`. -/
inductive ApplyError where
  /-- The payload is not a `BatchRequest`. -/
  | unmarshal
  /-- `Batch` failed. -/
  | engine
  /-- `RequestError`: the request failed in the same way on every replica. -/
  | request (message : String)
  deriving DecidableEq, Repr

/-- Whether an error counts as divergence. -/
def ApplyError.diverges : ApplyError → Bool
  | .unmarshal | .engine => true
  | .request _ => false

/-- The engine behind a replica. -/
structure StateMachine (σ : Type) where
  /-- Decode a payload and run it through `BatchHandler.Batch`. -/
  batch : σ → Bytes → σ × Option ApplyError
  /-- `serializeEngineState`. -/
  serialize : σ → Bytes
  /-- `clearStateMachine` and `applyEngineSnapshot`. -/
  install : σ → Bytes → σ

/-- `proposalMsg`; `id` stands for the done channel. -/
structure Proposal where
  id : ℕ
  data : Option Bytes
  deriving DecidableEq, Repr

/-- An entry that was applied, with the error of its command. -/
structure Outcome where
  entry : Entry
  err : Option ApplyError
  deriving DecidableEq, Repr

structure Replica (σ : Type) where
  rn : RawNode
  engine : σ
  waiting : List Proposal := []
  propc : List Proposal := []
  pending : GoMap ℕ Proposal := ∅
  pendingProps : List Proposal := []
  lastSnapIndex : ℕ := 0
  leadID : NodeId := noneId
  applyErrs : ℕ := 0
  /-- History: the entries applied. -/
  applied : List Outcome := []
  /-- History: the values sent on done channels, with the entry whose application sent them. -/
  results : List (Proposal × Outcome) := []

def snapshotThreshold : ℕ := 8

/-- The capacity of `propc`. -/
def propcCap : ℕ := 16

namespace Replica

variable {σ : Type}

/-- The queue of proposals without an index, and those filed under one, after entry `e`. -/
def file (q : List Proposal × GoMap ℕ Proposal) (e : Entry) : List Proposal × GoMap ℕ Proposal :=
  match q.1, e.data with
  | prop :: rest, some _ => (rest, AList.insert e.index prop q.2)
  | _, _ => q

/-- The loop of `handleReady` that matches persisted entries to `pendingProps`. -/
def assign (r : Replica σ) (entries : List Entry) : Replica σ :=
  let q := entries.foldl file (r.pendingProps, r.pending)
  { r with pendingProps := q.1, pending := q.2 }

variable (sm : StateMachine σ)

/-- The command of an entry; an entry without payload has none. -/
def command (engine : σ) (e : Entry) : σ × Option ApplyError :=
  match e.data with
  | none | some [] => (engine, none)
  | some data => sm.batch engine data

variable (r : Replica σ)

def applyEntry (e : Entry) : Replica σ :=
  let res := command sm r.engine e
  let outcome : Outcome := { entry := e, err := res.2 }
  let r := { r with
    engine := res.1, applied := r.applied ++ [outcome]
    applyErrs := r.applyErrs + if res.2.any ApplyError.diverges then 1 else 0 }
  match AList.lookup e.index r.pending with
  | none => r
  | some prop =>
    { r with pending := AList.erase e.index r.pending, results := r.results ++ [(prop, outcome)] }

def createSnapshotOnLoop : Replica σ :=
  match r.rn.log.term r.rn.log.applied with
  | .error _ => r
  | .ok _ =>
    if r.rn.log.applied = 0 then r
    else { r with
      rn := r.rn.createSnapshot (sm.serialize r.engine), lastSnapIndex := r.rn.log.applied }

def maybeSnapshotAndCompact : Replica σ :=
  let first := r.rn.log.storage.firstIndex
  let r :=
    if r.rn.log.applied > r.lastSnapIndex ∧ r.rn.log.applied + 1 ≥ first + snapshotThreshold then
      r.createSnapshotOnLoop sm
    else r
  if r.lastSnapIndex = 0 then r
  else
    let compactTo := r.rn.compactableIndex r.lastSnapIndex
    if compactTo + 1 > first then
      { r with rn := r.rn.setStorage (r.rn.log.storage.compact compactTo) }
    else r

/-- `handleReady`. The storage writes and `Advance` are those of `RawNode.handleReady`; the messages
are taken from `Ready` by the caller. -/
def handleReady : Replica σ :=
  if r.rn.hasReady then
    let rd := r.rn.ready
    let r := { r with leadID := (rd.softState.map SoftState.lead).getD r.leadID }
    let r :=
      if rd.snapshot.isEmpty then r
      else { r with
        engine := sm.install r.engine rd.snapshot.data
        lastSnapIndex := rd.snapshot.metadata.index }
    let r := r.assign rd.entries
    let r := rd.committedEntries.foldl (applyEntry sm) r
    { r with rn := r.rn.handleReady }.maybeSnapshotAndCompact sm
  else r

end Replica

/-! ## Several replicas -/

/-- The replicas, every message sent so far, and histories: the proposals submitted at each replica,
and the entry each of them was appended as. -/
structure Replicas (σ : Type) where
  nodes : NodeId → Replica σ
  net : List Message := []
  calls : List (NodeId × Proposal) := []
  created : List (NodeId × Proposal × Entry) := []

inductive Event where
  | tick (id : NodeId) (rnd : ℕ)
  /-- `Propose` finds that the replica leads. -/
  | call (id : NodeId) (prop : Proposal)
  /-- `Propose` sends its proposal on `propc`. -/
  | enqueue (id : NodeId) (prop : Proposal)
  /-- The loop takes the next proposal out of `propc`. -/
  | take (id : NodeId) (rnd : ℕ)
  | deliver (m : Message) (rnd : ℕ)
  /-- A request for a snapshot. -/
  | snapshot (id : NodeId)
  deriving DecidableEq

def Event.node : Event → NodeId
  | .tick id _ | .call id _ | .enqueue id _ | .take id _ | .snapshot id => id
  | .deliver m _ => m.dst

namespace Replicas

variable {σ : Type}

/-- New replicas over empty storages. -/
def init (cfg : Config) (engine : σ) : Replicas σ :=
  { nodes := fun id ↦ { rn := newRawNode id cfg.peers {} (cfg.seed id), engine := engine } }

/-- Replica `id` has moved to `r`; it completes the iteration of its loop. -/
def settle (sm : StateMachine σ) (s : Replicas σ) (id : NodeId) (r : Replica σ) : Replicas σ :=
  { s with
    nodes := fun i ↦ if i = id then r.handleReady sm else s.nodes i
    net := s.net ++ r.rn.ready.messages }

/-- The entry as which a leader appends a proposal. -/
def proposedEntry (rn : RawNode) (prop : Proposal) : Entry :=
  { term := rn.term, index := rn.log.lastIndex + 1, data := prop.data }

/-- Replica `id` has changed outside its loop. -/
def set (s : Replicas σ) (id : NodeId) (r : Replica σ) : Replicas σ :=
  { s with nodes := fun i ↦ if i = id then r else s.nodes i }

/-- One event; `none` if it cannot happen. A proposal's channel is new, `Propose` refuses it when
the replica does not think that it leads, and waits while `propc` is full. -/
def act (cfg : Config) (sm : StateMachine σ) (s : Replicas σ) (e : Event) : Option (Replicas σ) :=
  if e.node ∈ cfg.ids then
    let r := s.nodes e.node
    match e with
    | .tick id rnd => some (s.settle sm id { r with rn := r.rn.tick rnd })
    | .call id prop =>
      if (∀ c ∈ s.calls, c.2.id ≠ prop.id) ∧ r.leadID = id then
        some { s.set id { r with waiting := prop :: r.waiting } with
          calls := s.calls ++ [(id, prop)] }
      else none
    | .enqueue id prop =>
      if prop ∈ r.waiting ∧ r.propc.length < propcCap then
        some (s.set id { r with waiting := r.waiting.erase prop, propc := r.propc ++ [prop] })
      else none
    | .take id rnd =>
      match r.propc with
      | [] => none
      | prop :: rest =>
        let s := if r.rn.state = .leader then
            { s with created := s.created ++ [(id, prop, proposedEntry r.rn prop)] }
          else s
        some (s.settle sm id { r with
          propc := rest, pendingProps := r.pendingProps ++ [prop]
          rn := r.rn.propose rnd prop.data })
    | .deliver m rnd =>
      if m ∈ s.net then some (s.settle sm m.dst { r with rn := r.rn.step rnd m }) else none
    | .snapshot id => some (s.settle sm id (r.createSnapshotOnLoop sm))
  else none

/-- A sequence of events; `none` if one of them cannot happen. -/
def run (cfg : Config) (sm : StateMachine σ) (s : Replicas σ) : List Event → Option (Replicas σ)
  | [] => some s
  | e :: es => (s.act cfg sm e).bind fun s' ↦ run cfg sm s' es

end Replicas

end DucklingDB.KvServer
