import DucklingDB.Util.Bytes
import DucklingDB.Util.GoMap

/-!
# Messages, entries and persistent state of the Raft layer

The data types of `message.go`. Node ids, terms and log indices are 64-bit words in the source and
natural numbers here: a node raises its own by one at a time, or adopts those of a message. The one
id that never names a node is `0`, the source's `none`.
-/

namespace DucklingDB

namespace Raft

abbrev NodeId := ℕ

/-- The source's `none`: no vote, no leader. -/
def noneId : NodeId := 0

/-- The role of a `RawNode`. -/
inductive StateType where
  | follower
  | candidate
  | leader
  | preCandidate
  deriving DecidableEq, Repr

inductive MessageType where
  /-- Internal: trigger an election. -/
  | hup
  /-- Internal: trigger a heartbeat. -/
  | beat
  | vote
  | voteResp
  | app
  | appResp
  | heartbeat
  | heartbeatResp
  /-- Internal: a client proposal. -/
  | prop
  | snap
  | preVote
  | preVoteResp
  deriving DecidableEq, Repr

/-- The last log position a snapshot covers, with the term of the entry there. -/
structure SnapshotMetadata where
  index : ℕ := 0
  term : ℕ := 0
  deriving DecidableEq, Repr

structure Snapshot where
  metadata : SnapshotMetadata := {}
  data : Bytes := []
  deriving DecidableEq, Repr

/-- A snapshot at index `0` carries no information. -/
def Snapshot.isEmpty (s : Snapshot) : Bool := s.metadata.index == 0

theorem Snapshot.isEmpty_eq_false {s : Snapshot} : s.isEmpty = false ↔ 0 < s.metadata.index := by
  rw [isEmpty, beq_eq_false_iff_ne, Nat.pos_iff_ne_zero]

/-- One item of the log. `data = none` is the nil payload of a leader's no-op entry. -/
structure Entry where
  term : ℕ := 0
  index : ℕ := 0
  data : Option Bytes := none
  deriving DecidableEq, Repr

structure Message where
  type : MessageType
  /-- `To` in the source. -/
  dst : NodeId := 0
  /-- `From` in the source. -/
  src : NodeId := 0
  term : ℕ := 0
  /-- The term of the entry at `index` in an append, of the last entry in a vote request. -/
  logTerm : ℕ := 0
  /-- The index preceding `entries` in an append, the acknowledged index in a response. -/
  index : ℕ := 0
  entries : List Entry := []
  commit : ℕ := 0
  reject : Bool := false
  rejectHint : ℕ := 0
  snapshot : Snapshot := {}
  deriving DecidableEq, Repr

/-- The state that must be durable before a response leaves the node. -/
structure HardState where
  term : ℕ := 0
  votedFor : NodeId := 0
  commit : ℕ := 0
  deriving DecidableEq, Repr

def HardState.isEmpty (hs : HardState) : Bool :=
  hs.term == 0 && hs.votedFor == 0 && hs.commit == 0

/-- Volatile state. -/
structure SoftState where
  lead : NodeId := 0
  raftState : StateType := .follower
  deriving DecidableEq, Repr

/-- The pending work one tick or step produces. -/
structure Ready where
  softState : Option SoftState := none
  hardState : HardState := {}
  snapshot : Snapshot := {}
  entries : List Entry := []
  messages : List Message := []
  committedEntries : List Entry := []
  deriving DecidableEq, Repr

end Raft

end DucklingDB
