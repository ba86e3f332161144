import DucklingDB.Consensus.Node
import DucklingDB.Raft.Election
import DucklingDB.Raft.ReadyCycle

/-!
# A cluster refines log replication with elected leaders

Each elementary move of a node is matched by steps of the abstract machine of `Consensus`. The
relation says what the fields of a node and the messages on the network mean there: a log stands for
a list, a counted vote is a vote, an acknowledged index is an acknowledged index, the entries of an
append are a part of the leader's log and reach an entry of the leader's own term.

The source deviates from the machine in a few places, each of which is excluded by a condition on
the message a node acts upon, in the state it is then in.

* A vote is counted in a later candidacy (`VoteCurrent`), or forgotten (`VoteRemembered`).
* An acknowledgement of an earlier term is taken for one of the current term (`AckCurrent`).
* An append replaces a conflicting entry but leaves the old entries behind it in place
  (`NoLeftover`), because nothing ever deletes a persisted suffix.
* A snapshot leaves the log beyond it in place, and all of it is acknowledged (`SnapshotCovers`).
* The entries handed out to be applied are read before the new entries are written
  (`NoStaleCommit`). The logs are then still right, but not what has been applied.
-/

namespace DucklingDB.Raft

open RaftLog

open Consensus (State Inv ByNode Extends Decided Chosen lastTerm UpToDate)

instance : Consensus.HasTerm Entry := ⟨Entry.term⟩

/-- The majorities of a peer list. -/
def quorums (peers : List NodeId) : Consensus.QuorumSystem NodeId where
  IsQuorum := IsMajority peers
  inter h₁ h₂ := h₁.exists_mem_inter h₂

theorem RaftLog.Live.lastTerm_eq {clean : Prop} {l : RaftLog} {L : List Entry}
    (h : l.Live L clean) : l.lastTerm = Consensus.lastTerm L := by
  rw [lastTerm, h.lastIndex_eq]
  by_cases hL : L = []
  · subst hL
    rfl
  · obtain ⟨e, he, ht⟩ := Consensus.getElem?_last hL
    have hlen := List.length_pos_iff.mpr hL
    rw [h.term_eq hlen h.snap_le_length he]
    exact ht

/-! ## The conditions -/

variable (rn : RawNode) {A : State NodeId Entry} {peers : List NodeId}

/-- A leader does not count an acknowledgement of an earlier term. -/
def AckCurrent (m : Message) : Prop :=
  m.type = .appResp → m.reject = false → rn.state = .leader → rn.term ≤ m.term

/-- An accepted append reaches the end of the log, or its last entry is already there. -/
def NoLeftover (m : Message) : Prop :=
  m.type = .app → rn.term ≤ m.term → rn.matchesPrev m = true →
    rn.log.lastIndex ≤ m.index + m.entries.length ∨
      rn.log.term (m.index + m.entries.length) = .ok m.term

/-- A received snapshot reaches the end of the log, or the log ends in the sender's term. -/
def SnapshotCovers (m : Message) : Prop :=
  m.type = .snap → rn.term ≤ m.term → rn.log.committed < m.snapshot.metadata.index →
    rn.log.lastIndex ≤ m.snapshot.metadata.index ∨ rn.log.lastTerm = m.term

/-- An accepted append does not commit an entry that replaces a persisted one: `Ready` hands out the
committed entries as the storage has them before it is written. -/
def NoStaleCommit (m : Message) : Prop :=
  m.type = .app → rn.term ≤ m.term → rn.matchesPrev m = true →
    ∀ e ∈ m.entries, e.index ≤ m.commit →
      ∀ old ∈ rn.log.storage.log.lookup e.index, old.term = e.term

instance (rn : RawNode) (m : Message) : Decidable (AckCurrent rn m) :=
  inferInstanceAs (Decidable (_ → _))

instance (rn : RawNode) (m : Message) : Decidable (NoLeftover rn m) :=
  inferInstanceAs (Decidable (_ → _))

instance (rn : RawNode) (m : Message) : Decidable (SnapshotCovers rn m) :=
  inferInstanceAs (Decidable (_ → _))

instance (rn : RawNode) (m : Message) : Decidable (NoStaleCommit rn m) :=
  inferInstanceAs (Decidable (_ → _))

/-- The conditions under which replication is safe. -/
def ReplicationGood (c : Cluster) : Action → Prop
  | .deliver m _ =>
    (VoteCurrent (c.nodes m.dst) m ∧ VoteRemembered (c.ledger m.dst) (c.nodes m.dst) m) ∧
    AckCurrent (c.nodes m.dst) m ∧ NoLeftover (c.nodes m.dst) m ∧ SnapshotCovers (c.nodes m.dst) m
  | _ => True

instance (c : Cluster) : DecidablePred (ReplicationGood c)
  | .deliver m _ => inferInstanceAs (Decidable
      ((VoteCurrent (c.nodes m.dst) m ∧ VoteRemembered (c.ledger m.dst) (c.nodes m.dst) m) ∧
        AckCurrent (c.nodes m.dst) m ∧ NoLeftover (c.nodes m.dst) m ∧
        SnapshotCovers (c.nodes m.dst) m))
  | .tick _ _ | .propose _ _ _ | .snapshot _ _ | .compact _ => inferInstanceAs (Decidable True)

/-- The condition under which the entries handed out are the ones the log then has. -/
def HandoutGood (c : Cluster) : Action → Prop
  | .deliver m _ => NoStaleCommit (c.nodes m.dst) m
  | _ => True

instance (c : Cluster) : DecidablePred (HandoutGood c)
  | .deliver m _ => inferInstanceAs (Decidable (NoStaleCommit (c.nodes m.dst) m))
  | .tick _ _ | .propose _ _ _ | .snapshot _ _ | .compact _ => inferInstanceAs (Decidable True)

/-! ## Messages -/

/-- An append carries a part of the leader's log that ends in the leader's own term. -/
structure AppendRel (peers : List NodeId) (A : State NodeId Entry) (m : Message) (n : ℕ) :
    Prop where
  sender : A.leader m.term = some m.src
  base_lt : (A.base m.term).length < n
  le : n ≤ (A.full m.term).length
  indexed : Indexed ((A.full m.term).take n)
  index_le : m.index ≤ n
  entries : m.entries = slice (A.full m.term) (m.index + 1) (n + 1)
  logTerm : m.index = 0 ∨ ∃ e, (A.full m.term)[m.index - 1]? = some e ∧ e.term = m.logTerm
  commit_le : m.commit ≤ n
  commit : m.commit = 0 ∨ Decided (quorums peers) A m.term m.commit

/-- A snapshot covers a decided part of the leader's log. -/
structure SnapRel (peers : List NodeId) (A : State NodeId Entry) (m : Message) : Prop where
  sender : A.leader m.term = some m.src
  pos : 0 < m.snapshot.metadata.index
  le : m.snapshot.metadata.index ≤ (A.full m.term).length
  indexed : Indexed ((A.full m.term).take m.snapshot.metadata.index)
  term : ∀ e, (A.full m.term)[m.snapshot.metadata.index - 1]? = some e →
    m.snapshot.metadata.term = e.term
  commit : Decided (quorums peers) A m.term m.snapshot.metadata.index

theorem AppendRel.leader {m : Message} {n : ℕ}
    (h : AppendRel peers A m n) : (A.leader m.term).isSome := by
  rw [h.sender]
  rfl

theorem SnapRel.leader {m : Message} (h : SnapRel peers A m) : (A.leader m.term).isSome := by
  rw [h.sender]
  rfl

/-- What a message says in the abstract machine. -/
def MsgRel (peers : List NodeId) (A : State NodeId Entry) (m : Message) : Prop :=
  match m.type with
  | .vote => ∃ l, A.cand m.src m.term = some l ∧ m.index = l.length ∧ m.logTerm = lastTerm l
  | .voteResp => m.reject = false → A.vote m.src m.term = some m.dst
  | .app => ∃ n, AppendRel peers A m n
  | .appResp => m.reject = false → m.index ≤ A.acked m.src m.term
  | .heartbeat => m.commit = 0 ∨ (A.leader m.term).isSome ∧ m.commit ≤ A.acked m.dst m.term ∧
      Decided (quorums peers) A m.term m.commit
  | .snap => SnapRel peers A m
  | _ => True

section Extends

variable {peers : List NodeId} {A A' : State NodeId Entry} {m : Message}

theorem slice_extends {F F' : List Entry} (h : F <+: F') {lo hi : ℕ} (h1 : 1 ≤ lo)
    (hhi : hi ≤ F.length + 1) : slice F' lo hi = slice F lo hi := by
  obtain ⟨t, rfl⟩ := h
  refine slice_congr h1 fun i hi₁ hi₂ ↦ ?_
  rw [List.getElem?_append_left (by omega)]

theorem AppendRel.extends {n : ℕ} (h : AppendRel peers A m n) (hA : Inv (quorums peers) A)
    (hext : Extends A A') : AppendRel peers A' m n where
  sender := hext.leader h.sender
  base_lt := by
    rw [hext.base h.leader]
    exact h.base_lt
  le := h.le.trans (hext.full h.leader).length_le
  indexed := by
    rw [hext.take_full h.leader h.le]
    exact h.indexed
  index_le := h.index_le
  entries := by
    rw [slice_extends (hext.full h.leader) (by omega) (Nat.succ_le_succ h.le)]
    exact h.entries
  logTerm := by
    refine h.logTerm.imp_right fun ⟨e, he, ht⟩ ↦ ⟨e, ?_, ht⟩
    obtain ⟨t, ht⟩ := hext.full h.leader
    rw [← ht, List.getElem?_append_left (List.getElem?_eq_some_iff.mp he).1, he]
  commit_le := h.commit_le
  commit := h.commit.imp_right fun hd ↦ hd.extends hA hext h.leader

theorem SnapRel.extends (h : SnapRel peers A m) (hA : Inv (quorums peers) A) (hext : Extends A A') :
    SnapRel peers A' m where
  sender := hext.leader h.sender
  pos := h.pos
  le := h.le.trans (hext.full h.leader).length_le
  indexed := by
    rw [hext.take_full h.leader h.le]
    exact h.indexed
  term := by
    intro e he
    obtain ⟨t, ht⟩ := hext.full h.leader
    have hpos := h.pos
    have hle := h.le
    rw [← ht, List.getElem?_append_left (by omega)] at he
    exact h.term e he
  commit := h.commit.extends hA hext h.leader

theorem MsgRel.extends (h : MsgRel peers A m) (hA : Inv (quorums peers) A) (hext : Extends A A') :
    MsgRel peers A' m := by
  unfold MsgRel at h ⊢
  split at h
  · obtain ⟨l, hl, hi, ht⟩ := h
    exact ⟨l, hext.cand hl, hi, ht⟩
  · exact fun hr ↦ hext.vote (h hr)
  · obtain ⟨n, hn⟩ := h
    exact ⟨n, hn.extends hA hext⟩
  · exact fun hr ↦ (h hr).trans (hext.acked_le _ _)
  · refine h.imp_right fun ⟨hl, hle, hd⟩ ↦ ⟨hext.leader_isSome hl, hle.trans (hext.acked_le _ _),
      ?_⟩
    exact hd.extends hA hext hl
  · exact SnapRel.extends h hA hext
  · trivial

end Extends

/-! ## Nodes -/

/-- What the state of node `p` means in the abstract machine. `ledger` are the ballots `p` has
sent. -/
structure NodeRel (clean : Prop) (cfg : Config) (ledger : List (ℕ × NodeId))
    (A : State NodeId Entry) (p : NodeId) (rn : RawNode) : Prop where
  id : rn.id = p
  peers : rn.peers = cfg.peers
  term : A.term p = rn.term
  log : rn.log.Live (A.log p) clean
  commit : A.commit p = rn.log.committed
  voted : rn.votedFor ≠ noneId → A.vote p rn.term = some rn.votedFor
  cast : ∀ {T c}, A.vote p T = some c → (T, c) ∈ ledger ++ rn.ballots
  candidate : rn.state = .candidate →
    A.cand p rn.term = some (A.log p) ∧ A.leader rn.term ≠ some p ∧
    ∀ q, rn.votes.lookup q = some true → q ∈ cfg.peers ∧ A.vote q rn.term = some p
  leader : rn.state = .leader →
    A.leader rn.term = some p ∧ (A.base rn.term).length < (A.log p).length ∧
    (∀ q v, rn.matchIndex.lookup q = some v → q ∈ cfg.peers ∧ v ≤ A.acked q rn.term) ∧
    ∀ q, rn.nextIndex.get q 0 ≤ (A.log p).length + 1
  msgs : ∀ m ∈ rn.msgs, m.src = p ∧ MsgRel cfg.peers A m

section Nodes

variable {clean : Prop} {cfg : Config} {ledger : List (ℕ × NodeId)} {A A' : State NodeId Entry}
  {p q : NodeId} {rn rn' : RawNode}

theorem NodeRel.other (h : NodeRel clean cfg ledger A q rn) (hA : Inv (quorums cfg.peers) A)
    (hby : ByNode (quorums cfg.peers) p A A') (hq : q ≠ p) : NodeRel clean cfg ledger A' q rn where
  id := h.id
  peers := h.peers
  term := (hby.term q hq).trans h.term
  log := hby.log q hq ▸ h.log
  commit := (hby.commit q hq).trans h.commit
  voted hv := hby.ext.vote (h.voted hv)
  cast hv := h.cast (by rwa [hby.vote q hq] at hv)
  candidate hst := by
    obtain ⟨hc, hl, hv⟩ := h.candidate hst
    refine ⟨?_, fun hl' ↦ hl (hby.leader hq hl'), fun v hlk ↦ ?_⟩
    · rw [hby.log q hq]
      exact hby.ext.cand hc
    · exact ⟨(hv v hlk).1, hby.ext.vote (hv v hlk).2⟩
  leader hst := by
    obtain ⟨hl, hb, hm, hn⟩ := h.leader hst
    rw [hby.log q hq, hby.ext.base (by rw [hl]; rfl)]
    refine ⟨hby.ext.leader hl, hb, fun v n hlk ↦ ?_, hn⟩
    exact ⟨(hm v n hlk).1, (hm v n hlk).2.trans (hby.ext.acked_le _ _)⟩
  msgs m hm := ⟨(h.msgs m hm).1, (h.msgs m hm).2.extends hA hby.ext⟩

end Nodes

end DucklingDB.Raft
