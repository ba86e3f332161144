import DucklingDB.Raft.Cluster
import Mathlib.Logic.Relation

/-!
# Elementary moves of a node

Everything `Tick`, `Step` and `Propose` do to a node is a sequence of a few elementary moves, each
with the guard the source tests before it: adopt a term, campaign, count a vote, win, grant a vote,
add entries, advance the commit index, update a peer's progress, send a message. An invariant is
proved once for each move instead of once for each path through `Step`.

The two transitions that can leave the in-memory log and the storage in disagreement, accepting an
append and receiving a snapshot, happen last in a step. They are kept apart as `Finish`.

A move may depend on a message that was `sent`, and on a further condition `ok` on the node and that
message. The invariants of the later files hold under conditions on the messages a node acts upon;
the parameter carries them to the place where the node acts.
-/

namespace DucklingDB.Raft

open RawNode RaftLog LSMLogStorage List Nat Bool

/-- Messages that carry no promise: probes, their answers, and refusals. -/
def Message.Harmless (m : Message) : Prop :=
  m.type = .preVote ∨ m.type = .preVoteResp ∨ m.type = .heartbeatResp ∨
  m.type = .voteResp ∧ m.reject = true ∨ m.type = .appResp ∧ m.reject = true

namespace RawNode

/-- The messages a node may send in its present state, granted votes and acknowledgements apart. -/
inductive Outgoing (rn : RawNode) : Message → Prop
  | harmless {m : Message} (h : m.Harmless) : Outgoing rn m
  | vote (dst : NodeId) (h : rn.state = .candidate) :
      Outgoing rn { type := .vote, dst := dst, term := rn.term, index := rn.log.lastIndex
                    logTerm := rn.log.lastTerm }
  | heartbeat (dst : NodeId) (h : rn.state = .leader) :
      Outgoing rn { type := .heartbeat, dst := dst, term := rn.term
                    commit := min (rn.matchIndex.get dst 0) rn.log.committed }
  | append (dst : NodeId) (h : rn.state = .leader)
      (hnext : rn.log.firstIndex ≤ rn.nextIndex.get dst 0) : Outgoing rn (rn.appendMessage dst)
  | snap (dst : NodeId) (h : rn.state = .leader) (hsnap : rn.log.storage.snapshot.isEmpty = false) :
      Outgoing rn { type := .snap, dst := dst, term := rn.term
                    snapshot := rn.log.storage.snapshot }

/-- What a step does first: it may adopt a term, or fall back to a follower in its own. -/
inductive Begin (rn : RawNode) : RawNode → Prop
  /-- Timers, the known leader and the activity marks. -/
  | timers (lead : NodeId) (recent : GoMap NodeId Bool) (e h t : ℕ) :
      Begin rn { rn with
        leadID := lead, recentActive := recent, electionElapsed := e, heartbeatElapsed := h
        electionTimeout := t }
  | follow (rnd T lead : ℕ) (hT : rn.term ≤ T) : Begin rn (rn.becomeFollower rnd T lead)

/-- Sequences of these. -/
abbrev Begins : RawNode → RawNode → Prop := Relation.ReflTransGen Begin

/-- One elementary move. -/
inductive Move (sent : Message → Prop) (ok : RawNode → Message → Prop) (rn : RawNode) :
    RawNode → Prop
  /-- Timers, the known leader and the activity marks. -/
  | timers (lead : NodeId) (recent : GoMap NodeId Bool) (e h t : ℕ) :
      Move sent ok rn { rn with
        leadID := lead, recentActive := recent, electionElapsed := e, heartbeatElapsed := h
        electionTimeout := t }
  | preCampaign (rnd : ℕ) (hst : rn.state ≠ .leader) : Move sent ok rn (rn.becomePreCandidate rnd)
  | campaign (rnd : ℕ) (hst : rn.state ≠ .leader) : Move sent ok rn (rn.becomeCandidate rnd)
  | countPreVote (id : NodeId) (v : Bool) (hst : rn.state = .preCandidate) :
      Move sent ok rn { rn with votes := rn.votes.insert id v }
  | countVote (m : Message) (hm : sent m) (hty : m.type = .voteResp) (hst : rn.state = .candidate)
      (hT : m.term ≤ rn.term) (hok : ok rn m) :
      Move sent ok rn { rn with votes := rn.votes.insert m.src (!m.reject) }
  | win (hst : rn.state = .candidate) (hq : rn.quorum ≤ rn.tallyVotes) :
      Move sent ok rn rn.initLeader
  | grant (m : Message) (hm : sent m) (hty : m.type = .vote) (hT : m.term = rn.term)
      (hg : rn.canGrant m = true) (hok : ok rn m) : Move sent ok rn (rn.grantVote m)
  | propose (es : List Entry) (hst : rn.state = .leader) :
      Move sent ok rn { rn with
        log := rn.log.append (rn.propEntries es)
        matchIndex :=
          rn.matchIndex.insert rn.id (rn.log.append (rn.propEntries es)).lastIndex }
  | commit (n : ℕ) (hst : rn.state = .leader) (hn : n ≤ rn.log.lastIndex)
      (hc : rn.log.committed < n) (ht : rn.log.term n = .ok rn.term)
      (hq : rn.quorum ≤ rn.matchIndex.countValues fun idx ↦ decide (idx ≥ n)) :
      Move sent ok rn { rn with log := rn.log.commitTo n }
  | progress (m : Message) (hm : sent m) (hty : m.type = .appResp) (hr : m.reject = false)
      (hst : rn.state = .leader) (hT : m.term ≤ rn.term) (hok : ok rn m) :
      Move sent ok rn { rn with
        matchIndex := rn.matchIndex.insert m.src m.index
        nextIndex := rn.nextIndex.insert m.src (m.index + 1) }
  | setNext (dst : NodeId) (v : ℕ)
      (hv : v ≤ rn.nextIndex.get dst 0 ∨ v = rn.log.storage.snapshot.metadata.index + 1) :
      Move sent ok rn { rn with nextIndex := rn.nextIndex.insert dst v }
  | heartbeat (m : Message) (hm : sent m) (hty : m.type = .heartbeat) (hT : m.term = rn.term) :
      Move sent ok rn { rn with log := rn.log.commitTo (min m.commit rn.log.lastIndex) }
  | send (m : Message) (h : rn.Outgoing m) : Move sent ok rn (rn.send m)
  | snapshot (data : Bytes) : Move sent ok rn (rn.createSnapshot data)
  | compact : Move sent ok rn rn.compactLog

/-- Sequences of moves. -/
abbrev Moves (sent : Message → Prop) (ok : RawNode → Message → Prop) : RawNode → RawNode → Prop :=
  Relation.ReflTransGen (Move sent ok)

/-- The moves of `Tick` and `Step` leave the storage alone. -/
abbrev QuietMoves (sent : Message → Prop) (ok : RawNode → Message → Prop) :
    RawNode → RawNode → Prop :=
  Relation.ReflTransGen fun rn rn' ↦ Move sent ok rn rn' ∧ rn'.log.storage = rn.log.storage

/-- The last thing a transition does: nothing, or acting on an append or a snapshot. -/
inductive Finish (sent : Message → Prop) (okLog : RaftLog → Message → Prop) (rn : RawNode) :
    RawNode → Prop
  | keep : Finish sent okLog rn rn
  | accept (m : Message) (hm : sent m) (hty : m.type = .app) (hT : m.term = rn.term)
      (hst : rn.state = .follower) (hprev : rn.matchesPrev m = true) (hok : okLog rn.log m) :
      Finish sent okLog rn
        ({ rn with log := appendedLog rn.log m }.send
          { type := .appResp, dst := m.src, term := rn.term
            index := (appendedLog rn.log m).lastIndex })
  | restore (m : Message) (hm : sent m) (hty : m.type = .snap) (hT : m.term = rn.term)
      (hst : rn.state = .follower) (hnew : rn.log.committed < m.snapshot.metadata.index)
      (hok : okLog rn.log m) : Finish sent okLog rn
        ({ rn with log := (rn.log.restore m.snapshot).1 }.send
          { type := .appResp, dst := m.src, term := rn.term
            index := (rn.log.restore m.snapshot).1.lastIndex })
  | covered (m : Message) (hm : sent m) (hty : m.type = .snap) (hT : m.term = rn.term) :
      Finish sent okLog rn
        (rn.send { type := .appResp, dst := m.src, term := rn.term, index := rn.log.committed })

/-! ## What no move touches -/

/-- The identity of a node and its persisted hard state change only in the `Ready` cycle. -/
structure Frame (rn rn' : RawNode) : Prop where
  id : rn'.id = rn.id
  peers : rn'.peers = rn.peers
  prevHard : rn'.prevHard = rn.prevHard
  hardState : rn'.log.storage.hardState = rn.log.storage.hardState

theorem Frame.refl (rn : RawNode) : Frame rn rn := ⟨rfl, rfl, rfl, rfl⟩

theorem Frame.trans {r₁ r₂ r₃ : RawNode} (h : Frame r₁ r₂) (h' : Frame r₂ r₃) : Frame r₁ r₃ :=
  ⟨h'.id.trans h.id, h'.peers.trans h.peers, h'.prevHard.trans h.prevHard,
    h'.hardState.trans h.hardState⟩

end RawNode

section

variable (l : RaftLog)
include l

theorem RaftLog.commitTo_storage (n : ℕ) : (l.commitTo n).storage = l.storage := by
  rw [l.commitTo_eq]

theorem RaftLog.restore_storage (snap : Snapshot) : (l.restore snap).1.storage = l.storage := by
  rw [restore]
  split <;> rfl

theorem RawNode.appendedLog_storage (m : Message) : (appendedLog l m).storage = l.storage := by
  rw [appendedLog]
  split <;> split <;> simp only [commitTo_storage, append_storage]

theorem RawNode.advanceLog_eq_of (rd : Ready) : (RawNode.advanceLog l rd).storage = l.storage ∧
    (advanceLog l rd).committed = l.committed := by
  have hstable : ∀ (l' : RaftLog) (e : Entry), (l'.stableTo e.index e.term).storage = l'.storage ∧
      (l'.stableTo e.index e.term).committed = l'.committed := by
    intro l' e
    obtain ⟨u, o, heq⟩ := l'.stableTo_eq e.index e.term
    rw [heq]
    exact ⟨rfl, rfl⟩
  rw [advanceLog]
  cases rd.committedEntries.getLast? <;> cases rd.entries.getLast? <;>
    simp only [appliedTo_eq, hstable] <;> split <;> exact ⟨rfl, rfl⟩

end

theorem RawNode.handleReady_storage (rn : RawNode) :
    rn.handleReady.log.storage = rn.log.storage.persist rn.ready :=
  (advanceLog_eq_of _ _).1

theorem RawNode.handleReady_hardState (rn : RawNode) : rn.handleReady.hardState = rn.hardState := by
  have : rn.handleReady.log.committed = rn.log.committed := (advanceLog_eq_of _ _).2
  rw [hardState, this]
  rfl

theorem LSMLogStorage.compact_hardState (s : LSMLogStorage) (n : ℕ) :
    (s.compact n).hardState = s.hardState := by
  rw [compact]
  split <;> rfl

theorem LSMLogStorage.saveSnapshot_hardState (s : LSMLogStorage) (snap : Snapshot) :
    (s.saveSnapshot snap).hardState = s.hardState := by
  rw [saveSnapshot]
  split <;> rfl

namespace RawNode

section Frames

variable {sent : Message → Prop} {ok : RawNode → Message → Prop}
  {okLog : RaftLog → Message → Prop} {rn rn' : RawNode}

/-- A captured snapshot changes the storage, and not the hard state in it. -/
theorem createSnapshot_eq (rn : RawNode) (data : Bytes) :
    ∃ s, rn.createSnapshot data = rn.setStorage s ∧ s.hardState = rn.log.storage.hardState := by
  rw [createSnapshot]
  split
  · exact ⟨_, rfl, rfl⟩
  · split
    · exact ⟨_, rfl, rfl⟩
    · refine ⟨_, rfl, ?_⟩
      exact (compact_hardState _ _).trans (saveSnapshot_hardState _ _)

/-- Only the beginning of a step ends a leadership. -/
theorem Move.leader (h : Move sent ok rn rn') (hst : rn.state = .leader) :
    rn'.state = .leader ∧ rn'.term = rn.term := by
  cases h with
  | preCampaign rnd hne => exact absurd hst hne
  | campaign rnd hne => exact absurd hst hne
  | win hcand hq => exact ⟨rfl, rfl⟩
  | grant m hm hty hT hg hok =>
    rw [grantVote, if_pos hty]
    exact ⟨hst, rfl⟩
  | snapshot data =>
    obtain ⟨s, hs, -⟩ := rn.createSnapshot_eq data
    rw [hs]
    exact ⟨hst, rfl⟩
  | _ => exact ⟨hst, rfl⟩

theorem Finish.leader (h : Finish sent okLog rn rn') (hst : rn.state = .leader) :
    rn'.state = .leader ∧ rn'.term = rn.term := by
  cases h with
  | keep => exact ⟨hst, rfl⟩
  | accept m hm hty hT hf hprev hok => cases hst.symm.trans hf
  | restore m hm hty hT hf hnew hok => cases hst.symm.trans hf
  | covered m hm hty hT => exact ⟨hst, rfl⟩

theorem Begins.frame (h : Begins rn rn') : Frame rn rn' := by
  induction h with
  | refl => exact .refl rn
  | tail _ hb ih =>
    refine ih.trans ?_
    cases hb <;> exact ⟨rfl, rfl, rfl, rfl⟩

theorem Begins.log (h : Begins rn rn') : rn'.log = rn.log := by
  induction h with
  | refl => rfl
  | tail _ hb ih =>
    refine Eq.trans ?_ ih
    cases hb <;> rfl

theorem Move.frame (h : Move sent ok rn rn') : Frame rn rn' := by
  cases h with
  | grant m hm hty hT hg hok =>
    rw [grantVote, if_pos hty]
    exact ⟨rfl, rfl, rfl, rfl⟩
  | win => exact ⟨rfl, rfl, rfl, congrArg _ (append_storage _ _)⟩
  | propose => exact ⟨rfl, rfl, rfl, congrArg _ (append_storage _ _)⟩
  | commit => exact ⟨rfl, rfl, rfl, congrArg _ (commitTo_storage _ _)⟩
  | heartbeat => exact ⟨rfl, rfl, rfl, congrArg _ (commitTo_storage _ _)⟩
  | snapshot data =>
    obtain ⟨s, hs, hard⟩ := rn.createSnapshot_eq data
    rw [hs]
    exact ⟨rfl, rfl, rfl, hard⟩
  | compact => exact ⟨rfl, rfl, rfl, compact_hardState _ _⟩
  | _ => exact ⟨rfl, rfl, rfl, rfl⟩

theorem Moves.frame (h : Moves sent ok rn rn') : Frame rn rn' := by
  induction h with
  | refl => exact .refl rn
  | tail _ hmove ih => exact ih.trans hmove.frame

/-- Only a leader adds entries to its log. -/
theorem Moves.unstable (h : Moves sent ok rn rn') (hu : rn.log.unstable = []) :
    rn'.log.unstable = [] ∨ rn'.state = .leader := by
  induction h with
  | refl => exact .inl hu
  | tail _ hmove ih =>
    rcases ih with ih | hst
    · cases hmove with
      | win => exact .inr rfl
      | grant m hm hty =>
        rw [grantVote, if_pos hty]
        exact .inl ih
      | propose es hst => exact .inr hst
      | commit n hst => exact .inr hst
      | heartbeat =>
        rw [commitTo_eq]
        exact .inl ih
      | snapshot data =>
        obtain ⟨s, hs, -⟩ := createSnapshot_eq _ data
        rw [hs]
        exact .inl ih
      | _ => exact .inl ih
    · exact .inr (hmove.leader hst).1

section

variable (h : Finish sent okLog rn rn')
include h

theorem Finish.storage : rn'.log.storage = rn.log.storage := by
  cases h with
  | accept => exact appendedLog_storage _ _
  | restore => exact restore_storage _ _
  | _ => rfl

theorem Finish.frame : Frame rn rn' := by
  have hst := congrArg LSMLogStorage.hardState h.storage
  cases h <;> exact ⟨rfl, rfl, rfl, hst⟩

theorem Finish.vote :
    rn'.term = rn.term ∧ rn'.votedFor = rn.votedFor ∧ rn'.ballots = rn.ballots := by
  cases h <;> exact ⟨rfl, rfl, rfl⟩

end

end Frames

/-! ## The broadcasts -/

section Broadcast

variable {sent : Message → Prop} {ok : RawNode → Message → Prop} {rn : RawNode}

/-- A loop over the peers is a sequence of moves if each turn is, in states that satisfy `I`. -/
theorem forPeers_moves (I : RawNode → Prop) {f : RawNode → NodeId → RawNode} (h0 : I rn)
    (hf : ∀ r id, I r → QuietMoves sent ok r (f r id) ∧ I (f r id)) :
    QuietMoves sent ok rn (rn.forPeers f) := by
  have key : ∀ (ps : List NodeId) (r : RawNode), I r →
      QuietMoves sent ok r (ps.foldl (fun r id ↦ if id = r.id then r else f r id) r) := by
    intro ps
    induction ps with
    | nil => exact fun r _ ↦ .refl
    | cons id ps ih =>
      intro r hr
      rw [foldl_cons]
      split
      · exact ih r hr
      · exact (hf r id hr).1.trans (ih _ (hf r id hr).2)
  exact key rn.peers rn h0

theorem send_moves {m : Message} (h : rn.Outgoing m) : QuietMoves sent ok rn (rn.send m) :=
  .single ⟨.send m h, rfl⟩

theorem bcastRequestVote_moves (h : rn.state = .candidate) :
    QuietMoves sent ok rn rn.bcastRequestVote :=
  forPeers_moves (fun r ↦ r.state = .candidate) h fun _ id hr ↦ ⟨send_moves (.vote id hr), hr⟩

theorem bcastPreVote_moves : QuietMoves sent ok rn rn.bcastPreVote :=
  forPeers_moves (fun _ ↦ True) trivial fun _ _ _ ↦ ⟨send_moves (.harmless (.inl rfl)), trivial⟩

theorem bcastHeartbeat_moves (h : rn.state = .leader) : QuietMoves sent ok rn rn.bcastHeartbeat :=
  forPeers_moves (fun r ↦ r.state = .leader) h fun _ id hr ↦ ⟨send_moves (.heartbeat id hr), hr⟩

theorem sendAppend_state (rn : RawNode) (dst : NodeId) : (rn.sendAppend dst).state = rn.state := by
  simp only [sendAppend, send]
  split
  · rfl
  · split <;> rfl

theorem sendAppend_log (rn : RawNode) (dst : NodeId) : (rn.sendAppend dst).log = rn.log := by
  simp only [sendAppend, send]
  split
  · rfl
  · split <;> rfl

theorem sendAppend_moves (dst : NodeId) (h : rn.state = .leader) :
    QuietMoves sent ok rn (rn.sendAppend dst) := by
  simp only [sendAppend]
  split
  · rename_i hc
    have hsnap : rn.log.storage.snapshot.isEmpty = false := by
      simp only [and_eq_true, not_eq_true'] at hc
      exact hc.1.2
    exact (send_moves (.snap dst h hsnap)).tail ⟨.setNext dst _ (.inr rfl), rfl⟩
  · split
    · exact .refl
    · rename_i hc
      refine send_moves (.append dst h ?_)
      simpa using hc

theorem bcastAppend_moves (h : rn.state = .leader) : QuietMoves sent ok rn rn.bcastAppend :=
  forPeers_moves (fun r ↦ r.state = .leader) h fun r id hr ↦
    ⟨sendAppend_moves id hr, (sendAppend_state r id).trans hr⟩

end Broadcast

/-! ## Elections and the commit index -/

section Elections

variable {sent : Message → Prop} {ok : RawNode → Message → Prop} {rn : RawNode}

theorem advanceCommitFrom_moves (h : rn.state = .leader) :
    ∀ n ≤ rn.log.lastIndex, QuietMoves sent ok rn (rn.advanceCommitFrom n)
  | 0, _ => .refl
  | n + 1, hn => by
    rw [advanceCommitFrom]
    split
    · rename_i hc
      split
      · exact .refl
      · rename_i t ht
        split
        · exact .refl
        · rename_i hne
          split
          · rename_i hq
            exact .single ⟨.commit (n + 1) h hn hc (by rw [ht, not_ne_iff.mp hne]) hq,
              commitTo_storage _ _⟩
          · exact advanceCommitFrom_moves h n (by omega)
    · exact .refl

theorem maybeAdvanceCommit_moves (h : rn.state = .leader) :
    QuietMoves sent ok rn rn.maybeAdvanceCommit :=
  advanceCommitFrom_moves h _ le_rfl

/-- Only the commit index moves, and not beyond `n`. -/
theorem advanceCommitFrom_eq_commitTo : ∀ n, ∃ k ≤ n,
    rn.advanceCommitFrom n = { rn with log := rn.log.commitTo k }
  | 0 => ⟨0, le_rfl, rfl⟩
  | n + 1 => by
    have hstay : rn = { rn with log := rn.log.commitTo 0 } := rfl
    rw [advanceCommitFrom]
    split
    · split
      · exact ⟨0, zero_le _, hstay⟩
      · split
        · exact ⟨0, zero_le _, hstay⟩
        · split
          · exact ⟨n + 1, le_rfl, rfl⟩
          · obtain ⟨k, hk, heq⟩ := advanceCommitFrom_eq_commitTo n
            exact ⟨k, hk.trans (le_succ n), heq⟩
    · exact ⟨0, zero_le _, hstay⟩

theorem advanceCommitFrom_state (n : ℕ) : (rn.advanceCommitFrom n).state = rn.state := by
  obtain ⟨k, -, heq⟩ := rn.advanceCommitFrom_eq_commitTo n
  rw [heq]

theorem becomeLeader_moves (hst : rn.state = .candidate) (hq : rn.quorum ≤ rn.tallyVotes) :
    QuietMoves sent ok rn rn.becomeLeader := by
  have hcommit : QuietMoves sent ok rn.initLeader rn.initLeader.maybeAdvanceCommit :=
    maybeAdvanceCommit_moves rfl
  have hlead : rn.initLeader.maybeAdvanceCommit.state = .leader := advanceCommitFrom_state _
  exact .head ⟨.win hst hq, append_storage _ _⟩ (hcommit.trans (bcastAppend_moves hlead))

variable (rnd : ℕ)

theorem campaignVote_moves (hst : rn.state ≠ .leader) :
    QuietMoves sent ok rn (rn.campaignVote rnd) := by
  rw [campaignVote]
  refine .head ⟨.campaign rnd hst, rfl⟩ ?_
  split
  · rename_i hq
    exact becomeLeader_moves rfl hq
  · exact bcastRequestVote_moves rfl

theorem campaign_moves (pre : Bool) (hst : rn.state ≠ .leader) :
    QuietMoves sent ok rn (rn.campaign rnd pre) := by
  rw [campaign]
  split
  · refine .head ⟨.preCampaign rnd hst, rfl⟩ ?_
    dsimp only
    split
    · exact campaignVote_moves rnd (by simp [becomePreCandidate])
    · exact bcastPreVote_moves
  · exact campaignVote_moves rnd hst

theorem hup_moves : QuietMoves sent ok rn (rn.hup rnd) := by
  rw [hup]
  split
  · exact .refl
  · rename_i hst
    exact campaign_moves rnd _ hst

theorem timers_moves (rn' : RawNode) (h : rn' = { rn with
      leadID := rn'.leadID, recentActive := rn'.recentActive
      electionElapsed := rn'.electionElapsed, heartbeatElapsed := rn'.heartbeatElapsed
      electionTimeout := rn'.electionTimeout }) : QuietMoves sent ok rn rn' := by
  rw [h]
  exact .single ⟨.timers _ _ _ _ _, rfl⟩

theorem step_of_term_zero {rnd : ℕ} {m : Message} (hT : m.term = 0) :
    rn.step rnd m = rn.dispatch rnd m := by
  rw [step, handleTerm, if_neg (by omega)]

/-- What `Tick` does: a leader looks for its quorum, may step down, and if it leads on it counts or
sends its heartbeats; the others count, or campaign. -/
theorem tick_rule {P Q : RawNode → Prop} {rnd : ℕ}
    (hquorum : ∀ recent e, Q { rn with recentActive := recent, electionElapsed := e })
    (hdown : ∀ recent, Q ({ rn with recentActive := recent, electionElapsed := 0 }.becomeFollower
      rnd rn.term noneId))
    (hcount : ∀ r n, Q r → P { r with heartbeatElapsed := n })
    (hbeat : ∀ r, Q r → r.state = .leader → P { r with heartbeatElapsed := 0 }.bcastHeartbeat)
    (hwait : ∀ e, P { rn with electionElapsed := e })
    (hhup : P ({ rn with electionElapsed := 0 }.hup rnd)) : P (rn.tick rnd) := by
  -- the second half of a leader's tick
  have hlead : ∀ r : RawNode, Q r → P (if r.state ≠ .leader then r
        else if r.heartbeatElapsed + 1 ≥ heartbeatTimeout then
          { r with heartbeatElapsed := 0 }.step rnd { type := .beat, src := r.id, dst := r.id }
        else { r with heartbeatElapsed := r.heartbeatElapsed + 1 }) := by
    intro r hr
    split
    · exact hcount r r.heartbeatElapsed hr
    · rename_i hst
      have hst := not_ne_iff.mp hst
      split
      · rw [step_of_term_zero rfl]
        dsimp only [dispatch]
        rw [if_pos hst]
        exact hbeat r hr hst
      · exact hcount r _ hr
  rw [tick]
  split
  · refine hlead _ ?_
    split
    · dsimp only [maybeStepDownOnQuorumLoss]
      split
      · split
        · exact hdown _
        · exact hquorum _ _
      · exact hquorum _ _
    · exact hquorum _ _
  · dsimp only
    split
    · rw [step_of_term_zero rfl]
      exact hhup
    · exact hwait _

theorem tick_quietMoves : ∃ rn₀, Begins rn rn₀ ∧ QuietMoves sent ok rn₀ (rn.tick rnd) := by
  refine tick_rule (Q := Begins rn) (P := fun r ↦ ∃ rn₀, Begins rn rn₀ ∧ QuietMoves sent ok rn₀ r)
    (fun _ _ ↦ .single (.timers _ _ _ _ _)) (fun _ ↦ ?_) (fun r _ hr ↦ ⟨r, hr, timers_moves _ rfl⟩)
    (fun r hr hst ↦ ⟨r, hr, ?_⟩) (fun _ ↦ ⟨rn, .refl, timers_moves _ rfl⟩) ⟨rn, .refl, ?_⟩
  · exact .tail (.single (.timers _ _ _ _ _)) (.follow rnd _ _ le_rfl)
  · exact (timers_moves _ rfl).trans (bcastHeartbeat_moves hst)
  · exact (timers_moves _ rfl).trans (hup_moves rnd)

end Elections

/-! ## `Step` -/

section Step

variable {sent : Message → Prop} {ok : RawNode → Message → Prop}
  {okLog : RaftLog → Message → Prop} {rn : RawNode} {m : Message} {rnd : ℕ}

section

variable {rn₁ : RawNode} (h : rn.handleTerm rnd m = some rn₁)
include h

/-- The node after the term handling of `Step`. -/
theorem handleTerm_cases :
    rn₁ = rn ∧ (m.term ≤ rn.term ∨ m.type = .preVote ∨ m.type = .preVoteResp) ∨
      rn.term < m.term ∧
        rn₁ = rn.becomeFollower rnd m.term (if m.type = .vote then noneId else m.src) := by
  rw [handleTerm] at h
  split at h <;> rename_i hT
  · split at h
    · cases h
    · split at h
      · rename_i hty
        cases h
        exact .inl ⟨rfl, .inr (.inl hty)⟩
      · split at h
        · rename_i hty
          cases h
          exact .inl ⟨rfl, .inr (.inr hty.1)⟩
        · cases h
          exact .inr ⟨hT, rfl⟩
  · cases h
    exact .inl ⟨rfl, .inl (not_lt.mp hT)⟩

theorem handleTerm_begins : Begins rn rn₁ := by
  rcases handleTerm_cases h with ⟨rfl, -⟩ | ⟨hT, rfl⟩
  · exact .refl
  · exact .single (.follow rnd _ _ hT.le)

/-- After the term handling only probes can be ahead of the node's term. -/
theorem handleTerm_le (h₁ : m.type ≠ .preVote) (h₂ : m.type ≠ .preVoteResp) :
    m.term ≤ rn₁.term := by
  rcases handleTerm_cases h with ⟨rfl, hT | hty | hty⟩ | ⟨-, rfl⟩
  · exact hT
  · exact absurd hty h₁
  · exact absurd hty h₂
  · exact le_rfl

theorem handleTerm_log : rn₁.log = rn.log := by
  rcases handleTerm_cases h with ⟨rfl, -⟩ | ⟨-, rfl⟩ <;> rfl

end

theorem harmless_reject {t : MessageType} (h : t = .preVote ∨ t = .vote) (d : NodeId) (T : ℕ) :
    Message.Harmless { type := voteRespType t, dst := d, term := T, reject := true } := by
  rcases h with rfl | rfl
  · exact .inr (.inl rfl)
  · exact .inr (.inr (.inr (.inl ⟨rfl, rfl⟩)))

theorem stepVote_moves (hm : sent m) (hty : m.type = .vote ∨ m.type = .preVote)
    (hT : m.type = .vote → m.term ≤ rn.term) (hok : ok rn m) :
    QuietMoves sent ok rn (rn.stepVote m) := by
  rw [stepVote]
  split
  · rename_i hg
    rcases hty with hty | hty
    · have hge : rn.term ≤ m.term := by
        rw [canGrant] at hg
        simp only [and_eq_true, decide_eq_true_eq] at hg
        exact hg.1.1
      refine .single ⟨.grant m hm hty (le_antisymm (hT hty) hge) hg hok, ?_⟩
      rw [grantVote, if_pos hty]
      rfl
    · rw [grantVote, if_neg (by rw [hty]; decide), voteRespType, if_pos hty]
      exact send_moves (.harmless (.inr (.inl rfl)))
  · exact send_moves (.harmless (harmless_reject hty.symm _ _))

theorem stepVoteResp_moves (hm : sent m) (hty : m.type = .voteResp) (hT : m.term ≤ rn.term)
    (hok : ok rn m) : QuietMoves sent ok rn (rn.stepVoteResp m) := by
  rw [stepVoteResp]
  split
  · exact .refl
  · rename_i hst
    refine .head ⟨.countVote m hm hty (not_ne_iff.mp hst) hT hok, rfl⟩ ?_
    dsimp only
    split
    · rename_i hq
      exact becomeLeader_moves (not_ne_iff.mp hst) hq
    · exact .refl

theorem stepPreVoteResp_moves : QuietMoves sent ok rn (rn.stepPreVoteResp rnd m) := by
  rw [stepPreVoteResp]
  split
  · exact .refl
  · rename_i hst
    have hst := not_ne_iff.mp hst
    refine .head ⟨.countPreVote m.src (!m.reject) hst, rfl⟩ ?_
    dsimp only
    split
    · exact campaign_moves rnd false (by simp [hst])
    · exact .refl

theorem forPeers_keeps {β : Type} (g : RawNode → β) {f : RawNode → NodeId → RawNode}
    (hf : ∀ (r : RawNode) id, g (f r id) = g r) : g (rn.forPeers f) = g rn := by
  have key : ∀ (ps : List NodeId) (r : RawNode),
      g (ps.foldl (fun r id ↦ if id = r.id then r else f r id) r) = g r := by
    intro ps
    induction ps with
    | nil => exact fun _ ↦ rfl
    | cons id ps ih =>
      intro r
      rw [foldl_cons, ih]
      split
      · rfl
      · exact hf r id
  exact key rn.peers rn

theorem stepProp_moves : QuietMoves sent ok rn (rn.stepProp m) := by
  rw [stepProp]
  split
  · exact .refl
  · rename_i hst
    have hst := not_ne_iff.mp hst
    refine .head ⟨.propose m.entries hst, append_storage _ _⟩ ?_
    refine Relation.ReflTransGen.trans (bcastAppend_moves (by exact hst)) ?_
    exact maybeAdvanceCommit_moves ((forPeers_keeps state sendAppend_state).trans hst)

theorem backedUp_le (next hint : ℕ) : backedUp next hint ≤ next := by
  rw [backedUp]
  split
  · omega
  · split <;> omega

theorem stepAppResp_moves (hm : sent m) (hty : m.type = .appResp) (hT : m.term ≤ rn.term)
    (hok : ok rn m) : QuietMoves sent ok rn (rn.stepAppResp m) := by
  rw [stepAppResp]
  split
  · exact .refl
  · rename_i hst
    have hst := not_ne_iff.mp hst
    dsimp only
    split
    · refine (timers_moves { rn with recentActive := rn.recentActive.insert m.src true } rfl).trans
        (.head ⟨.setNext m.src _ (.inl (backedUp_le _ m.rejectHint)), rfl⟩ ?_)
      exact sendAppend_moves m.src hst
    · rename_i hr
      split
      · refine .head ⟨.progress m hm hty (not_eq_true _ ▸ hr) hst hT hok, rfl⟩ ?_
        exact (timers_moves _ rfl).trans (maybeAdvanceCommit_moves hst)
      · exact (timers_moves _ rfl).trans (maybeAdvanceCommit_moves hst)

theorem stepHeartbeat_moves (hm : sent m) (hty : m.type = .heartbeat) (hT : m.term ≤ rn.term) :
    QuietMoves sent ok rn (rn.stepHeartbeat m) := by
  have hresp : ∀ r : RawNode, QuietMoves sent ok r
      (r.send { type := .heartbeatResp, dst := m.src, term := r.term }) := fun r ↦
    send_moves (.harmless (.inr (.inr (.inl rfl))))
  rw [stepHeartbeat]
  split
  · rename_i hge
    refine Relation.ReflTransGen.trans ?_ (hresp _)
    exact .head ⟨.heartbeat m hm hty (le_antisymm hT hge),
      commitTo_storage _ _⟩ (timers_moves _ rfl)
  · exact hresp _

theorem stepHeartbeatResp_moves : QuietMoves sent ok rn (rn.stepHeartbeatResp m) := by
  rw [stepHeartbeatResp]
  split
  · rename_i hst
    dsimp only
    refine (timers_moves { rn with recentActive := rn.recentActive.insert m.src true } rfl).trans ?_
    split
    · exact sendAppend_moves m.src hst
    · exact .refl
  · exact .refl

theorem rejectAppend_moves : QuietMoves sent ok rn (rn.rejectAppend m) :=
  send_moves (.harmless (.inr (.inr (.inr (.inr ⟨rfl, rfl⟩)))))

theorem stepApp_moves (hm : sent m) (hty : m.type = .app) (hok : okLog rn.log m) :
    ∃ rn₀ rn₁, Begins rn rn₀ ∧ QuietMoves sent ok rn₀ rn₁ ∧
      Finish sent okLog rn₁ (rn.stepApp rnd m) := by
  rw [stepApp]
  split
  · exact ⟨rn, _, .refl, rejectAppend_moves, .keep⟩
  · rename_i hge
    dsimp only
    have hfollow : Begins rn (rn.becomeFollower rnd m.term m.src) :=
      .single (.follow rnd _ _ (not_lt.mp hge))
    split
    · exact ⟨_, _, hfollow, rejectAppend_moves, .keep⟩
    · rename_i hprev
      refine ⟨_, _, hfollow, .refl, .accept m hm hty rfl rfl ?_ hok⟩
      simpa using hprev

theorem stepSnap_moves (hm : sent m) (hty : m.type = .snap) (hok : okLog rn.log m) :
    ∃ rn₀ rn₁, Begins rn rn₀ ∧ QuietMoves sent ok rn₀ rn₁ ∧
      Finish sent okLog rn₁ (rn.stepSnap rnd m) := by
  rw [stepSnap]
  split
  · exact ⟨rn, _, .refl, rejectAppend_moves, .keep⟩
  · rename_i hge
    refine ⟨_, _, .single (.follow rnd m.term m.src (not_lt.mp hge)), .refl, ?_⟩
    dsimp only
    by_cases hnew : m.snapshot.metadata.index ≤ rn.log.committed
    · have : (rn.becomeFollower rnd m.term m.src).log.restore m.snapshot = (rn.log, false) := by
        exact if_pos hnew
      rw [this]
      exact .covered m hm hty rfl
    · have : (rn.becomeFollower rnd m.term m.src).log.restore m.snapshot =
          ((rn.log.restore m.snapshot).1, true) := by
        rw [restore, restore, if_neg hnew]
        exact if_neg hnew
      rw [this]
      exact .restore m hm hty rfl rfl (not_le.mp hnew) hok

/-- **`Step` is a sequence of moves** and a finish, provided the conditions hold of the node as it
is after the term handling. -/
theorem step_quietMoves (hm : sent m) (hok : ∀ rn₁, rn.handleTerm rnd m = some rn₁ → ok rn₁ m)
    (hokLog : okLog rn.log m) :
    ∃ rn₀ rn₁, Begins rn rn₀ ∧ QuietMoves sent ok rn₀ rn₁ ∧
      Finish sent okLog rn₁ (rn.step rnd m) := by
  rw [step]
  cases h : rn.handleTerm rnd m with
  | none => exact ⟨rn, rn, .refl, .refl, .keep⟩
  | some rn₁ =>
    have hbegins : Begins rn rn₁ := handleTerm_begins h
    have hle := handleTerm_le h
    have hok₁ := hok rn₁ h
    have hokLog₁ : okLog rn₁.log m := by rwa [handleTerm_log h]
    -- all cases but two are moves only
    suffices hd : QuietMoves sent ok rn₁ (rn₁.dispatch rnd m) ∨
        ∃ rn₂ rn₃, Begins rn₁ rn₂ ∧ QuietMoves sent ok rn₂ rn₃ ∧
          Finish sent okLog rn₃ (rn₁.dispatch rnd m) by
      rcases hd with hd | ⟨rn₂, rn₃, hb, hd, hf⟩
      · exact ⟨rn₁, _, hbegins, hd, .keep⟩
      · exact ⟨rn₂, rn₃, hbegins.trans hb, hd, hf⟩
    cases hty : m.type <;> simp only [dispatch, hty, ne_eq, reduceCtorEq, not_false_eq_true,
      forall_const] at hle ⊢
    case hup => exact .inl (hup_moves rnd)
    case beat =>
      left
      split
      · rename_i hst
        exact bcastHeartbeat_moves hst
      · exact .refl
    case vote => exact .inl (stepVote_moves hm (.inl hty) (fun _ ↦ hle) hok₁)
    case preVote =>
      exact .inl (stepVote_moves hm (.inr hty) (fun h ↦ by rw [hty] at h; cases h) hok₁)
    case voteResp => exact .inl (stepVoteResp_moves hm hty hle hok₁)
    case preVoteResp => exact .inl stepPreVoteResp_moves
    case prop => exact .inl stepProp_moves
    case app => exact .inr (stepApp_moves hm hty hokLog₁)
    case appResp => exact .inl (stepAppResp_moves hm hty hle hok₁)
    case heartbeat => exact .inl (stepHeartbeat_moves hm hty hle)
    case heartbeatResp => exact .inl stepHeartbeatResp_moves
    case snap => exact .inr (stepSnap_moves hm hty hokLog₁)

theorem QuietMoves.moves {rn' : RawNode} (h : QuietMoves sent ok rn rn') :
    Moves sent ok rn rn' := by
  induction h with
  | refl => exact .refl
  | tail _ hm ih => exact ih.tail hm.1

theorem QuietMoves.storage {rn' : RawNode} (h : QuietMoves sent ok rn rn') :
    rn'.log.storage = rn.log.storage := by
  induction h with
  | refl => rfl
  | tail _ hm ih => exact hm.2.trans ih

theorem tick_moves (rnd : ℕ) : ∃ rn₀, Begins rn rn₀ ∧ Moves sent ok rn₀ (rn.tick rnd) := by
  obtain ⟨rn₀, hb, hq⟩ : ∃ rn₀, Begins rn rn₀ ∧ QuietMoves sent ok rn₀ _ := tick_quietMoves rnd
  exact ⟨rn₀, hb, hq.moves⟩

theorem step_moves (hm : sent m) (hok : ∀ rn₁, rn.handleTerm rnd m = some rn₁ → ok rn₁ m)
    (hokLog : okLog rn.log m) :
    ∃ rn₀ rn₁, Begins rn rn₀ ∧ Moves sent ok rn₀ rn₁ ∧ Finish sent okLog rn₁ (rn.step rnd m) := by
  obtain ⟨rn₀, rn₁, hb, hq, hf⟩ := step_quietMoves hm hok hokLog
  exact ⟨rn₀, rn₁, hb, hq.moves, hf⟩

theorem tick_storage (rn : RawNode) (rnd : ℕ) : (rn.tick rnd).log.storage = rn.log.storage := by
  obtain ⟨rn₀, hb, hq⟩ : ∃ rn₀, Begins rn rn₀ ∧ QuietMoves (fun _ ↦ True) (fun _ _ ↦ True) rn₀ _ :=
    tick_quietMoves rnd
  rw [hq.storage, Begins.log hb]

/-- Only the `Ready` cycle writes. -/
theorem step_storage (rn : RawNode) (rnd : ℕ) (m : Message) :
    (rn.step rnd m).log.storage = rn.log.storage := by
  obtain ⟨rn₀, rn₁, hb, hq, hf⟩ : ∃ rn₀ rn₁, Begins rn rn₀ ∧
      QuietMoves (fun _ ↦ True) (fun _ _ ↦ True) rn₀ rn₁ ∧
        Finish (fun _ ↦ True) (fun _ _ ↦ True) rn₁ (rn.step rnd m) :=
    step_quietMoves trivial (fun _ _ ↦ trivial) trivial
  rw [hf.storage, hq.storage, Begins.log hb]

/-- `Propose` is `Step` on a message of the node's own. -/
theorem propose_eq (rn : RawNode) (rnd : ℕ) (data : Option Bytes) : rn.propose rnd data =
    rn.stepProp { type := .prop, src := rn.id, dst := rn.id, entries := [{ data := data }] } := by
  simp [propose, step, handleTerm, dispatch]

theorem propose_moves (data : Option Bytes) : Moves sent ok rn (rn.propose rnd data) := by
  rw [propose_eq]
  exact stepProp_moves.moves

end Step

end RawNode

theorem propEntries_getElem? (rn : RawNode) (es : List Entry) {i : ℕ} {x : Entry}
    (hx : (rn.propEntries es)[i]? = some x) :
    x.term = rn.term ∧ x.index = rn.log.lastIndex + i + 1 := by
  rw [propEntries, getElem?_mapIdx] at hx
  obtain ⟨e, -, rfl⟩ := Option.map_eq_some_iff.mp hx
  exact ⟨rfl, rfl⟩

theorem compactableIndex_le (rn : RawNode) (n : ℕ) : rn.compactableIndex n ≤ n := by
  have key : ∀ (ps : List NodeId) (k : ℕ), k ≤ n →
      ps.foldl (fun safe id ↦ if id = rn.id then safe else min (rn.matchIndex.get id 0) safe) k ≤
      n := by
    intro ps
    induction ps with
    | nil => exact fun k hk ↦ hk
    | cons i ps ih =>
      intro k hk
      rw [foldl_cons]
      split
      · exact ih k hk
      · exact ih _ ((min_le_right _ _).trans hk)
  rw [compactableIndex]
  split
  · exact le_rfl
  · exact key rn.peers n le_rfl

/-- **Every event of a cluster is a sequence of moves and a finish.** -/
theorem Action.apply_moves {sent : Message → Prop} {ok : RawNode → Message → Prop}
    {okLog : RaftLog → Message → Prop} {rn : RawNode} (a : Action)
    (hsent : ∀ m rnd, a = .deliver m rnd → sent m)
    (hok : ∀ m rnd, a = .deliver m rnd → ∀ rn₁, rn.handleTerm rnd m = some rn₁ → ok rn₁ m)
    (hokLog : ∀ m rnd, a = .deliver m rnd → okLog rn.log m) :
    ∃ rn₀ rn₁, RawNode.Begins rn rn₀ ∧ RawNode.Moves sent ok rn₀ rn₁ ∧
      RawNode.Finish sent okLog rn₁ (a.apply rn) := by
  cases a with
  | tick id rnd =>
    obtain ⟨rn₀, hb, hm⟩ : ∃ rn₀, RawNode.Begins rn rn₀ ∧ RawNode.Moves sent ok rn₀ (rn.tick rnd) :=
      tick_moves rnd
    exact ⟨rn₀, _, hb, hm, .keep⟩
  | propose id data rnd => exact ⟨rn, _, .refl, propose_moves data, .keep⟩
  | deliver m rnd =>
    exact step_moves (hsent m rnd rfl) (hok m rnd rfl) (hokLog m rnd rfl)
  | snapshot id data => exact ⟨rn, _, .refl, .single (.snapshot data), .keep⟩
  | compact id => exact ⟨rn, _, .refl, .single .compact, .keep⟩

end DucklingDB.Raft
