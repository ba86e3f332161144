import DucklingDB.Raft.Shape

/-!
# Messages of an earlier term

`Step` has no common check for messages that a peer sent in an earlier term. Vote requests, appends,
heartbeats and snapshots are compared with the term of the node, and are answered and otherwise
ignored. The four kinds of responses are not: a response of an earlier term is used in the present
one, and has no effect only if it says what is known already (`Redundant`).
-/

namespace DucklingDB.Raft

open GoMap

/-- Messages of the other types are internal. -/
def MessageType.fromPeer : MessageType → Bool
  | .hup | .beat | .prop => false
  | _ => true

namespace RawNode

open AList (insert lookup)

/-- Nothing has happened to the node, except that it may have sent a reply. -/
structure Inert (rn : RawNode) (m : Message) (rn' : RawNode) : Prop where
  term : rn'.term = rn.term
  votedFor : rn'.votedFor = rn.votedFor
  state : rn'.state = rn.state
  leadID : rn'.leadID = rn.leadID
  votes : ∀ id, lookup id rn'.votes = lookup id rn.votes
  log : rn'.log = rn.log
  nextIndex : ∀ id, lookup id rn'.nextIndex = lookup id rn.nextIndex
  matchIndex : ∀ id, lookup id rn'.matchIndex = lookup id rn.matchIndex
  recentActive : ∀ id, lookup id rn'.recentActive = lookup id rn.recentActive
  msgs : rn'.msgs = rn.msgs ∨ ∃ reply : Message, reply.dst = m.src ∧ rn'.msgs = rn.msgs ++ [reply]

variable {rn rn' : RawNode} {rnd : ℕ} {m : Message}

theorem Inert.refl (rn : RawNode) (m : Message) : Inert rn m rn :=
  ⟨rfl, rfl, rfl, rfl, fun _ ↦ rfl, rfl, fun _ ↦ rfl, fun _ ↦ rfl, fun _ ↦ rfl, .inl rfl⟩

theorem inert_send {reply : Message} (h : reply.dst = m.src) : Inert rn m (rn.send reply) :=
  { Inert.refl rn m with msgs := .inr ⟨{ reply with src := rn.id }, h, rfl⟩ }

/-! ## Requests -/

section

variable (hT : m.term < rn.term)
include hT

theorem stepVote_inert : Inert rn m (rn.stepVote m) := by
  have hno : rn.canGrant m = false := by simp [canGrant, hT]
  rw [stepVote, hno]
  exact inert_send rfl

theorem stepApp_inert : Inert rn m (rn.stepApp rnd m) := by
  rw [stepApp, if_pos hT]
  exact inert_send rfl

theorem stepSnap_inert : Inert rn m (rn.stepSnap rnd m) := by
  rw [stepSnap, if_pos hT]
  exact inert_send rfl

theorem stepHeartbeat_inert : Inert rn m (rn.stepHeartbeat m) := by
  simp only [stepHeartbeat, ge_iff_le, not_le.mpr hT, if_false]
  exact inert_send rfl

end

/-! ## Votes -/

/-- A response is dropped by a node that does not wait for it. -/
theorem inert_ite_iff {P Q : Prop} [Decidable P] {rn' : RawNode} (h : P → (Inert rn m rn' ↔ Q)) :
    Inert rn m (if ¬P then rn else rn') ↔ (P → Q) := by
  by_cases hP : P
  · rw [if_neg (not_not.mpr hP), h hP]
    exact ⟨fun hQ _ ↦ hQ, fun hQ ↦ hQ hP⟩
  · rw [if_pos hP]
    exact ⟨fun _ h ↦ absurd h hP, fun _ ↦ .refl rn m⟩

/-- The vote has been counted, and the election is not won. -/
def VoteCounted (rn : RawNode) (m : Message) : Prop :=
  lookup m.src rn.votes = some (!m.reject) ∧ rn.tallyVotes < rn.quorum

/-- Counting a vote, where winning the election is a change of the state. -/
theorem countVote_inert_iff (won : RawNode → RawNode) (hwon : ∀ r, (won r).state ≠ rn.state) :
    Inert rn m (let rn := { rn with votes := insert m.src (!m.reject) rn.votes }
        if rn.tallyVotes ≥ rn.quorum then won rn else rn) ↔ VoteCounted rn m := by
  have htally : lookup m.src rn.votes = some (!m.reject) →
      tallyVotes { rn with votes := insert m.src (!m.reject) rn.votes } = rn.tallyVotes := fun h ↦
    countValues_congr (lookup_insert_eq_iff.mpr h) _
  dsimp only
  constructor
  · intro h
    split at h
    · exact absurd h.state (hwon _)
    · rename_i hlt
      have hvote := lookup_insert_eq_iff.mp h.votes
      rw [htally hvote] at hlt
      exact ⟨hvote, not_le.mp hlt⟩
  · rintro ⟨hvote, hlt⟩
    rw [if_neg (by rw [htally hvote]; exact not_le.mpr hlt)]
    exact { Inert.refl rn m with votes := lookup_insert_eq_iff.mpr hvote }

theorem becomeLeader_state (rn : RawNode) : rn.becomeLeader.state = .leader := by
  rw [becomeLeader, bcastAppend, forPeers_keeps RawNode.state sendAppend_state]
  exact advanceCommitFrom_state _

theorem campaignVote_state (rn : RawNode) (rnd : ℕ) :
    (rn.campaignVote rnd).state ≠ .preCandidate := by
  rw [campaignVote]
  split
  · rw [becomeLeader_state]
    simp
  · have hkeep : (rn.becomeCandidate rnd).bcastRequestVote.state = .candidate :=
      forPeers_keeps RawNode.state fun _ _ ↦ rfl
    rw [hkeep]
    simp

theorem stepVoteResp_inert_iff :
    Inert rn m (rn.stepVoteResp m) ↔ (rn.state = .candidate → VoteCounted rn m) := by
  refine inert_ite_iff fun hst ↦ countVote_inert_iff becomeLeader fun r ↦ ?_
  rw [becomeLeader_state, hst]
  simp

theorem stepPreVoteResp_inert_iff :
    Inert rn m (rn.stepPreVoteResp rnd m) ↔ (rn.state = .preCandidate → VoteCounted rn m) := by
  refine inert_ite_iff fun hst ↦ countVote_inert_iff (campaign · rnd false) fun r ↦ ?_
  rw [campaign, if_neg (by simp), hst]
  exact campaignVote_state r rnd

/-! ## Progress -/

/-- `sendAppend` would ship the snapshot to a peer with this `nextIndex`. -/
def shipsSnapshot (rn : RawNode) (dst : NodeId) (next : ℕ) : Bool :=
  let compacted : Bool := next < rn.log.firstIndex
  let farBehind : Bool := rn.log.lastIndex > rn.matchIndex.get dst 0 + snapshotCatchupGap
  let snap := rn.log.storage.snapshot
  (compacted || farBehind) && !snap.isEmpty &&
    (compacted || snap.metadata.index > rn.matchIndex.get dst 0)

/-- Where `sendAppend` leaves the `nextIndex` of a peer. -/
def nextAfterSend (rn : RawNode) (dst : NodeId) (next : ℕ) : ℕ :=
  if rn.shipsSnapshot dst next then rn.log.storage.snapshot.metadata.index + 1 else next

/-- `sendAppend` sends one message at most, and sets `nextIndex` if it ships the snapshot. -/
theorem sendAppend_cases (rn : RawNode) (dst : NodeId) : ∃ sent : List Message,
    (sent = [] ∨ ∃ reply : Message, reply.dst = dst ∧ sent = [reply]) ∧
    rn.sendAppend dst = { rn with
      msgs := rn.msgs ++ sent
      nextIndex := if rn.shipsSnapshot dst (rn.nextIndex.get dst 0) then
        insert dst (rn.log.storage.snapshot.metadata.index + 1) rn.nextIndex
          else rn.nextIndex } := by
  rw [sendAppend, shipsSnapshot]
  split
  · exact ⟨[_], .inr ⟨_, rfl, rfl⟩, rfl⟩
  · split
    · exact ⟨[], .inl rfl, by rw [List.append_nil]⟩
    · exact ⟨[_], .inr ⟨_, rfl, rfl⟩, rfl⟩

/-- The commit index does not depend on which peers are active, and nothing else changes. -/
theorem advanceCommitFrom_eq (rn : RawNode) (active : GoMap NodeId Bool) (n : ℕ) :
    advanceCommitFrom { rn with recentActive := active } n =
      { rn with recentActive := active, log := (rn.advanceCommitFrom n).log } := by
  induction n with
  | zero => rfl
  | succ n ih =>
    by_cases hc : n + 1 > rn.log.committed
    · cases ht : rn.log.term (n + 1) with
      | error err => simp only [advanceCommitFrom, hc, ht, if_true]
      | ok t =>
        by_cases hne : t ≠ rn.term
        · simp only [advanceCommitFrom, hc, ht, if_pos hne, if_true]
        · by_cases hq : rn.matchIndex.countValues (fun idx ↦ decide (idx ≥ n + 1)) ≥ rn.quorum
          · have hq' : rn.matchIndex.countValues (fun idx ↦ decide (idx ≥ n + 1)) ≥
                quorum { rn with recentActive := active } := hq
            simp only [advanceCommitFrom, hc, ht, hne, hq, hq', if_true, if_false]
          · have hq' : ¬ rn.matchIndex.countValues (fun idx ↦ decide (idx ≥ n + 1)) ≥
                quorum { rn with recentActive := active } := hq
            simp only [advanceCommitFrom, hc, ht, hne, hq, hq', if_true, if_false, ih]
    · simp only [advanceCommitFrom, hc, if_false]

theorem maybeAdvanceCommit_eq (rn : RawNode) (active : GoMap NodeId Bool) :
    maybeAdvanceCommit { rn with recentActive := active } =
      { rn with recentActive := active, log := rn.maybeAdvanceCommit.log } :=
  advanceCommitFrom_eq rn active _

theorem sendAppend_inert_iff {active : GoMap NodeId Bool} {next : GoMap NodeId ℕ} :
    Inert rn m (sendAppend { rn with recentActive := active, nextIndex := next } m.src) ↔
      (∀ id, lookup id active = lookup id rn.recentActive) ∧
      ∀ id, lookup id (if rn.shipsSnapshot m.src (next.get m.src 0) then
        insert m.src (rn.log.storage.snapshot.metadata.index + 1) next else next) =
          lookup id rn.nextIndex := by
  obtain ⟨sent, hsent, heq⟩ :=
    sendAppend_cases { rn with recentActive := active, nextIndex := next } m.src
  rw [heq]
  refine ⟨fun h ↦ ⟨h.recentActive, h.nextIndex⟩, fun h ↦ ?_⟩
  refine { Inert.refl rn m with recentActive := h.1, nextIndex := h.2, msgs := ?_ }
  rcases hsent with rfl | ⟨reply, hreply, rfl⟩
  · exact .inl (List.append_nil _)
  · exact .inr ⟨reply, hreply, rfl⟩

/-- No quorum has an index between the commit index and `last` from which on all entries up to
`last` are of the node's term. -/
def NothingToCommit (rn : RawNode) (last : ℕ) : Prop :=
  ∀ n, rn.log.committed < n → n ≤ last →
    (∀ i, n ≤ i → i ≤ last → rn.log.term i = .ok rn.term) →
      rn.matchIndex.countValues (fun idx ↦ decide (idx ≥ n)) < rn.quorum

theorem nothingToCommit_succ {last : ℕ} (hterm : rn.log.term (last + 1) = .ok rn.term)
    (hq : rn.matchIndex.countValues (fun idx ↦ decide (idx ≥ last + 1)) < rn.quorum) :
    NothingToCommit rn (last + 1) ↔ NothingToCommit rn last := by
  constructor
  · intro h n hn hle hown
    refine h n hn (hle.trans (Nat.le_succ _)) fun i hge hi ↦ ?_
    rcases hi.eq_or_lt with rfl | hi
    · exact hterm
    · exact hown i hge (Nat.le_of_lt_succ hi)
  · intro h n hn hle hown
    rcases hle.eq_or_lt with rfl | hle
    · exact hq
    · exact h n hn (Nat.le_of_lt_succ hle) fun i hge hle ↦ hown i hge (hle.trans (Nat.le_succ _))

theorem advanceCommitFrom_log_eq_iff (rn : RawNode) (last : ℕ) :
    (rn.advanceCommitFrom last).log = rn.log ↔ NothingToCommit rn last := by
  induction last with
  | zero => exact iff_of_true rfl fun n hn hle ↦ absurd (hn.trans_le hle) (Nat.not_lt_zero _)
  | succ last ih =>
    rw [advanceCommitFrom]
    split
    · rename_i hlt
      split
      · rename_i err hterm
        refine iff_of_true rfl fun n _ hle hown ↦ ?_
        cases hterm.symm.trans (hown _ hle le_rfl)
      · rename_i t hterm
        split
        · rename_i hne
          refine iff_of_true rfl fun n _ hle hown ↦ absurd ?_ hne
          exact Except.ok.inj (hterm.symm.trans (hown _ hle le_rfl))
        · rename_i heq
          rw [not_not] at heq
          subst heq
          split
          · rename_i hq
            refine iff_of_false (fun h ↦ ?_) fun h ↦ ?_
            · have := congrArg RaftLog.committed h
              simp only [RaftLog.commitTo, if_pos hlt] at this
              omega
            · refine absurd (h (last + 1) hlt le_rfl fun i hge hle ↦ ?_) (not_lt.mpr hq)
              rw [le_antisymm hle hge, hterm]
          · rename_i hq
            rw [ih, nothingToCommit_succ hterm (not_le.mp hq)]
    · rename_i hge
      exact iff_of_true rfl fun n hn hle ↦ absurd (hn.trans_le hle) hge

/-- The peer is known to be active, and the response leaves its progress and the commit index where
they are. -/
def ProgressKnown (rn : RawNode) (m : Message) : Prop :=
  lookup m.src rn.recentActive = some true ∧
  if m.reject then lookup m.src rn.nextIndex =
    some (rn.nextAfterSend m.src (backedUp (rn.nextIndex.get m.src 0) m.rejectHint))
  else m.index ≤ rn.matchIndex.get m.src 0 ∧ NothingToCommit rn rn.log.lastIndex

theorem stepAppResp_inert_iff :
    Inert rn m (rn.stepAppResp m) ↔ (rn.state = .leader → ProgressKnown rn m) := by
  refine inert_ite_iff fun hst ↦ ?_
  rw [ProgressKnown]
  dsimp only
  split
  · -- backing up, and then the snapshot, set the same key
    rw [sendAppend_inert_iff, lookup_insert_eq_iff, get_insert_self,
      ← lookup_insert_eq_iff (m := rn.nextIndex), nextAfterSend]
    split
    · rw [AList.insert_insert]
    · rfl
  · by_cases hle : m.index ≤ rn.matchIndex.get m.src 0
    · rw [if_neg (not_lt.mpr hle), maybeAdvanceCommit_eq, and_iff_right hle, ← lookup_insert_eq_iff,
        ← advanceCommitFrom_log_eq_iff]
      exact ⟨fun h ↦ ⟨h.recentActive, h.log⟩,
        fun h ↦ { Inert.refl rn m with recentActive := h.1, log := h.2 }⟩
    · -- the match index moves
      rw [if_pos (not_le.mp hle), maybeAdvanceCommit_eq { rn with
        matchIndex := insert m.src m.index rn.matchIndex
        nextIndex := insert m.src (m.index + 1) rn.nextIndex }]
      refine ⟨fun h ↦ absurd ?_ hle, fun h ↦ absurd h.2.1 hle⟩
      have hmatch : lookup m.src rn.matchIndex = some m.index :=
        lookup_insert_eq_iff.mp h.matchIndex
      rw [GoMap.get, hmatch, Option.getD_some]

/-- The peer is known to be active, and if the snapshot is shipped to it, its `nextIndex` lies
behind the snapshot already. -/
def ActivityKnown (rn : RawNode) (m : Message) : Prop :=
  lookup m.src rn.recentActive = some true ∧
  (rn.matchIndex.get m.src 0 < rn.log.lastIndex →
    rn.shipsSnapshot m.src (rn.nextIndex.get m.src 0) →
      lookup m.src rn.nextIndex = some (rn.log.storage.snapshot.metadata.index + 1))

theorem stepHeartbeatResp_inert_iff :
    Inert rn m (rn.stepHeartbeatResp m) ↔ (rn.state = .leader → ActivityKnown rn m) := by
  rw [stepHeartbeatResp]
  split
  · rename_i hst
    refine Iff.trans ?_ (⟨fun h _ ↦ h, fun h ↦ h hst⟩ : ActivityKnown rn m ↔ _)
    rw [ActivityKnown]
    dsimp only
    split
    · rename_i hlt
      refine sendAppend_inert_iff.trans ?_
      rw [lookup_insert_eq_iff]
      refine and_congr_right fun _ ↦ ?_
      split
      · rename_i hs
        rw [lookup_insert_eq_iff]
        exact ⟨fun h _ _ ↦ h, fun h ↦ h hlt hs⟩
      · rename_i hs
        exact ⟨fun _ _ h ↦ absurd h hs, fun _ _ ↦ rfl⟩
    · rename_i hlt
      rw [← lookup_insert_eq_iff]
      exact ⟨fun h ↦ ⟨h.recentActive, fun h' ↦ absurd h' hlt⟩,
        fun h ↦ { Inert.refl rn m with recentActive := h.1 }⟩
  · rename_i hst
    exact ⟨fun _ h ↦ absurd h hst, fun _ ↦ .refl rn m⟩

/-! ## All messages -/

/-- A response says what is known already, or comes to a node that does not wait for it. -/
def Redundant (rn : RawNode) (m : Message) : Prop :=
  match m.type with
  | .voteResp => rn.state = .candidate → VoteCounted rn m
  | .preVoteResp => rn.state = .preCandidate → VoteCounted rn m
  | .appResp => rn.state = .leader → ProgressKnown rn m
  | .heartbeatResp => rn.state = .leader → ActivityKnown rn m
  | _ => True

/-- **When a message of an earlier term is inert**: a request always is, and a response if and only
if it is redundant. -/
theorem stale_inert_iff (hpeer : m.type.fromPeer = true) (hT : m.term < rn.term) (rnd : ℕ) :
    Inert rn m (rn.step rnd m) ↔ Redundant rn m := by
  have hterm : rn.handleTerm rnd m = some rn := by
    rw [handleTerm, if_neg (not_lt.mpr hT.le)]
  rw [step, hterm]
  dsimp only
  rw [dispatch, Redundant]
  cases hty : m.type with
  | hup | beat | prop =>
    rw [hty] at hpeer
    exact absurd hpeer (by decide)
  | vote | preVote => exact iff_of_true (stepVote_inert hT) trivial
  | app => exact iff_of_true (stepApp_inert hT) trivial
  | heartbeat => exact iff_of_true (stepHeartbeat_inert hT) trivial
  | snap => exact iff_of_true (stepSnap_inert hT) trivial
  | voteResp => exact stepVoteResp_inert_iff
  | preVoteResp => exact stepPreVoteResp_inert_iff
  | appResp => exact stepAppResp_inert_iff
  | heartbeatResp => exact stepHeartbeatResp_inert_iff

/-- A candidate of a cluster of three, in its second election. -/
def secondElection : RawNode := ((newRawNode 1 [1, 2, 3] {} 0).campaignVote 0).campaignVote 0

/-- It wins, and its first entry gets to node `2`. -/
def secondLeader : RawNode :=
  [{ type := .voteResp, src := 2, dst := 1, term := 2 },
    { type := .appResp, src := 2, dst := 1, term := 2, index := 1 }].foldl (step · 0) secondElection

/-- It knows already what node `2` acknowledged in an earlier term. -/
theorem stale_inert_iff_acked : secondLeader.state = .leader ∧ secondLeader.log.committed = 1 ∧
    Inert secondLeader { type := .appResp, src := 2, dst := 1, term := 1 }
      (secondLeader.step 0 { type := .appResp, src := 2, dst := 1, term := 1 }) := by
  have hall : secondLeader.log.committed = 1 ∧ secondLeader.log.lastIndex = 1 := by decide +kernel
  refine ⟨by decide +kernel, hall.1, (stale_inert_iff (by decide) (by decide +kernel) 0).mpr
    fun _ ↦ ⟨by decide +kernel, Nat.zero_le _, fun n hn hle ↦ ?_⟩⟩
  omega

/-- The vote that it was granted in the first election makes it the leader in the second one. -/
theorem exists_stale_vote :
    ({ type := .voteResp, src := 2, dst := 1, term := 1 : Message }).term < secondElection.term ∧
      secondElection.state = .candidate ∧
      (secondElection.step 0 { type := .voteResp, src := 2, dst := 1, term := 1 }).state =
      .leader := by
  decide +kernel

end RawNode

end DucklingDB.Raft
