import DucklingDB.Raft.Log

/-!
# The Raft state machine

`RawNode` and its transitions, following `raft.go` function by function. A transition takes the node
and returns the node; messages accumulate in `msgs` until `Ready` hands them out.

The election timeout is drawn at random by each `become…` function. A transition therefore takes the
number `rnd` the generator returns; where one call draws several times, every draw but the last is
overwritten before it is read, so one number covers them all.

`ballots` is a history variable: it records the votes cast since the last `Advance`, the self-vote
of `becomeCandidate` and every granted vote response. No transition reads it.
-/

namespace DucklingDB.Raft

def electionTimeoutMin : ℕ := 10
def electionTimeoutMax : ℕ := 20
def heartbeatTimeout : ℕ := 3
def snapshotCatchupGap : ℕ := 8

/-- `electionTimeoutMin + rand.Intn(electionTimeoutMax - electionTimeoutMin)`. -/
def randomTimeout (rnd : ℕ) : ℕ :=
  electionTimeoutMin + rnd % (electionTimeoutMax - electionTimeoutMin)

structure RawNode where
  id : NodeId
  state : StateType := .follower
  term : ℕ := 0
  votedFor : NodeId := noneId
  votes : GoMap NodeId Bool := ∅
  leadID : NodeId := noneId
  peers : List NodeId
  nextIndex : GoMap NodeId ℕ := ∅
  matchIndex : GoMap NodeId ℕ := ∅
  recentActive : GoMap NodeId Bool := ∅
  preVote : Bool := true
  checkQuorum : Bool := true
  log : RaftLog
  electionElapsed : ℕ := 0
  heartbeatElapsed : ℕ := 0
  electionTimeout : ℕ
  msgs : List Message := []
  /-- History: the `(term, candidate)` pairs voted for since the last `Advance`. -/
  ballots : List (ℕ × NodeId) := []
  prevSoft : SoftState := {}
  prevHard : HardState := {}
  deriving DecidableEq

namespace RawNode

variable (rn : RawNode)

def hardState : HardState :=
  { term := rn.term, votedFor := rn.votedFor, commit := rn.log.committed }

def softState : SoftState := { lead := rn.leadID, raftState := rn.state }

def quorum : ℕ := majority rn.peers

/-- `send` stamps the sender's id. -/
def send (m : Message) : RawNode :=
  { rn with msgs := rn.msgs ++ [{ m with src := rn.id }] }

/-- The loops of the `bcast…` functions: act once for every peer but the node itself. -/
def forPeers (f : RawNode → NodeId → RawNode) : RawNode :=
  rn.peers.foldl (fun r id ↦ if id = r.id then r else f r id) rn

def bcastRequestVote : RawNode :=
  rn.forPeers fun r id ↦ r.send
    { type := .vote, dst := id, term := r.term, index := r.log.lastIndex
      logTerm := r.log.lastTerm }

/-- The probe carries the term the node would campaign at, which it has not adopted. -/
def bcastPreVote : RawNode :=
  rn.forPeers fun r id ↦ r.send
    { type := .preVote, dst := id, term := r.term + 1, index := r.log.lastIndex
      logTerm := r.log.lastTerm }

/-- The commit index is clamped to what the peer is known to hold. -/
def bcastHeartbeat : RawNode :=
  rn.forPeers fun r id ↦ r.send
    { type := .heartbeat, dst := id, term := r.term
      commit := min (r.matchIndex.get id 0) r.log.committed }

/-- The append for `dst`: everything from `nextIndex[dst]` to the end of the log. -/
def appendMessage (dst : NodeId) : Message :=
  let next := rn.nextIndex.get dst 0
  { type := .app, dst := dst, term := rn.term, index := next - 1
    logTerm := match rn.log.term (next - 1) with
      | .ok t => t
      | .error _ => 0
    entries := rn.log.entries next (rn.log.lastIndex + 1)
    commit := rn.log.committed }

/-- `sendAppend`: an append, or the stored snapshot when the entries are gone or the peer is far
behind; nothing when the entries are gone and there is no snapshot. -/
def sendAppend (dst : NodeId) : RawNode :=
  let compacted : Bool := rn.nextIndex.get dst 0 < rn.log.firstIndex
  let farBehind : Bool := rn.log.lastIndex > rn.matchIndex.get dst 0 + snapshotCatchupGap
  let snap := rn.log.storage.snapshot
  if (compacted || farBehind) && !snap.isEmpty
      && (compacted || snap.metadata.index > rn.matchIndex.get dst 0) then
    let rn := rn.send { type := .snap, dst := dst, term := rn.term, snapshot := snap }
    { rn with nextIndex := rn.nextIndex.insert dst (snap.metadata.index + 1) }
  else if compacted then rn
  else rn.send (rn.appendMessage dst)

def bcastAppend : RawNode := rn.forPeers sendAppend

/-- `becomeFollower` forgets the vote, also when `term` is the current one. -/
def becomeFollower (rnd term lead : ℕ) : RawNode :=
  { rn with
    state := .follower, term := term, leadID := lead, votedFor := noneId, votes := ∅
    nextIndex := ∅, matchIndex := ∅, recentActive := ∅
    electionElapsed := 0, electionTimeout := randomTimeout rnd }

variable (rnd : ℕ)

/-- `becomePreCandidate` leaves term and vote alone. -/
def becomePreCandidate : RawNode :=
  { rn with
    state := .preCandidate, leadID := noneId, votes := AList.insert rn.id true ∅
    electionElapsed := 0, electionTimeout := randomTimeout rnd }

def becomeCandidate : RawNode :=
  { rn with
    state := .candidate, term := rn.term + 1, votedFor := rn.id, leadID := noneId
    votes := AList.insert rn.id true ∅
    ballots := rn.ballots ++ [(rn.term + 1, rn.id)]
    electionElapsed := 0, electionTimeout := randomTimeout rnd }

/-- The loop of `maybeAdvanceCommit`, at `n`. -/
def advanceCommitFrom (rn : RawNode) : ℕ → RawNode
  | 0 => rn
  | n + 1 =>
    if n + 1 > rn.log.committed then
      match rn.log.term (n + 1) with
      | .error _ => rn
      | .ok t =>
        if t ≠ rn.term then rn
        else if rn.matchIndex.countValues (fun idx ↦ decide (idx ≥ n + 1)) ≥ rn.quorum then
          { rn with log := rn.log.commitTo (n + 1) }
        else rn.advanceCommitFrom n
    else rn

def maybeAdvanceCommit : RawNode := rn.advanceCommitFrom rn.log.lastIndex

/-- The per-peer progress of a fresh leader: `f` for every peer. -/
def initProgress (v : ℕ) : GoMap NodeId ℕ :=
  rn.peers.foldl (fun m id ↦ m.insert id v) ∅

/-- The tables of a fresh leader and its no-op entry, before commit and broadcast. -/
def initLeader : RawNode :=
  let lastIdx := rn.log.lastIndex
  { rn with
    state := .leader, leadID := rn.id, heartbeatElapsed := 0, electionElapsed := 0
    recentActive := AList.insert rn.id true ∅
    nextIndex := rn.initProgress (lastIdx + 1)
    matchIndex := (rn.initProgress 0).insert rn.id (lastIdx + 1)
    log := rn.log.append [{ term := rn.term, index := lastIdx + 1 }] }

def becomeLeader : RawNode := rn.initLeader.maybeAdvanceCommit.bcastAppend

/-- Granted votes or pre-votes so far. -/
def tallyVotes : ℕ := rn.votes.countValues fun v ↦ v

/-- `campaign(false)`: the real election. -/
def campaignVote : RawNode :=
  let rn := rn.becomeCandidate rnd
  if rn.tallyVotes ≥ rn.quorum then rn.becomeLeader else rn.bcastRequestVote

/-- `campaign`: with `pre`, the pre-election, whose winner campaigns for real. -/
def campaign (pre : Bool) : RawNode :=
  if pre then
    let rn := rn.becomePreCandidate rnd
    if rn.tallyVotes ≥ rn.quorum then rn.campaignVote rnd else rn.bcastPreVote
  else rn.campaignVote rnd

def hup : RawNode :=
  if rn.state = .leader then rn else rn.campaign rnd rn.preVote

def canVote (m : Message) : Bool :=
  rn.votedFor == m.src ||
  (rn.votedFor == noneId && rn.leadID == noneId) ||
  (m.type == .preVote && m.term > rn.term)

def voteRespType (t : MessageType) : MessageType :=
  if t = .preVote then .preVoteResp else .voteResp

def maybeStepDownOnQuorumLoss : RawNode :=
  let active := rn.peers.countP fun id ↦ id == rn.id || rn.recentActive.get id false
  let rn := { rn with recentActive := AList.insert rn.id true ∅ }
  if active < rn.quorum then rn.becomeFollower rnd rn.term noneId else rn

/-! ## `Step` -/

/-- The term handling at the head of `Step`; `none` is its early return. -/
def handleTerm (m : Message) : Option RawNode :=
  if m.term > rn.term then
    if (m.type = .vote ∨ m.type = .preVote) ∧ rn.checkQuorum ∧ rn.leadID ≠ noneId ∧
        rn.electionElapsed < rn.electionTimeout then none
    else if m.type = .preVote then some rn
    else if m.type = .preVoteResp ∧ ¬m.reject then some rn
    else some (rn.becomeFollower rnd m.term (if m.type = .vote then noneId else m.src))
  else some rn

/-- Grant a vote: respond, and for a real vote record it. -/
def grantVote (m : Message) : RawNode :=
  let rn := rn.send { type := voteRespType m.type, dst := m.src, term := m.term }
  if m.type = .vote then
    { rn with votedFor := m.src, electionElapsed := 0, ballots := rn.ballots ++ [(m.term, m.src)] }
  else rn

def canGrant (m : Message) : Bool :=
  decide (m.term ≥ rn.term) && rn.canVote m && rn.log.isUpToDate m.index m.logTerm

/-- `MsgVote`, `MsgPreVote`. -/
def stepVote (m : Message) : RawNode :=
  if rn.canGrant m then rn.grantVote m
  else rn.send { type := voteRespType m.type, dst := m.src, term := rn.term, reject := true }

/-- `MsgVoteResp`. The response's term is not looked at. -/
def stepVoteResp (m : Message) : RawNode :=
  if rn.state ≠ .candidate then rn
  else
    let rn := { rn with votes := rn.votes.insert m.src (!m.reject) }
    if rn.tallyVotes ≥ rn.quorum then rn.becomeLeader else rn

/-- `MsgPreVoteResp`. -/
def stepPreVoteResp (m : Message) : RawNode :=
  if rn.state ≠ .preCandidate then rn
  else
    let rn := { rn with votes := rn.votes.insert m.src (!m.reject) }
    if rn.tallyVotes ≥ rn.quorum then rn.campaign rnd false else rn

/-- The entries a leader appends for a proposal: its term, consecutive indices. -/
def propEntries (es : List Entry) : List Entry :=
  es.mapIdx fun i e ↦ { term := rn.term, index := rn.log.lastIndex + i + 1, data := e.data }

/-- `MsgProp`. -/
def stepProp (m : Message) : RawNode :=
  if rn.state ≠ .leader then rn
  else
    let rn := { rn with log := rn.log.append (rn.propEntries m.entries) }
    let rn := { rn with matchIndex := rn.matchIndex.insert rn.id rn.log.lastIndex }
    rn.bcastAppend.maybeAdvanceCommit

/-- The rejecting response to an append or a snapshot. -/
def rejectAppend (m : Message) : RawNode :=
  rn.send { type := .appResp, dst := m.src, term := rn.term, reject := true
            rejectHint := rn.log.lastIndex }

/-- The consistency check of `MsgApp`. -/
def matchesPrev (m : Message) : Bool :=
  m.index == 0 || rn.log.term m.index == .ok m.logTerm

/-- The log after an accepted append: the entries, then the commit index. -/
def appendedLog (l : RaftLog) (m : Message) : RaftLog :=
  let l := if m.entries = [] then l else l.append m.entries
  if m.commit > l.committed then l.commitTo (min m.commit l.lastIndex) else l

/-- `MsgApp`. The acknowledgement carries the follower's own last index. -/
def stepApp (m : Message) : RawNode :=
  if m.term < rn.term then rn.rejectAppend m
  else
    let rn := rn.becomeFollower rnd m.term m.src
    if !rn.matchesPrev m then rn.rejectAppend m
    else
      let rn := { rn with log := appendedLog rn.log m }
      rn.send { type := .appResp, dst := m.src, term := rn.term, index := rn.log.lastIndex }

/-- Where `nextIndex` backs up to on a rejection. -/
def backedUp (next hint : ℕ) : ℕ :=
  if hint < next then hint + 1 else if next > 1 then next - 1 else next

/-- `MsgAppResp`. The response's term is not looked at. -/
def stepAppResp (m : Message) : RawNode :=
  if rn.state ≠ .leader then rn
  else
    let rn := { rn with recentActive := rn.recentActive.insert m.src true }
    if m.reject then
      let next := backedUp (rn.nextIndex.get m.src 0) m.rejectHint
      let rn := { rn with nextIndex := rn.nextIndex.insert m.src next }
      rn.sendAppend m.src
    else
      let rn :=
        if m.index > rn.matchIndex.get m.src 0 then
          { rn with matchIndex := rn.matchIndex.insert m.src m.index
                    nextIndex := rn.nextIndex.insert m.src (m.index + 1) }
        else rn
      rn.maybeAdvanceCommit

/-- `MsgHeartbeat`. -/
def stepHeartbeat (m : Message) : RawNode :=
  let rn :=
    if m.term ≥ rn.term then
      { rn with
        electionElapsed := 0, leadID := m.src
        log := rn.log.commitTo (min m.commit rn.log.lastIndex) }
    else rn
  rn.send { type := .heartbeatResp, dst := m.src, term := rn.term }

/-- `MsgHeartbeatResp`. -/
def stepHeartbeatResp (m : Message) : RawNode :=
  if rn.state = .leader then
    let rn := { rn with recentActive := rn.recentActive.insert m.src true }
    if rn.matchIndex.get m.src 0 < rn.log.lastIndex then rn.sendAppend m.src else rn
  else rn

/-- `MsgSnap`. -/
def stepSnap (m : Message) : RawNode :=
  if m.term < rn.term then rn.rejectAppend m
  else
    let rn := rn.becomeFollower rnd m.term m.src
    match rn.log.restore m.snapshot with
    | (l, true) =>
      let rn := { rn with log := l }
      rn.send { type := .appResp, dst := m.src, term := rn.term, index := rn.log.lastIndex }
    | (_, false) =>
      rn.send { type := .appResp, dst := m.src, term := rn.term, index := rn.log.committed }

/-- The switch of `Step` on the message type. -/
def dispatch (m : Message) : RawNode :=
  match m.type with
  | .hup => rn.hup rnd
  | .beat => if rn.state = .leader then rn.bcastHeartbeat else rn
  | .vote | .preVote => rn.stepVote m
  | .voteResp => rn.stepVoteResp m
  | .preVoteResp => rn.stepPreVoteResp rnd m
  | .prop => rn.stepProp m
  | .app => rn.stepApp rnd m
  | .appResp => rn.stepAppResp m
  | .heartbeat => rn.stepHeartbeat m
  | .heartbeatResp => rn.stepHeartbeatResp m
  | .snap => rn.stepSnap rnd m

def step (m : Message) : RawNode :=
  match rn.handleTerm rnd m with
  | none => rn
  | some rn => rn.dispatch rnd m

def tick : RawNode :=
  if rn.state = .leader then
    let rn :=
      if rn.checkQuorum then
        let rn := { rn with electionElapsed := rn.electionElapsed + 1 }
        if rn.electionElapsed ≥ rn.electionTimeout then
          { rn with electionElapsed := 0 }.maybeStepDownOnQuorumLoss rnd
        else rn
      else rn
    if rn.state ≠ .leader then rn
    else
      let rn := { rn with heartbeatElapsed := rn.heartbeatElapsed + 1 }
      if rn.heartbeatElapsed ≥ heartbeatTimeout then
        { rn with heartbeatElapsed := 0 }.step rnd { type := .beat, src := rn.id, dst := rn.id }
      else rn
  else
    let rn := { rn with electionElapsed := rn.electionElapsed + 1 }
    if rn.electionElapsed ≥ rn.electionTimeout then
      { rn with electionElapsed := 0 }.step rnd { type := .hup, src := rn.id, dst := rn.id }
    else rn

def propose (data : Option Bytes) : RawNode :=
  rn.step rnd { type := .prop, src := rn.id, dst := rn.id, entries := [{ data := data }] }

/-! ## Construction and the `Ready` contract -/

/-- The highest index a node holding a snapshot at `snapIndex` may truncate to. -/
def compactableIndex (snapIndex : ℕ) : ℕ :=
  if rn.state ≠ .leader then snapIndex
  else rn.peers.foldl
    (fun safe id ↦ if id = rn.id then safe else min (rn.matchIndex.get id 0) safe) snapIndex

/-- `Ready` collects the pending work. -/
def ready : Ready :=
  { softState := if rn.softState ≠ rn.prevSoft then some rn.softState else none
    hardState := if rn.hardState ≠ rn.prevHard then rn.hardState else {}
    snapshot := if rn.log.hasPendingSnapshot then rn.log.pendingSnapshot else {}
    entries := rn.log.unstableEntries
    messages := rn.msgs
    committedEntries := rn.log.nextEntries }

def hasReady : Bool :=
  rn.hardState ≠ rn.prevHard || rn.log.hasPendingSnapshot || rn.log.unstableEntries ≠ [] ||
  rn.log.nextEntries ≠ [] || rn.msgs ≠ [] || rn.softState ≠ rn.prevSoft

/-- The log part of `Advance`. -/
def advanceLog (l : RaftLog) (rd : Ready) : RaftLog :=
  let l := if rd.snapshot.isEmpty then l else { l with pendingSnapshot := {} }
  let l := match rd.entries.getLast? with
    | none => l
    | some last => l.stableTo last.index last.term
  match rd.committedEntries.getLast? with
  | none => l
  | some last => l.appliedTo last.index

/-- `Advance` signals that the caller has processed `rd`. -/
def advance (rd : Ready) : RawNode :=
  { rn with
    prevSoft := rd.softState.getD rn.prevSoft
    prevHard := if rd.hardState.isEmpty then rn.prevHard else rd.hardState
    log := advanceLog rn.log rd
    msgs := []
    ballots := [] }

end RawNode

def newRawNode (id : NodeId) (peers : List NodeId) (storage : LSMLogStorage) (rnd : ℕ) : RawNode :=
  let rn : RawNode :=
    { id := id, peers := peers, log := newRaftLog storage, electionTimeout := randomTimeout rnd }
  let hs := storage.initialState
  let rn :=
    if hs.isEmpty then rn
    else { rn with
      term := hs.term
      votedFor := hs.votedFor
      log := (rn.log.commitTo hs.commit).appliedTo (min storage.loadApplied hs.commit) }
  { rn with prevHard := rn.hardState, prevSoft := rn.softState }

end DucklingDB.Raft
