import DucklingDB.Raft.Truncation

/-!
# The run-time checks

Go panics when a slice is accessed outside its bounds or an entry is assigned in a nil map, and
`appliedTo` panics by itself. `RawNode` and `RaftLog` answer such a case in one way or another; the
functions here are the same ones with the checks left in, and `none` is a panic. Every function that
can panic, or calls one that can, has its checked version, named by a question mark.

`Sound` says what rules a panic out: the unstable entries are numbered consecutively, and a node
that counts votes or acknowledgements has the maps for it. Every transition of a sound node
succeeds, ends where the unchecked one does, and leaves a sound node (`call?_eq`).
-/

namespace DucklingDB

open List Option

/-- `m[k] = v`. The nil map is the empty one, so this also fails on an empty map that is not nil. -/
def GoMap.assign? {α β : Type} [DecidableEq α] (m : GoMap α β) (k : α) (v : β) :
    Option (GoMap α β) :=
  if m.entries.isEmpty then none else some (m.insert k v)

theorem GoMap.insert_ne_empty {α β : Type} [DecidableEq α] (m : GoMap α β) (k : α) (v : β) :
    m.insert k v ≠ (∅ : GoMap α β) := by
  intro h
  have hk := AList.lookup_insert (a := k) (b := v) m
  rw [h, AList.lookup_empty] at hk
  cases hk

theorem GoMap.assign?_eq {α β : Type} [DecidableEq α] {m : GoMap α β} (h : m ≠ ∅) (k : α) (v : β) :
    m.assign? k v = some (m.insert k v) := by
  have hne : m.entries.isEmpty = false := by
    rw [isEmpty_eq_false_iff]
    exact fun hnil ↦ h (AList.ext hnil)
  rw [assign?, hne, if_neg Bool.false_ne_true]

/-- `xs[a:b]`. -/
def slice? {α : Type} (xs : List α) (a b : ℕ) : Option (List α) :=
  if a ≤ b ∧ b ≤ xs.length then some ((xs.take b).drop a) else none

namespace Raft

namespace RaftLog

variable (l : RaftLog)

/-- `term`. -/
def term? (index : ℕ) : Option (Except LogError ℕ) :=
  if index = 0 then some (.ok 0)
  else match l.unstable.head?, l.unstable.getLast? with
    | some first, some last =>
      if first.index ≤ index ∧ index ≤ last.index then
        l.unstable[index - first.index]?.map fun e ↦ .ok e.term
      else some (l.stableTerm index)
    | _, _ => some (l.stableTerm index)

/-- `lastTerm`. -/
def lastTerm? : Option ℕ :=
  (l.term? l.lastIndex).map fun
    | .ok t => t
    | .error _ => 0

/-- The part of `entries` that comes from `unstable`. -/
def unstableSlice? (lo hi : ℕ) : Option (List Entry) :=
  match l.unstable.head?, l.unstable.getLast? with
  | some first, some last =>
    if lo < hi ∧ lo ≤ last.index ∧ hi > first.index then
      slice? l.unstable (lo - first.index) (min (hi - first.index) l.unstable.length)
    else some []
  | _, _ => some []

/-- `entries`. -/
def entries? (lo hi : ℕ) : Option (List Entry) :=
  if lo ≥ hi then some []
  else
    let stableMax := l.storage.lastIndex
    if lo ≤ stableMax then
      match l.storage.entries lo (min hi (stableMax + 1)) with
      | .error _ => some []
      | .ok se => (l.unstableSlice? (stableMax + 1) hi).map (se ++ ·)
    else l.unstableSlice? lo hi

/-- `appliedTo`. -/
def appliedTo? (index : ℕ) : Option RaftLog :=
  if index > l.committed then none
  else if index > l.applied then some { l with applied := index } else some l

/-- `nextEntries`. -/
def nextEntries? : Option (List Entry) :=
  if l.committed ≥ l.applied + 1 then l.entries? (l.applied + 1) (l.committed + 1) else some []

/-- `stableTo`. -/
def stableTo? (index term : ℕ) : Option RaftLog :=
  match l.unstable.head? with
  | none => some l
  | some first =>
    if index < first.index then some l
    else l.unstable[index - first.index]?.map fun e ↦
      if e.term ≠ term then l
      else { l with unstable := l.unstable.drop (index - first.index + 1), offset := index }

/-- `isUpToDate`. -/
def isUpToDate? (lastIndex lastTerm : ℕ) : Option Bool := do
  let myTerm ← l.lastTerm?
  some (if lastTerm ≠ myTerm then lastTerm > myTerm else lastIndex ≥ l.lastIndex)

section Numbered

variable {l : RaftLog} {k : ℕ}

section

variable (hc : Contiguous k l.unstable)
include hc

theorem unstable_ends {first last : Entry} (hfirst : l.unstable.head? = some first)
    (hlast : l.unstable.getLast? = some last) :
    first.index = k ∧ last.index + 1 = k + l.unstable.length := by
  rw [List.head?_eq_getElem?] at hfirst
  rw [List.getLast?_eq_getElem?] at hlast
  have hpos := (List.getElem?_eq_some_iff.mp hlast).1
  have hk := hc _ _ hfirst
  have hn := hc _ _ hlast
  omega

theorem term?_eq (index : ℕ) : l.term? index = some (l.term index) := by
  rw [term?, term]
  split
  · rfl
  · cases hfirst : l.unstable.head? with
    | none => rfl
    | some first =>
      cases hlast : l.unstable.getLast? with
      | none => rfl
      | some last =>
        obtain ⟨hk, hn⟩ := unstable_ends hc hfirst hlast
        dsimp only
        split
        · rename_i hrange
          rw [getElem?_eq_getElem (by omega)]
          rfl
        · rfl

theorem lastTerm?_eq : l.lastTerm? = some l.lastTerm := by
  rw [lastTerm?, term?_eq hc, lastTerm]
  cases l.term l.lastIndex <;> rfl

theorem unstableSlice?_eq (lo hi : ℕ) : l.unstableSlice? lo hi = some (l.unstableSlice lo hi) := by
  rw [unstableSlice?, unstableSlice]
  cases hfirst : l.unstable.head? with
  | none => rfl
  | some first =>
    cases hlast : l.unstable.getLast? with
    | none => rfl
    | some last =>
      obtain ⟨hk, hn⟩ := unstable_ends hc hfirst hlast
      dsimp only
      split
      · rename_i hrange
        rw [slice?, if_pos ⟨by omega, min_le_right _ _⟩, ← take_eq_take_min]
      · rfl

theorem entries?_eq (lo hi : ℕ) : l.entries? lo hi = some (l.entries lo hi) := by
  rw [entries?, entries]
  split
  · rfl
  · dsimp only
    split
    · cases l.storage.entries lo (min hi (l.storage.lastIndex + 1)) with
      | error err => rfl
      | ok se =>
        dsimp only
        rw [unstableSlice?_eq hc, map_some]
    · exact unstableSlice?_eq hc lo hi

theorem nextEntries?_eq : l.nextEntries? = some l.nextEntries := by
  rw [nextEntries?, nextEntries]
  split
  · exact entries?_eq hc _ _
  · rfl

theorem isUpToDate?_eq (lastIndex lastTerm : ℕ) :
    l.isUpToDate? lastIndex lastTerm = some (l.isUpToDate lastIndex lastTerm) := by
  rw [isUpToDate?, lastTerm?_eq hc]
  rfl

end

theorem appliedTo?_eq {index : ℕ} (h : index ≤ l.committed) :
    l.appliedTo? index = some (l.appliedTo index) := by
  rw [appliedTo?, if_neg (not_lt.mpr h), appliedTo]
  split <;> rfl

end Numbered

end RaftLog

/-! ## Transitions -/

namespace RawNode

variable (rn : RawNode)

/-- The loops of the `bcast…` functions. -/
def forPeers? (f : RawNode → NodeId → Option RawNode) : Option RawNode :=
  rn.peers.foldlM (fun r id ↦ if id = r.id then some r else f r id) rn

/-- `bcastRequestVote`. -/
def bcastRequestVote? : Option RawNode :=
  rn.forPeers? fun r id ↦ do
    let lastTerm ← r.log.lastTerm?
    some (r.send
      { type := .vote, dst := id, term := r.term, index := r.log.lastIndex, logTerm := lastTerm })

/-- `bcastPreVote`. -/
def bcastPreVote? : Option RawNode :=
  rn.forPeers? fun r id ↦ do
    let lastTerm ← r.log.lastTerm?
    some (r.send
      { type := .preVote, dst := id, term := r.term + 1, index := r.log.lastIndex
        logTerm := lastTerm })

/-- The append of `sendAppend`. -/
def appendMessage? (dst : NodeId) : Option Message := do
  let next := rn.nextIndex.get dst 0
  let prevTerm ← rn.log.term? (next - 1)
  let entries ← rn.log.entries? next (rn.log.lastIndex + 1)
  some { type := .app, dst := dst, term := rn.term, index := next - 1
         logTerm := match prevTerm with
          | .ok t => t
          | .error _ => 0
         entries := entries
         commit := rn.log.committed }

/-- `sendAppend`. -/
def sendAppend? (dst : NodeId) : Option RawNode :=
  let compacted : Bool := rn.nextIndex.get dst 0 < rn.log.firstIndex
  let farBehind : Bool := rn.log.lastIndex > rn.matchIndex.get dst 0 + snapshotCatchupGap
  let snap := rn.log.storage.snapshot
  if (compacted || farBehind) && !snap.isEmpty
      && (compacted || snap.metadata.index > rn.matchIndex.get dst 0) then do
    let rn := rn.send { type := .snap, dst := dst, term := rn.term, snapshot := snap }
    let nextIndex ← rn.nextIndex.assign? dst (snap.metadata.index + 1)
    some { rn with nextIndex := nextIndex }
  else if compacted then some rn
  else (rn.appendMessage? dst).map rn.send

/-- `bcastAppend`. -/
def bcastAppend? : Option RawNode := rn.forPeers? sendAppend?

/-- The loop of `maybeAdvanceCommit`. -/
def advanceCommitFrom? (rn : RawNode) : ℕ → Option RawNode
  | 0 => some rn
  | n + 1 =>
    if n + 1 > rn.log.committed then do
      match ← rn.log.term? (n + 1) with
      | .error _ => some rn
      | .ok t =>
        if t ≠ rn.term then some rn
        else if rn.matchIndex.countValues (fun idx ↦ decide (idx ≥ n + 1)) ≥ rn.quorum then
          some { rn with log := rn.log.commitTo (n + 1) }
        else rn.advanceCommitFrom? n
    else some rn

/-- `maybeAdvanceCommit`. -/
def maybeAdvanceCommit? : Option RawNode := rn.advanceCommitFrom? rn.log.lastIndex

/-- `becomeLeader`: its own tables are made before it assigns to them. -/
def becomeLeader? : Option RawNode := do
  let rn ← rn.initLeader.maybeAdvanceCommit?
  rn.bcastAppend?

variable (rnd : ℕ)

/-- `campaign(false)`. -/
def campaignVote? : Option RawNode :=
  let rn := rn.becomeCandidate rnd
  if rn.tallyVotes ≥ rn.quorum then rn.becomeLeader? else rn.bcastRequestVote?

/-- `campaign`. -/
def campaign? (pre : Bool) : Option RawNode :=
  if pre then
    let rn := rn.becomePreCandidate rnd
    if rn.tallyVotes ≥ rn.quorum then rn.campaignVote? rnd else rn.bcastPreVote?
  else rn.campaignVote? rnd

/-- `hup`. -/
def hup? : Option RawNode :=
  if rn.state = .leader then some rn else rn.campaign? rnd rn.preVote

variable (m : Message)

/-- The test before a vote is granted. -/
def canGrant? : Option Bool :=
  if decide (m.term ≥ rn.term) && rn.canVote m then rn.log.isUpToDate? m.index m.logTerm
  else some false

/-- `MsgVote`, `MsgPreVote`. -/
def stepVote? : Option RawNode := do
  if ← rn.canGrant? m then some (rn.grantVote m)
  else some (rn.send { type := voteRespType m.type, dst := m.src, term := rn.term, reject := true })

/-- `MsgVoteResp`. -/
def stepVoteResp? : Option RawNode :=
  if rn.state ≠ .candidate then some rn
  else do
    let votes ← rn.votes.assign? m.src (!m.reject)
    let rn := { rn with votes := votes }
    if rn.tallyVotes ≥ rn.quorum then rn.becomeLeader? else some rn

/-- `MsgPreVoteResp`. -/
def stepPreVoteResp? : Option RawNode :=
  if rn.state ≠ .preCandidate then some rn
  else do
    let votes ← rn.votes.assign? m.src (!m.reject)
    let rn := { rn with votes := votes }
    if rn.tallyVotes ≥ rn.quorum then rn.campaign? rnd false else some rn

/-- `MsgProp`. -/
def stepProp? : Option RawNode :=
  if rn.state ≠ .leader then some rn
  else do
    let rn := { rn with log := rn.log.append (rn.propEntries m.entries) }
    let matchIndex ← rn.matchIndex.assign? rn.id rn.log.lastIndex
    let rn := { rn with matchIndex := matchIndex }
    let rn ← rn.bcastAppend?
    rn.maybeAdvanceCommit?

/-- The consistency check of `MsgApp`. -/
def matchesPrev? : Option Bool :=
  if m.index == 0 then some true
  else (rn.log.term? m.index).map fun t ↦ t == .ok m.logTerm

/-- `MsgApp`. -/
def stepApp? : Option RawNode :=
  if m.term < rn.term then some (rn.rejectAppend m)
  else do
    let rn := rn.becomeFollower rnd m.term m.src
    if !(← rn.matchesPrev? m) then some (rn.rejectAppend m)
    else
      let rn := { rn with log := appendedLog rn.log m }
      some (rn.send { type := .appResp, dst := m.src, term := rn.term, index := rn.log.lastIndex })

/-- `MsgAppResp`. -/
def stepAppResp? : Option RawNode :=
  if rn.state ≠ .leader then some rn
  else do
    let recentActive ← rn.recentActive.assign? m.src true
    let rn := { rn with recentActive := recentActive }
    if m.reject then
      let next := backedUp (rn.nextIndex.get m.src 0) m.rejectHint
      let nextIndex ← rn.nextIndex.assign? m.src next
      let rn := { rn with nextIndex := nextIndex }
      rn.sendAppend? m.src
    else if m.index > rn.matchIndex.get m.src 0 then
      let matchIndex ← rn.matchIndex.assign? m.src m.index
      let nextIndex ← rn.nextIndex.assign? m.src (m.index + 1)
      let rn := { rn with matchIndex := matchIndex, nextIndex := nextIndex }
      rn.maybeAdvanceCommit?
    else rn.maybeAdvanceCommit?

/-- `MsgHeartbeatResp`. -/
def stepHeartbeatResp? : Option RawNode :=
  if rn.state = .leader then do
    let recentActive ← rn.recentActive.assign? m.src true
    let rn := { rn with recentActive := recentActive }
    if rn.matchIndex.get m.src 0 < rn.log.lastIndex then rn.sendAppend? m.src else some rn
  else some rn

/-- The switch of `Step` on the message type. -/
def dispatch? : Option RawNode :=
  match m.type with
  | .hup => rn.hup? rnd
  | .beat => some (if rn.state = .leader then rn.bcastHeartbeat else rn)
  | .vote | .preVote => rn.stepVote? m
  | .voteResp => rn.stepVoteResp? m
  | .preVoteResp => rn.stepPreVoteResp? rnd m
  | .prop => rn.stepProp? m
  | .app => rn.stepApp? rnd m
  | .appResp => rn.stepAppResp? m
  | .heartbeat => some (rn.stepHeartbeat m)
  | .heartbeatResp => rn.stepHeartbeatResp? m
  | .snap => some (rn.stepSnap rnd m)

/-- `Step`. -/
def step? : Option RawNode :=
  match rn.handleTerm rnd m with
  | none => some rn
  | some rn => rn.dispatch? rnd m

/-- `Tick`. -/
def tick? : Option RawNode :=
  if rn.state = .leader then
    let rn :=
      if rn.checkQuorum then
        let rn := { rn with electionElapsed := rn.electionElapsed + 1 }
        if rn.electionElapsed ≥ rn.electionTimeout then
          { rn with electionElapsed := 0 }.maybeStepDownOnQuorumLoss rnd
        else rn
      else rn
    if rn.state ≠ .leader then some rn
    else
      let rn := { rn with heartbeatElapsed := rn.heartbeatElapsed + 1 }
      if rn.heartbeatElapsed ≥ heartbeatTimeout then
        { rn with heartbeatElapsed := 0 }.step? rnd { type := .beat, src := rn.id, dst := rn.id }
      else some rn
  else
    let rn := { rn with electionElapsed := rn.electionElapsed + 1 }
    if rn.electionElapsed ≥ rn.electionTimeout then
      { rn with electionElapsed := 0 }.step? rnd { type := .hup, src := rn.id, dst := rn.id }
    else some rn

/-- `Tick` or `Step`. -/
def call? : Input → Option RawNode
  | .tick rnd => rn.tick? rnd
  | .step m rnd => rn.step? rnd m

/-! ## Nodes that do not panic -/

/-- What rules out a panic. -/
structure Sound (rn : RawNode) : Prop where
  numbered : ∃ k, Contiguous k rn.log.unstable
  voting : rn.state = .candidate ∨ rn.state = .preCandidate → rn.votes ≠ ∅
  leading : rn.state = .leader → rn.nextIndex ≠ ∅ ∧ rn.matchIndex ≠ ∅ ∧ rn.recentActive ≠ ∅
  peers : rn.peers ≠ []

/-- The checked function succeeds where the unchecked one ends, and the node is sound again. -/
def Succeeds (o : Option RawNode) (rn : RawNode) : Prop := o = some rn ∧ rn.Sound

variable {rn : RawNode} {f : RawNode → NodeId → RawNode}

theorem Sound.send (h : rn.Sound) (m : Message) : (rn.send m).Sound :=
  ⟨h.numbered, h.voting, h.leading, h.peers⟩

theorem Sound.setLog (h : rn.Sound) {l : RaftLog} {k : ℕ} (hl : Contiguous k l.unstable) :
    { rn with log := l }.Sound := ⟨⟨k, hl⟩, h.voting, h.leading, h.peers⟩

theorem Sound.setProgress (h : rn.Sound) {next matched : GoMap NodeId ℕ} (hn : next ≠ ∅)
    (hm : matched ≠ ∅) : { rn with matchIndex := matched, nextIndex := next }.Sound :=
  ⟨h.numbered, h.voting, fun hst ↦ ⟨hn, hm, (h.leading hst).2.2⟩, h.peers⟩

theorem forPeers?_eq (I : RawNode → Prop) {f? : RawNode → NodeId → Option RawNode} (h0 : I rn)
    (hf : ∀ r id, I r → f? r id = some (f r id) ∧ I (f r id)) :
    rn.forPeers? f? = some (rn.forPeers f) ∧ I (rn.forPeers f) := by
  have key : ∀ (ps : List NodeId) (r : RawNode), I r →
      ps.foldlM (fun r id ↦ if id = r.id then some r else f? r id) r =
        some (ps.foldl (fun r id ↦ if id = r.id then r else f r id) r) ∧
      I (ps.foldl (fun r id ↦ if id = r.id then r else f r id) r) := by
    intro ps
    induction ps with
    | nil => exact fun r hr ↦ ⟨rfl, hr⟩
    | cons id ps ih =>
      intro r hr
      rw [foldlM_cons, foldl_cons]
      by_cases hid : id = r.id
      · rw [if_pos hid, if_pos hid]
        exact ih r hr
      · obtain ⟨heq, hI⟩ := hf r id hr
        rw [if_neg hid, if_neg hid, heq]
        exact ih _ hI
  exact key rn.peers rn h0

theorem bcastRequestVote?_eq (h : rn.Sound) :
    Succeeds rn.bcastRequestVote? rn.bcastRequestVote := by
  refine forPeers?_eq Sound h fun r id hr ↦ ⟨?_, hr.send _⟩
  obtain ⟨k, hc⟩ := hr.numbered
  rw [RaftLog.lastTerm?_eq hc]
  rfl

theorem bcastPreVote?_eq (h : rn.Sound) : Succeeds rn.bcastPreVote? rn.bcastPreVote := by
  refine forPeers?_eq Sound h fun r id hr ↦ ⟨?_, hr.send _⟩
  obtain ⟨k, hc⟩ := hr.numbered
  rw [RaftLog.lastTerm?_eq hc]
  rfl

theorem forPeers_keep (I : RawNode → Prop) (h0 : I rn)
    (hf : ∀ r id, I r → I (f r id)) : I (rn.forPeers f) := by
  have hloop : rn.forPeers? (fun r id ↦ some (f r id)) = some (rn.forPeers f) ∧ I (rn.forPeers f) :=
    forPeers?_eq I h0 fun r id hr ↦ ⟨rfl, hf r id hr⟩
  exact hloop.2

theorem appendMessage?_eq (h : rn.Sound) (dst : NodeId) :
    rn.appendMessage? dst = some (rn.appendMessage dst) := by
  obtain ⟨k, hc⟩ := h.numbered
  simp only [appendMessage?, RaftLog.term?_eq hc, RaftLog.entries?_eq hc]
  rfl

open GoMap (assign?_eq insert_ne_empty)

theorem sendAppend?_eq (h : rn.Sound) (hst : rn.state = .leader) (dst : NodeId) :
    Succeeds (rn.sendAppend? dst) (rn.sendAppend dst) := by
  obtain ⟨hnext, hmatch, hrecent⟩ := h.leading hst
  rw [sendAppend?, sendAppend]
  dsimp only
  split
  · rw [assign?_eq (m := (rn.send _).nextIndex) hnext]
    exact ⟨rfl, h.numbered, h.voting, fun _ ↦ ⟨insert_ne_empty _ _ _, hmatch, hrecent⟩, h.peers⟩
  · split
    · exact ⟨rfl, h⟩
    · rw [appendMessage?_eq h]
      exact ⟨rfl, h.send _⟩

theorem bcastAppend?_eq (h : rn.Sound) (hst : rn.state = .leader) :
    Succeeds rn.bcastAppend? rn.bcastAppend ∧ rn.bcastAppend.state = .leader := by
  have hloop : rn.forPeers? sendAppend? = some (rn.forPeers sendAppend) ∧
      (rn.forPeers sendAppend).Sound ∧ (rn.forPeers sendAppend).state = .leader :=
    forPeers?_eq (fun r ↦ r.Sound ∧ r.state = .leader) ⟨h, hst⟩ fun r id hr ↦ by
      obtain ⟨heq, hs⟩ := sendAppend?_eq hr.1 hr.2 id
      exact ⟨heq, hs, (sendAppend_state r id).trans hr.2⟩
  exact ⟨⟨hloop.1, hloop.2.1⟩, hloop.2.2⟩

theorem Sound.commitTo (h : rn.Sound) (n : ℕ) : { rn with log := rn.log.commitTo n }.Sound := by
  rw [RaftLog.commitTo_eq]
  exact ⟨h.numbered, h.voting, h.leading, h.peers⟩

theorem advanceCommitFrom?_eq (h : rn.Sound) :
    ∀ n, Succeeds (rn.advanceCommitFrom? n) (rn.advanceCommitFrom n)
  | 0 => ⟨rfl, h⟩
  | n + 1 => by
    obtain ⟨k, hc⟩ := h.numbered
    rw [advanceCommitFrom?, advanceCommitFrom, RaftLog.term?_eq hc]
    split
    · cases rn.log.term (n + 1) with
      | error err => exact ⟨rfl, h⟩
      | ok t =>
        dsimp only [bind, bind_some]
        split
        · exact ⟨rfl, h⟩
        · split
          · exact ⟨rfl, h.commitTo _⟩
          · exact advanceCommitFrom?_eq h n
    · exact ⟨rfl, h⟩

theorem maybeAdvanceCommit?_eq (h : rn.Sound) :
    Succeeds rn.maybeAdvanceCommit? rn.maybeAdvanceCommit := advanceCommitFrom?_eq h _

theorem initProgress_ne_empty (h : rn.peers ≠ []) (v : ℕ) : rn.initProgress v ≠ ∅ := by
  rw [initProgress, ← dropLast_append_getLast h, foldl_append]
  exact insert_ne_empty _ _ _

theorem Sound.initLeader (h : rn.Sound) : rn.initLeader.Sound := by
  obtain ⟨k, hc⟩ := h.numbered
  refine ⟨RaftLog.numbered_append hc (.cons rfl (.nil _)) le_rfl, ?_, fun _ ↦ ?_, h.peers⟩
  · rintro (hst | hst) <;> cases hst
  · exact ⟨initProgress_ne_empty h.peers _, insert_ne_empty _ _ _, insert_ne_empty _ _ _⟩

theorem becomeLeader?_eq (h : rn.Sound) : Succeeds rn.becomeLeader? rn.becomeLeader := by
  obtain ⟨heq, hs⟩ := maybeAdvanceCommit?_eq h.initLeader
  have hst : rn.initLeader.maybeAdvanceCommit.state = .leader := advanceCommitFrom_state _
  rw [becomeLeader?, heq]
  exact (bcastAppend?_eq hs hst).1

theorem campaignVote?_eq (h : rn.Sound) (rnd : ℕ) :
    Succeeds (rn.campaignVote? rnd) (rn.campaignVote rnd) := by
  have hs : (rn.becomeCandidate rnd).Sound :=
    ⟨h.numbered, fun _ ↦ insert_ne_empty _ _ _, (by rintro ⟨⟩), h.peers⟩
  rw [campaignVote?, campaignVote]
  split
  · exact becomeLeader?_eq hs
  · exact bcastRequestVote?_eq hs

theorem campaign?_eq (h : rn.Sound) (rnd : ℕ) (pre : Bool) :
    Succeeds (rn.campaign? rnd pre) (rn.campaign rnd pre) := by
  have hs : (rn.becomePreCandidate rnd).Sound :=
    ⟨h.numbered, fun _ ↦ insert_ne_empty _ _ _, (by rintro ⟨⟩), h.peers⟩
  rw [campaign?, campaign]
  split
  · dsimp only
    split
    · exact campaignVote?_eq hs rnd
    · exact bcastPreVote?_eq hs
  · exact campaignVote?_eq h rnd

theorem hup?_eq (h : rn.Sound) (rnd : ℕ) : Succeeds (rn.hup? rnd) (rn.hup rnd) := by
  rw [hup?, hup]
  split
  · exact ⟨rfl, h⟩
  · exact campaign?_eq h rnd _

/-! ## `Step` -/

variable {m : Message}

section

variable (h : rn.Sound)
include h

theorem Sound.becomeFollower (rnd term lead : ℕ) : (rn.becomeFollower rnd term lead).Sound := by
  refine ⟨h.numbered, ?_, (by rintro ⟨⟩), h.peers⟩
  rintro (hst | hst) <;> cases hst

theorem Sound.handleTerm {rnd : ℕ} {rn₁ : RawNode} (h₁ : rn.handleTerm rnd m = some rn₁) :
    rn₁.Sound := by
  rcases handleTerm_cases h₁ with ⟨rfl, -⟩ | ⟨-, rfl⟩
  · exact h
  · exact h.becomeFollower _ _ _

theorem stepVote?_eq (m : Message) : Succeeds (rn.stepVote? m) (rn.stepVote m) := by
  have hgrant : rn.canGrant? m = some (rn.canGrant m) := by
    obtain ⟨k, hc⟩ := h.numbered
    rw [canGrant?, canGrant, RaftLog.isUpToDate?_eq hc]
    cases decide (m.term ≥ rn.term) && rn.canVote m <;> rfl
  rw [stepVote?, hgrant, stepVote]
  dsimp only [bind, bind_some]
  split
  · refine ⟨rfl, ?_⟩
    rw [grantVote]
    split
    · exact ⟨h.numbered, h.voting, h.leading, h.peers⟩
    · exact h.send _
  · exact ⟨rfl, h.send _⟩

theorem Sound.count (id : NodeId) (v : Bool) : { rn with votes := rn.votes.insert id v }.Sound :=
  ⟨h.numbered, fun _ ↦ insert_ne_empty _ _ _, h.leading, h.peers⟩

theorem stepVoteResp?_eq (m : Message) : Succeeds (rn.stepVoteResp? m) (rn.stepVoteResp m) := by
  rw [stepVoteResp?, stepVoteResp]
  split
  · exact ⟨rfl, h⟩
  · rename_i hst
    rw [assign?_eq (h.voting (Or.inl (not_not.mp hst)))]
    dsimp only [bind, bind_some]
    split
    · exact becomeLeader?_eq (h.count _ _)
    · exact ⟨rfl, h.count _ _⟩

theorem stepPreVoteResp?_eq (rnd : ℕ) (m : Message) :
    Succeeds (rn.stepPreVoteResp? rnd m) (rn.stepPreVoteResp rnd m) := by
  rw [stepPreVoteResp?, stepPreVoteResp]
  split
  · exact ⟨rfl, h⟩
  · rename_i hst
    rw [assign?_eq (h.voting (Or.inr (not_not.mp hst)))]
    dsimp only [bind, bind_some]
    split
    · exact campaign?_eq (h.count _ _) rnd false
    · exact ⟨rfl, h.count _ _⟩

theorem stepProp?_eq (m : Message) : Succeeds (rn.stepProp? m) (rn.stepProp m) := by
  rw [stepProp?, stepProp]
  split
  · exact ⟨rfl, h⟩
  · rename_i hst
    obtain ⟨k, hc⟩ := h.numbered
    obtain ⟨hnext, hmatch, hrecent⟩ := h.leading (not_not.mp hst)
    dsimp only
    rw [assign?_eq hmatch]
    dsimp only [bind, bind_some]
    have hs : ({ rn with
        log := rn.log.append (rn.propEntries m.entries)
        matchIndex := AList.insert rn.id (rn.log.append (rn.propEntries m.entries)).lastIndex
          rn.matchIndex } : RawNode).Sound :=
      ⟨RaftLog.numbered_append hc (propEntries_contiguous rn m.entries) le_rfl, h.voting,
        fun _ ↦ ⟨hnext, insert_ne_empty _ _ _, hrecent⟩, h.peers⟩
    obtain ⟨⟨heq, hs'⟩, -⟩ := bcastAppend?_eq hs (not_not.mp hst)
    rw [heq]
    exact maybeAdvanceCommit?_eq hs'

section

variable (hu : rn.log.unstable = [])
include hu

theorem Sound.appendedLog (hm : Contiguous (m.index + 1) m.entries) :
    { rn with log := appendedLog rn.log m }.Sound := by
  refine ⟨⟨m.index + 1, ?_⟩, h.voting, h.leading, h.peers⟩
  have hcommit : ∀ l : RaftLog, Contiguous (m.index + 1) l.unstable → Contiguous (m.index + 1)
      (if m.commit > l.committed then l.commitTo (min m.commit l.lastIndex) else l).unstable := by
    intro l hl
    rw [RaftLog.commitTo_eq]
    split <;> exact hl
  refine hcommit (if m.entries = [] then rn.log else rn.log.append m.entries) ?_
  split
  · rw [hu]
    exact .nil _
  · rename_i hne
    rw [RaftLog.append, head?_eq_some_head hne]
    simp only [hu, head?_nil, nil_append]
    exact hm

theorem stepApp?_eq (rnd : ℕ)
    (hm : Contiguous (m.index + 1) m.entries) :
    Succeeds (rn.stepApp? rnd m) (rn.stepApp rnd m) := by
  rw [stepApp?, stepApp]
  split
  · exact ⟨rfl, h.send _⟩
  · have hf := h.becomeFollower rnd m.term m.src
    obtain ⟨k, hc⟩ := hf.numbered
    have hprev : (rn.becomeFollower rnd m.term m.src).matchesPrev? m =
        some ((rn.becomeFollower rnd m.term m.src).matchesPrev m) := by
      rw [matchesPrev?, matchesPrev, RaftLog.term?_eq hc]
      cases m.index == 0 <;> rfl
    dsimp only
    rw [hprev]
    dsimp only [bind, bind_some]
    split
    · exact ⟨rfl, hf.send _⟩
    · exact ⟨rfl, (hf.appendedLog hu hm).send _⟩

theorem stepSnap_sound (rnd : ℕ) (m : Message) :
    (rn.stepSnap rnd m).Sound := by
  rw [stepSnap]
  split
  · exact h.send _
  · have hf := h.becomeFollower rnd m.term m.src
    have hnil : (rn.log.restore m.snapshot).1.unstable = [] := by
      rw [RaftLog.restore]
      split
      · exact hu
      · rw [hu, dropWhile_nil]
    dsimp only
    split
    · rename_i l hl
      have hlog : l = (rn.log.restore m.snapshot).1 := (congrArg Prod.fst hl).symm
      have hc : Contiguous 0 l.unstable := by
        rw [hlog, hnil]
        exact .nil 0
      exact (hf.setLog hc).send _
    · exact hf.send _

end

theorem Sound.active (id : NodeId) :
    { rn with recentActive := rn.recentActive.insert id true }.Sound :=
  ⟨h.numbered, h.voting, fun hst ↦ ⟨(h.leading hst).1, (h.leading hst).2.1, insert_ne_empty _ _ _⟩,
    h.peers⟩

theorem stepAppResp?_eq (m : Message) : Succeeds (rn.stepAppResp? m) (rn.stepAppResp m) := by
  rw [stepAppResp?, stepAppResp]
  split
  · exact ⟨rfl, h⟩
  · rename_i hst
    have hst : rn.state = .leader := not_not.mp hst
    obtain ⟨hnext, hmatch, hrecent⟩ := h.leading hst
    have hs := h.active m.src
    rw [assign?_eq hrecent]
    dsimp only [bind, bind_some]
    split
    · rw [assign?_eq hnext]
      exact sendAppend?_eq (hs.setProgress (insert_ne_empty _ _ _) hmatch) hst m.src
    · split
      · rw [assign?_eq hmatch, assign?_eq hnext]
        exact maybeAdvanceCommit?_eq
          (hs.setProgress (insert_ne_empty _ _ _) (insert_ne_empty _ _ _))
      · exact maybeAdvanceCommit?_eq hs

theorem stepHeartbeat_sound (m : Message) : (rn.stepHeartbeat m).Sound := by
  rw [stepHeartbeat]
  refine Sound.send ?_ _
  split
  · have hs := h.commitTo (min m.commit rn.log.lastIndex)
    exact ⟨hs.numbered, hs.voting, hs.leading, hs.peers⟩
  · exact h

theorem stepHeartbeatResp?_eq (m : Message) :
    Succeeds (rn.stepHeartbeatResp? m) (rn.stepHeartbeatResp m) := by
  rw [stepHeartbeatResp?, stepHeartbeatResp]
  split
  · rename_i hst
    rw [assign?_eq (h.leading hst).2.2]
    dsimp only [bind, bind_some]
    split
    · exact sendAppend?_eq (h.active m.src) hst m.src
    · exact ⟨rfl, h.active m.src⟩
  · exact ⟨rfl, h⟩

theorem dispatch?_eq (hu : rn.log.unstable = []) (rnd : ℕ) (hm : m.WellNumbered) :
    Succeeds (rn.dispatch? rnd m) (rn.dispatch rnd m) := by
  rw [dispatch?, dispatch]
  cases hty : m.type with
  | hup => exact hup?_eq h rnd
  | beat =>
    refine ⟨rfl, ?_⟩
    dsimp only
    split
    · exact forPeers_keep Sound h fun _ _ hr ↦ hr.send _
    · exact h
  | vote => exact stepVote?_eq h m
  | preVote => exact stepVote?_eq h m
  | voteResp => exact stepVoteResp?_eq h m
  | preVoteResp => exact stepPreVoteResp?_eq h rnd m
  | prop => exact stepProp?_eq h m
  | app => exact stepApp?_eq h hu rnd (hm hty)
  | appResp => exact stepAppResp?_eq h m
  | heartbeat => exact ⟨rfl, stepHeartbeat_sound h m⟩
  | heartbeatResp => exact stepHeartbeatResp?_eq h m
  | snap => exact ⟨rfl, stepSnap_sound h hu rnd m⟩

/-- **`Step` does not panic** on a node whose entries are all persisted. -/
theorem step?_eq (hu : rn.log.unstable = []) (rnd : ℕ) (hm : m.WellNumbered) :
    Succeeds (rn.step? rnd m) (rn.step rnd m) := by
  rw [step?, step]
  cases hterm : rn.handleTerm rnd m with
  | none => exact ⟨rfl, h⟩
  | some rn₁ => exact dispatch?_eq (h.handleTerm hterm) (handleTerm_log hterm ▸ hu) rnd hm

theorem maybeStepDownOnQuorumLoss_sound (rnd : ℕ) : (rn.maybeStepDownOnQuorumLoss rnd).Sound ∧
      (rn.maybeStepDownOnQuorumLoss rnd).log = rn.log := by
  have hs : { rn with recentActive := AList.insert rn.id true ∅ }.Sound :=
    ⟨h.numbered, h.voting,
      fun hst ↦ ⟨(h.leading hst).1, (h.leading hst).2.1, insert_ne_empty _ _ _⟩, h.peers⟩
  rw [maybeStepDownOnQuorumLoss]
  split
  · exact ⟨hs.becomeFollower _ _ _, rfl⟩
  · exact ⟨hs, rfl⟩

theorem Sound.timers (e b : ℕ) : { rn with electionElapsed := e, heartbeatElapsed := b }.Sound :=
  ⟨h.numbered, h.voting, h.leading, h.peers⟩

/-- **`Tick` does not panic** on a node whose entries are all persisted. -/
theorem tick?_eq (hu : rn.log.unstable = []) (rnd : ℕ) : Succeeds (rn.tick? rnd) (rn.tick rnd) := by
  rw [tick?, tick]
  split
  · -- the leader, after it has looked for its quorum
    set rn₁ : RawNode := if rn.checkQuorum then
        let rn := { rn with electionElapsed := rn.electionElapsed + 1 }
        if rn.electionElapsed ≥ rn.electionTimeout then
          { rn with electionElapsed := 0 }.maybeStepDownOnQuorumLoss rnd
        else rn
      else rn with hrn₁
    have hs : rn₁.Sound ∧ rn₁.log = rn.log := by
      rw [hrn₁]
      split
      · dsimp only
        split
        · exact maybeStepDownOnQuorumLoss_sound (h.timers 0 rn.heartbeatElapsed) rnd
        · exact ⟨h.timers _ rn.heartbeatElapsed, rfl⟩
      · exact ⟨h, rfl⟩
    dsimp only
    split
    · exact ⟨rfl, hs.1⟩
    · split
      · refine step?_eq (hs.1.timers rn₁.electionElapsed 0) ?_ rnd (by rintro ⟨⟩)
        exact hs.2 ▸ hu
      · exact ⟨rfl, hs.1.timers rn₁.electionElapsed _⟩
  · dsimp only
    split
    · exact step?_eq (h.timers 0 rn.heartbeatElapsed) hu rnd (by rintro ⟨⟩)
    · exact ⟨rfl, h.timers _ rn.heartbeatElapsed⟩

theorem call?_eq (hu : rn.log.unstable = []) (i : Input)
    (hm : ∀ m rnd, i = .step m rnd → m.WellNumbered) : Succeeds (rn.call? i) (rn.call i) := by
  cases i with
  | tick rnd => exact tick?_eq h hu rnd
  | step m rnd => exact step?_eq h hu rnd (hm m rnd rfl)

end

end RawNode

end Raft

end DucklingDB
