import DucklingDB.Raft.PreVote

/-!
# Terms as machine words

The source keeps a term in a 64-bit word, and `becomeCandidate` adds one to it without looking. In a
cluster a term is only reached by counting, and no run is long enough to come near `2 ^ 64`. A
message from outside can carry any term, though. The greatest one makes the node that adopts it wrap
around to zero when it campaigns.

The functions of `RawNode` count in natural numbers. No term that a call computes is above the
node's last one by more than one, so `wrapped`, applied to the result of a call, makes words of all
of them. It changes nothing as long as the terms of node and message are below `2 ^ 64 - 2`
(`wrapped_step`, `wrapped_tick`).
-/

namespace DucklingDB.Raft

def Entry.wrapped (e : Entry) : Entry := { e with term := e.term % 2 ^ 64 }

def Message.wrapped (m : Message) : Message :=
  { m with
    term := m.term % 2 ^ 64, logTerm := m.logTerm % 2 ^ 64
    entries := m.entries.map Entry.wrapped }

namespace RawNode

/-- The node after a call, with its terms as 64-bit words. -/
def wrapped (rn : RawNode) : RawNode :=
  if rn.term + 1 < 2 ^ 64 then rn
  else
    { rn with
      term := rn.term % 2 ^ 64
      log := { rn.log with unstable := rn.log.unstable.map Entry.wrapped }
      msgs := rn.msgs.map Message.wrapped
      ballots := rn.ballots.map fun b ↦ (b.1 % 2 ^ 64, b.2) }

variable (rn : RawNode) (rnd : ℕ) (m : Message)

theorem bcastPreVote_term : rn.bcastPreVote.term = rn.term :=
  forPeers_keeps RawNode.term fun _ _ ↦ rfl

theorem bcastHeartbeat_term : rn.bcastHeartbeat.term = rn.term :=
  forPeers_keeps RawNode.term fun _ _ ↦ rfl

theorem maybeAdvanceCommit_term : rn.maybeAdvanceCommit.term = rn.term :=
  congrArg Prod.fst rn.maybeAdvanceCommit_standing

theorem sendAppend_term (dst : NodeId) : (rn.sendAppend dst).term = rn.term :=
  congrArg Prod.fst (rn.sendAppend_standing dst)

theorem bcastAppend_term : rn.bcastAppend.term = rn.term :=
  forPeers_keeps RawNode.term sendAppend_term

theorem becomeLeader_term : rn.becomeLeader.term = rn.term := by
  rw [becomeLeader, bcastAppend_term, maybeAdvanceCommit_term]
  rfl

theorem campaignVote_term : (rn.campaignVote rnd).term = rn.term + 1 := by
  rw [campaignVote]
  split
  · rw [becomeLeader_term]
    rfl
  · exact forPeers_keeps RawNode.term fun _ _ ↦ rfl

theorem campaign_term_le (pre : Bool) : (rn.campaign rnd pre).term ≤ rn.term + 1 := by
  rw [campaign]
  split
  · dsimp only
    split
    · exact (campaignVote_term _ rnd).le
    · exact (bcastPreVote_term _).le.trans (Nat.le_succ _)
  · exact (campaignVote_term _ rnd).le

theorem hup_term_le : (rn.hup rnd).term ≤ rn.term + 1 := by
  rw [hup]
  split
  · exact Nat.le_succ _
  · exact rn.campaign_term_le rnd _

theorem stepVote_term : (rn.stepVote m).term = rn.term := by
  rw [stepVote, grantVote]
  split
  · split <;> rfl
  · rfl

theorem dispatch_term_le :
    (rn.dispatch rnd m).term ≤ max rn.term m.term + 1 := by
  have hsame {r : RawNode} (h : r.term = rn.term) : r.term ≤ max rn.term m.term + 1 := by omega
  have htaken {r : RawNode} (h : r.term = m.term) : r.term ≤ max rn.term m.term + 1 := by omega
  have hnext {r : RawNode} (h : r.term ≤ rn.term + 1) : r.term ≤ max rn.term m.term + 1 := by omega
  cases hty : m.type with
  | hup =>
    simp only [dispatch, hty]
    exact hnext (rn.hup_term_le rnd)
  | beat =>
    simp only [dispatch, hty]
    split
    · exact hsame rn.bcastHeartbeat_term
    · exact hsame rfl
  | vote | preVote =>
    simp only [dispatch, hty]
    exact hsame (rn.stepVote_term m)
  | voteResp =>
    simp only [dispatch, hty, stepVoteResp]
    split
    · exact hsame rfl
    · split
      · exact hsame (becomeLeader_term _)
      · exact hsame rfl
  | preVoteResp =>
    simp only [dispatch, hty, stepPreVoteResp]
    split
    · exact hsame rfl
    · split
      · exact hnext (campaign_term_le _ rnd false)
      · exact hsame rfl
  | prop =>
    simp only [dispatch, hty, stepProp]
    split
    · exact hsame rfl
    · rw [maybeAdvanceCommit_term, bcastAppend_term]
      exact hsame rfl
  | app =>
    simp only [dispatch, hty, stepApp]
    split
    · exact hsame rfl
    · split <;> exact htaken rfl
  | appResp =>
    simp only [dispatch, hty, stepAppResp]
    split
    · exact hsame rfl
    · split
      · exact hsame (sendAppend_term _ _)
      · rw [maybeAdvanceCommit_term]
        split <;> exact hsame rfl
  | heartbeat =>
    simp only [dispatch, hty, stepHeartbeat]
    split <;> exact hsame rfl
  | heartbeatResp =>
    simp only [dispatch, hty, stepHeartbeatResp]
    split
    · split
      · exact hsame (sendAppend_term _ _)
      · exact hsame rfl
    · exact hsame rfl
  | snap =>
    simp only [dispatch, hty, stepSnap]
    split
    · exact hsame rfl
    · split <;> exact htaken rfl

/-- **A message moves the term at most one above the greater of the two.** -/
theorem step_term_le : (rn.step rnd m).term ≤ max rn.term m.term + 1 := by
  rw [step]
  cases h₁ : rn.handleTerm rnd m with
  | none => exact (le_max_left _ _).trans (Nat.le_succ _)
  | some rn₁ =>
    have hterm : rn₁.term ≤ max rn.term m.term := by
      rcases handleTerm_cases h₁ with ⟨rfl, -⟩ | ⟨hT, rfl⟩
      · exact le_max_left _ _
      · exact le_max_right _ _
    have hle := rn₁.dispatch_term_le rnd m
    dsimp only
    omega

theorem tick_term_le : (rn.tick rnd).term ≤ rn.term + 1 :=
  tick_rule (Q := fun r ↦ r.term = rn.term) (P := fun r ↦ r.term ≤ rn.term + 1)
    (fun _ _ ↦ rfl) (fun _ ↦ rfl) (fun _ _ hr ↦ hr.le.trans (Nat.le_succ _))
    (fun r hr _ ↦ ((bcastHeartbeat_term { r with heartbeatElapsed := 0 }).trans hr).le.trans
      (Nat.le_succ _))
    (fun _ ↦ Nat.le_succ _) (hup_term_le _ rnd)

variable {rnd m}

theorem wrapped_of_lt {rn : RawNode} (h : rn.term + 1 < 2 ^ 64) : rn.wrapped = rn := if_pos h

theorem wrapped_step (hrn : rn.term + 2 < 2 ^ 64) (hm : m.term + 2 < 2 ^ 64) :
    (rn.step rnd m).wrapped = rn.step rnd m := by
  have := rn.step_term_le rnd m
  exact wrapped_of_lt (by omega)

theorem wrapped_tick (hrn : rn.term + 2 < 2 ^ 64) : (rn.tick rnd).wrapped = rn.tick rnd := by
  have := rn.tick_term_le rnd
  exact wrapped_of_lt (by omega)

end RawNode

end DucklingDB.Raft
