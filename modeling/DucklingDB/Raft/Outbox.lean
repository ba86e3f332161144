import DucklingDB.Raft.Checked

/-!
# What the messages of a call say

`HardState` must be persisted before a response leaves the node, because the response says something
about it: the term the sender is in, and the vote it has cast. All messages that one `Tick` or
`Step` queues say this about the hard state that the node has at the end of the call
(`call_vouches`).
-/

namespace DucklingDB.Raft

open List

/-- The message carries the term its sender is in. A probe carries a term that nobody is in yet, and
a granted probe repeats it. -/
def Message.CarriesTerm (m : Message) : Prop :=
  m.type ≠ .preVote ∧ (m.type = .preVoteResp → m.reject = true)

/-- What the message says about the hard state of its sender is in `hs`. -/
structure Message.Vouches (m : Message) (hs : HardState) : Prop where
  term : m.CarriesTerm → m.term ≤ hs.term
  vote : m.type = .voteResp → m.reject = false → m.term = hs.term → m.dst = hs.votedFor

namespace RawNode

/-- `rn'` is `rn` with further messages of its term, none of which grants a vote, or probes. -/
structure Emits (rn rn' : RawNode) : Prop where
  term : rn'.term = rn.term
  votedFor : rn'.votedFor = rn.votedFor
  msgs : ∀ m ∈ rn'.msgs, m ∈ rn.msgs ∨ m.type = .preVote ∨
    m.term = rn.term ∧ (m.type = .voteResp → m.reject = true)

namespace Emits

variable {rn rn' r₁ r₂ r₃ : RawNode}

theorem refl (rn : RawNode) : rn.Emits rn := ⟨rfl, rfl, fun _ hm ↦ .inl hm⟩

theorem trans (h : r₁.Emits r₂) (h' : r₂.Emits r₃) : r₁.Emits r₃ := by
  refine ⟨h'.term.trans h.term, h'.votedFor.trans h.votedFor, fun m hm ↦ ?_⟩
  rcases h'.msgs m hm with hm | hm
  · exact h.msgs m hm
  · rw [h.term] at hm
    exact .inr hm

theorem send (rn : RawNode) {m : Message}
    (hm : m.type = .preVote ∨ m.term = rn.term ∧ (m.type = .voteResp → m.reject = true)) :
    rn.Emits (rn.send m) := by
  refine ⟨rfl, rfl, fun m' hm' ↦ ?_⟩
  rcases mem_append.mp hm' with hm' | hm'
  · exact .inl hm'
  · rw [mem_singleton.mp hm']
    exact .inr hm

theorem forPeers {f : RawNode → NodeId → RawNode} (hf : ∀ (r : RawNode) id, r.Emits (f r id)) :
    rn.Emits (rn.forPeers f) :=
  forPeers_keep rn.Emits (.refl rn) fun r id hr ↦ hr.trans (hf r id)

theorem vouches (h : rn.Emits rn') (hnil : rn.msgs = []) :
    ∀ m ∈ rn'.msgs, m.Vouches rn'.hardState := by
  intro m hm
  rcases h.msgs m hm with hm | hty | ⟨hT, hrej⟩
  · rw [hnil] at hm
    cases hm
  · exact ⟨fun hc ↦ absurd hty hc.1, fun hv ↦ by cases hv.symm.trans hty⟩
  · refine ⟨fun _ ↦ (hT.trans h.term.symm).le, fun hv hr ↦ ?_⟩
    cases (hrej hv).symm.trans hr

end Emits

/-! ## The parts of a step -/

variable (rn : RawNode)

theorem bcastHeartbeat_emits : rn.Emits rn.bcastHeartbeat :=
  .forPeers fun r _ ↦ .send r (.inr ⟨rfl, by simp⟩)

theorem sendAppend_emits (dst : NodeId) : rn.Emits (rn.sendAppend dst) := by
  rw [sendAppend]
  split
  · have h := Emits.send rn (m := { type := .snap, dst := dst, term := rn.term
                                    snapshot := rn.log.storage.snapshot })
      (.inr ⟨rfl, by simp⟩)
    exact ⟨h.term, h.votedFor, h.msgs⟩
  · split
    · exact .refl rn
    · exact .send rn (.inr ⟨rfl, by rintro ⟨⟩⟩)

theorem bcastAppend_emits : rn.Emits rn.bcastAppend := .forPeers sendAppend_emits

theorem advanceCommitFrom_emits : ∀ n, rn.Emits (rn.advanceCommitFrom n)
  | 0 => .refl rn
  | n + 1 => by
    rw [advanceCommitFrom]
    split
    · split
      · exact .refl rn
      · split
        · exact .refl rn
        · split
          · exact ⟨rfl, rfl, fun _ hm ↦ .inl hm⟩
          · exact advanceCommitFrom_emits n
    · exact .refl rn

theorem becomeLeader_emits : rn.Emits rn.becomeLeader := by
  have hinit : rn.Emits rn.initLeader := ⟨rfl, rfl, fun _ hm ↦ .inl hm⟩
  exact (hinit.trans (advanceCommitFrom_emits _ _)).trans (bcastAppend_emits _)

theorem rejectAppend_emits (m : Message) : rn.Emits (rn.rejectAppend m) :=
  .send rn (.inr ⟨rfl, by simp⟩)

/-! ## Calls -/

variable {rn} {m : Message}

/-- Every message vouches for the hard state of the node. -/
def AllVouch (rn : RawNode) : Prop := ∀ m ∈ rn.msgs, m.Vouches rn.hardState

section

variable (h : rn.msgs = [])
include h

variable (rnd : ℕ)

theorem campaignVote_vouches : (rn.campaignVote rnd).AllVouch := by
  rw [campaignVote]
  split
  · exact (becomeLeader_emits _).vouches h
  · exact Emits.vouches (.forPeers fun r _ ↦ .send r (.inr ⟨rfl, by simp⟩)) h

theorem campaign_vouches (pre : Bool) : (rn.campaign rnd pre).AllVouch := by
  rw [campaign]
  split
  · dsimp only
    split
    · exact campaignVote_vouches h rnd
    · exact Emits.vouches (.forPeers fun r _ ↦ .send r (.inl rfl)) h
  · exact campaignVote_vouches h rnd

theorem hup_vouches : (rn.hup rnd).AllVouch := by
  rw [hup]
  split
  · exact (Emits.refl rn).vouches h
  · exact campaign_vouches h rnd _

/-- A granted vote is the vote that the node then has. -/
theorem stepVote_vouches (hty : m.type = .vote ∨ m.type = .preVote)
    (hT : m.type = .vote → m.term ≤ rn.term) : (rn.stepVote m).AllVouch := by
  rw [stepVote]
  split
  · rename_i hg
    rw [grantVote]
    intro r hr
    rcases hty with hty | hty
    · rw [if_pos hty] at hr ⊢
      have hr : r ∈ rn.msgs ++ [_] := hr
      rw [h, nil_append, mem_singleton] at hr
      rw [hr]
      exact ⟨fun _ ↦ hT hty, fun _ _ _ ↦ rfl⟩
    · have hne : m.type ≠ .vote := by rw [hty]; simp
      rw [if_neg hne] at hr ⊢
      have hr : r ∈ rn.msgs ++ [_] := hr
      rw [h, nil_append, mem_singleton] at hr
      rw [hr]
      have hresp : voteRespType m.type = .preVoteResp := if_pos hty
      exact ⟨fun hc ↦ absurd (hc.2 hresp) (by simp),
        fun hv ↦ absurd (hv.symm.trans hresp) (by simp)⟩
  · exact (Emits.send rn (.inr ⟨rfl, fun _ ↦ rfl⟩)).vouches h

theorem stepApp_vouches (m : Message) : (rn.stepApp rnd m).AllVouch := by
  rw [stepApp]
  split
  · exact (rejectAppend_emits _ m).vouches h
  · dsimp only
    split
    · exact (rejectAppend_emits _ m).vouches h
    · exact (Emits.send _ (.inr ⟨rfl, by simp⟩)).vouches h

theorem stepSnap_vouches (m : Message) : (rn.stepSnap rnd m).AllVouch := by
  rw [stepSnap]
  split
  · exact (rejectAppend_emits _ m).vouches h
  · dsimp only
    split <;> exact (Emits.send _ (.inr ⟨rfl, by simp⟩)).vouches h

theorem stepProp_vouches (m : Message) : (rn.stepProp m).AllVouch := by
  rw [stepProp]
  split
  · exact (Emits.refl rn).vouches h
  · exact ((bcastAppend_emits _).trans (advanceCommitFrom_emits _ _)).vouches h

theorem stepAppResp_vouches (m : Message) : (rn.stepAppResp m).AllVouch := by
  rw [stepAppResp]
  split
  · exact (Emits.refl rn).vouches h
  · dsimp only
    split
    · exact (sendAppend_emits _ _).vouches h
    · split <;> exact (advanceCommitFrom_emits _ _).vouches h

theorem dispatch_vouches (hT : m.type = .vote → m.term ≤ rn.term) (rnd : ℕ) :
    (rn.dispatch rnd m).AllVouch := by
  rw [dispatch]
  split
  · exact hup_vouches h rnd
  · split
    · exact (bcastHeartbeat_emits rn).vouches h
    · exact (Emits.refl rn).vouches h
  · rename_i hty
    exact stepVote_vouches h (.inl hty) hT
  · rename_i hty
    exact stepVote_vouches h (.inr hty) hT
  · rw [stepVoteResp]
    split
    · exact (Emits.refl rn).vouches h
    · dsimp only
      split
      · exact (becomeLeader_emits _).vouches h
      · exact (Emits.refl _).vouches h
  · rw [stepPreVoteResp]
    split
    · exact (Emits.refl rn).vouches h
    · dsimp only
      split
      · exact campaign_vouches h rnd false
      · exact (Emits.refl _).vouches h
  · exact stepProp_vouches h m
  · exact stepApp_vouches h rnd m
  · exact stepAppResp_vouches h m
  · rw [stepHeartbeat]
    refine (Emits.send _ (.inr ⟨rfl, by simp⟩)).vouches ?_
    split <;> exact h
  · rw [stepHeartbeatResp]
    split
    · dsimp only
      split
      · exact (sendAppend_emits _ _).vouches h
      · exact (Emits.refl _).vouches h
    · exact (Emits.refl rn).vouches h
  · exact stepSnap_vouches h rnd m

theorem step_vouches (m : Message) : (rn.step rnd m).AllVouch := by
  rw [step]
  cases hterm : rn.handleTerm rnd m with
  | none => exact (Emits.refl rn).vouches h
  | some rn₁ =>
    refine dispatch_vouches ((handleTerm_begins hterm).msgs.trans h) (fun hty ↦ ?_) rnd
    refine handleTerm_le hterm ?_ ?_ <;> rw [hty] <;> simp

theorem tick_vouches : (rn.tick rnd).AllVouch := by
  refine tick_rule (Q := fun r ↦ r.msgs = []) (P := AllVouch) (fun _ _ ↦ h) (fun _ ↦ h)
    (fun r _ hr ↦ ?_) (fun r hr _ ↦ (bcastHeartbeat_emits _).vouches hr) (fun _ ↦ ?_)
    (@hup_vouches { rn with electionElapsed := 0 } h rnd)
  · exact (Emits.refl _).vouches hr
  · exact (Emits.refl _).vouches h

/-- **The messages of a call vouch for the hard state** that the node has when it returns. -/
theorem call_vouches (i : Input) : (rn.call i).AllVouch := by
  cases i with
  | tick rnd => exact tick_vouches h rnd
  | step m rnd => exact step_vouches h rnd m

end

end RawNode

end DucklingDB.Raft
