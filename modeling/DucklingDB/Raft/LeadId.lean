import DucklingDB.Raft.Election
import DucklingDB.Raft.Shape

/-!
# The leader a node knows

`leadID` is learned from the messages of a leader. But the term handling of `Step` sets it to the
sender of any message of a later term that makes the node adopt that term, a vote request and a
granted probe apart. A response is such a message: a candidate that refuses its vote in a later term
is taken for the leader of that term, which it need not become.

`leadID_names_leader` is the theorem for runs in which a response that moves the term of a node
comes from a node that has led that term. `exists_false_leader` is a run in which it does not.
-/

namespace DucklingDB.Raft

open List

/-- The messages that only a leader sends. -/
def MessageType.fromLeader : MessageType → Bool
  | .app | .heartbeat | .snap => true
  | _ => false

/-- A message whose sender becomes the known leader when its term is adopted, though it need not be
one: a response, a granted probe apart. -/
def Message.Presumed (m : Message) : Prop :=
  m.type.fromLeader = false ∧ m.type ≠ .vote ∧ m.type ≠ .preVote ∧
    (m.type = .preVoteResp → m.reject = true)

instance (m : Message) : Decidable m.Presumed := inferInstanceAs (Decidable (_ ∧ _))

namespace RawNode

/-! ## What a transition does to the known leader -/

/-- The known leader and the term are kept, the leader is forgotten, or the node leads. -/
inductive LeadStep (rn rn' : RawNode) : Prop
  | keep (hT : rn'.term = rn.term) (hl : rn'.leadID = rn.leadID)
  | forget (hl : rn'.leadID = noneId)
  | win (hst : rn'.state = .leader) (hl : rn'.leadID = rn.id)

variable {rn rn' : RawNode} {rnd : ℕ} {m : Message} {rn₁ : RawNode}

theorem LeadStep.refl (rn : RawNode) : LeadStep rn rn := .keep rfl rfl

/-- The known leader and the term are kept, or the leader is forgotten. -/
def Retains (rn rn₁ : RawNode) : Prop :=
  rn₁.id = rn.id ∧ (rn₁.term = rn.term ∧ rn₁.leadID = rn.leadID ∨ rn₁.leadID = noneId)

theorem LeadStep.after (h : LeadStep rn₁ rn') (h₁ : Retains rn rn₁) : LeadStep rn rn' := by
  obtain ⟨hid, hlead⟩ := h₁
  cases h with
  | keep hT hl =>
    rcases hlead with ⟨hT₁, hl₁⟩ | hl₁
    · exact .keep (hT.trans hT₁) (hl.trans hl₁)
    · exact .forget (hl.trans hl₁)
  | forget hl => exact .forget hl
  | win hst hl => exact .win hst (hl.trans hid)

theorem Retains.leadStep (h : Retains rn rn₁) : LeadStep rn rn₁ := (LeadStep.refl rn₁).after h

/-- What is looked at here. -/
def leadView (rn : RawNode) : NodeId × ℕ × NodeId := (rn.id, rn.term, rn.leadID)

theorem retains_of_leadView_eq (h : rn'.leadView = rn.leadView) : Retains rn rn' := by
  obtain ⟨hid, hlead⟩ := Prod.mk.inj h
  exact ⟨hid, .inl (Prod.mk.inj hlead)⟩

theorem leadView_sendAppend (r : RawNode) (dst : NodeId) :
    (r.sendAppend dst).leadView = r.leadView := by
  simp only [sendAppend, send]
  split
  · rfl
  · split <;> rfl

theorem forPeers_retains {f : RawNode → NodeId → RawNode}
    (hf : ∀ r id, (f r id).leadView = r.leadView) :
    Retains rn (rn.forPeers f) := retains_of_leadView_eq (forPeers_keeps leadView hf)

theorem sendAppend_retains (dst : NodeId) : Retains rn (rn.sendAppend dst) :=
  retains_of_leadView_eq (leadView_sendAppend rn dst)

theorem maybeAdvanceCommit_retains : Retains rn rn.maybeAdvanceCommit := by
  obtain ⟨k, -, heq⟩ := rn.advanceCommitFrom_eq_commitTo rn.log.lastIndex
  rw [maybeAdvanceCommit, heq]
  exact retains_of_leadView_eq rfl

theorem becomeLeader_leadStep : LeadStep rn rn.becomeLeader := by
  obtain ⟨k, -, heq⟩ := rn.initLeader.advanceCommitFrom_eq_commitTo rn.initLeader.log.lastIndex
  have hkeep : (rn.becomeLeader.state, rn.becomeLeader.leadID) =
      (rn.initLeader.maybeAdvanceCommit.state, rn.initLeader.maybeAdvanceCommit.leadID) := by
    refine forPeers_keeps (fun r ↦ (r.state, r.leadID)) fun r id ↦ ?_
    have hview := Prod.mk.inj (Prod.mk.inj (leadView_sendAppend r id)).2
    rw [sendAppend_state, hview.2]
  rw [maybeAdvanceCommit, heq] at hkeep
  exact .win (Prod.mk.inj hkeep).1 (Prod.mk.inj hkeep).2

theorem campaignVote_leadStep : LeadStep rn (rn.campaignVote rnd) := by
  have hforget : Retains rn (rn.becomeCandidate rnd) := ⟨rfl, .inr rfl⟩
  rw [campaignVote]
  split
  · exact becomeLeader_leadStep.after hforget
  · exact .after (Retains.leadStep (forPeers_retains fun _ _ ↦ rfl)) hforget

theorem campaign_leadStep (pre : Bool) : LeadStep rn (rn.campaign rnd pre) := by
  have hforget : Retains rn (rn.becomePreCandidate rnd) := ⟨rfl, .inr rfl⟩
  rw [campaign]
  split
  · dsimp only
    split
    · exact campaignVote_leadStep.after hforget
    · exact .after (Retains.leadStep (forPeers_retains fun _ _ ↦ rfl)) hforget
  · exact campaignVote_leadStep

theorem hup_leadStep : LeadStep rn (rn.hup rnd) := by
  rw [hup]
  split
  · exact .refl rn
  · exact campaign_leadStep _

theorem tick_leadStep : LeadStep rn (rn.tick rnd) := by
  have hkeep : Retains rn rn := ⟨rfl, .inl ⟨rfl, rfl⟩⟩
  refine tick_rule (Q := Retains rn) (fun _ _ ↦ hkeep) (fun _ ↦ ⟨rfl, .inr rfl⟩)
    (fun r _ hr ↦ LeadStep.after (.keep rfl rfl) hr) (fun r hr _ ↦ ?_) (fun _ ↦ .keep rfl rfl) ?_
  · exact .after (Retains.leadStep (forPeers_retains fun _ _ ↦ rfl)) hr
  · exact hup_leadStep.after hkeep

theorem stepVote_leadStep : LeadStep rn (rn.stepVote m) := by
  rw [stepVote]
  split
  · rw [grantVote]
    split <;> exact .keep rfl rfl
  · exact .keep rfl rfl

theorem stepVoteResp_leadStep : LeadStep rn (rn.stepVoteResp m) := by
  rw [stepVoteResp]
  split
  · exact .refl rn
  · dsimp only
    split
    · exact becomeLeader_leadStep.after ⟨rfl, .inl ⟨rfl, rfl⟩⟩
    · exact .keep rfl rfl

theorem stepPreVoteResp_leadStep : LeadStep rn (rn.stepPreVoteResp rnd m) := by
  rw [stepPreVoteResp]
  split
  · exact .refl rn
  · dsimp only
    split
    · exact (campaign_leadStep false).after ⟨rfl, .inl ⟨rfl, rfl⟩⟩
    · exact .keep rfl rfl

theorem stepProp_leadStep : LeadStep rn (rn.stepProp m) := by
  rw [stepProp]
  split
  · exact .refl rn
  · refine maybeAdvanceCommit_retains.leadStep.after ?_
    exact forPeers_retains leadView_sendAppend

theorem stepAppResp_leadStep : LeadStep rn (rn.stepAppResp m) := by
  rw [stepAppResp]
  split
  · exact .refl rn
  · dsimp only
    split
    · exact (sendAppend_retains m.src).leadStep.after ⟨rfl, .inl ⟨rfl, rfl⟩⟩
    · split <;> exact maybeAdvanceCommit_retains.leadStep.after ⟨rfl, .inl ⟨rfl, rfl⟩⟩

theorem stepHeartbeatResp_leadStep : LeadStep rn (rn.stepHeartbeatResp m) := by
  rw [stepHeartbeatResp]
  split
  · dsimp only
    split
    · exact (sendAppend_retains m.src).leadStep.after ⟨rfl, .inl ⟨rfl, rfl⟩⟩
    · exact .keep rfl rfl
  · exact .refl rn

/-- What is no message of a leader teaches nothing about the leader. -/
theorem dispatch_leadStep (hty : m.type.fromLeader = false) : LeadStep rn (rn.dispatch rnd m) := by
  rw [dispatch]
  cases h : m.type with
  | app | heartbeat | snap =>
    rw [h] at hty
    exact absurd hty (by decide)
  | hup => exact hup_leadStep
  | beat =>
    dsimp only
    split
    · exact Retains.leadStep (forPeers_retains fun _ _ ↦ rfl)
    · exact .refl rn
  | vote | preVote => exact stepVote_leadStep
  | voteResp => exact stepVoteResp_leadStep
  | preVoteResp => exact stepPreVoteResp_leadStep
  | prop => exact stepProp_leadStep
  | appResp => exact stepAppResp_leadStep
  | heartbeatResp => exact stepHeartbeatResp_leadStep

/-- A message of a leader teaches who that is, or is of an earlier term. -/
theorem dispatch_learns (hty : m.type.fromLeader = true) (hT : m.term ≤ rn.term) :
    LeadStep rn (rn.dispatch rnd m) ∨
      (rn.dispatch rnd m).leadID = m.src ∧ (rn.dispatch rnd m).term = m.term := by
  rw [dispatch]
  cases h : m.type with
  | app =>
    simp only [stepApp]
    split
    · exact .inl (.keep rfl rfl)
    · split <;> exact .inr ⟨rfl, rfl⟩
  | snap =>
    simp only [stepSnap]
    split
    · exact .inl (.keep rfl rfl)
    · split <;> exact .inr ⟨rfl, rfl⟩
  | heartbeat =>
    simp only [stepHeartbeat]
    split
    · rename_i hge
      exact .inr ⟨rfl, le_antisymm hge hT⟩
    · exact .inl (.keep rfl rfl)
  | hup | beat | vote | preVote | voteResp | preVoteResp | prop | appResp | heartbeatResp =>
    rw [h] at hty
    exact absurd hty (by decide)

/-- A term that is adopted comes with a leader. -/
theorem LeadStep.adopt {T lead : ℕ} (h : LeadStep (rn.becomeFollower rnd T lead) rn') :
    LeadStep rn rn' ∨ rn'.leadID = lead ∧ rn'.term = T := by
  cases h with
  | keep hT hl => exact .inr ⟨hl, hT⟩
  | forget hl => exact .inl (.forget hl)
  | win hst hl => exact .inl (.win hst hl)

theorem step_later (hlt : rn.term < m.term) : LeadStep rn (rn.step rnd m) ∨
    (rn.step rnd m).leadID = m.src ∧ (rn.step rnd m).term = m.term ∧
      (m.type.fromLeader = true ∨ m.Presumed) := by
  rw [step, handleTerm, if_pos hlt]
  split_ifs with hlease hpre hgranted hvote
  · exact .inl (.refl rn)
  · exact .inl (dispatch_leadStep (by rw [hpre]; rfl))
  · exact .inl (dispatch_leadStep (by rw [hgranted.1]; rfl))
  · -- the sender of a vote request is not taken for the leader
    have hstep :=
      @dispatch_leadStep (rn.becomeFollower rnd m.term noneId) rnd m (by rw [hvote]; rfl)
    exact .inl (hstep.adopt.elim (fun h ↦ h) fun h ↦ .forget h.1)
  · by_cases hty : m.type.fromLeader = true
    · rcases @dispatch_learns (rn.becomeFollower rnd m.term m.src) rnd m hty le_rfl with
        hstep | hlearn
      · exact hstep.adopt.imp_right fun h ↦ ⟨h.1, h.2, .inl hty⟩
      · exact .inr ⟨hlearn.1, hlearn.2, .inl hty⟩
    · have hfalse := Bool.eq_false_iff.mpr hty
      have hstep := @dispatch_leadStep (rn.becomeFollower rnd m.term m.src) rnd m hfalse
      refine hstep.adopt.imp_right fun h ↦ ⟨h.1, h.2, .inr ⟨hfalse, hvote, hpre, fun hresp ↦ ?_⟩⟩
      by_contra hrej
      exact hgranted ⟨hresp, hrej⟩

/-- **What a message does to the known leader.** The node may learn it from a message of a leader,
or presume it. -/
theorem step_leadStep : LeadStep rn (rn.step rnd m) ∨
    (rn.step rnd m).leadID = m.src ∧ (rn.step rnd m).term = m.term ∧
      (m.type.fromLeader = true ∨ rn.term < m.term ∧ m.Presumed) := by
  by_cases hlt : rn.term < m.term
  · refine (step_later hlt).imp_right fun ⟨hl, hT, hor⟩ ↦ ⟨hl, hT, hor.imp_right fun h ↦ ⟨hlt, h⟩⟩
  · have hterm : rn.handleTerm rnd m = some rn := by rw [handleTerm, if_neg hlt]
    rw [step, hterm]
    by_cases hty : m.type.fromLeader = true
    · exact (dispatch_learns hty (not_lt.mp hlt)).imp_right fun h ↦ ⟨h.1, h.2, .inl hty⟩
    · exact .inl (dispatch_leadStep (Bool.eq_false_iff.mpr hty))

/-! ## Who sends the messages of a leader -/

/-- The messages that wait to be sent are the node's own, and it leads the term of those of a
leader. -/
def Speaks (rn : RawNode) : Prop :=
  ∀ m ∈ rn.msgs, m.src = rn.id ∧ (m.type.fromLeader = true → rn.state = .leader ∧ m.term = rn.term)

variable {sent : Message → Prop} {ok : RawNode → Message → Prop} {okLog : RaftLog → Message → Prop}

theorem Speaks.append (h : Speaks rn) (hid : rn'.id = rn.id)
    (hlead : rn.state = .leader → rn'.state = .leader ∧ rn'.term = rn.term) {new : List Message}
    (hmsgs : rn'.msgs = rn.msgs ++ new) (hnew : ∀ m ∈ new, m.src = rn.id ∧
      (m.type.fromLeader = true → rn'.state = .leader ∧ m.term = rn'.term)) : Speaks rn' := by
  intro m hm
  rw [hmsgs] at hm
  rcases mem_append.mp hm with hm | hm
  · obtain ⟨hsrc, hspeak⟩ := h m hm
    refine ⟨hsrc.trans hid.symm, fun hty ↦ ?_⟩
    obtain ⟨hst, hT⟩ := hspeak hty
    exact ⟨(hlead hst).1, hT.trans (hlead hst).2.symm⟩
  · exact ⟨(hnew m hm).1.trans hid.symm, (hnew m hm).2⟩

theorem Outgoing.speaks {m : Message} (h : rn.Outgoing m) (hty : m.type.fromLeader = true) :
    rn.state = .leader ∧ m.term = rn.term := by
  cases h with
  | harmless hh =>
    rcases hh with h | h | h | h | h <;> simp [h, MessageType.fromLeader] at hty
  | vote dst hst => cases hty
  | heartbeat dst hst => exact ⟨hst, rfl⟩
  | append dst hst hnext => exact ⟨hst, rfl⟩
  | snap dst hst hsnap => exact ⟨hst, rfl⟩

theorem Move.speaks (h : Move sent ok rn rn') (hs : Speaks rn) : Speaks rn' := by
  have hid := h.frame.id
  have hlead := h.leader
  have hnone : rn'.msgs = rn.msgs → Speaks rn' := fun hmsgs ↦
    hs.append hid hlead (hmsgs.trans (append_nil _).symm) (by simp)
  cases h with
  | grant m hm hty hT hg hok =>
    have hmsgs : (rn.grantVote m).msgs =
        rn.msgs ++ [{ type := .voteResp, src := rn.id, dst := m.src, term := m.term }] := by
      rw [grantVote, if_pos hty, voteRespType, if_neg (by simp [hty])]
      rfl
    refine hs.append hid hlead hmsgs fun r hr ↦ ?_
    rw [mem_singleton.mp hr]
    exact ⟨rfl, by rintro ⟨⟩⟩
  | send m ho =>
    refine hs.append hid hlead rfl fun r hr ↦ ?_
    rw [mem_singleton.mp hr]
    exact ⟨rfl, ho.speaks⟩
  | snapshot data =>
    obtain ⟨s, hs, -⟩ := rn.createSnapshot_eq data
    exact hnone (hs ▸ rfl)
  | _ => exact hnone rfl

theorem Moves.speaks (h : Moves sent ok rn rn') (hs : Speaks rn) : Speaks rn' := by
  induction h with
  | refl => exact hs
  | tail _ hmove ih => exact hmove.speaks ih

theorem Finish.speaks (h : Finish sent okLog rn rn') (hs : Speaks rn) : Speaks rn' := by
  have hid := h.frame.id
  have hlead := h.leader
  have hreply : ∀ {r : Message}, r.type = .appResp →
      rn'.msgs = rn.msgs ++ [{ r with src := rn.id }] → Speaks rn' := by
    intro r hty hmsgs
    refine hs.append hid hlead hmsgs fun m hm ↦ ?_
    rw [mem_singleton.mp hm]
    refine ⟨rfl, fun h ↦ absurd h ?_⟩
    simp [hty, MessageType.fromLeader]
  cases h with
  | keep => exact hs
  | accept m hm hty hT hst hprev hok => exact hreply rfl rfl
  | restore m hm hty hT hst hnew hok => exact hreply rfl rfl
  | covered m hm hty hT => exact hreply rfl rfl

end RawNode

open RawNode

theorem Action.apply_speaks {rn : RawNode} (a : Action) (hmsgs : rn.msgs = []) :
    (a.apply rn).Speaks := by
  obtain ⟨rn₀, rn₁, hb, hm, hf⟩ : ∃ rn₀ rn₁, Begins rn rn₀ ∧
      Moves (fun _ ↦ True) (fun _ _ ↦ True) rn₀ rn₁ ∧
      Finish (fun _ ↦ True) (fun _ _ ↦ True) rn₁ (a.apply rn) :=
    a.apply_moves (fun _ _ _ ↦ trivial) (fun _ _ _ _ _ ↦ trivial) (fun _ _ _ ↦ trivial)
  refine hf.speaks (hm.speaks fun m hm₀ ↦ ?_)
  rw [Begins.msgs hb, hmsgs] at hm₀
  cases hm₀

theorem Action.apply_leadStep {rn : RawNode} (a : Action) : LeadStep rn (a.apply rn) ∨
    ∃ m rnd, a = .deliver m rnd ∧ (a.apply rn).leadID = m.src ∧ (a.apply rn).term = m.term ∧
      (m.type.fromLeader = true ∨ rn.term < m.term ∧ m.Presumed) := by
  cases a with
  | tick id rnd => exact .inl tick_leadStep
  | propose id data rnd =>
    refine .inl ?_
    rw [Action.apply, propose_eq]
    exact stepProp_leadStep
  | deliver m rnd =>
    refine step_leadStep.imp_right ?_
    rintro ⟨hl, hT, hor⟩
    exact ⟨m, rnd, rfl, hl, hT, hor⟩
  | snapshot id data =>
    obtain ⟨s, hs, -⟩ := rn.createSnapshot_eq data
    rw [Action.apply, hs]
    exact .inl (.keep rfl rfl)
  | compact id => exact .inl (.keep rfl rfl)

/-! ## Runs -/

variable {cfg : Config} {c c' : Cluster} {a : Action} {led led' : NodeId → ℕ → Prop}

/-- The known leaders and the senders of leaders' messages have led the terms in question. -/
structure LeadersLed (cfg : Config) (led : NodeId → ℕ → Prop) (c : Cluster) : Prop where
  settled : Settled cfg c
  lead : ∀ p ∈ cfg.ids, (c.nodes p).leadID ≠ noneId → led (c.nodes p).leadID (c.nodes p).term
  net : ∀ m ∈ c.net, m.type.fromLeader = true → led m.src m.term

/-- **One event.** -/
theorem LeadersLed.act (h : LeadersLed cfg led c) (ha : c.act cfg a = some c')
    (hmono : ∀ p T, led p T → led' p T) (hnow : ∀ p T, c'.Leads p T → led' p T)
    (hpresumed : ∀ m rnd, a = .deliver m rnd → (c.nodes m.dst).term < m.term → m.Presumed →
      led m.src m.term) : LeadersLed cfg led' c' := by
  have hsettled := h.settled.act ha
  obtain ⟨⟨hid, hnet⟩, rfl⟩ := Cluster.act_eq_some ha
  have hself := c.settle_nodes_self a.node (a.apply (c.nodes a.node))
  -- the node that moved leads, if it does so before its `Ready` cycle
  have hleads : (a.apply (c.nodes a.node)).state = .leader →
      led' a.node (a.apply (c.nodes a.node)).term := fun hst ↦
    hnow _ _ ⟨by rw [hself]; exact hst, by rw [hself]; rfl⟩
  refine ⟨hsettled, fun p hp hne ↦ ?_, fun m hm hty ↦ ?_⟩
  · by_cases hpa : p = a.node
    · subst hpa
      rw [hself] at hne ⊢
      change (a.apply (c.nodes a.node)).leadID ≠ noneId at hne
      change led' (a.apply (c.nodes a.node)).leadID (a.apply (c.nodes a.node)).term
      rcases a.apply_leadStep with hstep | ⟨m, rnd, rfl, hl, hT, hor⟩
      · cases hstep with
        | keep hT hl =>
          rw [hl] at hne
          rw [hl, hT]
          exact hmono _ _ (h.lead _ hid hne)
        | forget hl => exact absurd hl hne
        | win hst hl =>
          rw [hl, h.settled.id _ hid]
          exact hleads hst
      · rw [hl, hT]
        refine hmono _ _ ?_
        rcases hor with hty | ⟨hlt, hpre⟩
        · exact h.net m (hnet m rnd rfl) hty
        · exact hpresumed m rnd rfl hlt hpre
    · rw [c.settle_nodes_of_ne _ hpa] at hne ⊢
      exact hmono _ _ (h.lead p hp hne)
  · rcases mem_append.mp hm with hm | hm
    · exact hmono _ _ (h.net m hm hty)
    · obtain ⟨hsrc, hspeak⟩ := a.apply_speaks (h.settled.msgs _ hid) m hm
      obtain ⟨hst, hT⟩ := hspeak hty
      rw [hsrc, (a.apply_frame _).id, h.settled.id _ hid, hT]
      exact hleads hst

/-- **The known leader leads.** In every run in which the sender of a presumed leader's message has
led the term of the message, a node that knows a leader knows one that has led its term. -/
theorem leadID_names_leader (r : AnyRun cfg)
    (hpresumed : ∀ n m rnd, r.event n = some (.deliver m rnd) →
      ((r.state n).nodes m.dst).term < m.term → m.Presumed →
      ∃ i ≤ n, (r.state i).Leads m.src m.term) (n : ℕ) {p : NodeId} (hp : p ∈ cfg.ids)
    (hlead : ((r.state n).nodes p).leadID ≠ noneId) :
    ∃ i ≤ n, (r.state i).Leads ((r.state n).nodes p).leadID ((r.state n).nodes p).term := by
  have hinv : ∀ n, LeadersLed cfg (fun p T ↦ ∃ i ≤ n, (r.state i).Leads p T) (r.state n) := by
    intro n
    induction n with
    | zero =>
      rw [r.zero]
      exact ⟨settled_init cfg, fun p _ hne ↦ absurd rfl hne, by rintro _ ⟨⟩⟩
    | succ n ih =>
      have hmono : ∀ p T, (∃ i ≤ n, (r.state i).Leads p T) → ∃ i ≤ n + 1, (r.state i).Leads p T :=
        fun p T ⟨i, hi, hleads⟩ ↦ ⟨i, hi.trans (Nat.le_succ n), hleads⟩
      cases ha : r.event n with
      | none =>
        rw [r.idle n ha]
        exact ⟨ih.settled, fun p hp hne ↦ hmono _ _ (ih.lead p hp hne),
          fun m hm hty ↦ hmono _ _ (ih.net m hm hty)⟩
      | some a =>
        refine ih.act (r.next n a ha).1 hmono (fun p T hleads ↦ ⟨n + 1, le_rfl, hleads⟩) ?_
        rintro m rnd rfl
        exact hpresumed n m rnd ha
  exact (hinv n).lead p hp hlead

/-- No response moves the term of a node. -/
def NothingPresumed (c : Cluster) : Action → Prop
  | .deliver m _ => (c.nodes m.dst).term < m.term → ¬ m.Presumed
  | _ => True

instance (c : Cluster) : DecidablePred (NothingPresumed c)
  | .deliver m _ => inferInstanceAs (Decidable ((c.nodes m.dst).term < m.term → ¬ m.Presumed))
  | .tick _ _ | .propose _ _ _ | .snapshot _ _ | .compact _ => inferInstanceAs (Decidable True)

/-- Node `1` is elected in term `1`, and its first append reaches node `2`. -/
def electAndAppend : List Action :=
  Action.elect 1 2 1 0 0 ++ [Action.append 1 2 1 0 0 0 [{ term := 1, index := 1 }]]

theorem leadID_names_leader_append : ∃ r : Run threeNodes NothingPresumed,
    ((r.state 15).nodes 2).leadID = 1 ∧ ∃ i ≤ 15, (r.state i).Leads 1 1 := by
  have hadm : (Cluster.init threeNodes).Admits threeNodes NothingPresumed electAndAppend := by
    decide +kernel
  have hlead : (((Run.ofActions _ hadm).state 15).nodes 2).leadID = 1 ∧
      (((Run.ofActions _ hadm).state 15).nodes 2).term = 1 := by
    rw [Run.ofActions_state]
    decide +kernel
  generalize Run.ofActions electAndAppend hadm = r at hlead
  have hknown : ((r.state 15).nodes 2).leadID ≠ noneId → ∃ i ≤ 15,
      (r.state i).Leads ((r.state 15).nodes 2).leadID ((r.state 15).nodes 2).term :=
    leadID_names_leader (r.mono fun _ _ _ ↦ trivial)
      (fun n m rnd hev hlt hpre ↦ absurd hpre ((r.next n _ hev).2 hlt)) 15 (by decide)
  rw [hlead.1, hlead.2] at hknown
  exact ⟨r, hlead.1, hknown (by decide)⟩

/-- Node `1` is a candidate in term `1` and asks for the vote of node `2`, which has gone on to its
second candidacy by then and refuses it in term `2`. -/
def falseLeader : List Action :=
  Action.timeout 1 ++ Action.probe 1 3 1 0 0 ++ Action.timeout 2 ++ Action.probe 2 3 1 0 0 ++
  Action.timeout 2 ++ Action.probe 2 3 2 0 0 ++
  [Action.requestVote 1 2 1 0 0,
    .deliver { type := .voteResp, src := 2, dst := 1, term := 2, reject := true } 0]

/-- The candidate `2` is taken for the leader of term `2`. -/
theorem exists_false_leader : ∃ (r : AnyRun threeNodes) (n : ℕ),
    ((r.state n).nodes 1).leadID = 2 ∧ ((r.state n).nodes 1).term = 2 ∧
      ∀ i ≤ n, ¬ (r.state i).Leads 2 2 := by
  have hadm : (Cluster.init threeNodes).Admits threeNodes (fun _ _ ↦ True) falseLeader := by
    decide +kernel
  refine ⟨Run.ofActions _ hadm, 38, ?_⟩
  simp only [Run.ofActions_state]
  decide +kernel

end DucklingDB.Raft
