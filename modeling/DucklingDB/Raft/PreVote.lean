import DucklingDB.Raft.Move

/-!
# Pre-elections leave the term alone

A node that times out asks its peers for pre-votes at a term it has not adopted, and campaigns for
real only when a quorum has answered. With two or more peers its own pre-vote is not a quorum, so a
node that hears nothing never leaves the term it is in, however often it times out, and a node that
is probed by others does nothing but answer. A leader that hears of no quorum steps down.
-/

namespace DucklingDB.Raft

namespace RawNode

variable {rn : RawNode}

/-- What decides whether the next time-out can move the term. -/
def standing (rn : RawNode) : ℕ × Bool × List NodeId := (rn.term, rn.preVote, rn.peers)

/-! ## Ticks -/

theorem two_le_quorum (hpeers : 2 ≤ rn.peers.length) : 2 ≤ rn.quorum := by
  rw [quorum, majority]
  omega

theorem hup_standing (rnd : ℕ) (hpre : rn.preVote = true) (hpeers : 2 ≤ rn.peers.length) :
    (rn.hup rnd).standing = rn.standing := by
  rw [hup]
  split
  · rfl
  · have hlost : ¬(rn.becomePreCandidate rnd).tallyVotes ≥ (rn.becomePreCandidate rnd).quorum := by
      have hq : 2 ≤ (rn.becomePreCandidate rnd).quorum := two_le_quorum hpeers
      rw [show (rn.becomePreCandidate rnd).tallyVotes = 1 from rfl]
      omega
    rw [hpre, campaign, if_pos rfl]
    rw [if_neg hlost]
    exact forPeers_keeps standing fun _ _ ↦ rfl

theorem tick_standing (rnd : ℕ) (hpre : rn.preVote = true) (hpeers : 2 ≤ rn.peers.length) :
    (rn.tick rnd).standing = rn.standing :=
  -- a leader that steps down keeps the term
  tick_rule (Q := fun r ↦ r.standing = rn.standing) (P := fun r ↦ r.standing = rn.standing)
    (fun _ _ ↦ rfl) (fun _ ↦ rfl) (fun _ _ hr ↦ hr) (fun _ hr _ ↦
    Eq.trans (forPeers_keeps standing fun _ _ ↦ rfl) hr)
    (fun _ ↦ rfl) (@hup_standing { rn with electionElapsed := 0 } rnd hpre hpeers)

/-! ## Probes -/

variable (rn : RawNode)

/-- **A probed node does nothing but answer.** -/
theorem step_preVote (rnd : ℕ) {m : Message} (hm : m.type = .preVote) :
    ∃ ms, rn.step rnd m = { rn with msgs := ms } := by
  have hstay : rn.handleTerm rnd m = none ∨ rn.handleTerm rnd m = some rn := by
    rw [handleTerm, if_pos hm]
    split
    · split
      · exact .inl rfl
      · exact .inr rfl
    · exact .inr rfl
  have hanswer : ∃ ms, rn.stepVote m = { rn with msgs := ms } := by
    rw [stepVote]
    split
    · rw [grantVote, if_neg (by rw [hm]; decide)]
      exact ⟨_, rfl⟩
    · exact ⟨_, rfl⟩
  rcases hstay with hnone | hsome
  · exact ⟨rn.msgs, by rw [step, hnone]⟩
  · obtain ⟨ms, hms⟩ := hanswer
    refine ⟨ms, ?_⟩
    rw [step, hsome]
    simpa only [dispatch, hm] using hms

/-! ## The life of an isolated node -/

theorem sendAppend_standing (dst : NodeId) : (rn.sendAppend dst).standing = rn.standing := by
  simp only [sendAppend]
  split
  · rfl
  · split <;> rfl

theorem maybeAdvanceCommit_standing : rn.maybeAdvanceCommit.standing = rn.standing := by
  obtain ⟨k, -, hk⟩ := rn.advanceCommitFrom_eq_commitTo rn.log.lastIndex
  rw [maybeAdvanceCommit, hk]
  rfl

theorem propose_standing (rnd : ℕ) (data : Option Bytes) :
    (rn.propose rnd data).standing = rn.standing := by
  rw [propose_eq, stepProp]
  split
  · rfl
  · rw [maybeAdvanceCommit_standing, bcastAppend]
    exact forPeers_keeps standing sendAppend_standing

end RawNode

/-- No message but a probe reaches the node. -/
def Action.Isolated (a : Action) : Prop := ∀ m rnd, a = .deliver m rnd → m.type = .preVote

namespace RawNode

variable {rn : RawNode}

/-- One event at the node and the `Ready` cycle after it. -/
def stepAlone (rn : RawNode) (a : Action) : RawNode := (a.apply rn).handleReady

def runAlone (rn : RawNode) (as : List Action) : RawNode := as.foldl stepAlone rn

theorem stepAlone_standing {a : Action} (ha : a.Isolated) (hpre : rn.preVote = true)
    (hpeers : 2 ≤ rn.peers.length) : (rn.stepAlone a).standing = rn.standing := by
  -- the `Ready` cycle touches neither term nor options
  change (a.apply rn).standing = rn.standing
  cases a with
  | tick id rnd => exact tick_standing rnd hpre hpeers
  | propose id data rnd => exact propose_standing rn rnd data
  | deliver m rnd =>
    obtain ⟨ms, hms⟩ := rn.step_preVote rnd (ha m rnd rfl)
    rw [Action.apply, hms]
    rfl
  | snapshot id data =>
    obtain ⟨s, hs, -⟩ := rn.createSnapshot_eq data
    rw [Action.apply, hs]
    rfl
  | compact id => rfl

/-- What one step keeps as long as the standing stays the same, a whole run keeps. -/
theorem foldl_standing {α : Type} (f : RawNode → α → RawNode) (ok : α → Prop)
    (hf : ∀ (r : RawNode) x, ok x → r.preVote = true → 2 ≤ r.peers.length →
      (f r x).standing = r.standing) :
    ∀ (xs : List α) (r : RawNode), (∀ x ∈ xs, ok x) → r.preVote = true → 2 ≤ r.peers.length →
      (xs.foldl f r).standing = r.standing := by
  intro xs
  induction xs with
  | nil => exact fun _ _ _ _ ↦ rfl
  | cons x xs ih =>
    intro r hok hpre hpeers
    have hstep : (f r x).standing = r.standing := hf r x (hok x (.head _)) hpre hpeers
    have hpre' : (f r x).preVote = true := (congrArg (fun s ↦ s.2.1) hstep).trans hpre
    have hpeers' : 2 ≤ (f r x).peers.length := by
      have : (f r x).peers = r.peers := congrArg (fun s ↦ s.2.2) hstep
      rwa [this]
    rw [List.foldl_cons, ih _ (fun y hy ↦ hok y (.tail _ hy)) hpre' hpeers', hstep]

/-- **PreVote never disturbs terms.** Ticks alone leave the term of a node with a peer where it is;
a probe changes nothing a node decides by; and a node that only ticks, serves its clients and
answers probes is still in the term it started from. -/
theorem preVote_keeps_term (hpre : rn.preVote = true) (hpeers : 2 ≤ rn.peers.length) :
    (∀ draws : List ℕ, (draws.foldl tick rn).term = rn.term) ∧
    (∀ (rnd : ℕ) (m : Message), m.type = .preVote →
      (rn.step rnd m).term = rn.term ∧ (rn.step rnd m).votedFor = rn.votedFor ∧
      (rn.step rnd m).state = rn.state ∧ (rn.step rnd m).leadID = rn.leadID ∧
      (rn.step rnd m).log = rn.log ∧ (rn.step rnd m).log.committed = rn.log.committed ∧
      (rn.step rnd m).electionElapsed = rn.electionElapsed ∧
      (rn.step rnd m).electionTimeout = rn.electionTimeout) ∧
    ∀ as : List Action, (∀ a ∈ as, a.Isolated) → (rn.runAlone as).term = rn.term := by
  refine ⟨fun draws ↦ ?_, fun rnd m hm ↦ ?_, fun as has ↦ ?_⟩
  · have hrun : (draws.foldl tick rn).standing = rn.standing :=
      foldl_standing tick (fun _ ↦ True) (fun _ rnd _ ↦ tick_standing rnd) draws rn
        (fun _ _ ↦ trivial) hpre hpeers
    exact congrArg Prod.fst hrun
  · obtain ⟨ms, hms⟩ := rn.step_preVote rnd hm
    rw [hms]
    exact ⟨rfl, rfl, rfl, rfl, rfl, rfl, rfl, rfl⟩
  · have hrun : (rn.runAlone as).standing = rn.standing :=
      foldl_standing _ Action.Isolated (fun _ _ ha ↦ stepAlone_standing ha) as rn has hpre hpeers
    exact congrArg Prod.fst hrun

/-- It times out and probes, and answers the probe of its peer. -/
theorem preVote_keeps_term_probing :
    let rn := newRawNode 1 [1, 2] {} 0
    let probing := (List.replicate 10 0).foldl tick rn
    let answered := rn.step 0 { type := .preVote, src := 2, dst := 1, term := 1 }
    probing.state = .preCandidate ∧ probing.msgs ≠ [] ∧ probing.term = 0 ∧
      answered.msgs ≠ [] ∧ answered.term = 0 := by
  intro rn probing answered
  obtain ⟨hticks, hprobe, -⟩ := @preVote_keeps_term rn rfl (by decide)
  exact ⟨by decide +kernel, by decide +kernel, hticks _, by decide +kernel, (hprobe 0 _ rfl).1⟩

/-! ## A leader on its own -/

variable {rnd n : ℕ}

/-- The peers that the check of the quorum counts. -/
def active (rn : RawNode) : ℕ :=
  rn.peers.countP fun id ↦ id == rn.id || rn.recentActive.get id false

/-- The node has heard of no quorum since the last check, and the next one is at most `n` ticks
away. -/
def Lapses (rn : RawNode) (n : ℕ) : Prop :=
  rn.checkQuorum = true ∧ rn.active < rn.quorum ∧ rn.electionElapsed < rn.electionTimeout ∧
  rn.electionTimeout ≤ n + rn.electionElapsed

theorem Lapses.tick (h : rn.Lapses (n + 1)) (hlead : rn.state = .leader)
    (hstill : (rn.tick rnd).state = .leader) : (rn.tick rnd).Lapses n := by
  obtain ⟨hcheck, hfew, hlt, hdue⟩ := h
  rw [RawNode.tick, if_pos hlead, if_pos hcheck] at hstill ⊢
  dsimp only at hstill ⊢
  by_cases hnow : rn.electionElapsed + 1 ≥ rn.electionTimeout
  · -- the check fails
    have hdown : ({ rn with electionElapsed := 0 }.maybeStepDownOnQuorumLoss rnd).state =
      .follower :=
      congrArg state (if_pos hfew)
    rw [if_pos hnow, if_pos (by rw [hdown]; decide)] at hstill
    cases hdown.symm.trans hstill
  · have hon : { rn with electionElapsed := rn.electionElapsed + 1 }.Lapses n :=
      ⟨hcheck, hfew, by dsimp only; omega, by dsimp only; omega⟩
    rw [if_neg hnow, if_neg (not_not.mpr hlead)]
    split
    · rw [step_of_term_zero rfl]
      dsimp only [dispatch]
      rw [if_pos hlead]
      exact Eq.mpr (forPeers_keeps (Lapses · n) fun _ _ ↦ by rfl) hon
    · exact hon

theorem Lapses.exists_stepDown : ∀ {draws : List ℕ} {rn : RawNode}, rn.Lapses draws.length →
    ∃ before, before <+: draws ∧ (before.foldl RawNode.tick rn).state ≠ .leader
  | [], _, ⟨_, _, hlt, hdue⟩ => absurd (hlt.trans_le hdue) (by simp)
  | rnd :: draws, rn, h => by
    by_cases hlead : rn.state = .leader
    · by_cases hstill : (rn.tick rnd).state = .leader
      · obtain ⟨before, hpre, hdown⟩ := (h.tick hlead hstill).exists_stepDown
        exact ⟨rnd :: before, List.cons_prefix_cons.mpr ⟨rfl, hpre⟩, hdown⟩
      · exact ⟨[rnd], ⟨draws, rfl⟩, hstill⟩
    · exact ⟨[], List.nil_prefix, hlead⟩

/-- **A leader without a quorum steps down.** If it has heard of no quorum since the last check and
hears nothing more, it does not lead past the next one. -/
theorem silent_leader_steps_down (hcheck : rn.checkQuorum = true) (hfew : rn.active < rn.quorum)
    (hlt : rn.electionElapsed < rn.electionTimeout) {draws : List ℕ}
    (hdue : rn.electionTimeout ≤ draws.length + rn.electionElapsed) :
    ∃ before, before <+: draws ∧ (before.foldl tick rn).state ≠ .leader :=
  Lapses.exists_stepDown ⟨hcheck, hfew, hlt, hdue⟩

theorem silent_leader_steps_down_pair : ∃ before, before <+: List.replicate 10 0 ∧
    (before.foldl tick { newRawNode 1 [1, 2] {} 0 with state := .leader }).state ≠ .leader :=
  silent_leader_steps_down rfl (by decide) (by decide) (by decide)

end RawNode

end DucklingDB.Raft
