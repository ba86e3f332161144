import DucklingDB.Raft.Ballot
import DucklingDB.Raft.Run

/-!
# Election safety

A leader holds the ballots of a majority for its term. Two things are needed for that to exclude a
second leader. Ballots must be unique, which is `OneVote`; and the votes a candidate counts must be
ballots of its *current* term. The source does not compare the term of a `MsgVoteResp` with the
candidate's, so a response that was delayed from an earlier candidacy of the same node is counted.
`VoteCurrent` says that this does not happen at a given message.

`election_safety` is the theorem under both conditions. `exists_two_leaders` is a run in which a
delayed response makes a second leader.
-/

namespace DucklingDB.Raft

open RawNode Cluster List AList Function

/-- A candidate does not count a granted vote of an earlier term. -/
def VoteCurrent (rn : RawNode) (m : Message) : Prop :=
  m.type = .voteResp → m.reject = false → rn.state = .candidate → rn.term ≤ m.term

instance (rn : RawNode) (m : Message) : Decidable (VoteCurrent rn m) :=
  inferInstanceAs (Decidable (_ → _))

/-- The ballots a node has sent, from the history of the cluster. -/
def Cluster.ledger (c : Cluster) (id : NodeId) : List (ℕ × NodeId) :=
  (c.ballots.filter fun b ↦ b.1 = id).map Prod.snd

/-- Votes are counted in the term they were cast in, and remembered while the term lasts. -/
def ElectionGood (c : Cluster) : Action → Prop
  | .deliver m _ =>
    VoteCurrent (c.nodes m.dst) m ∧ VoteRemembered (c.ledger m.dst) (c.nodes m.dst) m
  | _ => True

instance (c : Cluster) : DecidablePred (ElectionGood c)
  | .deliver m _ => inferInstanceAs (Decidable
      (VoteCurrent (c.nodes m.dst) m ∧ VoteRemembered (c.ledger m.dst) (c.nodes m.dst) m))
  | .tick _ _ | .propose _ _ _ | .snapshot _ _ | .compact _ => inferInstanceAs (Decidable True)

/-! ## The ballots behind a candidate and a leader -/

section Node

/-- `q` voted for `c` in `T`, as far as `rn` and the ledgers of the others know. -/
def CastIn (ledger : NodeId → List (ℕ × NodeId)) (rn : RawNode) (q : NodeId) (T : ℕ) (c : NodeId) :
    Prop :=
  (T, c) ∈ ledger q ∨ q = rn.id ∧ (T, c) ∈ rn.ballots

/-- Counted votes are ballots of the current term, and a leader counted a majority of them. -/
structure Backed (cast : NodeId → ℕ → NodeId → Prop) (rn : RawNode) : Prop where
  candidate : rn.state = .candidate →
    ∀ q, AList.lookup q rn.votes = some true → q ∈ rn.peers ∧ cast q rn.term rn.id
  leader : rn.state = .leader → ∃ Q, IsMajority rn.peers Q ∧ ∀ q ∈ Q, cast q rn.term rn.id
  src : ∀ m ∈ rn.msgs, m.src = rn.id

variable {ledger : NodeId → List (ℕ × NodeId)} {cast cast' : NodeId → ℕ → NodeId → Prop}
  {rn rn' : RawNode} {sent : Message → Prop} {ok : RawNode → Message → Prop}
  {okLog : RaftLog → Message → Prop}

section

variable (h : Backed cast rn)
include h

theorem Backed.mono (hc : ∀ q T c, cast q T c → cast' q T c) : Backed cast' rn := by
  refine ⟨fun hst q hq ↦ ?_, fun hst ↦ ?_, h.src⟩
  · exact ⟨(h.candidate hst q hq).1, hc _ _ _ (h.candidate hst q hq).2⟩
  · obtain ⟨Q, hQ, hcast⟩ := h.leader hst
    exact ⟨Q, hQ, fun q hq ↦ hc _ _ _ (hcast q hq)⟩

theorem Backed.of_eq (hid : rn'.id = rn.id) (hp : rn'.peers = rn.peers) (hst : rn'.state = rn.state)
    (hT : rn'.term = rn.term) (hv : rn'.votes = rn.votes) (hm : rn'.msgs = rn.msgs) :
    Backed cast rn' := by
  refine ⟨?_, ?_, ?_⟩
  · rw [hst, hv, hp, hT, hid]
    exact h.candidate
  · rw [hst, hp, hT, hid]
    exact h.leader
  · rw [hm, hid]
    exact h.src

theorem Backed.of_state (hid : rn'.id = rn.id) (hm : rn'.msgs = rn.msgs)
    (h₁ : rn'.state ≠ .candidate) (h₂ : rn'.state ≠ .leader) : Backed cast rn' :=
  ⟨fun hst ↦ absurd hst h₁, fun hst ↦ absurd hst h₂, by rw [hm, hid]; exact h.src⟩

theorem Backed.send (m : Message) : Backed cast (rn.send m) := by
  refine ⟨h.candidate, h.leader, fun r hr ↦ ?_⟩
  rcases mem_append.mp hr with hr | hr
  · exact h.src r hr
  · rw [mem_singleton.mp hr]
    rfl

/-- **A winner has a majority of the ballots.** -/
theorem Backed.win (hst : rn.state = .candidate) (hq : rn.quorum ≤ rn.tallyVotes) :
    Backed cast rn.initLeader := by
  have hvote : ∀ q ∈ GoMap.support rn.votes fun v ↦ v, q ∈ rn.peers ∧ cast q rn.term rn.id := by
    intro q hmem
    obtain ⟨v, hv, rfl⟩ := GoMap.mem_support.mp hmem
    exact h.candidate hst q hv
  have hmaj : IsMajority rn.peers (GoMap.support rn.votes fun v ↦ v) := by
    refine ⟨fun q hmem ↦ mem_toFinset.mpr (hvote q hmem).1, ?_⟩
    rw [GoMap.card_support]
    exact hq
  have hrole : rn.initLeader.state ≠ .candidate := by simp [initLeader]
  exact ⟨fun hst' ↦ absurd hst' hrole, fun _ ↦ ⟨_, hmaj, fun q hmem ↦ (hvote q hmem).2⟩, h.src⟩

theorem Backed.count {m : Message}
    (hm : m.reject = false → m.src ∈ rn.peers ∧ cast m.src rn.term rn.id) :
    Backed cast { rn with votes := AList.insert m.src (!m.reject) rn.votes } := by
  refine ⟨fun hst q hq ↦ ?_, h.leader, h.src⟩
  by_cases hqs : q = m.src
  · subst hqs
    rw [lookup_insert] at hq
    exact hm (by simpa using hq)
  · rw [lookup_insert_ne hqs] at hq
    exact h.candidate hst q hq

end

theorem Backed.grant (h : Backed (CastIn ledger rn) rn) {m : Message} (hty : m.type = .vote) :
    Backed (CastIn ledger (rn.grantVote m)) (rn.grantVote m) := by
  have hcast : ∀ q T c, CastIn ledger rn q T c → CastIn ledger (rn.grantVote m) q T c := by
    rintro q T c (hc | ⟨hq, hc⟩)
    · exact .inl hc
    · rw [grantVote, if_pos hty]
      exact .inr ⟨hq, mem_append_left _ hc⟩
  have hsend := (h.mono hcast).send { type := voteRespType m.type, dst := m.src, term := m.term }
  rw [grantVote, if_pos hty] at hsend ⊢
  exact hsend.of_eq rfl rfl rfl rfl rfl rfl

theorem Backed.campaign (h : Backed (CastIn ledger rn) rn) (hid : rn.id ∈ rn.peers) (rnd : ℕ) :
    Backed (CastIn ledger (rn.becomeCandidate rnd)) (rn.becomeCandidate rnd) := by
  have hrole : (rn.becomeCandidate rnd).state ≠ .leader := by simp [becomeCandidate]
  refine ⟨fun _ q hq ↦ ?_, fun hst ↦ absurd hst hrole, h.src⟩
  by_cases hqi : q = rn.id
  · subst hqi
    refine ⟨hid, .inr ⟨rfl, ?_⟩⟩
    exact mem_append_right _ (mem_singleton.mpr rfl)
  · have : AList.lookup q (rn.becomeCandidate rnd).votes = none := by
      rw [becomeCandidate, lookup_insert_ne hqi, lookup_empty]
    rw [this] at hq
    cases hq

theorem Backed.begins (h : Backed cast rn) (hb : RawNode.Begins rn rn') : Backed cast rn' := by
  induction hb with
  | refl => exact h
  | tail _ hb ih =>
    cases hb with
    | timers lead recent e t => exact ih.of_eq rfl rfl rfl rfl rfl rfl
    | follow rnd T lead hT =>
      exact ih.of_state rfl rfl (by simp [becomeFollower]) (by simp [becomeFollower])

section

variable (hid : rn.id ∈ rn.peers) (hok : ∀ {rn m}, ok rn m → VoteCurrent rn m)
  (hsent : ∀ {m}, sent m → m.type = .voteResp → m.reject = false → m.src ∈ rn.peers ∧
  (m.term, rn.id) ∈ ledger m.src) (h : Backed (CastIn ledger rn) rn)
include hid hok hsent h

/-- **Every move keeps counted votes backed**, if the granted votes that were sent are on the ledger
and only votes of the current term are counted. -/
theorem Backed.move (hmove : RawNode.Move sent ok rn rn') : Backed (CastIn ledger rn') rn' := by
  cases hmove with
  | preCampaign rnd hst =>
    exact h.of_state rfl rfl (by simp [becomePreCandidate]) (by simp [becomePreCandidate])
  | campaign rnd hst => exact h.campaign hid rnd
  | countPreVote id v hst => exact h.of_state rfl rfl (by simp [hst]) (by simp [hst])
  | countVote m hm hty hst hT hm' =>
    refine h.count fun hr ↦ ?_
    have hcur : m.term = rn.term := le_antisymm hT (hok hm' hty hr hst)
    obtain ⟨hsrc, hled⟩ := hsent hm hty hr
    exact ⟨hsrc, .inl (hcur ▸ hled)⟩
  | win hst hq => exact h.win hst hq
  | grant m hm hty hT hg hm' => exact h.grant hty
  | send m hout => exact h.send m
  | snapshot data =>
    obtain ⟨s, hs, -⟩ := rn.createSnapshot_eq data
    rw [hs]
    exact h.of_eq rfl rfl rfl rfl rfl rfl
  | _ => exact h.of_eq rfl rfl rfl rfl rfl rfl

theorem Backed.moves (hmoves : RawNode.Moves sent ok rn rn') : Backed (CastIn ledger rn') rn' := by
  induction hmoves with
  | refl => exact h
  | tail hbefore hmove ih =>
    have hf := RawNode.Moves.frame hbefore
    refine ih.move (hf.id ▸ hf.peers ▸ hid) hok ?_ hmove
    rw [hf.id, hf.peers]
    exact hsent

end

theorem Backed.finish (h : Backed (CastIn ledger rn) rn) (hf : RawNode.Finish sent okLog rn rn') :
    Backed (CastIn ledger rn') rn' := by
  have hlog : ∀ l, Backed (CastIn ledger rn) { rn with log := l } := fun l ↦
    h.of_eq rfl rfl rfl rfl rfl rfl
  cases hf with
  | keep => exact h
  | accept | restore => exact (hlog _).send _
  | covered => exact h.send _

end Node

/-! ## Clusters -/

section Clusters

variable {cfg : Config} {c c' : Cluster} {a : Action}

theorem Cluster.act_eq_some (h : c.act cfg a = some c') :
    Cluster.Enabled cfg c a ∧ c' = c.settle a.node (a.apply (c.nodes a.node)) := by
  rw [act] at h
  split at h
  · rename_i hen
    exact ⟨hen, (Option.some.inj h).symm⟩
  · cases h

theorem Cluster.settle_nodes_self (c : Cluster) (id : NodeId) (rn : RawNode) :
    (c.settle id rn).nodes id = rn.handleReady := if_pos rfl

theorem Cluster.settle_nodes_of_ne (c : Cluster) {id i : NodeId} (rn : RawNode) (h : i ≠ id) :
    (c.settle id rn).nodes i = c.nodes i := if_neg h

theorem Cluster.mem_ledger {q T d : ℕ} : (T, d) ∈ c.ledger q ↔ (q, T, d) ∈ c.ballots := by
  simp [ledger]

theorem Cluster.mem_settle_ledger {id q T d : ℕ} {rn : RawNode} :
    (T, d) ∈ (c.settle id rn).ledger q ↔ (T, d) ∈ c.ledger q ∨ q = id ∧ (T, d) ∈ rn.ballots := by
  simp only [mem_ledger, settle, mem_append, mem_map, Prod.mk.injEq]
  constructor
  · rintro (h | ⟨b, hb, rfl, rfl⟩)
    · exact .inl h
    · exact .inr ⟨rfl, hb⟩
  · rintro (h | ⟨rfl, hb⟩)
    · exact .inl h
    · exact .inr ⟨_, hb, rfl, rfl⟩

theorem Cluster.settle_ledger_self (c : Cluster) (p : NodeId) (rn : RawNode) :
    (c.settle p rn).ledger p = c.ledger p ++ rn.ballots := by
  simp [ledger, settle, filter_append, filter_map, comp_def]

theorem Cluster.settle_ledger_of_ne (c : Cluster) {p i : NodeId} (rn : RawNode) (h : i ≠ p) :
    (c.settle p rn).ledger i = c.ledger i := by
  simp [ledger, settle, filter_append, filter_map, comp_def, h.symm]

/-- Between events: every node has its own id and the common peers, and nothing pending; every
message names the node it came from. -/
structure Settled (cfg : Config) (c : Cluster) : Prop where
  id : ∀ i ∈ cfg.ids, (c.nodes i).id = i
  peers : ∀ i ∈ cfg.ids, (c.nodes i).peers = cfg.peers
  ballots : ∀ i ∈ cfg.ids, (c.nodes i).ballots = []
  msgs : ∀ i ∈ cfg.ids, (c.nodes i).msgs = []

theorem settled_init (cfg : Config) : Settled cfg (init cfg) :=
  ⟨fun _ _ ↦ rfl, fun _ _ ↦ rfl, fun _ _ ↦ rfl, fun _ _ ↦ rfl⟩

theorem Action.apply_frame (rn : RawNode) (a : Action) : RawNode.Frame rn (a.apply rn) := by
  obtain ⟨rn₀, rn₁, hb, hm, hf⟩ : ∃ rn₀ rn₁, RawNode.Begins rn rn₀ ∧
      RawNode.Moves (fun _ ↦ True) (fun _ _ ↦ True) rn₀ rn₁ ∧
      RawNode.Finish (fun _ ↦ True) (fun _ _ ↦ True) rn₁ (a.apply rn) :=
    a.apply_moves (fun _ _ _ ↦ trivial) (fun _ _ _ _ _ ↦ trivial) (fun _ _ _ ↦ trivial)
  exact ((RawNode.Begins.frame hb).trans (RawNode.Moves.frame hm)).trans hf.frame

theorem Settled.act (h : Settled cfg c) (ha : c.act cfg a = some c') : Settled cfg c' := by
  obtain ⟨⟨hid, -⟩, rfl⟩ := act_eq_some ha
  have hf := a.apply_frame (c.nodes a.node)
  -- each field holds of the node that moved and of the others
  have key : ∀ P : NodeId → RawNode → Prop, (∀ i ∈ cfg.ids, P i (c.nodes i)) →
      P a.node (a.apply (c.nodes a.node)).handleReady →
      ∀ i ∈ cfg.ids, P i ((c.settle a.node (a.apply (c.nodes a.node))).nodes i) := by
    intro P hP hself i hi
    by_cases hia : i = a.node
    · subst hia
      rw [settle_nodes_self]
      exact hself
    · rw [settle_nodes_of_ne _ _ hia]
      exact hP i hi
  exact ⟨key (fun i rn ↦ rn.id = i) h.id (hf.id.trans (h.id _ hid)),
    key (fun _ rn ↦ rn.peers = cfg.peers) h.peers (hf.peers.trans (h.peers _ hid)),
    key (fun _ rn ↦ rn.ballots = []) h.ballots rfl, key (fun _ rn ↦ rn.msgs = []) h.msgs rfl⟩

/-- The election invariant of a cluster. -/
structure Elections (cfg : Config) (c : Cluster) : Prop where
  settled : Settled cfg c
  vote : ∀ i ∈ cfg.ids, OneVote (c.ledger i) (c.nodes i)
  backed : ∀ i ∈ cfg.ids, Backed (fun q T d ↦ (T, d) ∈ c.ledger q) (c.nodes i)
  ledger : ∀ {q T d}, (T, d) ∈ c.ledger q → q ∈ cfg.ids
  src : ∀ m ∈ c.net, m.src ∈ cfg.ids
  granted : ∀ m ∈ c.net, m.type = .voteResp → m.reject = false → (m.term, m.dst) ∈ c.ledger m.src

theorem elections_init (cfg : Config) : Elections cfg (init cfg) := by
  refine ⟨settled_init cfg, fun i _ ↦ ?_, fun i _ ↦ ?_, ?_, ?_, ?_⟩
  · exact ⟨by rintro _ _ _ ⟨⟩, by rintro _ _ ⟨⟩, fun hv ↦ absurd rfl hv, by rintro _ ⟨⟩⟩
  · have hst : ((init cfg).nodes i).state = .follower := rfl
    exact ⟨fun h ↦ (by cases hst ▸ h), fun h ↦ (by cases hst ▸ h), by rintro _ ⟨⟩⟩
  · rintro _ _ _ ⟨⟩
  · rintro _ ⟨⟩
  · rintro _ ⟨⟩

/-- **Every event keeps the election invariant**, if it counts and grants votes as it should. -/
theorem Elections.act (h : Elections cfg c) (ha : c.act cfg a = some c')
    (hgood : ElectionGood c a) : Elections cfg c' := by
  have hset' := h.settled.act ha
  obtain ⟨⟨hid, hnet⟩, rfl⟩ := act_eq_some ha
  set p := a.node with hp
  have hpid := h.settled.id p hid
  have hpeers := h.settled.peers p hid
  -- the condition at the node, after the term handling of `Step`
  have hdst : ∀ m rnd, a = .deliver m rnd → m.dst = p := fun m rnd heq ↦ by rw [hp, heq]; rfl
  have hok : ∀ m rnd, a = .deliver m rnd → ∀ rn₁, (c.nodes p).handleTerm rnd m = some rn₁ →
      VoteCurrent rn₁ m ∧ VoteRemembered (c.ledger p) rn₁ m := by
    intro m rnd heq rn₁ h₁
    rw [heq] at hgood
    obtain ⟨hcur, hrem⟩ := hgood
    rw [hdst m rnd heq] at hcur hrem
    refine ⟨?_, (h.vote p hid).remembered_handleTerm hrem h₁⟩
    rcases handleTerm_cases h₁ with ⟨rfl, -⟩ | ⟨-, rfl⟩
    · exact hcur
    · exact fun _ _ _ ↦ le_rfl
  obtain ⟨rn₀, rn₁, hbegins, hmoves, hfin⟩ : ∃ rn₀ rn₁, RawNode.Begins (c.nodes p) rn₀ ∧
      RawNode.Moves (fun m ↦ m ∈ c.net ∧ m.dst = p)
        (fun rn m ↦ VoteCurrent rn m ∧ VoteRemembered (c.ledger p) rn m) rn₀ rn₁ ∧
      RawNode.Finish (fun m ↦ m ∈ c.net ∧ m.dst = p) (fun _ _ ↦ True) rn₁ (a.apply (c.nodes p)) :=
    a.apply_moves (fun m rnd heq ↦ ⟨hnet m rnd heq, hdst m rnd heq⟩) hok fun _ _ _ ↦ trivial
  set rn := a.apply (c.nodes p) with hrn
  have hf : RawNode.Frame (c.nodes p) rn := a.apply_frame _
  have hf₀ := RawNode.Begins.frame hbegins
  have hvote : OneVote (c.ledger p) rn :=
    (((h.vote p hid).begins hbegins).moves (fun hok ↦ hok.2) hmoves).finish hfin
  have hback : Backed (CastIn c.ledger rn) rn := by
    refine Backed.finish (Backed.moves ?_ (fun hok ↦ hok.1) ?_ ?_ hmoves) hfin
    · rw [hf₀.id, hf₀.peers, hpid, hpeers]
      exact cfg.ids_sub p hid
    · rintro m ⟨hm, hmd⟩ hty hr
      rw [hf₀.id, hf₀.peers, hpid, hpeers, ← hmd]
      exact ⟨cfg.ids_sub _ (h.src m hm), h.granted m hm hty hr⟩
    · exact ((h.backed p hid).begins hbegins).mono fun _ _ _ hc ↦ .inl hc
  have hgrow : ∀ {q T d}, (T, d) ∈ c.ledger q → (T, d) ∈ (c.settle p rn).ledger q := fun hc ↦
    mem_settle_ledger.mpr (.inl hc)
  have hcast : ∀ q T d, CastIn c.ledger rn q T d → (T, d) ∈ (c.settle p rn).ledger q := by
    rintro q T d (hc | ⟨hq, hc⟩)
    · exact hgrow hc
    · exact mem_settle_ledger.mpr (.inr ⟨hq.trans (hf.id.trans hpid), hc⟩)
  have hself : (c.settle p rn).ledger p = c.ledger p ++ rn.ballots := c.settle_ledger_self p rn
  refine ⟨hset', fun i hi ↦ ?_, fun i hi ↦ ?_, ?_, ?_, ?_⟩
  · by_cases hip : i = p
    · subst hip
      rw [settle_nodes_self, hself]
      exact hvote.handleReady
    · rw [settle_nodes_of_ne _ _ hip, settle_ledger_of_ne _ _ hip]
      exact h.vote i hi
  · by_cases hip : i = p
    · subst hip
      rw [settle_nodes_self]
      have := hback.mono hcast
      exact ⟨this.candidate, this.leader, by rintro _ ⟨⟩⟩
    · rw [settle_nodes_of_ne _ _ hip]
      exact (h.backed i hi).mono fun _ _ _ hc ↦ hgrow hc
  · intro q T d hc
    rcases mem_settle_ledger.mp hc with hc | ⟨rfl, -⟩
    · exact h.ledger hc
    · exact hid
  · intro m hm
    rcases mem_append.mp hm with hm | hm
    · exact h.src m hm
    · rw [hback.src m hm, hf.id, hpid]
      exact hid
  · intro m hm hty hr
    rcases mem_append.mp hm with hm | hm
    · exact hgrow (h.granted m hm hty hr)
    · rw [hback.src m hm, hf.id, hpid, hself]
      exact hvote.granted m hm hty hr

theorem Cluster.ledger_act (h : c.act cfg a = some c') {q T d : ℕ} (hc : (T, d) ∈ c.ledger q) :
    (T, d) ∈ c'.ledger q := by
  obtain ⟨-, rfl⟩ := act_eq_some h
  exact mem_settle_ledger.mpr (.inl hc)

end Clusters

/-! ## Election safety -/

/-- The node leads its term. -/
def Cluster.Leads (c : Cluster) (p : NodeId) (T : ℕ) : Prop :=
  (c.nodes p).state = .leader ∧ (c.nodes p).term = T

instance (c : Cluster) (p : NodeId) (T : ℕ) : Decidable (c.Leads p T) :=
  inferInstanceAs (Decidable (_ ∧ _))

/-- **Election safety.** In every run that counts and remembers votes as it should, a term has one
leader: nodes that lead it at two moments of the run are the same node. -/
theorem election_safety {cfg : Config} (r : Run cfg ElectionGood) {i j : ℕ} {p q : NodeId} {T : ℕ}
    (hp : p ∈ cfg.ids) (hq : q ∈ cfg.ids) (hpT : (r.state i).Leads p T)
    (hqT : (r.state j).Leads q T) : p = q := by
  have hinv : ∀ n, Elections cfg (r.state n) :=
    r.invariant (elections_init cfg) fun _ _ _ h ha hgood ↦ h.act ha hgood
  have hgrow : ∀ {m n : ℕ}, m ≤ n → ∀ v S d, (S, d) ∈ (r.state m).ledger v →
      (S, d) ∈ (r.state n).ledger v := fun {m n} hmn ↦
    r.extends (R := fun c c' ↦ ∀ v S d, (S, d) ∈ c.ledger v → (S, d) ∈ c'.ledger v)
      (fun _ _ _ _ h ↦ h) (fun _ _ _ h h' v S d hc ↦ h' v S d (h v S d hc))
      (fun _ _ _ ha _ _ _ ↦ ledger_act ha) hmn
  obtain ⟨Q, hQ, hcast⟩ := ((hinv i).backed p hp).leader hpT.1
  obtain ⟨Q', hQ', hcast'⟩ := ((hinv j).backed q hq).leader hqT.1
  rw [(hinv i).settled.peers p hp] at hQ
  rw [(hinv j).settled.peers q hq] at hQ'
  -- the common voter, at the later of the two moments
  obtain ⟨v, hv, hv'⟩ := hQ.exists_mem_inter hQ'
  have h₁ := hgrow (le_max_left i j) _ _ _ (hcast v hv)
  have h₂ := hgrow (le_max_right i j) _ _ _ (hcast' v hv')
  rw [hpT.2, (hinv i).settled.id p hp] at h₁
  rw [hqT.2, (hinv j).settled.id q hq] at h₂
  have hvote := (hinv (max i j)).vote v ((hinv (max i j)).ledger h₁)
  exact hvote.unique (mem_append_left _ h₁) (mem_append_left _ h₂)

/-- Node `1` is elected in term `1`. -/
theorem election_safety_threeNodes :
    ∃ r : Run threeNodes ElectionGood, ∃ i, (r.state i).Leads 1 1 ∧
      ∀ j, ∀ q ∈ threeNodes.ids, (r.state j).Leads q 1 → q = 1 := by
  have hadm : (init threeNodes).Admits threeNodes ElectionGood (Action.elect 1 2 1 0 0) := by
    decide +kernel
  have hlead : ((Run.ofActions _ hadm).state 14).Leads 1 1 := by
    rw [Run.ofActions_state]
    decide +kernel
  exact ⟨Run.ofActions _ hadm, 14, hlead, fun _ _ hq hqT ↦
    election_safety _ hq (by decide) hqT hlead⟩

/-- Node `1` campaigns in term `1`, where `2` votes for it, and again in term `2`. The vote of term
`1` arrives then and makes it the leader of term `2`; node `2` is still free to elect node `3`
there. -/
def twoLeaders : List Action :=
  Action.timeout 1 ++ Action.probe 1 2 1 0 0 ++
  [Action.requestVote 1 2 1 0 0, Action.requestVote 1 3 1 0 0] ++
  Action.timeout 1 ++ Action.probe 1 2 2 0 0 ++ [Action.voteResp 1 2 1] ++
  Action.elect 3 2 2 0 0

theorem exists_two_leaders :
    ¬∀ (cfg : Config) (r : AnyRun cfg) (i j : ℕ) (p q : NodeId) (T : ℕ), p ∈ cfg.ids → q ∈ cfg.ids →
      (r.state i).Leads p T → (r.state j).Leads q T → p = q := by
  intro h
  have hadm : (init threeNodes).Admits threeNodes (fun _ _ ↦ True) twoLeaders := by
    decide +kernel
  have hlead : ((init threeNodes).trace threeNodes twoLeaders 41).Leads 1 2 ∧
      ((init threeNodes).trace threeNodes twoLeaders 41).Leads 3 2 := by
    decide +kernel
  have heq := h threeNodes (Run.ofActions _ hadm) 41 41 1 3 2 (by decide) (by decide)
  rw [Run.ofActions_state] at heq
  exact absurd (heq hlead.1 hlead.2) (by decide)

end DucklingDB.Raft
