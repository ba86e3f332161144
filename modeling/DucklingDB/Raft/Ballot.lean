import DucklingDB.Raft.Word

/-!
# One vote per term

A node may grant at most one vote in a term, its own candidacy included. The source keeps `votedFor`
for this, but `becomeFollower` clears it also when the term stays the same, and `canVote` then falls
back on `leadID`, which a pre-candidacy, a step-down after a lost quorum and a restart all clear.
From then on a second candidate of the same term can get the node's vote.

`VoteRemembered` says that this does not happen at a given message: the node does not grant its vote
with `votedFor` empty after it has already voted for somebody else in the term. Runs whose messages
all satisfy it, and whose terms do not wrap around, keep `OneVote`, and `exists_second_vote` is a
run that does not.

The ballots a node has cast are the ones its `Ready` cycles have handed out, together with those
waiting for the next cycle. A restart forgets the latter: they were never sent.
-/

namespace DucklingDB.Raft

open RawNode RaftLog LSMLogStorage List

/-- The node has not voted for anybody but the sender when it is about to grant a vote in its
current term without remembering having voted. -/
def VoteRemembered (ledger : List (ℕ × NodeId)) (rn : RawNode) (m : Message) : Prop :=
  m.type = .vote → m.term = rn.term → rn.votedFor = noneId → rn.canGrant m = true →
    ∀ b ∈ ledger ++ rn.ballots, b.1 = m.term → b.2 = m.src

instance (ledger : List (ℕ × NodeId)) (rn : RawNode) (m : Message) :
    Decidable (VoteRemembered ledger rn m) :=
  inferInstanceAs (Decidable (_ → _))

/-- The ballots cast so far, `ledger` sent and `rn.ballots` pending, name one candidate per term and
include the remembered vote. -/
structure OneVote (ledger : List (ℕ × NodeId)) (rn : RawNode) : Prop where
  unique : ∀ {T c c'}, (T, c) ∈ ledger ++ rn.ballots → (T, c') ∈ ledger ++ rn.ballots → c = c'
  le_term : ∀ {T c}, (T, c) ∈ ledger ++ rn.ballots → T ≤ rn.term
  voted : rn.votedFor ≠ noneId → (rn.term, rn.votedFor) ∈ ledger ++ rn.ballots
  granted : ∀ m ∈ rn.msgs, m.type = .voteResp → m.reject = false →
    (m.term, m.dst) ∈ ledger ++ rn.ballots

namespace OneVote

variable {ledger : List (ℕ × NodeId)} {rn rn' : RawNode} {sent : Message → Prop}
  {ok : RawNode → Message → Prop} {okLog : RaftLog → Message → Prop}

section

variable (h : OneVote ledger rn)
include h

theorem of_eq (hb : rn'.ballots = rn.ballots) (hT : rn'.term = rn.term)
    (hv : rn'.votedFor = rn.votedFor) (hm : rn'.msgs = rn.msgs) : OneVote ledger rn' := by
  constructor
  · rw [hb]
    exact h.unique
  · rw [hb, hT]
    exact h.le_term
  · rw [hb, hT, hv]
    exact h.voted
  · rw [hb, hm]
    exact h.granted

theorem follow {rnd T lead : ℕ} (hT : rn.term ≤ T) :
    OneVote ledger (rn.becomeFollower rnd T lead) :=
  ⟨h.unique, fun hb ↦ (h.le_term hb).trans hT, fun hv ↦ absurd rfl hv, h.granted⟩

theorem campaign (rnd : ℕ) : OneVote ledger (rn.becomeCandidate rnd) := by
  have hfresh : ∀ c, (rn.term + 1, c) ∉ ledger ++ rn.ballots := fun c hc ↦ by
    have := h.le_term hc
    omega
  have hmem : ∀ {T c}, (T, c) ∈ ledger ++ (rn.becomeCandidate rnd).ballots ↔
      (T, c) ∈ ledger ++ rn.ballots ∨ T = rn.term + 1 ∧ c = rn.id := by
    intro T c
    simp [becomeCandidate, or_assoc]
  constructor
  · intro T c c' hc hc'
    rcases hmem.mp hc with hc | ⟨rfl, rfl⟩ <;> rcases hmem.mp hc' with hc' | ⟨hT, rfl⟩
    · exact h.unique hc hc'
    · exact absurd (hT ▸ hc) (hfresh c)
    · exact absurd hc' (hfresh c')
    · rfl
  · intro T c hc
    rcases hmem.mp hc with hc | ⟨rfl, -⟩
    · exact (h.le_term hc).trans (Nat.le_succ _)
    · exact le_rfl
  · exact fun _ ↦ hmem.mpr (.inr ⟨rfl, rfl⟩)
  · exact fun m hm hty hr ↦ hmem.mpr (.inl (h.granted m hm hty hr))

section

variable {m : Message} (hty : m.type = .vote) (hT : m.term = rn.term) (hg : rn.canGrant m = true)
  (hok : VoteRemembered ledger rn m)
include hty hT hg hok

/-- The candidate a node grants its vote to is the one it has voted for, if it has voted. -/
theorem eq_of_canGrant {c : NodeId} (hc : (m.term, c) ∈ ledger ++ rn.ballots) : c = m.src := by
  by_cases hv : rn.votedFor = noneId
  · exact hok hty hT hv hg (m.term, c) hc rfl
  · have hvote : rn.votedFor = m.src := by
      simp only [canGrant, canVote, hty, Bool.and_eq_true, Bool.or_eq_true,
        beq_iff_eq, hv, false_and, or_false, reduceCtorEq] at hg
      exact hg.1.2
    rw [← hvote]
    exact h.unique (hT ▸ hc) (h.voted hv)

theorem grant : OneVote ledger (rn.grantVote m) := by
  have hmem : ∀ {T c}, (T, c) ∈ ledger ++ (rn.grantVote m).ballots ↔
      (T, c) ∈ ledger ++ rn.ballots ∨ T = m.term ∧ c = m.src := by
    intro T c
    simp [grantVote, hty, send, or_assoc]
  have hterm : (rn.grantVote m).term = rn.term := by
    simp [grantVote, hty, send]
  constructor
  · intro T c c' hc hc'
    rcases hmem.mp hc with hc | ⟨hTc, rfl⟩ <;> rcases hmem.mp hc' with hc' | ⟨hTc', rfl⟩
    · exact h.unique hc hc'
    · exact h.eq_of_canGrant hty hT hg hok (hTc' ▸ hc)
    · exact (h.eq_of_canGrant hty hT hg hok (hTc ▸ hc')).symm
    · rfl
  · intro T c hc
    rw [hterm]
    rcases hmem.mp hc with hc | ⟨rfl, -⟩
    · exact h.le_term hc
    · exact hT.le
  · intro _
    refine hmem.mpr (.inr ⟨hterm.trans hT.symm, ?_⟩)
    simp [grantVote, hty, send]
  · intro r hr hrty hrej
    have : r ∈ rn.msgs ∨ r = { type := voteRespType m.type, dst := m.src, term := m.term
                               src := rn.id } := by
      simpa [grantVote, hty, send] using hr
    rcases this with hr | rfl
    · exact hmem.mpr (.inl (h.granted r hr hrty hrej))
    · exact hmem.mpr (.inr ⟨rfl, rfl⟩)

end

theorem send {m : Message} (hm : m.type = .voteResp → m.reject = true) :
    OneVote ledger (rn.send m) := by
  refine ⟨h.unique, h.le_term, h.voted, ?_⟩
  intro r hr hty hrej
  rcases mem_append.mp hr with hr | hr
  · exact h.granted r hr hty hrej
  · rw [mem_singleton.mp hr] at hty hrej
    rw [hm hty] at hrej
    cases hrej

end

end OneVote

/-- Only a granted vote is answered with a granting response. -/
theorem RawNode.Outgoing.voteResp_reject {rn : RawNode} {m : Message} (h : rn.Outgoing m)
    (hty : m.type = .voteResp) : m.reject = true := by
  cases h with
  | harmless h =>
    rcases h with h | h | h | ⟨-, h⟩ | ⟨h, -⟩
    case inr.inr.inr.inl => exact h
    all_goals cases hty.symm.trans h
  | _ => cases hty

namespace OneVote

variable {ledger : List (ℕ × NodeId)} {rn rn' : RawNode} {sent : Message → Prop}
  {ok : RawNode → Message → Prop} {okLog : RaftLog → Message → Prop}

theorem begins (h : OneVote ledger rn) (hb : RawNode.Begins rn rn') : OneVote ledger rn' := by
  induction hb with
  | refl => exact h
  | tail _ hb ih =>
    cases hb with
    | timers lead recent e t => exact ih.of_eq rfl rfl rfl rfl
    | follow rnd T lead hT => exact ih.follow hT

section

variable (hok : ∀ {rn m}, ok rn m → VoteRemembered ledger rn m) (h : OneVote ledger rn)
include hok h

/-- **Every move keeps the vote unique**, if votes are granted only where they are remembered. -/
theorem move (hmove : RawNode.Move sent ok rn rn') : OneVote ledger rn' := by
  cases hmove with
  | campaign rnd hst => exact h.campaign rnd
  | grant m hm hty hT hg hm' => exact h.grant hty hT hg (hok hm')
  | send m hout => exact h.send hout.voteResp_reject
  | snapshot data =>
    obtain ⟨s, hs, -⟩ := rn.createSnapshot_eq data
    rw [hs]
    exact h.of_eq rfl rfl rfl rfl
  | _ => exact h.of_eq rfl rfl rfl rfl

theorem moves (hmoves : RawNode.Moves sent ok rn rn') : OneVote ledger rn' := by
  induction hmoves with
  | refl => exact h
  | tail _ hmove ih => exact ih.move hok hmove

end

theorem finish (h : OneVote ledger rn) (hf : RawNode.Finish sent okLog rn rn') :
    OneVote ledger rn' := by
  have hlog : ∀ l, OneVote ledger { rn with log := l } := fun l ↦ h.of_eq rfl rfl rfl rfl
  cases hf with
  | keep => exact h
  | accept | restore => exact (hlog _).send (by simp)
  | covered => exact h.send (by simp)

/-- The `Ready` cycle hands the pending ballots out. -/
theorem handleReady (h : OneVote ledger rn) : OneVote (ledger ++ rn.ballots) rn.handleReady := by
  have hb : ledger ++ rn.ballots ++ rn.handleReady.ballots = ledger ++ rn.ballots := append_nil _
  constructor
  · rw [hb]
    exact h.unique
  · rw [hb]
    exact h.le_term
  · rw [hb]
    exact h.voted
  · rintro _ ⟨⟩

/-- The condition survives the term handling: in a new term no vote has been cast. -/
theorem remembered_handleTerm (h : OneVote ledger rn) {m : Message} {rnd : ℕ} {rn₁ : RawNode}
    (hm : VoteRemembered ledger rn m) (h₁ : rn.handleTerm rnd m = some rn₁) :
    VoteRemembered ledger rn₁ m := by
  rcases handleTerm_cases h₁ with ⟨rfl, -⟩ | ⟨hT, rfl⟩
  · exact hm
  · intro _ _ _ _ b hb hbT
    have := h.le_term hb
    omega

end OneVote

/-! ## A node with restarts -/

/-- A node together with everything it has sent: the messages and the ballots of its `Ready`
cycles. -/
structure Voter where
  node : RawNode
  ballots : List (ℕ × NodeId) := []
  sent : List Message := []

namespace Voter

/-- What can happen to a node. The messages are arbitrary. -/
inductive Event where
  | tick (rnd : ℕ)
  | step (m : Message) (rnd : ℕ)
  /-- `Ready`, persist, send, `Advance`. -/
  | ready
  /-- `NewRawNode` over the storage as it was last persisted. -/
  | restart (rnd : ℕ)

def act (s : Voter) : Event → Voter
  | .tick rnd => { s with node := (s.node.tick rnd).wrapped }
  | .step m rnd => { s with node := (s.node.step rnd m).wrapped }
  | .ready =>
    { node := s.node.handleReady
      ballots := s.ballots ++ s.node.ballots
      sent := s.sent ++ s.node.ready.messages }
  | .restart rnd =>
    { s with node := newRawNode s.node.id s.node.peers s.node.log.storage rnd }

def run (s : Voter) : List Event → Voter
  | [] => s
  | e :: es => (s.act e).run es

/-- A new node over an empty storage. -/
def start (id : NodeId) (peers : List NodeId) (rnd : ℕ) : Voter :=
  { node := newRawNode id peers {} rnd }

/-- The node has voted for `c` in `T`: it sent `c` a granting response, or `c` is the node itself
and it campaigned. -/
def Voted (s : Voter) (T : ℕ) (c : NodeId) : Prop :=
  (∃ m ∈ s.sent, m.type = .voteResp ∧ m.reject = false ∧ m.term = T ∧ m.dst = c) ∨
  c = s.node.id ∧ (T, c) ∈ s.ballots

instance (s : Voter) (T : ℕ) (c : NodeId) : Decidable (s.Voted T c) :=
  inferInstanceAs (Decidable (_ ∨ _))

/-- The vote is remembered at this event, and the term does not wrap around. -/
def Remembers (s : Voter) : Event → Prop
  | .tick _ => s.node.term + 2 < 2 ^ 64
  | .step m _ =>
    s.node.term + 2 < 2 ^ 64 ∧ m.term + 2 < 2 ^ 64 ∧ VoteRemembered s.ballots s.node m
  | _ => True

/-- Every event of the sequence meets `Remembers` in the state it happens in. -/
def AlwaysRemembers (s : Voter) : List Event → Prop
  | [] => True
  | e :: es => s.Remembers e ∧ (s.act e).AlwaysRemembers es

instance (s : Voter) : DecidablePred s.Remembers
  | .tick _ => inferInstanceAs (Decidable (_ < _))
  | .step _ _ => inferInstanceAs (Decidable (_ ∧ _))
  | .ready | .restart _ => inferInstanceAs (Decidable True)

instance decidableAlwaysRemembers : (s : Voter) → DecidablePred s.AlwaysRemembers
  | _, [] => inferInstanceAs (Decidable True)
  | s, e :: es =>
    have := decidableAlwaysRemembers (s.act e) es
    inferInstanceAs (Decidable (_ ∧ _))

/-- What is on disk accounts for every ballot sent. -/
structure Inv (s : Voter) : Prop where
  vote : OneVote s.ballots s.node
  sent : ∀ m ∈ s.sent, m.type = .voteResp → m.reject = false → (m.term, m.dst) ∈ s.ballots
  prev_term : s.node.prevHard.term = s.node.log.storage.initialState.term
  prev_vote : s.node.prevHard.votedFor = s.node.log.storage.initialState.votedFor
  saved_vote : s.node.log.storage.initialState.votedFor ≠ noneId →
    (s.node.log.storage.initialState.term, s.node.log.storage.initialState.votedFor) ∈ s.ballots
  saved_term : ∀ {T c}, (T, c) ∈ s.ballots → T ≤ s.node.log.storage.initialState.term

variable {s : Voter}

theorem Inv.node (h : Inv s) {rn : RawNode} (hv : OneVote s.ballots rn)
    (hf : RawNode.Frame s.node rn) : Inv { s with node := rn } := by
  have hs : rn.log.storage.initialState = s.node.log.storage.initialState := by
    rw [initialState, hf.hardState]
    rfl
  refine ⟨hv, h.sent, ?_, ?_, ?_, ?_⟩ <;> simp only [hs, hf.prevHard]
  · exact h.prev_term
  · exact h.prev_vote
  · exact h.saved_vote
  · exact h.saved_term

end Voter

theorem HardState.isEmpty_iff {hs : HardState} :
    hs.isEmpty = true ↔ hs.term = 0 ∧ hs.votedFor = 0 ∧ hs.commit = 0 := by
  simp [HardState.isEmpty, and_assoc]

theorem RawNode.ready_hardState {rn : RawNode} (he : ¬rn.ready.hardState.isEmpty) :
    rn.ready.hardState = rn.hardState := by
  by_cases heq : rn.hardState = rn.prevHard
  · have : rn.ready.hardState = {} := if_neg (not_not.mpr heq)
    rw [this] at he
    exact absurd rfl he
  · exact if_pos heq

/-- The hard state on disk after a `Ready` cycle: the node's, unless that is the zero one. -/
theorem RawNode.handleReady_initialState (rn : RawNode) : rn.handleReady.log.storage.initialState =
      if rn.ready.hardState.isEmpty then rn.log.storage.initialState else rn.ready.hardState := by
  have hinst : ∀ (s : LSMLogStorage) snap, (s.installSnapshot snap).hardState = s.hardState := by
    intro s snap
    rw [installSnapshot, compact_hardState, saveSnapshot_hardState]
    rfl
  have hper : (rn.log.storage.persist rn.ready).hardState =
      if rn.ready.hardState.isEmpty then rn.log.storage.hardState
      else some rn.ready.hardState := by
    rw [LSMLogStorage.persist]
    cases rn.ready.committedEntries.getLast? <;>
      simp only [saveApplied, appendEntries] <;>
      split <;> split <;> simp_all [saveHardState]
  rw [handleReady_storage, initialState, hper]
  split <;> rfl

section

variable (id : NodeId) (peers : List NodeId) (storage : LSMLogStorage) (rnd : ℕ)
include id peers storage rnd

theorem newRawNode_term : (newRawNode id peers storage rnd).term = storage.initialState.term := by
  simp only [newRawNode]
  split
  · rename_i h
    exact (HardState.isEmpty_iff.mp h).1.symm
  · rfl

theorem newRawNode_votedFor :
    (newRawNode id peers storage rnd).votedFor = storage.initialState.votedFor := by
  simp only [newRawNode]
  split
  · rename_i h
    exact (HardState.isEmpty_iff.mp h).2.1.symm
  · rfl

theorem newRawNode_storage : (newRawNode id peers storage rnd).log.storage = storage := by
  simp only [newRawNode]
  split
  · rfl
  · rw [appliedTo_eq, commitTo_eq]
    rfl

theorem newRawNode_pending : (newRawNode id peers storage rnd).ballots = [] ∧
      (newRawNode id peers storage rnd).msgs = [] := by
  simp only [newRawNode]
  split <;> exact ⟨rfl, rfl⟩

theorem newRawNode_follower :
    (newRawNode id peers storage rnd).id = id ∧ (newRawNode id peers storage rnd).peers = peers ∧
      (newRawNode id peers storage rnd).state = .follower := by
  simp only [newRawNode]
  split <;> exact ⟨rfl, rfl, rfl⟩

end

theorem newRawNode_log (id : NodeId) (peers : List NodeId) (s : LSMLogStorage) (rnd : ℕ) :
    (newRawNode id peers s rnd).log.unstable = [] ∧
      (newRawNode id peers s rnd).log.pendingSnapshot = {} := by
  simp only [newRawNode]
  split
  · exact ⟨rfl, rfl⟩
  · rw [appliedTo_eq, commitTo_eq]
    exact ⟨rfl, rfl⟩

theorem LSMLogStorage.firstIndex_sub_one (s : LSMLogStorage) :
    s.firstIndex - 1 = s.loadSnapshotMeta.index := by
  rw [firstIndex]
  split <;> omega

section

variable {s : LSMLogStorage} (hsnap : s.loadSnapshotMeta.index ≤ s.initialState.commit)
  (id : NodeId) (peers : List NodeId) (rnd : ℕ)
include hsnap id peers rnd

theorem newRawNode_committed :
    (newRawNode id peers s rnd).log.committed = s.initialState.commit := by
  have hle : (newRaftLog s).committed ≤ s.initialState.commit := by
    rw [newRaftLog, s.firstIndex_sub_one]
    split
    · exact le_rfl
    · exact hsnap
  simp only [newRawNode]
  split
  · rename_i hempty
    have hzero := (HardState.isEmpty_iff.mp hempty).2.2
    exact le_antisymm hle (hzero.trans_le (Nat.zero_le _))
  · rw [appliedTo_eq, commitTo_eq]
    exact max_eq_right hle

/-- The applied index after a restart: at least the snapshot's, and not beyond the commit index. -/
theorem newRawNode_applied : s.loadSnapshotMeta.index ≤ (newRawNode id peers s rnd).log.applied ∧
      (newRawNode id peers s rnd).log.applied ≤ s.initialState.commit := by
  rw [← s.firstIndex_sub_one] at hsnap ⊢
  simp only [newRawNode]
  split
  · exact ⟨le_rfl, hsnap⟩
  · rw [appliedTo_eq, commitTo_eq]
    exact ⟨le_max_left _ _, max_le hsnap (min_le_right _ _)⟩

end

namespace Voter

variable {s : Voter}

theorem Inv.ready (h : Inv s) : Inv (s.act .ready) := by
  have hmsgs : ∀ m ∈ s.sent ++ s.node.ready.messages, m.type = .voteResp → m.reject = false →
      (m.term, m.dst) ∈ s.ballots ++ s.node.ballots := by
    intro m hm hty hr
    rcases mem_append.mp hm with hm | hm
    · exact mem_append_left _ (h.sent m hm hty hr)
    · exact h.vote.granted m hm hty hr
  have hprev : s.node.handleReady.prevHard =
      if s.node.ready.hardState.isEmpty then s.node.prevHard else s.node.ready.hardState := rfl
  have hdisk := s.node.handleReady_initialState
  by_cases he : s.node.ready.hardState.isEmpty
  · rw [if_pos he] at hprev hdisk
    refine ⟨h.vote.handleReady, hmsgs, ?_, ?_, ?_, ?_⟩ <;> simp only [act, hprev, hdisk]
    · exact h.prev_term
    · exact h.prev_vote
    · exact fun hv ↦ mem_append_left _ (h.saved_vote hv)
    · -- nothing was written: the hard state is unchanged, or the zero one
      intro T c hc
      refine (h.vote.le_term hc).trans ?_
      by_cases heq : s.node.hardState = s.node.prevHard
      · rw [← h.prev_term, ← heq]
        exact le_rfl
      · have : s.node.ready.hardState = s.node.hardState := if_pos heq
        rw [this, HardState.isEmpty_iff] at he
        exact he.1.le.trans (Nat.zero_le _)
  · rw [if_neg he] at hprev hdisk
    rw [RawNode.ready_hardState he] at hprev hdisk
    refine ⟨h.vote.handleReady, hmsgs, ?_, ?_, ?_, ?_⟩ <;> simp only [act, hprev, hdisk]
    · exact h.vote.voted
    · exact h.vote.le_term

theorem Inv.restart (h : Inv s) (rnd : ℕ) : Inv (s.act (.restart rnd)) := by
  set rn := newRawNode s.node.id s.node.peers s.node.log.storage rnd with hrn
  have hT : rn.term = s.node.log.storage.initialState.term := newRawNode_term _ _ _ _
  have hv : rn.votedFor = s.node.log.storage.initialState.votedFor := newRawNode_votedFor _ _ _ _
  have hst : rn.log.storage = s.node.log.storage := newRawNode_storage _ _ _ _
  obtain ⟨hb, hm⟩ := newRawNode_pending s.node.id s.node.peers s.node.log.storage rnd
  have hvote : OneVote s.ballots rn := by
    constructor <;> simp only [hrn, hb, hm, append_nil]
    · exact fun hc hc' ↦ h.vote.unique (mem_append_left _ hc) (mem_append_left _ hc')
    · rw [hT]
      exact h.saved_term
    · rw [hT, hv]
      exact h.saved_vote
    · simp
  refine ⟨hvote, h.sent, ?_, ?_, ?_, ?_⟩ <;> simp only [act, ← hrn, hst]
  · exact hT
  · exact hv
  · exact h.saved_vote
  · exact h.saved_term

/-- **Every event keeps the vote unique**, if the vote is remembered at it. -/
theorem Inv.act (h : Inv s) {e : Event} (he : s.Remembers e) : Inv (s.act e) := by
  cases e with
  | tick rnd =>
    obtain ⟨rn₀, hb, hm⟩ : ∃ rn₀, RawNode.Begins s.node rn₀ ∧
        RawNode.Moves (fun _ ↦ True) (VoteRemembered s.ballots) rn₀ (s.node.tick rnd) :=
      tick_moves rnd
    rw [Voter.act, wrapped_tick _ he]
    exact h.node ((h.vote.begins hb).moves id hm)
      ((RawNode.Begins.frame hb).trans (RawNode.Moves.frame hm))
  | step m rnd =>
    obtain ⟨hterm, hmterm, he⟩ := he
    rw [Voter.act, wrapped_step _ hterm hmterm]
    obtain ⟨rn₀, rn₁, hb, hm, hf⟩ : ∃ rn₀ rn₁, RawNode.Begins s.node rn₀ ∧
        RawNode.Moves (fun _ ↦ True) (VoteRemembered s.ballots) rn₀ rn₁ ∧
          RawNode.Finish (fun _ ↦ True) (fun _ _ ↦ True) rn₁ (s.node.step rnd m) :=
      step_moves trivial (fun _ h₁ ↦ h.vote.remembered_handleTerm he h₁) trivial
    exact h.node (((h.vote.begins hb).moves id hm).finish hf)
      (((RawNode.Begins.frame hb).trans (RawNode.Moves.frame hm)).trans hf.frame)
  | ready => exact h.ready
  | restart rnd => exact h.restart rnd

theorem Inv.run (h : Inv s) {es : List Event} (hes : s.AlwaysRemembers es) : Inv (s.run es) := by
  induction es generalizing s with
  | nil => exact h
  | cons e es ih => exact ih (h.act hes.1) hes.2

theorem inv_start (id : NodeId) (peers : List NodeId) (rnd : ℕ) : Inv (start id peers rnd) := by
  constructor
  · constructor
    · exact fun h ↦ by cases h
    · rintro _ _ ⟨⟩
    · exact fun hv ↦ absurd rfl hv
    · rintro _ ⟨⟩
  · rintro _ ⟨⟩
  · rfl
  · rfl
  · exact fun hv ↦ absurd rfl hv
  · rintro _ _ ⟨⟩

theorem Inv.voted (h : Inv s) {T : ℕ} {c : NodeId} (hv : s.Voted T c) : (T, c) ∈ s.ballots := by
  rcases hv with ⟨m, hm, hty, hr, rfl, rfl⟩ | ⟨-, hc⟩
  · exact h.sent m hm hty hr
  · exact hc

/-- **One vote per term.** In every sequence of ticks, messages, `Ready` cycles and restarts at
whose messages the vote is remembered, the node votes for at most one candidate in each term. -/
theorem one_vote_per_term (id : NodeId) (peers : List NodeId) (rnd : ℕ) (es : List Event)
    (h : (start id peers rnd).AlwaysRemembers es) {T : ℕ} {c c' : NodeId}
    (hc : ((start id peers rnd).run es).Voted T c)
    (hc' : ((start id peers rnd).run es).Voted T c') : c = c' := by
  have hinv := (inv_start id peers rnd).run h
  exact hinv.vote.unique (mem_append_left _ (hinv.voted hc))
    (mem_append_left _ (hinv.voted hc'))

/-- A vote, a restart, and the same request again. -/
theorem one_vote_after_restart :
    (start 1 [1, 2, 3] 0).AlwaysRemembers
      [.step { type := .vote, src := 2, dst := 1, term := 1 } 0, .ready, .restart 0,
        .step { type := .vote, src := 3, dst := 1, term := 1 } 0,
        .step { type := .vote, src := 2, dst := 1, term := 1 } 0, .ready] ∧
    ∀ c, ((start 1 [1, 2, 3] 0).run
      [.step { type := .vote, src := 2, dst := 1, term := 1 } 0, .ready, .restart 0,
        .step { type := .vote, src := 3, dst := 1, term := 1 } 0,
        .step { type := .vote, src := 2, dst := 1, term := 1 } 0, .ready]).Voted 1 c → c = 2 :=
  ⟨by decide +kernel, fun _ hc ↦
    one_vote_per_term 1 [1, 2, 3] 0 _ (by decide +kernel) hc (by decide +kernel)⟩

/-- Node `1` votes for node `2` in term `1` and learns from an append that `2` leads; a lost leader
later, as a pre-candidate, it votes for node `3` in the same term. -/
def forgottenVote : List Event :=
  [.step { type := .vote, src := 2, dst := 1, term := 1 } 0, .ready,
    .step { type := .app, src := 2, dst := 1, term := 1 } 0, .ready] ++
  List.replicate 10 (.tick 0) ++
  [.ready, .step { type := .vote, src := 3, dst := 1, term := 1 } 0, .ready]

theorem exists_second_vote :
    ¬∀ (id : NodeId) (peers : List NodeId) (rnd : ℕ) (es : List Event) (T : ℕ) (c c' : NodeId),
      ((start id peers rnd).run es).Voted T c → ((start id peers rnd).run es).Voted T c' →
      c = c' := by
  intro h
  have h₂ : ((start 1 [1, 2, 3] 0).run forgottenVote).Voted 1 2 := by decide +kernel
  have h₃ : ((start 1 [1, 2, 3] 0).run forgottenVote).Voted 1 3 := by decide +kernel
  exact absurd (h 1 [1, 2, 3] 0 forgottenVote 1 2 3 h₂ h₃) (by decide)

end Voter

end DucklingDB.Raft
