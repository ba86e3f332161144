import DucklingDB.Raft.Recovery

/-!
# Runs with crashes

A run is a sequence of events at whose nodes crashes happen, each at some point of a `Ready` cycle
and each followed by `NewRawNode`. If every crash is harmless, then each state of the run refines a
state of the abstract machine (`Mended.step`), and what is handed out is decided there
(`crash_recovery`).

Between two cycles the hard state on disk is the one in memory. This is what makes the hard state of
the survivor the node's, whether or not the cycle has written it.
-/

namespace DucklingDB.Raft

open RawNode Cluster List

open Consensus (State Inv ByNode Extends Decided DecidedAt Chosen)
open LSMLogStorage hiding hardState

/-! ## One event -/

section Mended

variable {cfg : Config} {c c' : Cluster} {A A' : State NodeId Entry} {p : NodeId} {a : Action}

/-- The node of an event, at the beginning of its cycle. -/
abbrev Cluster.acted (c : Cluster) (a : Action) : RawNode := a.apply (c.nodes a.node)

/-- The cluster is related to `A`, and the hard state of every node is on disk. -/
structure Mended (cfg : Config) (c : Cluster) (A : State NodeId Entry) : Prop where
  refines : Refines False cfg c A
  prevHard : ∀ i ∈ cfg.ids, (c.nodes i).prevHard = (c.nodes i).log.storage.initialState
  stands : ∀ i ∈ cfg.ids, Stands A i (c.nodes i).log.storage.initialState
  /-- Nothing is known of peers that do not exist. -/
  absent : ∀ i, i ∉ cfg.ids → A.log i = []
  emitted : ∀ x ∈ c.emitted, EntryDecided cfg.peers A x.2

theorem mended_init (cfg : Config) : Mended cfg (init cfg) State.init where
  refines := refines_init cfg
  prevHard _ _ := rfl
  stands _ _ := ⟨rfl, rfl, fun hv ↦ absurd rfl hv⟩
  absent _ _ := rfl
  emitted _ hx := by cases hx

theorem Stands.other {q : NodeId} {hs : HardState} (h : Stands A q hs)
    (hby : ByNode (quorums cfg.peers) p A A') (hq : q ≠ p) : Stands A' q hs where
  term := h.term.trans (hby.term q hq).symm
  commit := h.commit.trans (hby.commit q hq).symm
  voted hv := by
    rw [hby.term q hq]
    exact hby.ext.vote (h.voted hv)

/-- Steps of node `p` in a cluster. -/
theorem Mended.replace (h : Mended cfg c A) (hp : p ∈ cfg.ids)
    (hby : ByNode (quorums cfg.peers) p A A') (hothers : ∀ i, i ≠ p → c'.nodes i = c.nodes i)
    (hrefines : Refines False cfg c' A')
    (hprev : (c'.nodes p).prevHard = (c'.nodes p).log.storage.initialState)
    (hstands : Stands A' p (c'.nodes p).log.storage.initialState)
    (hemitted : ∀ x ∈ c'.emitted, x ∈ c.emitted ∨ EntryDecided cfg.peers A' x.2) :
    Mended cfg c' A' := by
  refine ⟨hrefines, fun i hi ↦ ?_, fun i hi ↦ ?_, fun i hi ↦ ?_, fun x hx ↦ ?_⟩
  · by_cases hip : i = p
    · rw [hip]
      exact hprev
    · rw [hothers i hip]
      exact h.prevHard i hi
  · by_cases hip : i = p
    · rw [hip]
      exact hstands
    · rw [hothers i hip]
      exact (h.stands i hi).other hby hip
  · have hip : i ≠ p := fun heq ↦ hi (heq ▸ hp)
    rw [hby.log i hip]
    exact h.absent i hi
  · refine (hemitted x hx).elim (fun hx ↦ ?_) id
    exact ⟨(h.emitted x hx).1, (h.emitted x hx).2.extends h.refines.inv hby.ext⟩

theorem Mended.apply_prevHard (h : Mended cfg c A) (hid : a.node ∈ cfg.ids) :
    (c.acted a).prevHard = (c.acted a).log.storage.initialState := by
  have hframe := a.apply_frame (c.nodes a.node)
  rw [hframe.prevHard, h.prevHard _ hid, initialState, initialState, hframe.hardState]

/-- The hard state on disk is the node's once it is written, if there is a need to. -/
theorem Mended.hardened (h : Mended cfg c A) (hid : a.node ∈ cfg.ids)
    (hby : ByNode (quorums cfg.peers) a.node A A')
    (hst : Stands A' a.node (c.acted a).hardState) :
    Stands A' a.node ((c.acted a).log.storage.hardened (c.acted a).ready).initialState := by
  have hprev := h.apply_prevHard (a := a) hid
  set rn := c.acted a with hrn
  have hold : Stands A a.node rn.prevHard := by
    rw [hrn, (a.apply_frame _).prevHard, h.prevHard _ hid]
    exact h.stands _ hid
  rw [LSMLogStorage.hardened]
  split <;> rename_i hempty
  · rw [← hprev]
    exact hold.of_isEmpty hby hst hempty
  · rw [RawNode.ready_hardState hempty]
    exact hst

theorem RawNode.handleReady_hardened (rn : RawNode) : rn.handleReady.log.storage.initialState =
    (rn.log.storage.hardened rn.ready).initialState := by
  rw [rn.handleReady_initialState, hardened]
  split <;> rfl

variable {rn₁ : RawNode}

theorem Mended.settled (h : Mended cfg c A) (hid : a.node ∈ cfg.ids) {A₁ A₂ : State NodeId Entry}
    (harr : Arrives False cfg c a A A₁ rn₁)
    (hset : SettlesIn False cfg (c.ledger a.node) A₁ a.node (HandoutGood c a) (c.acted a) A₂) :
    Stands A₂ a.node (c.acted a).handleReady.log.storage.initialState := by
  rw [handleReady_hardened]
  refine h.hardened hid (harr.byNode.trans hset.byNode) ?_
  rw [← handleReady_hardState]
  exact hset.node.stands

theorem Mended.event (h : Mended cfg c A) (hen : Cluster.Enabled cfg c a) (hgood : ApplyGood c a) :
    ∃ A', Mended cfg (c.settle a.node (c.acted a)) A' ∧ Extends A A' := by
  obtain ⟨A₁, rn₁, harr⟩ := h.refines.arrives hen hgood.1
  obtain ⟨A₂, hset⟩ := harr.settles h.refines hen.1
  have hby := harr.byNode.trans hset.byNode
  refine ⟨A₂, h.replace hen.1 hby (fun i hi ↦ c.settle_nodes_of_ne _ hi) ?_ ?_ ?_ ?_, hby.ext⟩
  · exact h.refines.replace hen.1 hby (c.settle_nodes_self _ _)
      (fun i hi ↦ c.settle_nodes_of_ne _ hi) rfl rfl hset.node harr.vote.handleReady hset.unstable
      rfl rfl hset.msgs
  · rw [settle_nodes_self, handleReady_initialState, ← h.apply_prevHard hen.1]
    rfl
  · rw [settle_nodes_self]
    exact h.settled hen.1 harr hset
  · intro x hx
    refine (mem_append.mp hx).imp_right fun hx ↦ ?_
    obtain ⟨e, he, rfl⟩ := mem_map.mp hx
    exact hset.handout hgood.2 e he

/-! ## One crash -/

theorem NodeRel.restorable {ledger : List (ℕ × NodeId)} {rn : RawNode}
    (h : NodeRel False cfg ledger A p rn) (hu : rn.log.unstable = []) (hb : rn.ballots = [])
    (hst : Stands A p rn.log.storage.initialState) : Restorable ledger A p rn.log.storage where
  holds := h.log.holds hu
  indexed := h.log.indexed
  stands := hst
  commit_le := h.commit ▸ h.log.committed_le
  snap_le := h.commit ▸ h.log.snap_le.trans h.log.applied_le
  cast hv := by
    have := h.cast hv
    rwa [hb, append_nil] at this

/-- A crash before the cycle begins: the storage is the one that the last cycle left, or
compacted. -/
theorem Mended.untouched (h : Mended cfg c A) (hid : a.node ∈ cfg.ids) :
    Restorable (c.ledger a.node) A a.node (c.acted a).log.storage := by
  have hnode := h.refines.node _ hid
  have hu := h.refines.unstable _ hid
  have hb := h.refines.settled.ballots _ hid
  have hst : Stands A a.node (c.acted a).log.storage.initialState := by
    rw [initialState, (a.apply_frame _).hardState]
    exact h.stands _ hid
  have hsame : (c.acted a).log.storage = (c.nodes a.node).log.storage →
      Restorable (c.ledger a.node) A a.node (c.acted a).log.storage := by
    intro heq
    rw [heq]
    exact hnode.restorable hu hb (h.stands _ hid)
  cases a with
  | tick id rnd => exact hsame (tick_storage _ _)
  | propose id data rnd => exact hsame (step_storage _ _ _)
  | deliver m rnd => exact hsame (step_storage _ _ _)
  | snapshot id data =>
    obtain ⟨s, hs, -⟩ := createSnapshot_eq (c.nodes id) data
    refine (hnode.createSnapshot data).restorable ?_ ?_ hst <;> rw [Action.node, hs]
    · exact hu
    · exact hb
  | compact id => exact hnode.compactLog.restorable hu hb hst

/-- What a crash after `w` effects of the cycle of `rn` leaves: a storage that node `p` can be
rebuilt from, and messages and applied entries that are right. -/
structure Survives (cfg : Config) (ledger : List (ℕ × NodeId)) (A : State NodeId Entry) (p : NodeId)
    (rn : RawNode) (w : ℕ) (A' : State NodeId Entry) : Prop where
  byNode : ByNode (quorums cfg.peers) p A A'
  restorable : Restorable (ledger ++ rn.ballots) A' p (rn.log.storage.survivor rn.ready w)
  term : A'.term p = rn.term
  msgs : ∀ m ∈ ((rn.log.storage.effects rn.ready).take w).filterMap Effect.sent,
    m.src = p ∧ MsgRel cfg.peers A' m
  handout : ∀ e ∈ ((rn.log.storage.effects rn.ready).take w).filterMap Effect.applied,
    EntryDecided cfg.peers A' e

/-- A torn cycle, with the node rescued. -/
theorem Mended.survives_torn (h : Mended cfg c A) (hid : a.node ∈ cfg.ids) {A₁ : State NodeId Entry}
    (harr : Arrives False cfg c a A A₁ rn₁) {w : ℕ}
    (hw : w < ((c.acted a).log.storage.persistWrites (c.acted a).ready).length)
    (hstate : ((c.acted a).log.storage.survivor (c.acted a).ready w).initialState =
      ((c.acted a).log.storage.hardened (c.acted a).ready).initialState)
    (hA' : Rescued cfg A₁ a.node ((c.acted a).log.storage.survivor
      (c.acted a).ready w) (c.acted a).log.committed A') :
    Survives cfg (c.ledger a.node) A a.node (c.acted a) w A' := by
  obtain ⟨hT, hV, hB⟩ := harr.finish.vote
  have hby := harr.byNode.trans hA'.byNode
  have hterm : A'.term a.node = (c.acted a).term := by
    rw [hA'.term, harr.node.term, hT]
  have hst : Stands A' a.node (c.acted a).hardState := by
    refine ⟨hterm.symm, hA'.commit.symm, ?_⟩
    change (c.acted a).votedFor ≠ noneId → A'.vote _ _ = some (c.acted a).votedFor
    rw [hA'.vote, hterm, hT, hV]
    exact harr.node.voted
  refine ⟨hby, ⟨hA'.holds, hA'.indexed, ?_, ?_, ?_, ?_⟩, hterm, fun m hm ↦ ?_, fun e he ↦ ?_⟩
  · rw [hstate]
    exact h.hardened hid hby hst
  · exact hA'.commit ▸ hA'.commit_le
  · exact hA'.commit ▸ hA'.snap_le
  · intro T d hv
    rw [hA'.vote] at hv
    rw [hB]
    exact harr.node.cast hv
  · exact absurd (mem_sent hm).1 hw.not_gt
  · exact absurd (mem_applied he).1 (by omega)

/-- **A harmless crash** leaves what node `p` can be rebuilt from. -/
theorem Mended.survives (h : Mended cfg c A) (hen : Cluster.Enabled cfg c a)
    (hgood : ReplicationGood c a) {w : ℕ} (h0 : 0 < w)
    (hharm : CrashHarmless (c.acted a) (HandoutGood c a) w) :
    ∃ A', Survives cfg (c.ledger a.node) A a.node (c.acted a) w A' := by
  obtain ⟨A₁, rn₁, harr⟩ := h.refines.arrives hen hgood
  obtain ⟨A₂, hset⟩ := harr.settles h.refines hen.1
  have hstands := h.settled hen.1 harr hset
  -- a survivor like the storage at the end of the cycle
  have halike : ((c.acted a).log.storage.persist (c.acted a).ready).Alike
        ((c.acted a).log.storage.survivor (c.acted a).ready w) →
      Survives cfg (c.ledger a.node) A a.node (c.acted a) w A₂ := by
    intro halike
    refine ⟨harr.byNode.trans hset.byNode, ?_, hset.node.term, fun m hm ↦ ?_, fun e he ↦ ?_⟩
    · have := hset.node.restorable hset.unstable rfl hstands
      rw [handleReady_storage] at this
      exact this.alike halike
    · exact hset.msgs m (mem_sent hm).2
    · obtain ⟨hlt, he⟩ := mem_applied he
      exact hset.handout (hharm.2 hlt) e he
  by_cases hw : w < ((c.acted a).log.storage.persistWrites (c.acted a).ready).length
  · obtain ⟨hfollower, hmend⟩ := hharm.1 hw
    have hu : rn₁.log.unstable = [] := by
      refine harr.unstable.resolve_right fun hlead ↦ ?_
      have := (harr.finish.leader hlead).1
      rw [hfollower] at this
      cases this
    have hsaved : (c.nodes a.node).log.storage.initialState.commit =
        (c.nodes a.node).log.committed :=
      (h.stands _ hen.1).commit.trans (h.refines.node _ hen.1).commit
    rcases harr.node.torn (harr.byNode.inv h.refines.inv) hu
      (fun hm ↦ (h.refines.net _ hm.1).extends h.refines.inv harr.byNode.ext)
      (h.apply_prevHard hen.1) (by rintro l m ⟨rfl, -⟩; exact hsaved) harr.finish h0 hw hmend
      with hend | ⟨hstate, A', hA'⟩
    · exact ⟨A₂, halike hend⟩
    · exact ⟨A', h.survives_torn hen.1 harr hw hstate hA'⟩
  · exact ⟨A₂, halike (alike_survivor (not_lt.mp hw))⟩

variable {s : LSMLogStorage}

theorem newRawNode_prevHard
    (hsnap : s.loadSnapshotMeta.index ≤ s.initialState.commit) (id : NodeId) (peers : List NodeId)
    (rnd : ℕ) : (newRawNode id peers s rnd).prevHard = s.initialState := by
  have hhard : (newRawNode id peers s rnd).prevHard = (newRawNode id peers s rnd).hardState := by
    simp only [newRawNode]
    split <;> rfl
  rw [hhard, hardState, newRawNode_term, newRawNode_votedFor, newRawNode_committed hsnap]

section

variable (h : Mended cfg c A)
include h

theorem Mended.rebuilt (hp : p ∈ cfg.ids)
    (hby : ByNode (quorums cfg.peers) p A A') {rnd : ℕ} {rn : RawNode}
    {ms : List Message} {bs : List (ℕ × NodeId)} {es : List Entry}
    (hs : Restorable (c.ledger p ++ bs) A' p s) (hvote : OneVote (c.ledger p ++ bs) rn)
    (hb : rn.ballots = []) (hterm : A'.term p = rn.term)
    (hms : ∀ m ∈ ms, m.src = p ∧ MsgRel cfg.peers A' m)
    (hes : ∀ e ∈ es, EntryDecided cfg.peers A' e)
    (hself : c'.nodes p = newRawNode p cfg.peers s rnd)
    (hothers : ∀ i, i ≠ p → c'.nodes i = c.nodes i) (hnet : c'.net = c.net ++ ms)
    (hballots : c'.ballots = c.ballots ++ bs.map fun b ↦ (p, b))
    (hemitted : c'.emitted = c.emitted ++ es.map fun e ↦ (p, e)) : Mended cfg c' A' := by
  obtain ⟨hb', hm'⟩ := newRawNode_pending p cfg.peers s rnd
  refine h.replace hp hby hothers ?_ ?_ ?_ fun x hx ↦ ?_
  · exact h.refines.replace hp hby hself hothers hnet hballots (hs.nodeRel rnd)
      (hs.oneVote hvote hb hterm cfg.peers rnd) (newRawNode_log p cfg.peers s rnd).1 hb' hm' hms
  · rw [hself, newRawNode_storage]
    exact newRawNode_prevHard (hs.stands.commit ▸ hs.snap_le) p cfg.peers rnd
  · rw [hself, newRawNode_storage]
    exact hs.stands
  · rw [hemitted] at hx
    refine (mem_append.mp hx).imp_right fun hx ↦ ?_
    obtain ⟨e, he, rfl⟩ := mem_map.mp hx
    exact hes e he

theorem Mended.crash (hen : Cluster.Enabled cfg c a) {w rnd : ℕ}
    (hgood : CrashGood c (.crash a w rnd)) :
    ∃ A', Mended cfg (c.crash cfg a.node (c.acted a) w rnd) A' ∧ Extends A A' := by
  have hothers : ∀ i, i ≠ a.node →
      (c.crash cfg a.node (c.acted a) w rnd).nodes i = c.nodes i := fun i hi ↦ if_neg hi
  rcases Nat.eq_zero_or_pos w with rfl | h0
  · have hs := h.untouched (a := a) hen.1
    rw [← append_nil (c.ledger a.node)] at hs
    have hvote := h.refines.vote _ hen.1
    rw [← append_nil (c.ledger a.node)] at hvote
    exact ⟨A, h.rebuilt hen.1 (.refl A _) hs hvote (h.refines.settled.ballots _ hen.1)
      (h.refines.node _ hen.1).term (fun m (hm : m ∈ []) ↦ by cases hm)
      (fun e (he : e ∈ []) ↦ by cases he) (if_pos rfl) hothers rfl rfl rfl, .refl A⟩
  · obtain ⟨hrep, hharm⟩ := hgood.resolve_left h0.ne'
    obtain ⟨A₁, rn₁, harr⟩ := h.refines.arrives hen hrep
    obtain ⟨A', hA'⟩ := h.survives hen hrep h0 hharm
    refine ⟨A',
      h.rebuilt hen.1 hA'.byNode hA'.restorable harr.vote.handleReady rfl hA'.term hA'.msgs
      hA'.handout (if_pos rfl) hothers rfl ?_ rfl, hA'.byNode.ext⟩
    change c.ballots ++ List.map _ (if w = 0 then [] else _) = _
    rw [if_neg h0.ne']

/-- **Every event of a run with crashes is matched.** -/
theorem Mended.step {ev : CrashEvent} (hgood : CrashGood c ev) :
    ∃ A', Mended cfg (c.crashStep cfg ev) A' ∧ Extends A A' := by
  cases ev with
  | event a =>
    by_cases hen : Cluster.Enabled cfg c a
    · rw [crashStep, act, if_pos hen]
      exact h.event hen hgood
    · rw [crashStep, act, if_neg hen]
      exact ⟨A, h, .refl A⟩
  | crash a w rnd =>
    rw [crashStep]
    split
    · rename_i hen
      exact h.crash hen hgood
    · exact ⟨A, h, .refl A⟩

theorem Mended.run {es : List CrashEvent}
    (hgood : Along (crashStep cfg) CrashGood c es) :
    ∃ A', Mended cfg (es.foldl (crashStep cfg) c) A' ∧ Extends A A' := by
  induction es generalizing c A with
  | nil => exact ⟨A, h, .refl A⟩
  | cons ev es ih =>
    obtain ⟨A₁, h₁, hext₁⟩ := h.step hgood.1
    obtain ⟨A', h', hext⟩ := ih h₁ hgood.2
    exact ⟨A', h', hext₁.trans hext⟩

end

end Mended

/-! ## What is handed out after a crash -/

/-- Node `rn` has `e` at index `i`, or a snapshot that covers `i`. -/
def RawNode.Covers (rn : RawNode) (i : ℕ) (e : Entry) : Prop :=
  i ≤ rn.log.storage.loadSnapshotMeta.index ∨ AList.lookup i rn.log.storage.log = some e

instance (rn : RawNode) (i : ℕ) (e : Entry) : Decidable (rn.Covers i e) :=
  inferInstanceAs (Decidable (_ ∨ _))

/-- A majority of the peers has `e` at its index. -/
def Cluster.Replicated (cfg : Config) (c : Cluster) (e : Entry) : Prop :=
  ∃ Q, IsMajority cfg.peers Q ∧ ∀ q ∈ Q, q ∈ cfg.ids ∧ (c.nodes q).Covers e.index e

section Handout

variable {cfg : Config} {c : Cluster} {A : State NodeId Entry} {q : NodeId} {e : Entry}

theorem Mended.covers (h : Mended cfg c A) (hq : q ∈ cfg.ids) {i : ℕ}
    (he : (A.log q)[i - 1]? = some e) : (c.nodes q).Covers i e := by
  have hs := (h.refines.node q hq).log.holds (h.refines.unstable q hq)
  refine or_iff_not_imp_left.mpr fun hsnap ↦ ?_
  have hlen := (List.getElem?_eq_some_iff.mp he).1
  obtain ⟨x, hx⟩ := hs.present (not_le.mp hsnap) (by omega)
  have := (hs.lookup (Or.inr (not_le.mp hsnap)) hx).2
  rw [hx, ← he, this]

theorem Mended.replicated (h : Mended cfg c A) (he : EntryDecided cfg.peers A e) :
    c.Replicated cfg e := by
  obtain ⟨h0, T, n, ⟨Q, hQ, hack⟩, hb, hi, hget⟩ := he
  refine ⟨Q, hQ, fun q hq ↦ ?_⟩
  have hlog : (A.log q)[e.index - 1]? = some e := by
    obtain ⟨t, ht⟩ :=
      h.refines.inv.safe.acked_log hb (hack q hq) ⟨Q, hQ, fun q hq ↦ Or.inl (hack q hq)⟩
    have hlen := (List.getElem?_eq_some_iff.mp hget).1
    rw [← ht, getElem?_append_left (by rw [length_take]; omega), getElem?_take_of_lt hi, hget]
  have hid : q ∈ cfg.ids := by
    by_contra hid
    rw [h.absent q hid] at hlog
    cases hlog
  exact ⟨hid, h.covers hid hlog⟩

theorem Mended.decided (h : Mended cfg c A) (hq : q ∈ cfg.ids) {i : ℕ} (h0 : i ≠ 0)
    (hi : i ≤ (c.nodes q).log.committed) :
    ∃ x, (A.log q)[i - 1]? = some x ∧ DecidedAt (quorums cfg.peers) A (i - 1) x := by
  have hnode := h.refines.node q hq
  have hlt : i - 1 < (c.nodes q).log.committed := (Nat.sub_one_lt h0).trans_le hi
  obtain ⟨x, hx⟩ : ∃ x, (A.log q)[i - 1]? = some x :=
    ⟨_, getElem?_eq_getElem (hlt.trans_le hnode.log.committed_le)⟩
  exact ⟨x, hx, h.refines.inv.decidedAt_of_commit (hnode.commit.symm ▸ hlt) hx⟩

/-- **Recovery from crashes.** In every run whose crashes are harmless, and whose other events meet
the conditions for replication, every node has committed no more than it has, also right after it
has been rebuilt. What has been handed out is on a majority of the peers, it is the entry of every
node that has committed its index at any time, and nothing else has been handed out for that
index. -/
theorem crash_recovery {cfg : Config} {es : List CrashEvent}
    (h : Along (crashStep cfg) CrashGood (init cfg) es) :
    (∀ q ∈ cfg.ids, ((afterEvents cfg es).nodes q).log.committed ≤
      ((afterEvents cfg es).nodes q).log.lastIndex) ∧
    ∀ x ∈ (afterEvents cfg es).emitted,
      (afterEvents cfg es).Replicated cfg x.2 ∧
      (∀ past, past <+: es → ∀ q ∈ cfg.ids,
        x.2.index ≤ ((afterEvents cfg past).nodes q).log.committed →
        ((afterEvents cfg past).nodes q).Covers x.2.index x.2) ∧
      ∀ y ∈ (afterEvents cfg es).emitted, y.2.index = x.2.index → y.2 = x.2 := by
  obtain ⟨A, hA, -⟩ : ∃ A, Mended cfg (afterEvents cfg es) A ∧ Extends State.init A :=
    (mended_init cfg).run h
  refine ⟨fun q hq ↦ ?_, fun x hx ↦ ⟨hA.replicated (hA.emitted x hx), ?_, fun y hy hidx ↦ ?_⟩⟩
  · have hlog := (hA.refines.node q hq).log
    rw [hlog.lastIndex_eq]
    exact hlog.committed_le
  · rintro past ⟨rest, rfl⟩ q hq hi
    rw [along_append] at h
    obtain ⟨A₁, h₁, -⟩ := (mended_init cfg).run h.1
    obtain ⟨A₂, h₂, hext⟩ := h₁.run h.2
    rw [afterEvents, foldl_append] at hx
    obtain ⟨h0, hdec⟩ := h₂.emitted x hx
    obtain ⟨z, hz, hdec'⟩ := h₁.decided hq h0 hi
    have heq := (hdec'.extends h₁.refines.inv hext).unique h₂.refines.inv hdec
    exact h₁.covers hq (heq ▸ hz)
  · obtain ⟨-, hdecx⟩ := hA.emitted x hx
    obtain ⟨-, hdecy⟩ := hA.emitted y hy
    rw [hidx] at hdecy
    exact hdecy.unique hA.refines.inv hdecx

end Handout

/-- Node `1` leads term `1`. Node `2` is behind; it is about to receive the first two entries, and
that the first one is committed. -/
def behind : List Action :=
  Action.elect 1 2 1 0 0 ++
  [.append 1 3 1 0 0 0 [{ term := 1, index := 1 }], .ack 1 3 1 1, .propose 1 (some [1]) 0]

/-- Node `2` crashes after `w` effects of the cycle that follows, and ticks. -/
def behindCrash (w : ℕ) : List CrashEvent :=
  behind.map .event ++
  [.crash (.append 1 2 1 0 0 1
      [{ term := 1, index := 1 }, { term := 1, index := 2, data := some [1] }]) w 0,
    .event (.tick 2 0)]

/-- Node `2` crashes when the hard state and the first entry are written, and then hands out the
first entry. -/
theorem crash_recovery_behind :
    (2, ({ term := 1, index := 1 } : Entry)) ∈
      (afterEvents threeNodes (behindCrash 2)).emitted ∧
    (afterEvents threeNodes (behindCrash 2)).Replicated threeNodes
      { term := 1, index := 1 } := by
  have hgood : Along (crashStep threeNodes) CrashGood (init threeNodes)
      (behindCrash 2) := by decide +kernel
  have hmem : (2, ({ term := 1, index := 1 } : Entry)) ∈
      (afterEvents threeNodes (behindCrash 2)).emitted := by decide +kernel
  exact ⟨hmem, ((crash_recovery hgood).2 _ hmem).1⟩

/-- Node `1` is elected in term `1` and has its first entry for itself. Node `3` leads term `2`, and
has committed another entry for the same index. -/
def overtaken : List Action :=
  Action.elect 1 2 1 0 0 ++ [Action.requestVote 1 3 1 0 0] ++ Action.elect 3 2 2 0 0 ++
  [.append 3 2 2 0 0 0 [{ term := 2, index := 1 }], .ack 3 2 2 1, .propose 3 (some [3]) 0]

/-- Node `1` receives the log of node `3` and crashes when the hard state is written. -/
def overtakenCrash : List CrashEvent :=
  overtaken.map .event ++
  [.crash (.append 3 1 2 0 0 1
      [{ term := 2, index := 1 }, { term := 2, index := 2, data := some [3] }]) 1 0,
    .event (.tick 1 0)]

/-- With the hard state written and the entries not, node `2` of `behindCrash` has committed an
entry that it has not got, and node `1` of `overtakenCrash` hands out its own. -/
theorem exists_bad_recovery :
    (¬∀ (cfg : Config) (es : List CrashEvent), ∀ q ∈ cfg.ids,
      ((afterEvents cfg es).nodes q).log.committed ≤
        ((afterEvents cfg es).nodes q).log.lastIndex) ∧
    ¬∀ (cfg : Config) (es : List CrashEvent), ∀ x ∈ (afterEvents cfg es).emitted,
      ∀ y ∈ (afterEvents cfg es).emitted, y.2.index = x.2.index → y.2 = x.2 := by
  constructor
  · intro h
    exact absurd (h threeNodes (behindCrash 1) 2 (by decide)) (by decide +kernel)
  · intro h
    have h₁ : (1, ({ term := 1, index := 1 } : Entry)) ∈
        (afterEvents threeNodes overtakenCrash).emitted := by decide +kernel
    have h₃ : (3, ({ term := 2, index := 1 } : Entry)) ∈
        (afterEvents threeNodes overtakenCrash).emitted := by decide +kernel
    exact absurd (h threeNodes overtakenCrash _ h₁ _ h₃ rfl) (by decide)

end DucklingDB.Raft
