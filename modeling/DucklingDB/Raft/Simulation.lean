import DucklingDB.Raft.Refinement

/-!
# Every move is matched

For each elementary move of a node, the steps of the abstract machine that match it. A node's own
bookkeeping needs none; an election is `elect` followed by the proposal and the acknowledgement of
the leader's first entry.
-/

namespace DucklingDB.Raft

open RawNode RaftLog List Nat GoMap

open Consensus (State Inv ByNode Extends Decided Chosen lastTerm UpToDate)
open Function (update update_of_ne update_self)
open LSMLogStorage hiding firstIndex
open Consensus.State (set₂ set₂_apply)

section Simulation

variable {clean : Prop} {cfg : Config} {ledger : List (ℕ × NodeId)} {A A' : State NodeId Entry}
  {p : NodeId} {rn rn' : RawNode}

/-- The leader logs are as before, but for the one of the term that `rn` leads. -/
def KeepsLogs (A A' : State NodeId Entry) (rn : RawNode) : Prop :=
  ∀ T, A'.full T = A.full T ∧ A'.leader T = A.leader T ∨ rn.state = .leader ∧ rn.term = T

theorem KeepsLogs.rfl : KeepsLogs A A rn := fun _ ↦ .inl ⟨Eq.refl _, Eq.refl _⟩

/-- A move is matched by steps of node `p`. -/
def Matched (clean : Prop) (cfg : Config) (ledger : List (ℕ × NodeId)) (A : State NodeId Entry)
    (p : NodeId) (rn : RawNode) : Prop :=
  ∃ A', ByNode (quorums cfg.peers) p A A' ∧ NodeRel clean cfg ledger A' p rn ∧ KeepsLogs A A' rn

theorem NodeRel.matched (h : NodeRel clean cfg ledger A p rn) : Matched clean cfg ledger A p rn :=
  ⟨A, .refl A p, h, .rfl⟩

theorem Matched.of_eq (hby : ByNode (quorums cfg.peers) p A A') (hfull : A'.full = A.full)
    (hlead : A'.leader = A.leader) (h : NodeRel clean cfg ledger A' p rn) :
    Matched clean cfg ledger A p rn :=
  ⟨A', hby, h, fun T ↦ .inl ⟨congrFun hfull T, congrFun hlead T⟩⟩

/-! ## Terms and votes -/

theorem NodeRel.timers (h : NodeRel clean cfg ledger A p rn) {lead : NodeId}
    {recent : GoMap NodeId Bool} {e b t : ℕ} :
    NodeRel clean cfg ledger A p { rn with
      leadID := lead, recentActive := recent, electionElapsed := e, heartbeatElapsed := b
      electionTimeout := t } :=
  ⟨h.id, h.peers, h.term, h.log, h.commit, h.voted, h.cast, h.candidate, h.leader, h.msgs⟩

theorem NodeRel.follow (hA : Inv (quorums cfg.peers) A) (h : NodeRel clean cfg ledger A p rn)
    {rnd T lead : ℕ} (hT : rn.term ≤ T) :
    Matched clean cfg ledger A p (rn.becomeFollower rnd T lead) := by
  rcases hT.eq_or_lt with rfl | hlt
  · refine NodeRel.matched ⟨h.id, h.peers, h.term, h.log, h.commit, fun hv ↦ absurd rfl hv, h.cast,
      ?_, ?_, h.msgs⟩
    · rintro ⟨⟩
    · rintro ⟨⟩
  · have hby := ByNode.adopt hA (p := p) (T := T) (by rwa [h.term])
    refine .of_eq hby rfl rfl
      ⟨h.id, h.peers, ?_, h.log, h.commit, fun hv ↦ absurd rfl hv, h.cast, ?_, ?_, ?_⟩
    · exact update_self _ _ _
    · rintro ⟨⟩
    · rintro ⟨⟩
    · exact fun m hm ↦ ⟨(h.msgs m hm).1, (h.msgs m hm).2.extends hA hby.ext⟩

theorem NodeRel.preCampaign (h : NodeRel clean cfg ledger A p rn) (rnd : ℕ) :
    NodeRel clean cfg ledger A p (rn.becomePreCandidate rnd) :=
  ⟨h.id, h.peers, h.term, h.log, h.commit, h.voted, h.cast, (by rintro ⟨⟩), (by rintro ⟨⟩), h.msgs⟩

open AList (insert lookup lookup_insert lookup_insert_ne)

theorem NodeRel.campaign (hA : Inv (quorums cfg.peers) A) (h : NodeRel clean cfg ledger A p rn)
    (hp : p ∈ cfg.peers) (rnd : ℕ) : Matched clean cfg ledger A p (rn.becomeCandidate rnd) := by
  have hby := ByNode.campaign hA p
  have hvote : ∀ T, set₂ A.vote p (A.term p + 1) (some p) p T =
      if T = A.term p + 1 then some p else A.vote p T := fun T ↦ by
    rw [set₂_apply]
    simp
  refine .of_eq hby rfl rfl ⟨h.id, h.peers, ?_, h.log, h.commit, ?_, ?_, ?_, ?_, ?_⟩
  · simp only [update_self, h.term]
    rfl
  · intro _
    change set₂ A.vote p (A.term p + 1) (some p) p (rn.term + 1) = some rn.id
    rw [hvote, h.term, if_pos rfl, h.id]
  · intro T c hc
    change set₂ A.vote p (A.term p + 1) (some p) p T = some c at hc
    change (T, c) ∈ ledger ++ (rn.ballots ++ [(rn.term + 1, rn.id)])
    rw [hvote] at hc
    rw [← append_assoc]
    split at hc
    · rename_i hT
      cases hc
      rw [hT, h.term, h.id]
      exact mem_append_right _ (mem_singleton.mpr rfl)
    · exact mem_append_left _ (h.cast hc)
  · intro _
    refine ⟨?_, fun hl ↦ ?_, fun q hq ↦ ?_⟩
    · change set₂ A.cand p (A.term p + 1) (some (A.log p)) p (rn.term + 1) = _
      rw [set₂_apply, h.term, if_pos ⟨rfl, rfl⟩]
    · have := hA.records.leader_le hl
      rw [h.term] at this
      exact absurd this (not_succ_le_self _)
    · -- the only vote counted so far is the node's own
      change lookup q (insert rn.id true ∅ : GoMap NodeId Bool) = some true at hq
      by_cases hqp : q = p
      · subst hqp
        refine ⟨hp, ?_⟩
        change set₂ A.vote q (A.term q + 1) (some q) q (rn.term + 1) = some q
        rw [hvote, h.term, if_pos rfl]
      · rw [lookup_insert_ne (by rwa [h.id]), AList.lookup_empty] at hq
        cases hq
  · rintro ⟨⟩
  · exact fun m hm ↦ ⟨(h.msgs m hm).1, (h.msgs m hm).2.extends hA hby.ext⟩

theorem NodeRel.countVote (h : NodeRel clean cfg ledger A p rn) {m : Message}
    (hm : m.reject = false → m.src ∈ cfg.peers ∧ A.vote m.src rn.term = some p) :
    NodeRel clean cfg ledger A p { rn with votes := insert m.src (!m.reject) rn.votes } := by
  refine ⟨h.id, h.peers, h.term, h.log, h.commit, h.voted, h.cast, fun hst ↦ ?_, h.leader, h.msgs⟩
  obtain ⟨hc, hl, hv⟩ := h.candidate hst
  refine ⟨hc, hl, fun q hq ↦ ?_⟩
  by_cases hqs : q = m.src
  · subst hqs
    rw [lookup_insert] at hq
    exact hm (by simpa using hq)
  · rw [lookup_insert_ne hqs] at hq
    exact hv q hq

/-- The source's comparison of logs is the abstract one. -/
theorem NodeRel.upToDate (h : NodeRel clean cfg ledger A p rn) {l : List Entry} {i t : ℕ}
    (hi : i = l.length) (ht : t = lastTerm l) (hup : rn.log.isUpToDate i t = true) :
    UpToDate l (A.log p) := by
  have hlast := h.log.lastTerm_eq
  rw [isUpToDate, h.log.lastIndex_eq, hlast, ht, hi] at hup
  split at hup
  · exact .inl (by simpa using hup)
  · rename_i heq
    exact .inr ⟨(not_ne_iff.mp heq).symm, by simpa using hup⟩

section

variable (hA : Inv (quorums cfg.peers) A) (h : NodeRel clean cfg ledger A p rn)
include hA h

theorem NodeRel.grant {m : Message} (hm : MsgRel cfg.peers A m) (hty : m.type = .vote)
    (hT : m.term = rn.term) (hg : rn.canGrant m = true) (hrem : VoteRemembered ledger rn m) :
    Matched clean cfg ledger A p (rn.grantVote m) := by
  simp only [MsgRel, hty] at hm
  obtain ⟨l, hcand, hi, ht⟩ := hm
  rw [hT] at hcand
  have hup : UpToDate l (A.log p) := by
    simp only [canGrant, Bool.and_eq_true] at hg
    exact h.upToDate hi ht hg.2
  have hv : A.vote p rn.term = none ∨ A.vote p rn.term = some m.src := by
    cases hvote : A.vote p rn.term with
    | none => exact .inl rfl
    | some c =>
      right
      by_cases h0 : rn.votedFor = noneId
      · exact congrArg some (hrem hty hT h0 hg (rn.term, c) (h.cast hvote) hT.symm)
      · simp only [canGrant, canVote, hty, Bool.and_eq_true, Bool.or_eq_true,
          beq_iff_eq, h0, false_and, or_false, reduceCtorEq] at hg
        rw [← hvote, h.voted h0, hg.1.2]
  have hby := ByNode.castVote hA h.term hv hcand hup
  have hvote : ∀ T, set₂ A.vote p rn.term (some m.src) p T =
      if T = rn.term then some m.src else A.vote p T := fun T ↦ by
    rw [set₂_apply]
    simp
  rw [grantVote, if_pos hty]
  refine .of_eq hby rfl rfl ⟨h.id, h.peers, h.term, h.log, h.commit, ?_, ?_, ?_, ?_, ?_⟩
  · intro _
    change set₂ A.vote p rn.term (some m.src) p rn.term = some m.src
    rw [hvote, if_pos rfl]
  · intro T c hc
    change set₂ A.vote p rn.term (some m.src) p T = some c at hc
    rw [hvote] at hc
    rw [← append_assoc]
    split at hc
    · rename_i hTT
      cases hc
      rw [hTT, hT]
      exact mem_append_right _ (mem_singleton.mpr rfl)
    · exact mem_append_left _ (h.cast hc)
  · intro hst
    obtain ⟨hc, hl, hvs⟩ := h.candidate hst
    exact ⟨hc, hl, fun q hq ↦ ⟨(hvs q hq).1, hby.ext.vote (hvs q hq).2⟩⟩
  · exact h.leader
  · intro r hr
    rcases mem_append.mp hr with hr | hr
    · exact ⟨(h.msgs r hr).1, (h.msgs r hr).2.extends hA hby.ext⟩
    · rw [mem_singleton.mp hr]
      refine ⟨h.id, ?_⟩
      simp only [MsgRel, voteRespType, hty, reduceCtorEq, ↓reduceIte, forall_const]
      rw [h.id, hvote, if_pos hT]

/-! ## Leaders -/

theorem NodeRel.full_eq (hst : rn.state = .leader) : A.log p = A.full rn.term :=
  hA.logs.leader_log (h.leader hst).1 h.term

end

/-- A leader adds entries of its term and acknowledges them to itself. -/
theorem leader_append (hA : Inv (quorums cfg.peers) A) {T : ℕ} (hl : A.leader T = some p)
    (hT : A.term p = T) (es : List Entry) (hes : ∀ e ∈ es, e.term = T) :
    ∃ A', ByNode (quorums cfg.peers) p A A' ∧ A'.log p = A.log p ++ es ∧
      A'.term = A.term ∧ A'.commit = A.commit ∧ A'.vote = A.vote ∧ A'.leader = A.leader ∧
      A'.base = A.base ∧ (∀ U, U ≠ T → A'.full U = A.full U) ∧
      (A.log p ++ es).length ≤ A'.acked p T := by
  have hby := ByNode.propose (S := quorums cfg.peers) hA hl hT hes
  have hlog := hA.logs.leader_log hl hT
  set A₁ : State NodeId Entry := { A with
    log := update A.log p (A.log p ++ es)
    full := update A.full T (A.full T ++ es) } with hA₁
  have hA₁inv := hby.inv hA
  have hfull : A₁.full T = A.log p ++ es := by
    rw [hA₁, hlog]
    exact update_self _ _ _
  have hlog₁ : A₁.log p = A.log p ++ es := update_self _ _ _
  have hack := ByNode.ack (S := quorums cfg.peers) (p := p) hA₁inv (T := T)
    (n := (A.log p ++ es).length) (by rw [hA₁]; exact hl ▸ rfl) hT (by rw [hfull])
    (by rw [hfull, hlog₁, take_length])
  refine ⟨_, hby.trans hack, hlog₁, rfl, rfl, rfl, rfl, rfl, fun U hU ↦ update_of_ne hU _ _, ?_⟩
  change _ ≤ set₂ A₁.acked p T (max (A₁.acked p T) (A.log p ++ es).length) p T
  rw [set₂_apply, if_pos ⟨rfl, rfl⟩]
  exact le_max_right _ _

theorem lookup_initProgress {rn : RawNode} {q v w : ℕ}
    (h : lookup q (rn.initProgress v) = some w) : q ∈ rn.peers ∧ w = v := by
  have key : ∀ (ps : List NodeId) (m : GoMap NodeId ℕ),
      (∀ w, lookup q m = some w → q ∈ rn.peers ∧ w = v) → (∀ i ∈ ps, i ∈ rn.peers) →
      ∀ w, lookup q (ps.foldl (fun m id ↦ insert id v m) m) = some w → q ∈ rn.peers ∧ w = v := by
    intro ps
    induction ps with
    | nil => exact fun m hm _ ↦ hm
    | cons i ps ih =>
      intro m hm hps
      refine ih _ (fun w hw ↦ ?_) fun j hj ↦ hps j (.tail _ hj)
      by_cases hqi : q = i
      · subst hqi
        rw [lookup_insert] at hw
        exact ⟨hps q (.head _), (Option.some.inj hw).symm⟩
      · rw [lookup_insert_ne hqi] at hw
        exact hm w hw
  exact key rn.peers ∅ (fun w hw ↦ by rw [AList.lookup_empty] at hw; cases hw) (fun _ hi ↦ hi) w h

theorem get_initProgress_le (rn : RawNode) (q v : ℕ) : (rn.initProgress v).get q 0 ≤ v := by
  rw [GoMap.get]
  cases hlk : lookup q (rn.initProgress v) with
  | none => exact zero_le _
  | some w => exact (lookup_initProgress hlk).2.le

section

variable (hA : Inv (quorums cfg.peers) A)
include hA

section

variable (h : NodeRel clean cfg ledger A p rn)
include h

theorem NodeRel.win (hp : p ∈ cfg.peers) (hst : rn.state = .candidate)
    (hq : rn.quorum ≤ rn.tallyVotes) : Matched clean cfg ledger A p rn.initLeader := by
  obtain ⟨hc, hl, hv⟩ := h.candidate hst
  -- the votes counted are a majority
  set Q := GoMap.support rn.votes fun v ↦ v with hQdef
  have hvote : ∀ q ∈ Q, q ∈ cfg.peers ∧ A.vote q rn.term = some p := by
    intro q hmem
    obtain ⟨v, hlk, rfl⟩ := mem_support.mp hmem
    exact hv q hlk
  have hQ : (quorums cfg.peers).IsQuorum Q := by
    refine ⟨fun q hmem ↦ mem_toFinset.mpr (hvote q hmem).1, ?_⟩
    rw [hQdef, card_support, ← h.peers]
    exact hq
  have hno : A.leader rn.term = none := by
    cases hlead : A.leader rn.term with
    | none => rfl
    | some c =>
      have := hA.records.leader_eq hlead hQ fun q hmem ↦ (hvote q hmem).2
      exact absurd (this ▸ hlead) hl
  have hby := ByNode.elect hA hQ (fun q hmem ↦ (hvote q hmem).2) h.term hc hno
  set A₁ : State NodeId Entry := { A with
    leader := update A.leader rn.term (some p)
    base := update A.base rn.term (A.log p)
    full := update A.full rn.term (A.log p) } with hA₁
  have hlast := h.log.lastIndex_eq
  set e : Entry := { term := rn.term, index := rn.log.lastIndex + 1 } with he
  obtain ⟨A₂, hby₂, hlog₂, hterm₂, hcom₂, hvote₂, hlead₂, hbase₂, hfull₂, hack₂⟩ :=
    leader_append (p := p) (hby.inv hA) (T := rn.term) (update_self _ _ _) h.term [e]
      (fun x hx ↦ by rw [mem_singleton.mp hx])
  have hlog₁ : A₁.log p = A.log p := rfl
  rw [hlog₁] at hlog₂ hack₂
  have hidx : Indexed (A.log p ++ [e]) := by
    intro i x hx
    rw [getElem?_append] at hx
    split at hx
    · exact h.log.indexed i x hx
    · have hi := mem_of_getElem? hx
      have hi' := (List.getElem?_eq_some_iff.mp hx).1
      rw [length_singleton] at hi'
      rw [mem_singleton.mp hi, he, hlast]
      simp only
      omega
  have hext := hby.trans hby₂
  have hkeep : KeepsLogs A A₂ rn.initLeader := by
    intro T
    by_cases hT : T = rn.term
    · exact .inr ⟨rfl, hT.symm⟩
    · refine .inl ⟨?_, ?_⟩
      · rw [hfull₂ T hT]
        exact update_of_ne hT _ _
      · rw [hlead₂]
        exact update_of_ne hT _ _
  refine ⟨A₂, hext, ⟨h.id, h.peers, ?_, ?_, ?_, ?_, ?_, ?_, ?_, ?_⟩, hkeep⟩
  · rw [hterm₂]
    exact h.term
  · rw [hlog₂]
    exact h.log.append hidx
  · rw [hcom₂]
    exact h.commit.trans (append_committed _ _).symm
  · intro hvf
    rw [hvote₂]
    exact h.voted hvf
  · intro T c hvc
    rw [hvote₂] at hvc
    exact h.cast hvc
  · rintro ⟨⟩
  · intro _
    refine ⟨?_, ?_, fun q v hlk ↦ ?_, fun q ↦ ?_⟩
    · rw [hlead₂]
      exact update_self _ _ _
    · have hb : A₂.base rn.term = A.log p := by
        rw [hbase₂]
        exact update_self _ _ _
      change (A₂.base rn.term).length < _
      rw [hb, hlog₂, length_append]
      exact lt_succ_self _
    · -- the leader's own progress is acknowledged, that of the others starts at zero
      change lookup q (insert rn.id (rn.log.lastIndex + 1) (rn.initProgress 0)) = some v at hlk
      by_cases hqp : q = rn.id
      · subst hqp
        rw [lookup_insert] at hlk
        cases hlk
        rw [h.id]
        refine ⟨hp, le_trans ?_ hack₂⟩
        rw [hlast, length_append]
        exact le_rfl
      · rw [lookup_insert_ne hqp] at hlk
        obtain ⟨hmem, rfl⟩ := lookup_initProgress hlk
        exact ⟨h.peers ▸ hmem, zero_le _⟩
    · refine (get_initProgress_le rn q _).trans ?_
      rw [hlog₂, length_append, hlast]
      omega
  · exact fun m hm ↦ ⟨(h.msgs m hm).1, (h.msgs m hm).2.extends hA hext.ext⟩

theorem NodeRel.propose (hp : p ∈ cfg.peers) (hst : rn.state = .leader) (es : List Entry) :
    Matched clean cfg ledger A p { rn with
      log := rn.log.append (rn.propEntries es)
      matchIndex := insert rn.id (rn.log.append (rn.propEntries es)).lastIndex rn.matchIndex } := by
  obtain ⟨hl, hb, hm, hn⟩ := h.leader hst
  have hlast := h.log.lastIndex_eq
  have hes : ∀ x ∈ rn.propEntries es, x.term = rn.term := by
    intro x hx
    obtain ⟨i, hi⟩ := getElem?_of_mem hx
    exact (propEntries_getElem? rn es hi).1
  obtain ⟨A', hby, hlog, hterm, hcom, hvote, hlead, hbase, hfull, hack⟩ :=
    leader_append hA hl h.term (rn.propEntries es) hes
  have hidx : Indexed (A.log p ++ rn.propEntries es) := by
    intro i x hx
    rw [getElem?_append] at hx
    split at hx
    · exact h.log.indexed i x hx
    · rw [(propEntries_getElem? rn es hx).2, hlast]
      omega
  have hlive := h.log.append hidx
  have hkeep : ∀ T, A'.full T = A.full T ∧ A'.leader T = A.leader T ∨
      rn.state = .leader ∧ rn.term = T := by
    intro T
    by_cases hT : T = rn.term
    · exact .inr ⟨hst, hT.symm⟩
    · exact .inl ⟨hfull T hT, by rw [hlead]⟩
  refine ⟨A', hby, ⟨h.id, h.peers, hterm ▸ h.term, hlog ▸ hlive, ?_, ?_, ?_, ?_, ?_, ?_⟩, hkeep⟩
  · rw [hcom]
    exact h.commit.trans (append_committed _ _).symm
  · rw [hvote]
    exact h.voted
  · rw [hvote]
    exact h.cast
  · exact fun hst' ↦ by cases hst.symm.trans hst'
  · intro _
    rw [hlead, hbase, hlog]
    refine ⟨hl, hb.trans_le (by rw [length_append]; omega), fun q v hlk ↦ ?_, fun q ↦ ?_⟩
    · by_cases hqp : q = rn.id
      · subst hqp
        rw [lookup_insert] at hlk
        cases hlk
        rw [h.id, hlive.lastIndex_eq]
        exact ⟨hp, hack⟩
      · rw [lookup_insert_ne hqp] at hlk
        exact ⟨(hm q v hlk).1, (hm q v hlk).2.trans (hby.ext.acked_le _ _)⟩
    · exact (hn q).trans (by rw [length_append]; omega)
  · exact fun m hm ↦ ⟨(h.msgs m hm).1, (h.msgs m hm).2.extends hA hby.ext⟩

theorem NodeRel.learn {U n c : ℕ} (hch : Chosen (quorums cfg.peers) A U n)
    (hb : (A.base U).length < n) (hU : U ≤ rn.term) (hc : c ≤ n)
    (hpre : (A.full U).take c <+: A.log p) :
    Matched clean cfg ledger A p { rn with log := rn.log.commitTo c } := by
  have hby := ByNode.learn hA hch hb (p := p) (h.term ▸ hU) hc hpre
  obtain ⟨-, hn⟩ := hA.chosen_leader hch (by omega)
  have hcL := Consensus.le_length_of_take (hc.trans hn) hpre
  refine .of_eq hby rfl rfl
    ⟨h.id, h.peers, h.term, h.log.commitTo hcL, ?_, h.voted, h.cast, h.candidate, h.leader, ?_⟩
  · simp only [update_self]
    rw [commitTo_eq, h.commit]
  · exact fun m hm ↦ ⟨(h.msgs m hm).1, (h.msgs m hm).2.extends hA hby.ext⟩

theorem NodeRel.commitLeader (hst : rn.state = .leader) {n : ℕ} (hc : rn.log.committed < n)
    (ht : rn.log.term n = .ok rn.term)
    (hq : rn.quorum ≤ rn.matchIndex.countValues fun idx ↦ decide (idx ≥ n)) :
    Matched clean cfg ledger A p { rn with log := rn.log.commitTo n } := by
  obtain ⟨hl, hb, hm, hnext⟩ := h.leader hst
  have hfull := h.full_eq hA hst
  have hlT : (A.leader rn.term).isSome := by rw [hl]; rfl
  -- the peers whose progress reaches `n` are a majority that acknowledged it
  have hch : Chosen (quorums cfg.peers) A rn.term n := by
    refine ⟨GoMap.support rn.matchIndex fun idx ↦ decide (idx ≥ n), ⟨fun q hmem ↦ ?_, ?_⟩,
      fun q hmem ↦ ?_⟩
    · obtain ⟨v, hlk, -⟩ := mem_support.mp hmem
      exact mem_toFinset.mpr (hm q v hlk).1
    · rw [card_support, ← h.peers]
      exact hq
    · obtain ⟨v, hlk, hv⟩ := mem_support.mp hmem
      exact (of_decide_eq_true hv).trans (hm q v hlk).2
  -- an entry of the leader's own term lies beyond its election
  have hbn : (A.base rn.term).length < n := by
    obtain ⟨e, he, hte⟩ := h.log.of_term ht (by omega)
    by_contra hle
    obtain ⟨t, hbase⟩ := hA.logs.base_full hlT
    rw [hfull, ← hbase, getElem?_append_left (by omega)] at he
    have := hA.logs.cand_term (hA.records.leader_cand hl) e (mem_of_getElem? he)
    exact absurd hte (Nat.ne_of_lt this)
  exact h.learn hA hch hbn le_rfl le_rfl (hfull ▸ take_prefix _ _)

theorem NodeRel.progress {q n : ℕ} (hq : q ∈ cfg.peers) (hn : n ≤ A.acked q rn.term) :
    NodeRel clean cfg ledger A p { rn with
      matchIndex := insert q n rn.matchIndex
      nextIndex := insert q (n + 1) rn.nextIndex } := by
  refine ⟨h.id, h.peers, h.term, h.log, h.commit, h.voted, h.cast, h.candidate,
    fun hst ↦ ?_, h.msgs⟩
  obtain ⟨hl, hb, hm, hnext⟩ := h.leader hst
  refine ⟨hl, hb, fun r v hlk ↦ ?_, fun r ↦ ?_⟩
  · by_cases hrq : r = q
    · subst hrq
      rw [lookup_insert] at hlk
      cases hlk
      exact ⟨hq, hn⟩
    · rw [lookup_insert_ne hrq] at hlk
      exact hm r v hlk
  · rw [get_insert]
    split
    · rw [h.full_eq hA hst]
      exact succ_le_succ (hn.trans (hA.safe.acked_le q _))
    · exact hnext r

end

end

theorem NodeRel.setNext (h : NodeRel clean cfg ledger A p rn) {dst v : ℕ}
    (hv : v ≤ rn.nextIndex.get dst 0 ∨ v = rn.log.storage.snapshot.metadata.index + 1) :
    NodeRel clean cfg ledger A p { rn with nextIndex := insert dst v rn.nextIndex } := by
  refine ⟨h.id, h.peers, h.term, h.log, h.commit, h.voted, h.cast, h.candidate,
    fun hst ↦ ?_, h.msgs⟩
  obtain ⟨hl, hb, hm, hnext⟩ := h.leader hst
  refine ⟨hl, hb, hm, fun r ↦ ?_⟩
  rw [get_insert]
  split
  · rcases hv with hv | rfl
    · exact hv.trans (hnext dst)
    · refine succ_le_succ (le_trans ?_ h.log.snap_le_length)
      rw [snapshot]
      split
      · exact zero_le _
      · split
        · exact zero_le _
        · exact le_rfl
  · exact hnext r

theorem NodeRel.heartbeat (hA : Inv (quorums cfg.peers) A) (h : NodeRel clean cfg ledger A p rn)
    {m : Message} (hm : MsgRel cfg.peers A m) (hty : m.type = .heartbeat) (hT : m.term = rn.term)
    (hdst : m.dst = p) :
    Matched clean cfg ledger A p
      { rn with log := rn.log.commitTo (min m.commit rn.log.lastIndex) } := by
  simp only [MsgRel, hty] at hm
  rcases hm with h0 | ⟨hl, hack, U, n, hch, hb, hU, hle, hpre⟩
  · have : rn.log.commitTo (min m.commit rn.log.lastIndex) = rn.log := by
      rw [h0, zero_min, commitTo, if_neg (not_lt_zero _)]
    rw [this]
    exact h.matched
  · rw [hT] at hU hpre hack
    rw [hdst] at hack
    obtain ⟨-, hn⟩ := hA.chosen_leader hch (by omega)
    refine h.learn hA hch hb hU ((min_le_left _ _).trans hle) ?_
    -- the node acknowledged more than the heartbeat commits
    have hcur := hA.safe.acked_current p
    rw [h.term] at hcur
    refine ((Consensus.take_mono (min_le_left _ _)).trans ?_).trans hcur
    refine prefix_of_prefix_length_le hpre (List.take_prefix _ _) ?_
    have := hA.safe.acked_le p rn.term
    rw [length_take, length_take]
    omega

/-! ## Messages -/

theorem NodeRel.send (h : NodeRel clean cfg ledger A p rn) {m : Message}
    (hm : MsgRel cfg.peers A { m with src := p }) : NodeRel clean cfg ledger A p (rn.send m) := by
  refine ⟨h.id, h.peers, h.term, h.log, h.commit, h.voted, h.cast, h.candidate, h.leader, ?_⟩
  intro r hr
  rcases mem_append.mp hr with hr | hr
  · exact h.msgs r hr
  · rw [mem_singleton.mp hr, h.id]
    exact ⟨rfl, hm⟩

theorem NodeRel.decided (hA : Inv (quorums cfg.peers) A) (h : NodeRel clean cfg ledger A p rn)
    (hst : rn.state = .leader) {c : ℕ} (hc : c ≤ rn.log.committed) :
    c = 0 ∨ Decided (quorums cfg.peers) A rn.term c := by
  by_cases h0 : A.commit p = 0
  · left
    rw [h.commit] at h0
    omega
  · right
    exact (hA.decided_of_leader (h.leader hst).1 h.term h0).mono (h.commit.symm ▸ hc)

theorem appendMessage_logTerm {dst : NodeId} {t : ℕ}
    (h : rn.log.term (rn.nextIndex.get dst 0 - 1) = .ok t) :
    (rn.appendMessage dst).logTerm = t := by
  simp only [appendMessage, h]

section

variable (hA : Inv (quorums cfg.peers) A) (h : NodeRel clean cfg ledger A p rn)
include hA h

theorem NodeRel.appendRel (hst : rn.state = .leader) {dst : NodeId}
    (hnext : rn.log.firstIndex ≤ rn.nextIndex.get dst 0) :
    AppendRel cfg.peers A { rn.appendMessage dst with src := p } (A.log p).length := by
  obtain ⟨hl, hb, hm, hle⟩ := h.leader hst
  have hfull := h.full_eq hA hst
  rw [firstIndex, LSMLogStorage.Holds.firstIndex_eq] at hnext
  have hle := hle dst
  set next := rn.nextIndex.get dst 0 with hnextdef
  refine ⟨hl, hb, ?_, ?_, ?_, ?_, ?_, ?_, ?_⟩
  · change _ ≤ (A.full rn.term).length
    rw [hfull]
  · change Indexed ((A.full rn.term).take _)
    rw [← hfull]
    exact h.log.indexed.take _
  · change next - 1 ≤ _
    omega
  · change rn.log.entries next (rn.log.lastIndex + 1) = slice (A.full rn.term) (next - 1 + 1) _
    rw [h.log.lastIndex_eq, h.log.entries_eq (by omega) le_rfl, ← hfull,
      Nat.sub_add_cancel (by omega)]
  · by_cases h0 : next - 1 = 0
    · exact .inl h0
    · right
      obtain ⟨e, he⟩ : ∃ e, (A.log p)[next - 1 - 1]? = some e := ⟨_, getElem?_eq_getElem (by omega)⟩
      refine ⟨e, hfull ▸ he, (appendMessage_logTerm ?_).symm⟩
      exact h.log.term_eq (by omega) (by omega) he
  · exact h.log.committed_le
  · exact h.decided hA hst le_rfl

theorem NodeRel.snapRel (hst : rn.state = .leader) (dst : NodeId)
    (hsnap : rn.log.storage.snapshot.isEmpty = false) :
    SnapRel cfg.peers A { type := .snap, dst := dst, src := p, term := rn.term
                          snapshot := rn.log.storage.snapshot } := by
  obtain ⟨hl, -, -, -⟩ := h.leader hst
  have hfull := h.full_eq hA hst
  have hmeta : rn.log.storage.snapshot.metadata = rn.log.storage.loadSnapshotMeta := by
    rw [snapshot] at hsnap ⊢
    by_cases h0 : rn.log.storage.loadSnapshotMeta.index = 0
    · rw [if_pos h0] at hsnap
      cases hsnap
    · rw [if_neg h0] at hsnap ⊢
      cases hd : rn.log.storage.snapData with
      | none =>
        rw [hd] at hsnap
        cases hsnap
      | some data => rfl
  have hpos : 0 < rn.log.storage.loadSnapshotMeta.index := by
    rwa [Snapshot.isEmpty_eq_false, hmeta] at hsnap
  obtain ⟨L₀, hs, hL, -⟩ := h.log.stable
  refine ⟨hl, ?_, ?_, ?_, ?_, ?_⟩ <;> simp only [hmeta]
  · exact hpos
  · rw [← hfull]
    exact h.log.snap_le_length
  · rw [← hfull]
    exact h.log.indexed.take _
  · intro e he
    have hle := hs.snap_le
    rw [← hfull, hL, getElem?_append_left (by omega)] at he
    exact hs.snap_term hpos he
  · refine (h.decided hA hst (h.log.snap_le.trans h.log.applied_le)).resolve_left ?_
    omega

theorem NodeRel.outgoing {m : Message} (hm : rn.Outgoing m) :
    MsgRel cfg.peers A { m with src := p } := by
  cases hm with
  | harmless hm =>
    rcases hm with hm | hm | hm | ⟨hm, hr⟩ | ⟨hm, hr⟩ <;> simp [MsgRel, *]
  | vote dst hst =>
    obtain ⟨hc, -, -⟩ := h.candidate hst
    exact ⟨A.log p, hc, h.log.lastIndex_eq, h.log.lastTerm_eq⟩
  | heartbeat dst hst =>
    obtain ⟨hl, -, hm, -⟩ := h.leader hst
    change min (rn.matchIndex.get dst 0) rn.log.committed = 0 ∨ (A.leader rn.term).isSome ∧
      min (rn.matchIndex.get dst 0) rn.log.committed ≤ A.acked dst rn.term ∧
      Decided (quorums cfg.peers) A rn.term (min (rn.matchIndex.get dst 0) rn.log.committed)
    refine (h.decided hA hst (min_le_right _ _)).imp_right fun hd ↦ ⟨by rw [hl]; rfl, ?_, hd⟩
    refine (min_le_left _ _).trans ?_
    rw [GoMap.get]
    cases hlk : lookup dst rn.matchIndex with
    | none => exact zero_le _
    | some v => exact (hm dst v hlk).2
  | append dst hst hnext => exact ⟨_, h.appendRel hA hst hnext⟩
  | snap dst hst hsnap => exact h.snapRel hA hst dst hsnap

end

/-! ## Snapshots of the node's own -/

section

variable (h : NodeRel clean cfg ledger A p rn)
include h

theorem NodeRel.setStorage {s : LSMLogStorage}
    (hlive : { rn.log with storage := s }.Live (A.log p) clean) :
    NodeRel clean cfg ledger A p (rn.setStorage s) :=
  ⟨h.id, h.peers, h.term, hlive, h.commit, h.voted, h.cast, h.candidate, h.leader, h.msgs⟩

theorem NodeRel.createSnapshot (data : Bytes) :
    NodeRel clean cfg ledger A p (rn.createSnapshot data) := by
  rw [RawNode.createSnapshot]
  split
  · exact h
  · rename_i t ht
    split
    · exact h
    · rename_i h0
      obtain ⟨L₀, hs, hL, happ⟩ := h.log.stable
      obtain ⟨e, he, hte⟩ := h.log.of_term ht (by omega)
      rw [hL, getElem?_append_left (by omega)] at he
      set snap : Snapshot := { metadata := { index := rn.log.applied, term := t }, data := data }
        with hsnap
      have hpos : 0 < snap.metadata.index := pos_of_ne_zero h0
      have hmeta : (rn.log.storage.saveSnapshot snap).loadSnapshotMeta = snap.metadata :=
        saveSnapshot_meta hpos
      have hle := compactableIndex_le rn rn.log.applied
      have hsaved : (rn.log.storage.saveSnapshot snap).Holds L₀ clean :=
        hs.saveSnapshot hpos h.log.snap_le he hte.symm
      have hs' :=
        hsaved.compact (n := rn.compactableIndex rn.log.applied) (by rw [hmeta]; exact hle)
      refine h.setStorage ⟨h.log.pending, ⟨L₀, hs', hL, happ⟩, h.log.indexed, ?_, h.log.applied_le,
        h.log.committed_le⟩
      simp only [compact_meta, hmeta]
      exact le_rfl

theorem NodeRel.compactLog : NodeRel clean cfg ledger A p rn.compactLog := by
  obtain ⟨L₀, hs, hL, happ⟩ := h.log.stable
  refine h.setStorage ⟨h.log.pending, ⟨L₀, hs.compact (compactableIndex_le rn _), hL, happ⟩,
    h.log.indexed, ?_, h.log.applied_le, h.log.committed_le⟩
  simp only [compact_meta]
  exact h.log.snap_le

end

/-! ## All moves -/

variable {sent : Message → Prop} {ok : RawNode → Message → Prop}

section

variable (hA : Inv (quorums cfg.peers) A) (h : NodeRel clean cfg ledger A p rn)
include hA h

/-- The beginning of a step is matched, and no leader log changes. -/
theorem NodeRel.begins (hb : RawNode.Begins rn rn') :
    ∃ A', ByNode (quorums cfg.peers) p A A' ∧ NodeRel clean cfg ledger A' p rn' ∧ A'.full = A.full ∧
      A'.leader = A.leader := by
  induction hb with
  | refl => exact ⟨A, .refl A p, h, rfl, rfl⟩
  | tail _ hb ih =>
    obtain ⟨A₁, hby₁, h₁, hfull, hlead⟩ := ih
    cases hb with
    | timers lead recent e t => exact ⟨A₁, hby₁, h₁.timers, hfull, hlead⟩
    | follow rnd T lead hT =>
      obtain ⟨A₂, hby₂, h₂, hkeep⟩ : Matched clean cfg ledger A₁ p (becomeFollower _ rnd T lead) :=
        h₁.follow (hby₁.inv hA) hT
      have hk : ∀ U, A₂.full U = A₁.full U ∧ A₂.leader U = A₁.leader U := fun U ↦
        (hkeep U).resolve_right fun hst ↦ by cases hst.1
      exact ⟨A₂, hby₁.trans hby₂, h₂, (funext fun U ↦ (hk U).1).trans hfull,
        (funext fun U ↦ (hk U).2).trans hlead⟩

/-- **Every move is matched**, if the messages say what they should and the conditions hold. -/
theorem NodeRel.move (hp : p ∈ cfg.peers)
    (hsent : ∀ {m}, sent m → m.dst = p ∧ m.src ∈ cfg.peers ∧ MsgRel cfg.peers A m)
    (hok : ∀ {rn m}, ok rn m → VoteCurrent rn m ∧ VoteRemembered ledger rn m ∧ AckCurrent rn m)
    (hmove : RawNode.Move sent ok rn rn') : Matched clean cfg ledger A p rn' := by
  cases hmove with
  | timers lead recent e t => exact h.timers.matched
  | preCampaign rnd hst => exact (h.preCampaign rnd).matched
  | campaign rnd hst => exact h.campaign hA hp rnd
  | countPreVote id v hst =>
    refine NodeRel.matched ⟨h.id, h.peers, h.term, h.log, h.commit, h.voted, h.cast, ?_, ?_,
      h.msgs⟩ <;> exact fun hst' ↦ by cases hst.symm.trans hst'
  | countVote m hm hty hst hT hm' =>
    obtain ⟨hdst, hsrc, hrel⟩ := hsent hm
    simp only [MsgRel, hty] at hrel
    refine (h.countVote fun hr ↦ ⟨hsrc, ?_⟩).matched
    have hcur : m.term = rn.term := le_antisymm hT ((hok hm').1 hty hr hst)
    rw [← hcur, hrel hr, hdst]
  | win hst hq => exact h.win hA hp hst hq
  | grant m hm hty hT hg hm' => exact h.grant hA (hsent hm).2.2 hty hT hg (hok hm').2.1
  | propose es hst => exact h.propose hA hp hst es
  | commit n hst hn hc ht hq => exact h.commitLeader hA hst hc ht hq
  | progress m hm hty hr hst hT hm' =>
    obtain ⟨hdst, hsrc, hrel⟩ := hsent hm
    simp only [MsgRel, hty] at hrel
    have hcur : m.term = rn.term := le_antisymm hT ((hok hm').2.2 hty hr hst)
    exact (h.progress hA hsrc (hcur ▸ hrel hr)).matched
  | setNext dst v hv => exact (h.setNext hv).matched
  | heartbeat m hm hty hT => exact h.heartbeat hA (hsent hm).2.2 hty hT (hsent hm).1
  | send m hout => exact (h.send (h.outgoing hA hout)).matched
  | snapshot data => exact (h.createSnapshot data).matched
  | compact => exact h.compactLog.matched

theorem NodeRel.moves (hp : p ∈ cfg.peers)
    (hsent : ∀ {m}, sent m → m.dst = p ∧ m.src ∈ cfg.peers ∧ MsgRel cfg.peers A m)
    (hok : ∀ {rn m}, ok rn m → VoteCurrent rn m ∧ VoteRemembered ledger rn m ∧ AckCurrent rn m)
    (hmoves : RawNode.Moves sent ok rn rn') : Matched clean cfg ledger A p rn' := by
  induction hmoves with
  | refl => exact h.matched
  | tail _ hmove ih =>
    obtain ⟨A₁, hby₁, h₁, hk₁⟩ := ih
    have hsent₁ : ∀ {m}, sent m → m.dst = p ∧ m.src ∈ cfg.peers ∧ MsgRel cfg.peers A₁ m :=
      fun hm ↦ ⟨(hsent hm).1, (hsent hm).2.1, (hsent hm).2.2.extends hA hby₁.ext⟩
    obtain ⟨A₂, hby₂, h₂, hk₂⟩ := h₁.move (hby₁.inv hA) hp hsent₁ hok hmove
    refine ⟨A₂, hby₁.trans hby₂, h₂, fun T ↦ ?_⟩
    rcases hk₂ T with ⟨hfull, hlead⟩ | hst
    · rcases hk₁ T with ⟨hfull₁, hlead₁⟩ | ⟨hst, hT⟩
      · exact .inl ⟨hfull.trans hfull₁, hlead.trans hlead₁⟩
      · exact .inr ⟨(hmove.leader hst).1, (hmove.leader hst).2.trans hT⟩
    · exact .inr hst

end

end Simulation

end DucklingDB.Raft
