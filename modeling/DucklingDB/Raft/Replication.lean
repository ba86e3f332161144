import DucklingDB.Raft.Simulation

/-!
# Every event is matched

The ends of a step, together with the `Ready` cycle that follows, and from them the simulation of a
whole event: a cluster related to an abstract state moves to a cluster related to a later one, if
the event meets the conditions of `ReplicationGood`.
-/

namespace DucklingDB.Raft

open Function RawNode RaftLog LSMLogStorage Cluster List Nat

open Consensus (State Inv ByNode Extends Decided DecidedAt Chosen)
open Consensus.State (set₂ set₂_apply)

section Ends

variable {clean : Prop} {cfg : Config} {ledger : List (ℕ × NodeId)} {A : State NodeId Entry}
  {p : NodeId} {fresh : Prop} {rn rn' : RawNode}

/-- The entry is decided, for the position that its index says. -/
def EntryDecided (peers : List NodeId) (A : State NodeId Entry) (e : Entry) : Prop :=
  e.index ≠ 0 ∧ DecidedAt (quorums peers) A (e.index - 1) e

/-- The `Ready` cycle of `rn` leads to `A'`. -/
structure SettlesIn (clean : Prop) (cfg : Config) (ledger : List (ℕ × NodeId))
    (A : State NodeId Entry) (p : NodeId) (fresh : Prop) (rn : RawNode) (A' : State NodeId Entry) :
    Prop where
  byNode : ByNode (quorums cfg.peers) p A A'
  node : NodeRel clean cfg (ledger ++ rn.ballots) A' p rn.handleReady
  unstable : rn.handleReady.log.unstable = []
  msgs : ∀ m ∈ rn.msgs, m.src = p ∧ MsgRel cfg.peers A' m
  full : A'.full = A.full
  leader : A'.leader = A.leader
  /-- What is handed out is decided, provided that it is not stale. -/
  handout : fresh → ∀ e ∈ rn.log.nextEntries, EntryDecided cfg.peers A' e

/-- The `Ready` cycle of `rn` is matched by steps of node `p`. -/
def Settles (clean : Prop) (cfg : Config) (ledger : List (ℕ × NodeId)) (A : State NodeId Entry)
    (p : NodeId) (fresh : Prop) (rn : RawNode) : Prop :=
  ∃ A', SettlesIn clean cfg ledger A p fresh rn A'

/-- The committed part of the node's log is decided. -/
theorem entryDecided_of_slice (lo : ℕ) (hA : Inv (quorums cfg.peers) A) (hidx : Indexed (A.log p))
    {e : Entry} (he : e ∈ slice (A.log p) (lo + 1) (A.commit p + 1)) :
    EntryDecided cfg.peers A e := by
  obtain ⟨i, hi₁, hi₂, hget⟩ := mem_slice (le_add_left 1 lo) he
  have hei : e.index = i := by
    rw [hidx _ e hget]
    omega
  refine ⟨by omega, hA.decidedAt_of_commit (p := p) (by omega) ?_⟩
  rw [hei]
  exact hget

section

variable (hA : Inv (quorums cfg.peers) A)
include hA

section

variable (h : NodeRel clean cfg ledger A p rn)
include h

theorem NodeRel.keep : Settles clean cfg ledger A p fresh rn := by
  obtain ⟨hlive, hun, hcom⟩ := h.log.handleReady
  refine ⟨A, .refl A p, ⟨h.id, h.peers, h.term, hlive, h.commit.trans hcom.symm, h.voted, ?_,
    h.candidate, h.leader, by rintro _ ⟨⟩⟩, hun, h.msgs, rfl, rfl, ?_⟩
  · intro T c hc
    exact mem_append_left _ (h.cast hc)
  · intro _ e he
    rw [h.log.nextEntries_eq, ← h.commit] at he
    exact entryDecided_of_slice _ hA h.log.indexed he

/-- A follower takes over the part `M` of the leader's log, acknowledges `last` and commits `c`. -/
theorem NodeRel.takeOver (hst : rn.state = .follower) (hl : (A.leader rn.term).isSome)
    {M : List Entry} (hM : M <+: A.full rn.term) (hlen : (A.log p).length ≤ M.length) {last c : ℕ}
    (hlast : last ≤ M.length) (hc : c = 0 ∨ Decided (quorums cfg.peers) A rn.term c)
    (hcM : c ≤ M.length) {l : RaftLog} {dst : NodeId}
    (hrn' : rn' =
      { rn with log := l }.send { type := .appResp, dst := dst, term := rn.term, index := last })
    (hready : rn'.handleReady.log.Live M clean ∧ rn'.handleReady.log.unstable = [] ∧
      rn'.handleReady.log.committed = max rn.log.committed c)
    (hout : fresh → ∃ lo, ∀ e ∈ l.nextEntries, e ∈ slice M (lo + 1) (max rn.log.committed c + 1)) :
    Settles clean cfg ledger A p fresh rn' := by
  have hby₁ := ByNode.accept hA hl h.term hM (.inl hlen)
  set A₁ : State NodeId Entry := { A with log := update A.log p M } with hA₁
  have hA₁inv := hby₁.inv hA
  have hlog₁ : A₁.log p = M := update_self _ _ _
  have hby₂ := ByNode.ack (p := p) hA₁inv (T := rn.term) (n := last) hl h.term
    (hlast.trans hM.length_le) (by rw [hlog₁]; exact Consensus.take_of_le_length hM hlast)
  set A₂ : State NodeId Entry :=
    { A₁ with acked := set₂ A₁.acked p rn.term (max (A₁.acked p rn.term) last) } with hA₂
  have hA₂inv := hby₂.inv hA₁inv
  have hext := (hby₁.trans hby₂).ext
  have hack : last ≤ A₂.acked p rn.term := by
    rw [hA₂]
    simp only [set₂_apply, and_self, ↓reduceIte]
    exact le_max_right _ _
  have hby₃ : ByNode (quorums cfg.peers) p A₂
      { A₂ with commit := update A₂.commit p (max (A₂.commit p) c) } := by
    rcases hc with rfl | hd
    · rw [max_zero, update_eq_self]
      exact .refl A₂ p
    · obtain ⟨U, n, hch, hb, hU, hle, hpre⟩ := hd.extends hA hext hl
      refine ByNode.learn hA₂inv hch hb (h.term ▸ hU) hle ?_
      rw [hlog₁]
      refine prefix_of_prefix_length_le hpre hM ?_
      rw [length_take]
      omega
  subst hrn'
  refine ⟨_, (hby₁.trans hby₂).trans hby₃, ⟨h.id, h.peers, h.term, ?_, ?_, h.voted, ?_, ?_, ?_, ?_⟩,
    hready.2.1, ?_, rfl, rfl, ?_⟩
  · rw [hlog₁]
    exact hready.1
  · simp only [update_self]
    rw [hready.2.2, ← h.commit]
  · exact fun hv ↦ mem_append_left _ (h.cast hv)
  · exact fun hst' ↦ by cases hst.symm.trans hst'
  · exact fun hst' ↦ by cases hst.symm.trans hst'
  · rintro _ ⟨⟩
  · intro r hr
    rcases mem_append.mp hr with hr | hr
    · exact ⟨(h.msgs r hr).1, (h.msgs r hr).2.extends hA ((hby₁.trans hby₂).trans hby₃).ext⟩
    · rw [mem_singleton.mp hr]
      refine ⟨h.id, fun _ ↦ ?_⟩
      rw [h.id]
      exact hack
  · intro hf e he
    obtain ⟨lo, hlo⟩ := hout hf
    refine entryDecided_of_slice (p := p) lo (hby₃.inv hA₂inv) ?_ ?_
    · rw [hlog₁]
      exact hready.1.indexed
    · change e ∈ slice (A₁.log p) (lo + 1) (update A₂.commit p _ p + 1)
      rw [hlog₁, update_self]
      rw [h.commit]
      exact hlo e he

variable {m : Message} {n : ℕ}

/-- The consistency check finds the logs equal up to the message. -/
theorem NodeRel.take_prev (hrel : AppendRel cfg.peers A m n) (hprev : rn.matchesPrev m = true) :
    m.index ≤ (A.log p).length ∧ (A.log p).take m.index = (A.full m.term).take m.index := by
  by_cases h0 : m.index = 0
  · rw [h0]
    exact ⟨zero_le _, rfl⟩
  · have ht : rn.log.term m.index = .ok m.logTerm := by
      simpa [matchesPrev, h0] using hprev
    obtain ⟨e, he, hte⟩ := h.log.of_term ht (by omega)
    obtain ⟨x, hx, htx⟩ := hrel.logTerm.resolve_left h0
    have := (hA.logs.log_supported p).take_eq (hA.logs.full_supported hA.records hrel.leader) he hx
      (hte.trans htx.symm)
    rw [Nat.sub_add_cancel (by omega)] at this
    have hlt := (List.getElem?_eq_some_iff.mp he).1
    exact ⟨by omega, this⟩

/-- After an accepted append without leftovers the log is a part of the leader's. -/
theorem NodeRel.overlay_append (hrel : AppendRel cfg.peers A m n)
    (hT : m.term = rn.term) (hleft : rn.log.lastIndex ≤ n ∨ rn.log.term n = .ok m.term) :
    overlay ((A.full rn.term).take n) (A.log p) n <+: A.full rn.term := by
  rw [hT] at hleft
  have hl := hrel.leader
  have hb := hrel.base_lt
  have hn := hrel.le
  rw [hT] at hl hb hn
  rcases hleft with hle | ht
  · rw [h.log.lastIndex_eq] at hle
    rw [overlay_of_length_le hle, take_take, min_self]
    exact take_prefix _ _
  · -- the last entry of the message is already there, and so is everything before it
    obtain ⟨e, he, hte⟩ := h.log.of_term ht (by omega)
    obtain ⟨x, hx⟩ : ∃ x, (A.full rn.term)[n - 1]? = some x := ⟨_, getElem?_eq_getElem (by omega)⟩
    have hxT : x.term = rn.term := hA.logs.full_getElem_term hl hx (by omega)
    have htake := (hA.logs.log_supported p).take_eq (hA.logs.full_supported hA.records hl) he hx
      (hte.trans hxT.symm)
    rw [Nat.sub_add_cancel (by omega)] at htake
    rw [overlay_self (by rw [htake, take_take, min_self]), ← h.term]
    exact hA.log_of_mem (mem_of_getElem? he) (hte.trans h.term.symm)

/-- Where the term of an entry of the leader's log is the persisted one, the entry is. -/
theorem NodeRel.fresh_agrees (hu : rn.log.unstable = []) (hl : (A.leader rn.term).isSome)
    {F : List Entry} (hF : F <+: A.full rn.term) (hidx : Indexed F) {i : ℕ} (hi : i < F.length)
    (hic : rn.log.committed ≤ i) (hiL : i < (A.log p).length)
    (hterm : ∀ x, F[i]? = some x → ∀ old ∈ AList.lookup x.index rn.log.storage.log,
      old.term = x.term) :
    (A.log p)[i]? = F[i]? := by
  obtain ⟨L₀, hs, hL, -⟩ := h.log.stable
  rw [hu, append_nil] at hL
  rw [← hL] at hs
  have hsnap := h.log.snap_le.trans (h.log.applied_le.trans hic)
  obtain ⟨old, hold⟩ := hs.present (i := i + 1) (by omega) (by omega)
  have hget : (A.log p)[i]? = some old := (hs.lookup (.inr (lt_succ_of_le hsnap)) hold).2
  obtain ⟨x, hx⟩ : ∃ x, F[i]? = some x := ⟨_, getElem?_eq_getElem hi⟩
  have ht := hterm x hx old (by rw [hidx i x hx]; exact hold)
  have hfull : (A.full rn.term)[i]? = some x := by
    obtain ⟨t, ht⟩ := hF
    rw [← ht, getElem?_append_left hi, hx]
  have htake :=
    (hA.logs.log_supported p).take_eq (hA.logs.full_supported hA.records hl) hget hfull ht
  rw [hx, ← hfull, ← getElem?_take_of_lt (lt_succ_self i), htake,
    getElem?_take_of_lt (lt_succ_self i)]

/-- An append against the log of the node it is accepted by: `F` is the part of the leader's log up
to its last entry. -/
structure AppendView (A : State NodeId Entry) (p : NodeId) (rn : RawNode) (m : Message) (n : ℕ)
    (F : List Entry) : Prop where
  indexed : Indexed F
  length : F.length = n
  pre : F <+: A.full rn.term
  entries : m.entries = slice F (m.index + 1) (n + 1)
  last : m.index + m.entries.length = n
  index_le : m.index ≤ (A.log p).length
  agrees : (A.log p).take m.index = F.take m.index
  committed : ∀ i < n, i < rn.log.committed → (A.log p)[i]? = F[i]?

theorem NodeRel.appendView (hrel : AppendRel cfg.peers A m n)
    (hT : m.term = rn.term) (hprev : rn.matchesPrev m = true) :
    AppendView A p rn m n ((A.full rn.term).take n) := by
  have hindex := hrel.index_le
  obtain ⟨hpL, hag⟩ := h.take_prev hA hrel hprev
  have hl := hrel.leader
  have hn := hrel.le
  have hF := hrel.indexed
  have hes := hrel.entries
  rw [hT] at hl hn hF hes hag
  refine ⟨hF, by rw [length_take]; omega, take_prefix _ _, ?_, ?_, hpL, ?_, ?_⟩
  · rw [hes]
    refine slice_congr (by omega) fun i hi₁ hi₂ ↦ ?_
    rw [getElem?_take_of_lt (by omega)]
  · rw [hes, slice, length_take, length_drop]
    omega
  · rw [hag, take_take, min_eq_left hindex]
  · intro i hi hic
    obtain ⟨t, ht⟩ := hA.commit_agrees hl h.term
    have hlt := hic.trans_le h.log.committed_le
    rw [h.commit] at ht
    rw [getElem?_take_of_lt hi, ← ht,
      getElem?_append_left (by rw [length_take]; omega), getElem?_take_of_lt hic]

theorem NodeRel.accept (hst : rn.state = .follower) (hu : rn.log.unstable = [])
    (hrel : AppendRel cfg.peers A m n) (hT : m.term = rn.term)
    (hprev : rn.matchesPrev m = true)
    (hleft : rn.log.lastIndex ≤ m.index + m.entries.length ∨
      rn.log.term (m.index + m.entries.length) = .ok m.term)
    (hfresh : fresh → ∀ e ∈ m.entries, e.index ≤ m.commit →
      ∀ old ∈ AList.lookup e.index rn.log.storage.log, old.term = e.term) :
    Settles clean cfg ledger A p fresh ({ rn with log := appendedLog rn.log m }.send
      { type := .appResp, dst := m.src, term := rn.term
        index := (appendedLog rn.log m).lastIndex }) := by
  have hv := h.appendView hA hrel hT hprev
  rw [hv.last] at hleft
  have hpre := h.overlay_append hA hrel hT hleft
  have hl := hrel.leader
  have hcommit := hrel.commit
  rw [hT] at hl hcommit
  set F := (A.full rn.term).take n with hFdef
  have hMlen := length_overlay (L := A.log p) hv.length.ge
  obtain ⟨-, -, -, -, hlast, hcom⟩ := h.log.appendedLog hu hv.indexed hv.entries hv.length.ge
  rw [hlast]
  have hlastle :
      (if m.entries = [] then (A.log p).length else n) ≤ (overlay F (A.log p) n).length := by
    rw [hMlen]
    split
    · exact le_max_right _ _
    · exact le_max_left _ _
  refine h.takeOver hA hst hl hpre (by rw [hMlen]; exact le_max_right _ _) hlastle
    (c := min m.commit (if m.entries = [] then (A.log p).length else n)) ?_
    ((min_le_right _ _).trans hlastle) rfl ?_ ?_
  · rcases hcommit with h0 | hd
    · exact .inl (by rw [h0, zero_min])
    · exact .inr (hd.mono (min_le_left _ _))
  · obtain ⟨h₁, h₂, h₃⟩ := h.log.handleReady_append hu hv.indexed hv.entries hrel.index_le
      hv.length.ge hv.index_le hv.agrees
      (fun i hi his ↦ hv.committed i hi (his.trans_le (h.log.snap_le.trans h.log.applied_le)))
      ({ rn with log := appendedLog rn.log m }.send
        { type := .appResp, dst := m.src, term := rn.term
          index := if m.entries = [] then (A.log p).length else n }) rfl
    exact ⟨h₁, h₂, h₃.trans hcom⟩
  · intro hf
    refine ⟨rn.log.applied, fun e he ↦ ?_⟩
    rw [h.log.nextEntries_append hu hv.indexed hv.entries hrel.index_le hv.length.ge hv.index_le
      hv.agrees hv.committed ?_, hcom] at he
    · exact he
    · intro i hin him hci hic hiL
      refine h.fresh_agrees (F := F) hA hu hl hv.pre hv.indexed
        (hin.trans_eq hv.length.symm) hci hiL fun x hx ↦ ?_
      refine hfresh hf x ?_ (by rw [hv.indexed i x hx]; omega)
      rw [hv.entries]
      exact mem_slice_of_getElem? (by omega) (by omega) (by omega) hx

theorem NodeRel.restore (hst : rn.state = .follower) (hu : rn.log.unstable = [])
    (hrel : SnapRel cfg.peers A m) (hT : m.term = rn.term)
    (hnew : rn.log.committed < m.snapshot.metadata.index)
    (hcov : rn.log.lastIndex ≤ m.snapshot.metadata.index ∨ rn.log.lastTerm = m.term) :
    Settles clean cfg ledger A p fresh ({ rn with log := (rn.log.restore m.snapshot).1 }.send
      { type := .appResp, dst := m.src, term := rn.term
        index := (rn.log.restore m.snapshot).1.lastIndex }) := by
  have hl := hrel.leader
  have hle := hrel.le
  have hidx := hrel.indexed
  have hdec := hrel.commit
  have hterm := hrel.term
  rw [hT] at hl hle hidx hdec hterm
  set n := m.snapshot.metadata.index with hn
  set F := (A.full rn.term).take n with hFdef
  have hFlen : F.length = n := by rw [hFdef, length_take]; omega
  obtain ⟨e, he⟩ : ∃ e, (A.full rn.term)[n - 1]? = some e := ⟨_, getElem?_eq_getElem (by omega)⟩
  have heF : F[n - 1]? = some e := by
    rw [hFdef, getElem?_take_of_lt (by omega), he]
  have hMlen := length_overlay (L := A.log p) hFlen.ge
  -- the log beyond the snapshot is the leader's
  have hpre : overlay F (A.log p) n <+: A.full rn.term := by
    by_cases hlast : (A.log p).length ≤ n
    · rw [overlay_of_length_le hlast, hFdef, take_take, min_self]
      exact take_prefix _ _
    · have hlt : rn.log.lastTerm = m.term := by
        refine hcov.resolve_left ?_
        rw [h.log.lastIndex_eq]
        exact hlast
      have hne : A.log p ≠ [] := length_pos_iff.mp (by omega)
      have hpL := hA.log_of_lastTerm hne (h.log.lastTerm_eq.symm.trans (hlt.trans hT))
      rw [overlay_self]
      · exact hpL
      · rw [hFdef, take_take, min_self, Consensus.take_eq_of_extends hpL (not_le.mp hlast).le]
  have hlast : (rn.log.restore m.snapshot).1.lastIndex = (overlay F (A.log p) n).length := by
    obtain ⟨L₀, hs, hL, -⟩ := h.log.stable
    rw [hu, append_nil] at hL
    rw [hMlen, RaftLog.restore, if_neg (by omega), RaftLog.lastIndex]
    simp only [hu, dropWhile_nil, getLast?_nil, hs.lastIndex_eq, ← hL, ← hn]
    split <;> omega
  rw [hlast]
  refine h.takeOver hA hst hl hpre (by rw [hMlen]; exact le_max_right _ _) le_rfl (c := n)
    (.inr hdec) (by rw [hMlen]; exact le_max_left _ _) rfl ?_ ?_
  · obtain ⟨h₁, h₂, h₃⟩ := h.log.handleReady_restore hu hidx hnew hFlen.ge heF (hterm e he)
      ({ rn with log := (rn.log.restore m.snapshot).1 }.send
        { type := .appResp, dst := m.src, term := rn.term
          index := (overlay F (A.log p) n).length }) rfl
    exact ⟨h₁, h₂, h₃.trans (max_eq_right hnew.le).symm⟩
  · -- the snapshot stands for everything it commits
    refine fun _ ↦ ⟨0, fun e he ↦ ?_⟩
    rw [RaftLog.restore, if_neg (by omega), RaftLog.nextEntries,
      if_neg (not_le.mpr (lt_succ_of_le (le_max_right _ _)))] at he
    cases he

theorem NodeRel.covered (hrel : SnapRel cfg.peers A m) (hT : m.term = rn.term) :
    Settles clean cfg ledger A p fresh
      (rn.send { type := .appResp, dst := m.src, term := rn.term, index := rn.log.committed }) := by
  have hl := hrel.leader
  rw [hT] at hl
  have hag := hA.commit_agrees hl h.term
  rw [h.commit] at hag
  have hcL := h.log.committed_le
  have hle : rn.log.committed ≤ (A.full rn.term).length := by
    have := hag.length_le
    rw [length_take] at this
    omega
  have hpre : (A.full rn.term).take rn.log.committed <+: A.log p := by
    rw [Consensus.take_eq_of_extends hag (by rw [length_take]; omega), take_take, min_self]
    exact take_prefix _ _
  have hby := ByNode.ack (p := p) hA hl h.term hle hpre
  have hrel' : NodeRel clean cfg ledger
      { A with acked := set₂ A.acked p rn.term (max (A.acked p rn.term) rn.log.committed) }
      p rn := by
    refine ⟨h.id, h.peers, h.term, h.log, h.commit, h.voted, h.cast, h.candidate, fun hst ↦ ?_,
      fun r hr ↦ ⟨(h.msgs r hr).1, (h.msgs r hr).2.extends hA hby.ext⟩⟩
    obtain ⟨hl', hb, hm, hn⟩ := h.leader hst
    exact ⟨hl', hb, fun q v hlk ↦ ⟨(hm q v hlk).1, (hm q v hlk).2.trans (hby.ext.acked_le _ _)⟩, hn⟩
  have hsend := hrel'.send
    (m := { type := .appResp, dst := m.src, term := rn.term, index := rn.log.committed }) fun _ ↦ by
      change rn.log.committed ≤ set₂ A.acked p rn.term _ p rn.term
      rw [set₂_apply, if_pos ⟨rfl, rfl⟩]
      exact le_max_right _ _
  obtain ⟨A', hs⟩ : Settles clean cfg ledger _ p fresh _ := hsend.keep (hby.inv hA)
  exact ⟨A', hby.trans hs.byNode, hs.node, hs.unstable, hs.msgs, hs.full, hs.leader, hs.handout⟩

end

end

end Ends

section Clusters

variable {clean : Prop} {cfg : Config} {ledger : List (ℕ × NodeId)} {A A' : State NodeId Entry}
  {p : NodeId} {fresh : Prop} {rn rn' : RawNode} {sent : Message → Prop}

/-- **Every end of a step is matched.** `rn₀` is the node before the step. -/
theorem NodeRel.finish (hA : Inv (quorums cfg.peers) A) (h : NodeRel clean cfg ledger A p rn)
    {rn₀ : RawNode} (hu : rn₀.log.unstable = []) (hT₀ : rn₀.term ≤ rn.term)
    (hsent : ∀ {m}, sent m → MsgRel cfg.peers A m)
    (hf : RawNode.Finish sent (fun l m ↦ l = rn₀.log ∧ NoLeftover rn₀ m ∧ SnapshotCovers rn₀ m ∧
        (fresh → NoStaleCommit rn₀ m)) rn rn') :
    Settles clean cfg ledger A p fresh rn' := by
  cases hf with
  | keep => exact h.keep hA
  | accept m hm hty hT hst hprev hok =>
    obtain ⟨hlog, hleft, -, hfresh⟩ := hok
    have hrel := hsent hm
    simp only [MsgRel, hty] at hrel
    obtain ⟨n, hn⟩ := hrel
    have hprev₀ : rn₀.matchesPrev m = true := by
      rw [matchesPrev, ← hlog]
      exact hprev
    have := hleft hty (hT₀.trans hT.ge) hprev₀
    rw [← hlog] at this hu
    refine h.accept hA hst hu hn hT hprev this fun hf ↦ ?_
    rw [hlog]
    exact hfresh hf hty (hT₀.trans hT.ge) hprev₀
  | restore m hm hty hT hst hnew hok =>
    obtain ⟨hlog, -, hcov, -⟩ := hok
    have hrel := hsent hm
    simp only [MsgRel, hty] at hrel
    have := hcov hty (hT₀.trans hT.ge) (by rw [← hlog]; exact hnew)
    rw [← hlog] at this hu
    exact h.restore hA hst hu hrel hT hnew this
  | covered m hm hty hT =>
    have hrel := hsent hm
    simp only [MsgRel, hty] at hrel
    exact h.covered hA hrel hT

/-- The cluster is related to the abstract state. -/
structure Refines (clean : Prop) (cfg : Config) (c : Cluster) (A : State NodeId Entry) : Prop where
  inv : Inv (quorums cfg.peers) A
  settled : Settled cfg c
  vote : ∀ i ∈ cfg.ids, OneVote (c.ledger i) (c.nodes i)
  node : ∀ i ∈ cfg.ids, NodeRel clean cfg (c.ledger i) A i (c.nodes i)
  unstable : ∀ i ∈ cfg.ids, (c.nodes i).log.unstable = []
  src : ∀ m ∈ c.net, m.src ∈ cfg.ids
  net : ∀ m ∈ c.net, MsgRel cfg.peers A m

theorem live_newRaftLog {clean : Prop} : (newRaftLog {}).Live [] clean where
  pending := rfl
  stable := ⟨[], holds_empty, rfl, le_rfl⟩
  indexed _ _ h := by cases h
  snap_le := le_rfl
  applied_le := le_rfl
  committed_le := le_rfl

theorem refines_init {clean : Prop} (cfg : Config) : Refines clean cfg (init cfg) State.init where
  inv := Consensus.inv_init _
  settled := settled_init cfg
  vote := (elections_init cfg).vote
  node i hi :=
    { id := rfl
      peers := rfl
      term := rfl
      log := live_newRaftLog
      commit := rfl
      voted := fun hv ↦ absurd rfl hv
      cast := fun hv ↦ by cases hv
      candidate :=
        fun hst ↦ absurd hst (by simp [init, newRawNode, initialState, HardState.isEmpty])
      leader := fun hst ↦ absurd hst (by simp [init, newRawNode, initialState, HardState.isEmpty])
      msgs := fun m hm ↦ by cases hm }
  unstable _ _ := rfl
  src _ hm := by cases hm
  net _ hm := by cases hm

/-- A cluster in which node `p` has taken steps is related to the state they lead to. -/
theorem Refines.replace {c c' : Cluster} (h : Refines clean cfg c A) (hp : p ∈ cfg.ids)
    (hby : ByNode (quorums cfg.peers) p A A') {ms : List Message} {bs : List (ℕ × NodeId)}
    (hself : c'.nodes p = rn) (hothers : ∀ i, i ≠ p → c'.nodes i = c.nodes i)
    (hnet : c'.net = c.net ++ ms) (hballots : c'.ballots = c.ballots ++ bs.map fun b ↦ (p, b))
    (hnode : NodeRel clean cfg (c.ledger p ++ bs) A' p rn) (hvote : OneVote (c.ledger p ++ bs) rn)
    (hun : rn.log.unstable = []) (hb : rn.ballots = []) (hm : rn.msgs = [])
    (hms : ∀ m ∈ ms, m.src = p ∧ MsgRel cfg.peers A' m) : Refines clean cfg c' A' := by
  have hledger : c'.ledger p = c.ledger p ++ bs := by
    simp [ledger, hballots, filter_append, filter_map, comp_def]
  have hledger' : ∀ i, i ≠ p → c'.ledger i = c.ledger i := by
    intro i hi
    simp [ledger, hballots, filter_append, filter_map, comp_def, hi.symm]
  -- each field holds of the node that moved and of the others
  have key : ∀ P : NodeId → RawNode → Prop, (∀ i ∈ cfg.ids, i ≠ p → P i (c.nodes i)) → P p rn →
      ∀ i ∈ cfg.ids, P i (c'.nodes i) := by
    intro P hP hpn i hi
    by_cases hip : i = p
    · rw [hip, hself]
      exact hpn
    · rw [hothers i hip]
      exact hP i hi hip
  refine ⟨hby.inv h.inv, ⟨?_, ?_, ?_, ?_⟩, ?_, ?_, ?_, ?_, ?_⟩
  · exact key (fun i rn ↦ rn.id = i) (fun i hi _ ↦ h.settled.id i hi) hnode.id
  · exact key (fun _ rn ↦ rn.peers = cfg.peers) (fun i hi _ ↦ h.settled.peers i hi) hnode.peers
  · exact key (fun _ rn ↦ rn.ballots = []) (fun i hi _ ↦ h.settled.ballots i hi) hb
  · exact key (fun _ rn ↦ rn.msgs = []) (fun i hi _ ↦ h.settled.msgs i hi) hm
  · refine key (fun i rn ↦ OneVote (c'.ledger i) rn) (fun i hi hip ↦ ?_) (hledger ▸ hvote)
    rw [hledger' i hip]
    exact h.vote i hi
  · refine key (fun i rn ↦ NodeRel clean cfg (c'.ledger i) A' i rn) (fun i hi hip ↦ ?_)
      (hledger ▸ hnode)
    rw [hledger' i hip]
    exact (h.node i hi).other h.inv hby hip
  · exact key (fun _ rn ↦ rn.log.unstable = []) (fun i hi _ ↦ h.unstable i hi) hun
  · intro m hmem
    rw [hnet] at hmem
    rcases mem_append.mp hmem with hmem | hmem
    · exact h.src m hmem
    · rw [(hms m hmem).1]
      exact hp
  · intro m hmem
    rw [hnet] at hmem
    rcases mem_append.mp hmem with hmem | hmem
    · exact (h.net m hmem).extends h.inv hby.ext
    · exact (hms m hmem).2

/-- The event `a` up to the end of its step: the node has become `rn₁`, and that is matched by steps
from `A` to `A₁`. -/
structure Arrives (clean : Prop) (cfg : Config) (c : Cluster) (a : Action)
    (A A₁ : State NodeId Entry) (rn₁ : RawNode) : Prop where
  byNode : ByNode (quorums cfg.peers) a.node A A₁
  node : NodeRel clean cfg (c.ledger a.node) A₁ a.node rn₁
  keeps : KeepsLogs A A₁ rn₁
  vote : OneVote (c.ledger a.node) (a.apply (c.nodes a.node))
  finish : RawNode.Finish (fun m ↦ m ∈ c.net ∧ m.dst = a.node)
    (fun l m ↦ l = (c.nodes a.node).log ∧ NoLeftover (c.nodes a.node) m ∧
      SnapshotCovers (c.nodes a.node) m ∧ (HandoutGood c a → NoStaleCommit (c.nodes a.node) m))
    rn₁ (a.apply (c.nodes a.node))
  /-- Only a leader adds entries before the end of a step. -/
  unstable : rn₁.log.unstable = [] ∨ rn₁.state = .leader

variable {a : Action}

theorem Refines.arrives {c : Cluster} (h : Refines clean cfg c A)
    (hen : Cluster.Enabled cfg c a) (hgood : ReplicationGood c a) :
    ∃ A₁ rn₁, Arrives clean cfg c a A A₁ rn₁ := by
  obtain ⟨hid, hnet⟩ := hen
  set p := a.node with hp
  have hpeers := cfg.ids_sub p hid
  have hdst : ∀ m rnd, a = .deliver m rnd → m.dst = p := fun m rnd heq ↦ by rw [hp, heq]; rfl
  have hgood' : ∀ m rnd, a = .deliver m rnd →
      (VoteCurrent (c.nodes p) m ∧ VoteRemembered (c.ledger p) (c.nodes p) m) ∧
      AckCurrent (c.nodes p) m ∧ NoLeftover (c.nodes p) m ∧ SnapshotCovers (c.nodes p) m := by
    intro m rnd heq
    rw [← hdst m rnd heq]
    rw [heq] at hgood
    exact hgood
  -- the conditions survive the term handling of `Step`
  have hok : ∀ m rnd, a = .deliver m rnd → ∀ rn₁, (c.nodes p).handleTerm rnd m = some rn₁ →
      VoteCurrent rn₁ m ∧ VoteRemembered (c.ledger p) rn₁ m ∧ AckCurrent rn₁ m := by
    intro m rnd heq rn₁ h₁
    obtain ⟨⟨hcur, hrem⟩, hack, -⟩ := hgood' m rnd heq
    have hrem' := (h.vote p hid).remembered_handleTerm hrem h₁
    rcases handleTerm_cases h₁ with ⟨rfl, -⟩ | ⟨-, rfl⟩
    · exact ⟨hcur, hrem', hack⟩
    · exact ⟨fun _ _ _ ↦ le_rfl, hrem', fun _ _ _ ↦ le_rfl⟩
  obtain ⟨rn₀, rn₁, hbegins, hmoves, hfin⟩ : ∃ rn₀ rn₁, RawNode.Begins (c.nodes p) rn₀ ∧
      RawNode.Moves (fun m ↦ m ∈ c.net ∧ m.dst = p)
        (fun rn m ↦ VoteCurrent rn m ∧ VoteRemembered (c.ledger p) rn m ∧ AckCurrent rn m)
        rn₀ rn₁ ∧
      RawNode.Finish (fun m ↦ m ∈ c.net ∧ m.dst = p)
        (fun l m ↦ l = (c.nodes p).log ∧ NoLeftover (c.nodes p) m ∧ SnapshotCovers (c.nodes p) m ∧
          (HandoutGood c a → NoStaleCommit (c.nodes p) m)) rn₁ (a.apply (c.nodes p)) := by
    refine a.apply_moves (fun m rnd heq ↦ ⟨hnet m rnd heq, hdst m rnd heq⟩) hok fun m rnd heq ↦
      ⟨rfl, (hgood' m rnd heq).2.2.1, (hgood' m rnd heq).2.2.2, fun hf ↦ ?_⟩
    rw [← hdst m rnd heq]
    rw [heq] at hf
    exact hf
  have hvote : OneVote (c.ledger p) (a.apply (c.nodes p)) :=
    (((h.vote p hid).begins hbegins).moves (fun hok ↦ hok.2.1) hmoves).finish hfin
  obtain ⟨A₀, hby₀, hrel₀, hfull₀, hlead₀⟩ := (h.node p hid).begins h.inv hbegins
  obtain ⟨A₁, hby₁, hrel₁, hkeep⟩ := hrel₀.moves (hby₀.inv h.inv) hpeers
    (fun hm ↦ ⟨hm.2, cfg.ids_sub _ (h.src _ hm.1), (h.net _ hm.1).extends h.inv hby₀.ext⟩)
    (fun hok ↦ hok) hmoves
  refine ⟨A₁, rn₁, hby₀.trans hby₁, hrel₁, ?_, hvote, hfin, ?_⟩
  · rw [KeepsLogs, ← hfull₀, ← hlead₀]
    exact hkeep
  · refine hmoves.unstable ?_
    rw [hbegins.log]
    exact h.unstable p hid

/-- The end of the step, with the `Ready` cycle that follows, is matched too. -/
theorem Arrives.settles {c : Cluster} {A₁ : State NodeId Entry} {rn₁ : RawNode}
    (h : Arrives clean cfg c a A A₁ rn₁) (hc : Refines clean cfg c A) (hid : a.node ∈ cfg.ids) :
    Settles clean cfg (c.ledger a.node) A₁ a.node (HandoutGood c a) (a.apply (c.nodes a.node)) := by
  have hT : (c.nodes a.node).term ≤ rn₁.term := by
    rw [← (hc.node _ hid).term, ← h.node.term]
    exact h.byNode.ext.term_le _
  exact h.node.finish (h.byNode.inv hc.inv) (hc.unstable _ hid) hT
    (fun hm ↦ (hc.net _ hm.1).extends hc.inv h.byNode.ext) h.finish

/-- The event `a` that leads from `c` to `c'` is matched by steps from `A` to `A'`. -/
structure Simulated (clean : Prop) (cfg : Config) (a : Action) (c c' : Cluster)
    (A A' : State NodeId Entry) : Prop where
  steps : Consensus.Steps (quorums cfg.peers) A A'
  ext : Extends A A'
  refines : Refines clean cfg c' A'
  /-- Only the log of a term that is being led changes. -/
  leads : ∀ T, A'.full T = A.full T ∧ A'.leader T = A.leader T ∨ ∃ p ∈ cfg.ids, c'.Leads p T
  handout : HandoutGood c a → ∀ x ∈ c'.emitted, x ∈ c.emitted ∨ EntryDecided cfg.peers A' x.2

/-- **Every event is matched** by steps of the node it happens at. -/
theorem Refines.act {c c' : Cluster} (h : Refines clean cfg c A)
    (ha : c.act cfg a = some c') (hgood : ReplicationGood c a) :
    ∃ A', Simulated clean cfg a c c' A A' := by
  obtain ⟨hen, rfl⟩ := act_eq_some ha
  obtain ⟨A₁, rn₁, harr⟩ := h.arrives hen hgood
  obtain ⟨A₂, hset⟩ := harr.settles h hen.1
  have hby := harr.byNode.trans hset.byNode
  have hrefines : Refines clean cfg (c.settle a.node (a.apply (c.nodes a.node))) A₂ :=
    h.replace hen.1 hby (c.settle_nodes_self _ _) (fun i hi ↦ c.settle_nodes_of_ne _ hi) rfl rfl
      hset.node harr.vote.handleReady hset.unstable rfl rfl hset.msgs
  refine ⟨A₂, hby.steps, hby.ext, hrefines, ?_, ?_⟩
  · intro T
    rcases harr.keeps T with ⟨hf, hl⟩ | ⟨hst, hT⟩
    · left
      rw [hset.full, hset.leader, hf, hl]
      exact ⟨rfl, rfl⟩
    · refine .inr ⟨a.node, hen.1, ?_⟩
      rw [Cluster.Leads, settle_nodes_self]
      exact ⟨(harr.finish.leader hst).1, (harr.finish.leader hst).2.trans hT⟩
  · intro hf x hx
    rcases mem_append.mp hx with hx | hx
    · exact .inl hx
    · obtain ⟨e, he, rfl⟩ := mem_map.mp hx
      exact .inr (hset.handout hf e he)

end Clusters

end DucklingDB.Raft
