import DucklingDB.Raft.Survivor

/-!
# Recovery of the Raft log

`NewRawNode` over the survivor of a crash gives a node that the abstract machine knows. If the cycle
got as far as the messages, it is the state at the end of the cycle. If it was torn apart before,
then the hard state has the new commit index, and the node has learned that what it speaks of is
decided, but has not taken over all of the leader's log. `NodeRel.tornAppend` finds the state of the
machine where it is then: the node accepts the part that has been written, unless it was there
before, and commits.
-/

namespace DucklingDB.Raft

open RaftLog LSMLogStorage List Nat Function RawNode

open Consensus (State Inv ByNode Extends Decided DecidedAt Chosen)

/-! ## The rebuilt node -/

section Restart

variable {cfg : Config} {ledger : List (ℕ × NodeId)} {A A' : State NodeId Entry} {p : NodeId}
  {rn : RawNode} {s s' : LSMLogStorage}

/-- The hard state is the one of node `p`. -/
structure Stands (A : State NodeId Entry) (p : NodeId) (hs : HardState) : Prop where
  term : hs.term = A.term p
  commit : hs.commit = A.commit p
  voted : hs.votedFor ≠ noneId → A.vote p (A.term p) = some hs.votedFor

theorem NodeRel.stands {clean : Prop} (h : NodeRel clean cfg ledger A p rn) :
    Stands A p rn.hardState :=
  ⟨h.term.symm, h.commit.symm, fun hv ↦ h.term.symm ▸ h.voted hv⟩

/-- A hard state that is not written is on disk already. -/
theorem Stands.of_isEmpty (h : Stands A p rn.prevHard) (hby : ByNode (quorums cfg.peers) p A A')
    (h' : Stands A' p rn.hardState) (hempty : rn.ready.hardState.isEmpty = true) :
    Stands A' p rn.prevHard := by
  by_cases heq : rn.hardState = rn.prevHard
  · exact heq ▸ h'
  · -- the zero hard state is never written: it is the one of a node that has not done anything
    have hready : rn.ready.hardState = rn.hardState := if_pos heq
    rw [hready, HardState.isEmpty_iff] at hempty
    have hterm := hby.ext.term_le p
    have hcommit := hby.steps.commit_le p
    rw [← h'.term, hempty.1] at hterm
    rw [← h'.commit, hempty.2.2] at hcommit
    have hT : A'.term p = A.term p := by
      rw [← h'.term, hempty.1]
      omega
    refine ⟨h.term.trans hT.symm, ?_, fun hv ↦ ?_⟩
    · rw [h.commit, ← h'.commit, hempty.2.2]
      omega
    · rw [hT]
      exact hby.ext.vote (h.voted hv)

/-- What node `p` can be rebuilt from. -/
structure Restorable (ledger : List (ℕ × NodeId)) (A : State NodeId Entry) (p : NodeId)
    (s : LSMLogStorage) : Prop where
  holds : s.Holds (A.log p) False
  indexed : Indexed (A.log p)
  stands : Stands A p s.initialState
  commit_le : A.commit p ≤ (A.log p).length
  snap_le : s.loadSnapshotMeta.index ≤ A.commit p
  cast : ∀ {T c}, A.vote p T = some c → (T, c) ∈ ledger

section

variable (h : Restorable ledger A p s)
include h

theorem Restorable.alike (hs : s.Alike s') :
    Restorable ledger A p s' where
  holds := h.holds.alike hs
  indexed := h.indexed
  stands := hs.initialState ▸ h.stands
  commit_le := h.commit_le
  snap_le := hs.snapMeta ▸ h.snap_le
  cast := h.cast

theorem Restorable.nodeRel (rnd : ℕ) :
    NodeRel False cfg ledger A p (newRawNode p cfg.peers s rnd) := by
  obtain ⟨hs, hidx, hst, hle, hsnap, hcast⟩ := h
  rw [← hst.commit] at hsnap hle
  have hterm := newRawNode_term p cfg.peers s rnd
  have hvote := newRawNode_votedFor p cfg.peers s rnd
  have hstorage := newRawNode_storage p cfg.peers s rnd
  have hcommit := newRawNode_committed hsnap p cfg.peers rnd
  obtain ⟨hfloor, happ⟩ := newRawNode_applied hsnap p cfg.peers rnd
  obtain ⟨hun, hpend⟩ := newRawNode_log p cfg.peers s rnd
  obtain ⟨hb, hm⟩ := newRawNode_pending p cfg.peers s rnd
  obtain ⟨hid, hpeers, hstate⟩ := newRawNode_follower p cfg.peers s rnd
  refine ⟨hid, hpeers, hst.term.symm.trans hterm.symm,
    ⟨hpend, ⟨A.log p, ?_, ?_, ?_⟩, hidx, ?_, ?_, ?_⟩, ?_, ?_, ?_, ?_, ?_, ?_⟩
  · rwa [hstorage]
  · rw [hun, append_nil]
  · exact happ.trans hle
  · rwa [hstorage]
  · rwa [hcommit]
  · rwa [hcommit]
  · exact hst.commit.symm.trans hcommit.symm
  · rw [hvote, hterm, hst.term]
    exact hst.voted
  · rw [hb, append_nil]
    exact hcast
  · exact fun h ↦ by cases hstate.symm.trans h
  · exact fun h ↦ by cases hstate.symm.trans h
  · rw [hm]
    simp

/-- The rebuilt node does not vote twice either. -/
theorem Restorable.oneVote (hvote : OneVote ledger rn)
    (hb : rn.ballots = []) (hterm : A.term p = rn.term) (peers : List NodeId) (rnd : ℕ) :
    OneVote ledger (newRawNode p peers s rnd) := by
  obtain ⟨hb', hm⟩ := newRawNode_pending p peers s rnd
  have hledger : ledger ++ (newRawNode p peers s rnd).ballots = ledger ++ rn.ballots := by
    rw [hb', hb]
  constructor
  · rw [hledger]
    exact hvote.unique
  · rw [hledger, newRawNode_term, h.stands.term, hterm]
    exact hvote.le_term
  · rw [newRawNode_votedFor, newRawNode_term, hb', append_nil, h.stands.term]
    exact fun hv ↦ h.cast (h.stands.voted hv)
  · rw [hm]
    simp

end

end Restart

/-! ## Torn cycles -/

section Torn

variable {cfg : Config} {ledger : List (ℕ × NodeId)} {A A' : State NodeId Entry} {p : NodeId}
  {rn rn' : RawNode} {s s' : LSMLogStorage} {sent : Message → Prop} {okLog : RaftLog →
  Message → Prop}

/-- The storage `s` and the commit index `c` are those of node `p` after steps from `A` to `A'`. -/
structure Rescued (cfg : Config) (A : State NodeId Entry) (p : NodeId) (s : LSMLogStorage) (c : ℕ)
    (A' : State NodeId Entry) : Prop where
  byNode : ByNode (quorums cfg.peers) p A A'
  holds : s.Holds (A'.log p) False
  indexed : Indexed (A'.log p)
  term : A'.term p = A.term p
  vote : A'.vote = A.vote
  commit : A'.commit p = c
  commit_le : c ≤ (A'.log p).length
  snap_le : s.loadSnapshotMeta.index ≤ c

theorem Rescued.congr {c : ℕ} (h : Rescued cfg A p s c A') (hlog : s'.log = s.log)
    (hmeta : s'.loadSnapshotMeta = s.loadSnapshotMeta) : Rescued cfg A p s' c A' :=
  { h with
    holds := h.holds.congr hlog hmeta
    snap_le := hmeta ▸ h.snap_le }

/-- The node also learns that the part of the leader's log that it has is decided up to `c`. -/
theorem Rescued.learn {c₀ c : ℕ} (h : Rescued cfg A p s c₀ A') (hA : Inv (quorums cfg.peers) A)
    (hc : c₀ ≤ c) (hlen : c ≤ (A'.log p).length)
    (hdec : c₀ < c → Decided (quorums cfg.peers) A' (A'.term p) c ∧
      (A'.full (A'.term p)).take c <+: A'.log p) : ∃ A'', Rescued cfg A p s c A'' := by
  rcases hc.eq_or_lt with rfl | hlt
  · exact ⟨A', h⟩
  · obtain ⟨⟨U, n, hch, hb, hU, hcn, hpre⟩, hlog⟩ := hdec hlt
    have hsame : (A'.full U).take c <+: (A'.full (A'.term p)).take c := by
      refine prefix_of_prefix_length_le hpre (List.take_prefix _ _) ?_
      have := hpre.length_le
      rw [length_take] at this ⊢
      rw [length_take]
      omega
    have hby := ByNode.learn (h.byNode.inv hA) hch hb hU hcn (hsame.trans hlog)
    refine ⟨_, h.byNode.trans hby, h.holds, h.indexed, h.term, h.vote, ?_, hlen, h.snap_le.trans hc⟩
    refine (update_self _ _ _).trans ?_
    rw [h.commit]
    exact max_eq_right hc

/-- Where the storage has an entry with the term of the leader's, it has the leader's log. -/
theorem NodeRel.take_of_has {clean : Prop} (hA : Inv (quorums cfg.peers) A)
    (h : NodeRel clean cfg ledger A p rn) (hu : rn.log.unstable = []) {T i : ℕ} {x : Entry}
    (hl : (A.leader T).isSome) (hx : (A.full T)[i - 1]? = some x) (hi : rn.log.committed < i)
    (hhas : rn.log.storage.Has i x.term) :
    i ≤ (A.log p).length ∧ (A.log p).take i = (A.full T).take i := by
  obtain ⟨old, hold, ht⟩ := hhas
  have hsnap := h.log.snap_le.trans h.log.applied_le
  have hget := ((h.log.holds hu).lookup (.inr (by omega)) hold).2
  have hlt := (List.getElem?_eq_some_iff.mp hget).1
  have htake := (hA.logs.log_supported p).take_eq (hA.logs.full_supported hA.records hl) hget hx ht
  rw [Nat.sub_add_cancel (by omega)] at htake
  exact ⟨by omega, htake⟩

theorem AppendView.entry {m : Message} {n : ℕ} {F : List Entry} (hv : AppendView A p rn m n F)
    {i : ℕ} (hi : i < n) : ∃ x, (A.full rn.term)[i]? = some x ∧ x.index = i + 1 ∧
      (m.index ≤ i → m.entries[i - m.index]? = some x) := by
  have hlt : i < F.length := hi.trans_eq hv.length.symm
  obtain ⟨x, hx⟩ : ∃ x, F[i]? = some x := ⟨_, getElem?_eq_getElem hlt⟩
  refine ⟨x, ?_, hv.indexed i x hx, fun hmi ↦ ?_⟩
  · obtain ⟨t, ht⟩ := hv.pre
    rw [← ht, getElem?_append_left hlt, hx]
  · rw [hv.entries, getElem?_slice (by omega), if_pos (by omega), ← hx]
    congr 1
    omega

section Append

variable {m : Message} {n j : ℕ} {F : List Entry}

section

variable (hA : Inv (quorums cfg.peers) A) (h : NodeRel False cfg ledger A p rn)
  (hu : rn.log.unstable = [])
include hA h hu

/-- An entry that was not written and is committed was there before. -/
theorem NodeRel.take_unwritten (hl : (A.leader rn.term).isSome) (hv : AppendView A p rn m n F)
    {c : ℕ}
    (hlost : ∀ e ∈ m.entries.drop j, rn.log.committed < e.index → e.index ≤ c →
      rn.log.storage.Has e.index e.term)
    {i : ℕ} (hji : m.index + j < i) (hin : i ≤ n) (hci : rn.log.committed < i) (hic : i ≤ c) :
    i ≤ (A.log p).length ∧ (A.log p).take i = (A.full rn.term).take i := by
  obtain ⟨x, hx, hxi, hmem⟩ := hv.entry (i := i - 1) (by omega)
  rw [Nat.sub_add_cancel (by omega)] at hxi
  have hdrop : x ∈ m.entries.drop j := by
    refine mem_of_getElem? (i := i - 1 - m.index - j) ?_
    rw [getElem?_drop, ← hmem (by omega)]
    congr 1
    omega
  have hhas := hlost x hdrop (hci.trans_eq hxi.symm) (hxi.trans_le hic)
  rw [hxi] at hhas
  exact h.take_of_has hA hu hl hx hci hhas

/-- The entries that were written were there before, unless the log now ends with them. -/
theorem NodeRel.take_written (hl : (A.leader rn.term).isSome) (hv : AppendView A p rn m n F)
    (hj : m.index + j ≤ n) (hlong : m.index + j < (A.log p).length)
    (hmixed : (∀ e ∈ m.entries.take j, ∀ old ∈ rn.log.storage.log.lookup e.index,
      old.term = e.term) ∨ ∃ e ∈ m.entries.take j, rn.log.storage.lastIndex ≤ e.index) :
    (A.log p).take (m.index + j) = (A.full rn.term).take (m.index + j) := by
  have hF : ∀ i ≤ n, F.take i = (A.full rn.term).take i := fun i hi ↦
    (Consensus.take_eq_of_extends hv.pre (hi.trans_eq hv.length.symm)).symm
  by_cases hkc : m.index + j ≤ rn.log.committed
  · rw [← hF _ hj]
    refine ext_getElem? fun i ↦ ?_
    rw [getElem?_take, getElem?_take]
    split
    · exact hv.committed i (by omega) (by omega)
    · rfl
  · rcases Nat.eq_zero_or_pos j with rfl | h0
    · rw [add_zero, ← hF _ (le_of_add_right_le hj)]
      exact hv.agrees
    · -- the last of them agrees in its term with what was there
      obtain ⟨x, hx, hxi, hmem⟩ := hv.entry (i := m.index + j - 1) (by omega)
      rw [Nat.sub_add_cancel (by omega)] at hxi
      have hall : ∀ e ∈ m.entries.take j, ∀ old ∈ rn.log.storage.log.lookup e.index,
          old.term = e.term := by
        refine hmixed.resolve_right ?_
        rintro ⟨e, he, hend⟩
        obtain ⟨i, hi, hei⟩ := mem_take_iff_getElem.mp he
        obtain ⟨y, -, hyi, hy⟩ := hv.entry (i := m.index + i) (by omega)
        have hey : e = y := by
          have := hy (le_add_right _ _)
          rw [Nat.add_sub_cancel_left, getElem?_eq_getElem (by omega), hei] at this
          exact Option.some.inj this
        rw [(h.log.holds hu).lastIndex_eq, hey, hyi] at hend
        omega
      have hsnap := h.log.snap_le.trans h.log.applied_le
      obtain ⟨old, hold⟩ := (h.log.holds hu).present (i := m.index + j) (by omega) hlong.le
      have hxj : x ∈ m.entries.take j := by
        refine mem_of_getElem? (i := m.index + j - 1 - m.index) ?_
        rw [getElem?_take_of_lt (by omega)]
        exact hmem (by omega)
      refine (h.take_of_has hA hu hl hx (by omega) ⟨old, hold, ?_⟩).2
      exact hall x hxj old (hxi ▸ hold)

/-- **An append of which the first `j` entries are written.** Either these were there before, or the
log now ends with them. -/
theorem NodeRel.tornAppend (hrel : AppendRel cfg.peers A m n) (hT : m.term = rn.term)
    (hprev : rn.matchesPrev m = true) (hj : j < m.entries.length)
    (hlost : ∀ e ∈ m.entries.drop j, rn.log.committed < e.index →
      e.index ≤ (appendedLog rn.log m).committed → rn.log.storage.Has e.index e.term)
    (hmixed : (∀ e ∈ m.entries.take j, ∀ old ∈ rn.log.storage.log.lookup e.index,
      old.term = e.term) ∨ ∃ e ∈ m.entries.take j, rn.log.storage.lastIndex ≤ e.index) :
    ∃ A', Rescued cfg A p (rn.log.storage.appendEntries (m.entries.take j))
      (appendedLog rn.log m).committed A' := by
  have hv := h.appendView hA hrel hT hprev
  have hl := hrel.leader
  have hdec := hrel.commit
  rw [hT] at hl hdec
  set F := (A.full rn.term).take n with hF
  obtain ⟨-, -, -, -, -, hcom⟩ := h.log.appendedLog hu hv.indexed hv.entries hv.length.ge
  rw [if_neg (ne_nil_of_length_pos (by omega))] at hcom
  set c := (appendedLog rn.log m).committed with hc
  have hlast := hv.last
  have hcL := h.log.committed_le
  have hsnap := h.log.snap_le.trans h.log.applied_le
  have hcn : rn.log.committed < c → c ≤ n := fun hlt ↦ by omega
  have hcommitted : rn.log.committed ≤ c := hcom ▸ le_max_left _ _
  have hdecided : rn.log.committed < c → Decided (quorums cfg.peers) A rn.term c := by
    intro hlt
    rw [hcom] at hlt ⊢
    rcases hdec with h0 | hd
    · omega
    · refine hd.mono ?_
      omega
  set k := m.index + j with hk
  have hkn : k ≤ n := by omega
  -- the storage now has this log
  have hholds : (rn.log.storage.appendEntries (m.entries.take j)).Holds (overlay F (A.log p) k)
      False := by
    have hes : m.entries.take j = slice F (m.index + 1) (k + 1) := by
      rw [hv.entries, slice, slice, take_take]
      congr 1
      omega
    rw [hes]
    refine (h.log.holds hu).appendSlice hv.indexed (hkn.trans_eq hv.length.symm) (by omega)
      hv.index_le hv.agrees fun i hi his ↦ hv.committed i (by omega) (his.trans_le hsnap)
  have hidx : Indexed (overlay F (A.log p) k) :=
    hv.indexed.overlay h.log.indexed (hkn.trans_eq hv.length.symm)
  have hFk : F.take k = (A.full rn.term).take k := by rw [hF, take_take, min_eq_left hkn]
  by_cases hlen : (A.log p).length ≤ k
  · -- the node has accepted a part of the leader's log
    rw [overlay_of_length_le hlen, hFk] at hholds hidx
    have hklen : ((A.full rn.term).take k).length = k := by
      rw [← hFk, length_take, hv.length]
      omega
    have hby := ByNode.accept hA hl h.term (List.take_prefix k _) (.inl (hlen.trans hklen.ge))
    set A₁ : State NodeId Entry :=
      { A with log := update A.log p ((A.full rn.term).take k) } with hA₁
    have hlog₁ : A₁.log p = (A.full rn.term).take k := update_self _ _ _
    have hresc : Rescued cfg A p (rn.log.storage.appendEntries (m.entries.take j))
        rn.log.committed A₁ := by
      refine ⟨hby, hlog₁ ▸ hholds, hlog₁ ▸ hidx, rfl, rfl, h.commit, ?_, hsnap⟩
      rw [hlog₁, hklen]
      exact hcL.trans hlen
    have hck : c ≤ k := by
      by_contra hlt
      have := (h.take_unwritten hA hu hl hv hlost (i := k + 1) (by omega) (by omega) (by omega)
        (by omega)).1
      omega
    refine hresc.learn hA hcommitted (by rwa [hlog₁, hklen]) fun hlt ↦ ⟨?_, ?_⟩
    · rw [h.term]
      exact (hdecided hlt).extends hA hby.ext hl
    · rw [hlog₁, h.term]
      exact Consensus.take_mono hck
  · -- the log is as before
    have hwritten := h.take_written hA hu hl hv hkn (not_le.mp hlen) hmixed
    rw [overlay_self (hwritten.trans hFk.symm)] at hholds hidx
    have hresc : Rescued cfg A p (rn.log.storage.appendEntries (m.entries.take j))
        rn.log.committed A :=
      ⟨.refl A p, hholds, hidx, rfl, rfl, h.commit, hcL, hsnap⟩
    have hpre : rn.log.committed < c → c ≤ (A.log p).length ∧
        (A.full rn.term).take c <+: A.log p := by
      intro hlt
      by_cases hck : c ≤ k
      · refine ⟨hck.trans (not_le.mp hlen).le, (Consensus.take_mono hck).trans ?_⟩
        rw [← hwritten]
        exact take_prefix _ _
      · obtain ⟨hcl, htake⟩ :=
          h.take_unwritten hA hu hl hv hlost (not_le.mp hck) (hcn hlt) hlt le_rfl
        rw [← htake]
        exact ⟨hcl, take_prefix _ _⟩
    refine hresc.learn hA hcommitted ?_ fun hlt ↦ ⟨h.term.symm ▸ hdecided hlt,
      h.term.symm ▸ (hpre hlt).2⟩
    rcases hcommitted.eq_or_lt with heq | hlt
    · exact heq ▸ hcL
    · exact (hpre hlt).1

end

end Append

variable {m : Message}

/-- **A snapshot that is not yet visible.** What it stands for was there before. -/
theorem NodeRel.tornSnapshot (hA : Inv (quorums cfg.peers) A) (h : NodeRel False cfg ledger A p rn)
    (hu : rn.log.unstable = []) (hrel : SnapRel cfg.peers A m) (hT : m.term = rn.term)
    (hnew : rn.log.committed < m.snapshot.metadata.index)
    (hhas : rn.log.storage.Has m.snapshot.metadata.index m.snapshot.metadata.term) :
    ∃ A', Rescued cfg A p rn.log.storage m.snapshot.metadata.index A' := by
  have hl := hrel.leader
  have hle := hrel.le
  have hdec := hrel.commit
  have hterm := hrel.term
  rw [hT] at hl hle hdec hterm
  obtain ⟨e, he⟩ : ∃ e, (A.full rn.term)[m.snapshot.metadata.index - 1]? = some e :=
    ⟨_, getElem?_eq_getElem (by have := hrel.pos; omega)⟩
  rw [hterm e he] at hhas
  obtain ⟨hlen, htake⟩ := h.take_of_has hA hu hl he hnew hhas
  have hresc : Rescued cfg A p rn.log.storage rn.log.committed A :=
    ⟨.refl A p, h.log.holds hu, h.log.indexed, rfl, rfl, h.commit, h.log.committed_le,
      h.log.snap_le.trans h.log.applied_le⟩
  refine hresc.learn hA hnew.le hlen fun _ ↦ ⟨h.term.symm ▸ hdec, ?_⟩
  rw [h.term, ← htake]
  exact take_prefix _ _

theorem length_persistWrites_le (hpend : rn.log.pendingSnapshot = {}) (hu : rn.log.unstable = []) :
    (rn.log.storage.persistWrites rn.ready).length ≤ 1 := by
  have hbody : rn.log.storage.bodyWrites rn.ready = [] := by
    have hes : rn.ready.entries = [] := hu
    rw [bodyWrites, if_pos (rn.ready_snapshot_isEmpty hpend), hes]
    rfl
  rw [length_persistWrites, hbody]
  exact hardWrites_le _

/-- The commit index of the hard state that is written, if it has moved. -/
theorem ready_commit (hprev : rn.prevHard = rn.log.storage.initialState)
    (hmoved : rn.log.storage.initialState.commit < rn.log.committed) :
    rn.ready.hardState.commit = rn.log.committed := by
  have hne : rn.hardState ≠ rn.prevHard := by
    intro heq
    rw [← hprev, ← heq] at hmoved
    exact absurd hmoved (lt_irrefl _)
  have hready : rn.ready.hardState = rn.hardState := if_pos hne
  rw [hready]
  rfl

theorem Mendable.body {rd : Ready} {w : ℕ} (h : Mendable s rd w) (h0 : 0 < w) :
    (∀ x ∈ (s.bodyWrites rd).drop (w - hardWrites rd), x.Dispensable s rd.hardState.commit) ∧
    ((∀ x ∈ (s.bodyWrites rd).take (w - hardWrites rd), x.Agrees s) ∨
      ∃ x ∈ (s.bodyWrites rd).take (w - hardWrites rd), x.ReachesEnd s) := by
  obtain ⟨hdrop, htake⟩ := h
  rw [drop_persistWrites _ _ h0] at hdrop
  rw [take_persistWrites _ _ h0] at htake
  refine ⟨hdrop, htake.imp (fun hall x hx ↦ hall x (mem_append_right _ hx)) ?_⟩
  rintro ⟨x, hx, hend⟩
  refine ⟨x, (mem_append.mp hx).resolve_left fun hx ↦ ?_, hend⟩
  split at hx
  · exact not_mem_nil hx
  · rw [mem_singleton.mp hx] at hend
    exact hend

theorem bodyWrites_append {last : ℕ} (hpend : rn.log.pendingSnapshot = {})
    (happ : Appended rn.log m last rn'.log) :
    rn'.log.storage.bodyWrites rn'.ready = m.entries.map .entry := by
  have hes : rn'.ready.entries = m.entries := happ.unstable
  rw [bodyWrites, if_pos (rn'.ready_snapshot_isEmpty (happ.pending.trans hpend)), hes]
  rfl

theorem NodeRel.torn_accept (hA : Inv (quorums cfg.peers) A) (h : NodeRel False cfg ledger A p rn)
    (hu : rn.log.unstable = []) {n : ℕ} (hrel : AppendRel cfg.peers A m n)
    (hT : m.term = rn.term) (hmatch : rn.matchesPrev m = true)
    (hlog : rn'.log = appendedLog rn.log m)
    (hprev : rn'.prevHard = rn'.log.storage.initialState)
    (hsaved : rn.log.storage.initialState.commit = rn.log.committed) {w : ℕ} (h0 : 0 < w)
    (hw : w < (rn'.log.storage.persistWrites rn'.ready).length)
    (hmend : Mendable rn'.log.storage rn'.ready w) :
    (rn'.log.storage.survivor rn'.ready w).initialState =
        (rn'.log.storage.hardened rn'.ready).initialState ∧
      ∃ A', Rescued cfg A p (rn'.log.storage.survivor rn'.ready w) rn'.log.committed A' := by
  have hv := h.appendView hA hrel hT hmatch
  have happ := h.log.appendedLog hu hv.indexed hv.entries hv.length.ge
  rw [← hlog] at happ
  obtain ⟨hdrop, htake⟩ := hmend.body h0
  rw [survivor_of_pos h0 hw.le]
  rw [length_persistWrites] at hw
  have hone := hardWrites_le rn'.ready
  set k := w - hardWrites rn'.ready with hk
  rw [bodyWrites_append h.log.pending happ] at hdrop htake hw ⊢
  rw [length_map] at hw
  rw [← map_drop] at hdrop
  rw [← map_take] at htake ⊢
  rw [writeAll_entry]
  have hmoved : rn'.log.storage.initialState.commit < rn'.log.committed →
      rn'.ready.hardState.commit = rn'.log.committed := ready_commit hprev
  rw [happ.storage] at hdrop htake hmoved ⊢
  rw [hsaved] at hmoved
  obtain ⟨A', hA'⟩ := h.tornAppend hA hu hrel hT hmatch (j := k) (by omega) (fun e he hlt hle ↦ by
      rw [← hlog] at hle
      refine hdrop _ (mem_map_of_mem he) (hsaved.trans_lt hlt) ?_
      rw [hmoved (hlt.trans_le hle)]
      exact hle)
    (htake.imp (fun hall e he ↦ hall _ (mem_map_of_mem he)) (by
      rintro ⟨x, hx, hend⟩
      obtain ⟨e, he, rfl⟩ := mem_map.mp hx
      exact ⟨e, he, hend⟩))
  rw [← hlog] at hA'
  refine ⟨rfl, A', hA'.congr ?_ ?_⟩
  · simp only [appendEntries, hardened_log]
  · exact hardened_meta _ _

theorem bodyWrites_restore {snap : Snapshot} (hu : rn.log.unstable = [])
    (hnew : rn.log.committed < snap.metadata.index) (hlog : rn'.log = (rn.log.restore snap).1) :
    rn'.ready.snapshot = snap ∧ rn'.ready.snapshot.isEmpty = false ∧ rn'.ready.entries = [] := by
  have hne : snap.isEmpty = false := Snapshot.isEmpty_eq_false.mpr (zero_lt_of_lt hnew)
  rw [restore, if_neg (not_le.mpr hnew), hu] at hlog
  have hsnap : rn'.ready.snapshot = snap := by
    rw [rn'.ready_snapshot] <;> simp [hlog, hne]
  refine ⟨hsnap, hsnap ▸ hne, ?_⟩
  change rn'.log.unstable = []
  rw [hlog]
  rfl

section

variable {w : ℕ} (hA : Inv (quorums cfg.peers) A) (h : NodeRel False cfg ledger A p rn)
  (hu : rn.log.unstable = [])
include hA h hu

theorem NodeRel.torn_restore {m : Message} (hrel : SnapRel cfg.peers A m) (hT : m.term = rn.term)
    (hnew : rn.log.committed < m.snapshot.metadata.index)
    (hlog : rn'.log = (rn.log.restore m.snapshot).1) (h0 : 0 < w)
    (hw : w < (rn'.log.storage.persistWrites rn'.ready).length)
    (hmend : Mendable rn'.log.storage rn'.ready w) :
    (rn'.log.storage.persist rn'.ready).Alike (rn'.log.storage.survivor rn'.ready w) ∨
      (rn'.log.storage.survivor rn'.ready w).initialState =
        (rn'.log.storage.hardened rn'.ready).initialState ∧
      ∃ A', Rescued cfg A p (rn'.log.storage.survivor rn'.ready w) rn'.log.committed A' := by
  obtain ⟨hsnap, hne, hes⟩ := bodyWrites_restore hu hnew hlog
  obtain ⟨hdrop, -⟩ := hmend.body h0
  rw [survivor_of_pos h0 hw.le]
  set k := w - hardWrites rn'.ready with hk
  by_cases hk3 : 3 ≤ k
  · exact .inl (alike_install hne hes hk3)
  · -- the metadata has not been written
    right
    obtain ⟨hmeta, hlog', hmeta', hstate⟩ := unseen_install hne (not_le.mp hk3) rfl
    rw [hsnap] at hmeta
    have hstorage : rn'.log.storage = rn.log.storage := by
      rw [hlog, restore_storage]
    have hcommit : rn'.log.committed = m.snapshot.metadata.index := by
      rw [hlog, RaftLog.restore, if_neg (not_le.mpr hnew)]
    obtain ⟨A', hA'⟩ := h.tornSnapshot hA hu hrel hT hnew (hstorage ▸ hdrop _ hmeta)
    rw [← hstorage, ← hcommit] at hA'
    exact ⟨hstate, A', hA'.congr hlog' hmeta'⟩

/-- **A torn cycle.** What survives is what the whole cycle would have left, or what node `p` could
have in another state. -/
theorem NodeRel.torn (hsent : ∀ {m}, sent m → MsgRel cfg.peers A m)
    (hprev : rn'.prevHard = rn'.log.storage.initialState)
    (hsaved : ∀ {l m}, okLog l m → l.storage.initialState.commit = l.committed)
    (hf : RawNode.Finish sent okLog rn rn') (h0 : 0 < w)
    (hw : w < (rn'.log.storage.persistWrites rn'.ready).length)
    (hmend : Mendable rn'.log.storage rn'.ready w) :
    (rn'.log.storage.persist rn'.ready).Alike (rn'.log.storage.survivor rn'.ready w) ∨
      (rn'.log.storage.survivor rn'.ready w).initialState =
        (rn'.log.storage.hardened rn'.ready).initialState ∧
      ∃ A', Rescued cfg A p (rn'.log.storage.survivor rn'.ready w) rn'.log.committed A' := by
  cases hf with
  | keep => exact absurd hw (not_lt.mpr ((length_persistWrites_le h.log.pending hu).trans h0))
  | covered m hm hty hT =>
    exact absurd hw (not_lt.mpr ((@length_persistWrites_le (rn.send _) h.log.pending hu).trans h0))
  | accept m hm hty hT hst hmatch hok =>
    have hrel := hsent hm
    simp only [MsgRel, hty] at hrel
    obtain ⟨n, hrel⟩ := hrel
    exact .inr (h.torn_accept hA hu hrel hT hmatch rfl hprev (hsaved hok) h0 hw hmend)
  | restore m hm hty hT hst hnew hok =>
    have hrel := hsent hm
    simp only [MsgRel, hty] at hrel
    exact h.torn_restore hA hu hrel hT hnew rfl h0 hw hmend

end

end Torn

end DucklingDB.Raft
