import DucklingDB.Raft.Move
import DucklingDB.Raft.ReadyCycle
import Mathlib.Data.Nat.Find

/-!
# Finding where two logs meet

A leader that does not know the log of a follower probes it from its own end. On a rejection it
backs up: to the hint, the last index of the follower, if that lies below `nextIndex`, and by one
otherwise.

Probing at the hint is of no use if the follower has another term there. It rejects with the same
hint, which lies below `nextIndex` again, so `nextIndex` stays where it is and the exchange goes on
forever. If the follower's log is at least as long as the leader's, the leader backs up one by one
to the last index at which the terms agree (`meeting`), and from there on the follower's entries are
replaced.
-/

namespace DucklingDB.Raft

open RawNode RaftLog List Option Nat Bool
open LSMLogStorage hiding firstIndex

/-! ## The exchange -/

/-- A leader and a follower, the append on its way to the follower, and the last reply. -/
structure Exchange where
  leader : RawNode
  follower : RawNode
  append : Option Message
  reply : Option Message := none

namespace Exchange

/-- The append is delivered, and then the reply. Both nodes go through a `Ready` cycle. -/
def round (s : Exchange) (rnd : ℕ) : Exchange :=
  match s.append with
  | none => s
  | some m =>
    let follower := s.follower.step rnd m
    match follower.msgs.getLast? with
    | none => { s with follower := follower.handleReady, append := none }
    | some r =>
      let leader := s.leader.step rnd r
      ⟨leader.handleReady, follower.handleReady, leader.msgs.getLast?, some r⟩

def start (leader follower : RawNode) : Exchange :=
  { leader := leader, follower := follower
    append := some { leader.appendMessage follower.id with src := leader.id } }

def run (s : Exchange) (rnds : ℕ → ℕ) : ℕ → Exchange
  | 0 => s
  | n + 1 => (s.run rnds n).round (rnds n)

/-- The last reply was not a rejection. -/
def Accepted (s : Exchange) : Prop := ∃ r, s.reply = some r ∧ r.type = .appResp ∧ r.reject = false

/-- The follower has the entries of the leader. -/
def Agrees (s : Exchange) : Prop :=
  s.follower.log.entries 1 (s.leader.log.lastIndex + 1) =
    s.leader.log.entries 1 (s.leader.log.lastIndex + 1)

end Exchange

/-! ## Where the logs meet -/

/-- The leader's log `F` and the follower's log `L` have the same term at `p`. -/
def AgreeAt (F L : List Entry) (p : ℕ) : Prop :=
  p = 0 ∨ p ≤ L.length ∧ L[p - 1]?.map Entry.term = F[p - 1]?.map Entry.term

instance (F L : List Entry) : DecidablePred (AgreeAt F L) := fun p ↦
  inferInstanceAs (Decidable (p = 0 ∨ p ≤ L.length ∧
    L[p - 1]?.map Entry.term = F[p - 1]?.map Entry.term))

/-- The last index, before that of the leader's last entry, at which the terms agree. -/
def meeting (F L : List Entry) : ℕ := Nat.findGreatest (AgreeAt F L) (min (F.length - 1) L.length)

/-- `nextIndex` after each number of rejections. -/
def probes (F L : List Entry) : ℕ → ℕ
  | 0 => F.length
  | j + 1 => backedUp (probes F L j) L.length

variable {F L : List Entry}

theorem one_le_backedUp {next : ℕ} (h : 1 ≤ next) (hint : ℕ) : 1 ≤ backedUp next hint := by
  rw [backedUp]
  split
  · omega
  · split <;> omega

theorem probes_mem (hF : F ≠ []) (j : ℕ) : 1 ≤ probes F L j ∧ probes F L j ≤ F.length := by
  induction j with
  | zero => exact ⟨length_pos_iff.mpr hF, le_rfl⟩
  | succ j ih => exact ⟨one_le_backedUp ih.1 _, (backedUp_le _ _).trans ih.2⟩

/-- A longer follower is probed one by one. -/
theorem probes_of_le (hle : F.length ≤ L.length) {j : ℕ} (hj : j < F.length) :
    probes F L j = F.length - j := by
  induction j with
  | zero => rfl
  | succ j ih =>
    rw [probes, ih (by omega), backedUp, if_neg (by omega), if_pos (by omega)]
    omega

/-- A shorter one is probed at its last index, again and again. -/
theorem probes_of_lt (hlt : L.length < F.length) (j : ℕ) : probes F L (j + 1) = L.length + 1 := by
  induction j with
  | zero => rw [probes, probes, backedUp, if_pos hlt]
  | succ j ih => rw [probes, ih, backedUp, if_pos (lt_succ_self _)]

theorem not_agreeAt_of_lt {p : ℕ} (hlt : L.length < p) : ¬ AgreeAt F L p := by
  rintro (h0 | ⟨hle, -⟩)
  · omega
  · omega

/-- **When probing comes to an end**, and where. -/
theorem exists_probe_iff (hF : F ≠ []) :
    (∃ j, AgreeAt F L (probes F L j - 1)) ↔ F.length ≤ L.length ∨ AgreeAt F L L.length := by
  have hpos : 0 < F.length := length_pos_iff.mpr hF
  rcases le_or_gt F.length L.length with hle | hlt
  · refine iff_of_true ⟨F.length - 1, ?_⟩ (.inl hle)
    rw [probes_of_le hle (by omega)]
    exact .inl (by omega)
  · rw [or_iff_right (not_le.mpr hlt)]
    constructor
    · rintro ⟨j, hj⟩
      cases j with
      | zero =>
        have hlast : F.length - 1 ≤ L.length := not_lt.mp fun h ↦ not_agreeAt_of_lt h hj
        have heq : F.length - 1 = L.length := by omega
        exact heq ▸ hj
      | succ j =>
        rw [probes_of_lt hlt] at hj
        exact hj
    · intro h
      refine ⟨1, ?_⟩
      rw [probes_of_lt hlt]
      exact h

/-- The first probe at which the terms agree is where the logs meet. -/
theorem probe_eq_meeting (hF : F ≠ []) {j : ℕ} (hj : AgreeAt F L (probes F L j - 1))
    (hfirst : ∀ i < j, ¬ AgreeAt F L (probes F L i - 1)) : probes F L j - 1 = meeting F L := by
  have hpos : 0 < F.length := length_pos_iff.mpr hF
  symm
  rw [meeting, findGreatest_eq_iff]
  rcases le_or_gt F.length L.length with hle | hlt
  · have hjF : j < F.length := by
      by_contra hge
      refine hfirst (F.length - 1) (by omega) ?_
      rw [probes_of_le hle (by omega)]
      exact .inl (by omega)
    rw [probes_of_le hle hjF] at hj ⊢
    refine ⟨by omega, fun _ ↦ hj, fun p hp hpF ↦ ?_⟩
    have hp' := hfirst (F.length - 1 - p) (by omega)
    rw [probes_of_le hle (by omega)] at hp'
    have heq : F.length - (F.length - 1 - p) - 1 = p := by omega
    rwa [heq] at hp'
  · have hend : probes F L j - 1 = L.length := by
      cases j with
      | zero =>
        have hlast : F.length - 1 ≤ L.length := not_lt.mp fun h ↦ not_agreeAt_of_lt h hj
        rw [probes]
        omega
      | succ j => rw [probes_of_lt hlt, Nat.add_sub_cancel]
    rw [hend] at hj ⊢
    exact ⟨by omega, fun _ ↦ hj, fun p hp hpL ↦ by omega⟩

/-! ## One round -/

/-- The log is persisted and stands for the list `L`, of which nothing has been compacted. -/
structure Whole (l : RaftLog) (L : List Entry) : Prop where
  live : l.Live L
  stable : l.unstable = []
  noSnapshot : l.storage.loadSnapshotMeta.index = 0

variable {rn : RawNode} {m : Message} {rnd : ℕ} {l : RaftLog} {r : Message} {next : ℕ}
  {leader : RawNode}

theorem handleReady_snapMeta (hp : rn.log.pendingSnapshot = {}) :
    rn.handleReady.log.storage.loadSnapshotMeta = rn.log.storage.loadSnapshotMeta := by
  rw [handleReady_storage, persist_meta, if_pos (ready_snapshot_isEmpty hp)]

theorem Whole.handleReady (h : Whole rn.log L) : Whole rn.handleReady.log L := by
  obtain ⟨hlive, hstable, -⟩ := h.live.handleReady
  exact ⟨hlive, hstable, by rw [handleReady_snapMeta h.live.pending, h.noSnapshot]⟩

theorem Whole.lastIndex_eq (h : Whole l L) : l.lastIndex = L.length := h.live.lastIndex_eq

theorem Whole.entries_eq (h : Whole l L) {lo : ℕ} (hlo : 1 ≤ lo) :
    l.entries lo (L.length + 1) = L.drop (lo - 1) := by
  rw [h.live.entries_eq (by rw [h.noSnapshot]; omega) le_rfl, slice]
  exact take_of_length_le (by rw [length_drop]; omega)

/-- The append that probes at `next`. -/
structure Probes (F : List Entry) (leader : RawNode) (next : ℕ) (m : Message) : Prop where
  type : m.type = .app
  src : m.src = leader.id
  term : m.term = leader.term
  index : m.index = next - 1
  logTerm : ∀ e, 1 < next → F[next - 2]? = some e → m.logTerm = e.term
  entries : m.entries = F.drop (next - 1)

theorem probes_appendMessage (h : Whole rn.log F) {dst next : ℕ}
    (hnext : rn.nextIndex.get dst 0 = next)
    (h1 : 1 ≤ next) : Probes F rn next { rn.appendMessage dst with src := rn.id } where
  type := rfl
  src := rfl
  term := rfl
  index := by rw [← hnext]; rfl
  logTerm e hlt he := by
    have ht : rn.log.term (next - 1) = .ok e.term :=
      h.live.term_eq (by omega) (by rw [h.noSnapshot]; omega) he
    simp only [appendMessage, hnext, ht]
  entries := by
    simp only [appendMessage, hnext, h.lastIndex_eq]
    exact h.entries_eq h1

theorem matchesPrev_iff (h : Whole rn.log L) (h1 : 1 ≤ next)
    (hle : next ≤ F.length) (hm : Probes F leader next m) :
    rn.matchesPrev m = true ↔ AgreeAt F L (next - 1) := by
  rw [matchesPrev, or_eq_true, beq_iff_eq, beq_iff_eq, hm.index, AgreeAt]
  refine or_congr_right' fun hne ↦ ?_
  obtain ⟨e, he⟩ : ∃ e, F[next - 2]? = some e := ⟨_, getElem?_eq_getElem (by omega)⟩
  have hidx : next - 1 - 1 = next - 2 := by omega
  rw [hm.logTerm e (by omega) he, hidx, he]
  constructor
  · intro ht
    obtain ⟨e', he', hte⟩ := h.live.of_term ht (by omega)
    rw [hidx] at he'
    have hlt := (List.getElem?_eq_some_iff.mp he').1
    exact ⟨by omega, by rw [he', map_some, map_some, hte]⟩
  · rintro ⟨hle', hterm⟩
    obtain ⟨e', he'⟩ : ∃ e', L[next - 2]? = some e' := ⟨_, getElem?_eq_getElem (by omega)⟩
    rw [he', map_some, map_some] at hterm
    rw [h.live.term_eq (by omega) (by rw [h.noSnapshot]; omega) (hidx ▸ he'), Option.some.inj hterm]

/-- An append of a later term finds the node as one of the same term does. -/
theorem step_app (hty : m.type = .app) (hT : rn.term ≤ m.term) :
    rn.step rnd m = rn.stepApp rnd m := by
  have hterm : rn.handleTerm rnd m = some rn ∨
      rn.handleTerm rnd m = some (rn.becomeFollower rnd m.term m.src) := by
    rw [handleTerm, hty]
    split
    · exact .inr (by simp)
    · exact .inl rfl
  rw [step]
  rcases hterm with h | h
  · rw [h]
    simp only [dispatch, hty]
  · rw [h]
    simp only [dispatch, hty, stepApp, becomeFollower, lt_irrefl, not_lt.mpr hT, if_false]
    rfl

theorem stepApp_reject (hT : rn.term ≤ m.term) (hno : ¬ rn.matchesPrev m = true) :
    rn.stepApp rnd m = (rn.becomeFollower rnd m.term m.src).rejectAppend m := by
  rw [stepApp, if_neg (not_lt.mpr hT)]
  refine if_pos ?_
  rw [not_eq_true']
  exact eq_false_iff.mpr hno

theorem stepApp_accept (hT : rn.term ≤ m.term) (hok : rn.matchesPrev m = true) :
    rn.stepApp rnd m = { rn.becomeFollower rnd m.term m.src with log := appendedLog rn.log m }.send
      { type := .appResp, dst := m.src, term := m.term
        index := (appendedLog rn.log m).lastIndex } := by
  rw [stepApp, if_neg (not_lt.mpr hT)]
  refine if_neg ?_
  rw [not_eq_true', not_eq_false]
  exact hok

theorem sendAppend_of_whole (h : Whole rn.log F) {dst : NodeId} (h1 : 1 ≤ rn.nextIndex.get dst 0) :
    rn.sendAppend dst = rn.send (rn.appendMessage dst) := by
  have hsnap : rn.log.storage.snapshot = {} := by rw [snapshot, if_pos h.noSnapshot]
  have hfirst : ¬ rn.nextIndex.get dst 0 < rn.log.firstIndex := by
    rw [firstIndex, LSMLogStorage.Holds.firstIndex_eq, h.noSnapshot]
    omega
  simp [sendAppend, hsnap, hfirst, Snapshot.isEmpty]

/-- An accepted probe replaces the entries of the follower from `next` on, as far as the leader's
reach. -/
theorem handleReady_accepted (h : Whole l L) (hF : Indexed F)
    (h1 : 1 ≤ next) (hle : next ≤ F.length) (hL : next - 1 ≤ L.length) (hm : Probes F leader next m)
    (hlog : rn.log = appendedLog l m) :
    rn.handleReady.log.entries 1 (F.length + 1) = overlay L F (next - 1) := by
  have hF' : Indexed (overlay L F (next - 1)) := h.live.indexed.overlay hF hL
  have hlen : (overlay L F (next - 1)).length = F.length := by
    rw [length_overlay hL]
    omega
  have hes : m.entries = slice (overlay L F (next - 1)) (m.index + 1) (F.length + 1) := by
    rw [hm.entries, hm.index, slice, Nat.add_sub_cancel, overlay,
      drop_left' (length_take_of_le hL), take_of_length_le]
    rw [length_drop]
    omega
  have hidx : m.index ≤ L.length := hm.index ▸ hL
  have hag : L.take m.index = (overlay L F (next - 1)).take m.index := by
    rw [hm.index, overlay, take_left' (length_take_of_le hL)]
  obtain ⟨hlive, -⟩ :=
    h.live.handleReady_append h.stable hF' hes (by rw [hm.index]; omega) hlen.ge hidx
    hag (fun i _ hi ↦ absurd hi (by rw [h.noSnapshot]; omega)) rn hlog
  have hpending : rn.log.pendingSnapshot = {} := by
    rw [hlog, (h.live.appendedLog h.stable hF' hes hlen.ge).pending, h.live.pending]
  have hsnap : rn.handleReady.log.storage.loadSnapshotMeta.index = 0 := by
    rw [handleReady_snapMeta hpending, hlog, appendedLog_storage, h.noSnapshot]
  have hlen' : F.length ≤ (overlay (overlay L F (next - 1)) L F.length).length := by
    rw [length_overlay hlen.ge]
    exact le_max_left _ _
  rw [hlive.entries_eq (by omega) (by omega), slice, Nat.sub_self, drop_zero, Nat.add_sub_cancel]
  exact take_left' (length_take_of_le hlen.ge) |>.trans (take_of_length_le hlen.le)

theorem overlay_eq_iff {p : ℕ} : overlay L F p = F ↔ L.take p = F.take p := by
  rw [overlay]
  nth_rewrite 2 [← take_append_drop p F]
  exact append_left_inj _

theorem step_appResp (hty : r.type = .appResp) (hT : r.term = rn.term) :
    rn.step rnd r = rn.stepAppResp r := by
  rw [step, handleTerm, if_neg (by omega)]
  simp only [dispatch, hty]

/-- A rejection in the leader's own term: `nextIndex` is backed up, and the follower is probed
there. -/
theorem step_rejection (hst : rn.state = .leader) (h : Whole rn.log F)
    (hty : r.type = .appResp) (hT : r.term = rn.term) (hrej : r.reject = true)
    (hnext : rn.nextIndex.get r.src 0 = next) (h1 : 1 ≤ next) (rnd : ℕ) :
    ∃ rn' m, rn.step rnd r = rn' ∧ rn'.state = .leader ∧ rn'.term = rn.term ∧
      rn'.log = rn.log ∧ rn'.msgs = rn.msgs ++ [m] ∧
      rn'.nextIndex.get r.src 0 = backedUp next r.rejectHint ∧
      Probes F rn' (backedUp next r.rejectHint) m := by
  let rn₂ : RawNode := { rn with
    recentActive := rn.recentActive.insert r.src true
    nextIndex := rn.nextIndex.insert r.src (backedUp next r.rejectHint) }
  have hnext₂ : rn₂.nextIndex.get r.src 0 = backedUp next r.rejectHint :=
    GoMap.get_insert_self _ _ _ _
  have h1₂ := one_le_backedUp h1 r.rejectHint
  have hlog : Whole rn₂.log F := h
  refine ⟨rn₂.send (rn₂.appendMessage r.src), { rn₂.appendMessage r.src with src := rn.id },
    ?_, hst, rfl, rfl, rfl, hnext₂, ?_⟩
  · rw [step_appResp hty hT, stepAppResp, if_neg (by simp [hst])]
    simp only [hrej, if_true, hnext]
    exact sendAppend_of_whole hlog (hnext₂ ▸ h1₂)
  · exact { probes_appendMessage hlog hnext₂ h1₂ with }

theorem Whole.maybeAdvanceCommit (h : Whole rn.log F) :
    Whole rn.maybeAdvanceCommit.log F ∧ rn.maybeAdvanceCommit.msgs = rn.msgs := by
  obtain ⟨k, hk, heq⟩ := rn.advanceCommitFrom_eq_commitTo rn.log.lastIndex
  have hlive := h.live.commitTo (h.lastIndex_eq ▸ hk)
  rw [commitTo_eq] at hlive
  rw [RawNode.maybeAdvanceCommit, heq, commitTo_eq]
  exact ⟨⟨hlive, h.stable, h.noSnapshot⟩, rfl⟩

/-- Any other reply in the leader's own term leaves its entries alone, and nothing is sent. -/
theorem step_acceptance (hst : rn.state = .leader) (h : Whole rn.log F)
    (hty : r.type = .appResp) (hT : r.term = rn.term) (hrej : r.reject = false) (rnd : ℕ) :
    Whole (rn.step rnd r).log F ∧ (rn.step rnd r).msgs = rn.msgs := by
  rw [step_appResp hty hT, stepAppResp, if_neg (by simp [hst])]
  simp only [hrej, false_eq_true, if_false]
  split
  · have hmoved : Whole { rn with
      recentActive := rn.recentActive.insert r.src true
      matchIndex := rn.matchIndex.insert r.src r.index
      nextIndex := rn.nextIndex.insert r.src (r.index + 1) : RawNode }.log F := h
    exact hmoved.maybeAdvanceCommit
  · have hstayed : Whole
      { rn with recentActive := rn.recentActive.insert r.src true : RawNode }.log F := h
    exact hstayed.maybeAdvanceCommit

namespace Exchange

variable {s : Exchange} {next : ℕ}

theorem round_eq {r : Message} (hm : s.append = some m)
    (hr : (s.follower.step rnd m).msgs.getLast? = some r) :
    s.round rnd = ⟨(s.leader.step rnd r).handleReady, (s.follower.step rnd m).handleReady,
      (s.leader.step rnd r).msgs.getLast?, some r⟩ := by
  simp only [round, hm, hr]

/-- The leader probes at `next`. -/
structure Probing (F L : List Entry) (next : ℕ) (s : Exchange) : Prop where
  state : s.leader.state = .leader
  leaderLog : Whole s.leader.log F
  leaderMsgs : s.leader.msgs = []
  nextIndex : s.leader.nextIndex.get s.follower.id 0 = next
  followerLog : Whole s.follower.log L
  followerMsgs : s.follower.msgs = []
  term : s.follower.term ≤ s.leader.term
  append : ∃ m, s.append = some m ∧ Probes F s.leader next m

/-- **A round that is rejected.** -/
theorem Probing.reject (h : Probing F L next s) (h1 : 1 ≤ next) (hle : next ≤ F.length)
    (hno : ¬ AgreeAt F L (next - 1)) (rnd : ℕ) :
    Probing F L (backedUp next L.length) (s.round rnd) ∧
      ∃ r, (s.round rnd).reply = some r ∧ r.reject = true := by
  obtain ⟨m, hm, hp⟩ := h.append
  have hT : s.follower.term ≤ m.term := hp.term ▸ h.term
  have hstep :
      s.follower.step rnd m = (s.follower.becomeFollower rnd m.term m.src).rejectAppend m := by
    rw [step_app hp.type hT]
    exact stepApp_reject hT fun hok ↦ hno ((matchesPrev_iff h.followerLog h1 hle hp).mp hok)
  let r : Message :=
    { type := .appResp, src := s.follower.id, dst := m.src, term := m.term, reject := true
      rejectHint := s.follower.log.lastIndex }
  have hreply : (s.follower.step rnd m).msgs.getLast? = some r := by
    rw [hstep]
    exact getLast?_concat
  have hnext : s.leader.nextIndex.get r.src 0 = next := h.nextIndex
  have hrT : r.term = s.leader.term := hp.term
  obtain ⟨ld, m', hld, hst', hT', hlog', hmsgs', hnext', hp'⟩ :=
    step_rejection h.state h.leaderLog rfl hrT rfl hnext h1 rnd
  rw [h.leaderMsgs, nil_append] at hmsgs'
  have hhint : r.rejectHint = L.length := h.followerLog.lastIndex_eq
  rw [hhint] at hnext' hp'
  rw [round_eq hm hreply, hld, hstep]
  refine ⟨⟨hst', ?_, rfl, hnext', ?_, rfl, ?_, m', by rw [hmsgs']; rfl, { hp' with }⟩, _, rfl, rfl⟩
  · exact Whole.handleReady (hlog' ▸ h.leaderLog)
  · exact Whole.handleReady h.followerLog
  · exact (hp.term.trans hT'.symm).le

/-- **A round that is accepted.** The follower's entries are replaced by the leader's, from `next`
on. -/
theorem Probing.accept (h : Probing F L next s) (h1 : 1 ≤ next) (hle : next ≤ F.length)
    (hok : AgreeAt F L (next - 1)) (rnd : ℕ) :
    (s.round rnd).append = none ∧ (s.round rnd).Accepted ∧
      ((s.round rnd).Agrees ↔ L.take (next - 1) = F.take (next - 1)) := by
  obtain ⟨m, hm, hp⟩ := h.append
  have hT : s.follower.term ≤ m.term := hp.term ▸ h.term
  let r : Message :=
    { type := .appResp, src := s.follower.id, dst := m.src, term := m.term
      index := (appendedLog s.follower.log m).lastIndex }
  have hstep : s.follower.step rnd m =
      { s.follower.becomeFollower rnd m.term m.src with
        log := appendedLog s.follower.log m }.send r := by
    rw [step_app hp.type hT]
    exact stepApp_accept hT ((matchesPrev_iff h.followerLog h1 hle hp).mpr hok)
  have hreply : (s.follower.step rnd m).msgs.getLast? = some r := by
    rw [hstep]
    exact getLast?_concat
  have hrT : r.term = s.leader.term := hp.term
  obtain ⟨hwhole, hmsgs⟩ := step_acceptance h.state h.leaderLog rfl hrT rfl rnd
  have hL : next - 1 ≤ L.length := by
    rcases hok with h0 | ⟨hle', -⟩
    · omega
    · exact hle'
  rw [round_eq hm hreply]
  refine ⟨by rw [hmsgs, h.leaderMsgs]; rfl, ⟨r, rfl, rfl, rfl⟩, ?_⟩
  have hleader := hwhole.handleReady
  rw [Agrees, hleader.lastIndex_eq, hleader.entries_eq le_rfl, ← overlay_eq_iff]
  rw [handleReady_accepted h.followerLog h.leaderLog.live.indexed h1 hle hL hp (by rw [hstep]; rfl)]
  rfl

/-- An append of an earlier term is rejected, and the leader steps down. -/
theorem round_deposed (hm : s.append = some m) (hty : m.type = .app) (hT : m.term < s.follower.term)
    (hld : s.leader.term = m.term) (hmsgs : s.leader.msgs = []) (rnd : ℕ) :
    (s.round rnd).append = none ∧ ¬ (s.round rnd).Accepted := by
  let r : Message :=
    { type := .appResp, src := s.follower.id, dst := m.src, term := s.follower.term, reject := true
      rejectHint := s.follower.log.lastIndex }
  have hreply : (s.follower.step rnd m).msgs.getLast? = some r := by
    rw [step, handleTerm, if_neg (not_lt.mpr hT.le)]
    simp only [dispatch, hty, stepApp, if_pos hT]
    exact getLast?_concat
  have hstep : s.leader.step rnd r = s.leader.becomeFollower rnd r.term r.src := by
    have hlt : r.term > s.leader.term := hld ▸ hT
    rw [step, handleTerm, if_pos hlt]
    rfl
  rw [round_eq hm hreply, hstep]
  refine ⟨by rw [becomeFollower, hmsgs]; rfl, ?_⟩
  rintro ⟨r', hr', -, hrej⟩
  obtain rfl := Option.some.inj hr'
  exact absurd hrej (by simp [r])

theorem run_of_append_none {rnds : ℕ → ℕ} {i j : ℕ} (h : (s.run rnds i).append = none)
    (hij : i ≤ j) : s.run rnds j = s.run rnds i := by
  induction j, hij using le_induction with
  | base => rfl
  | succ j _ ih => rw [run, ih, round, h]

theorem probing_start {leader follower : RawNode} (hst : leader.state = .leader)
    (hleader : Whole leader.log F) (hfollower : Whole follower.log L) (hF : F ≠ [])
    (hnext : leader.nextIndex.get follower.id 0 = leader.log.lastIndex) (hmsgs : leader.msgs = [])
    (hmsgs' : follower.msgs = []) (hT : follower.term ≤ leader.term) :
    (start leader follower).Probing F L F.length :=
  have hlen := hnext.trans hleader.lastIndex_eq
  ⟨hst, hleader, hmsgs, hlen, hfollower, hmsgs', hT, _, rfl,
    probes_appendMessage hleader hlen (length_pos_iff.mpr hF)⟩

/-- **The rounds before the terms agree** are rejected. -/
theorem Probing.run (h : Probing F L F.length s) (hF : F ≠ []) (hs : s.reply = none) (rnds : ℕ → ℕ)
    {j : ℕ} (hno : ∀ i < j, ¬ AgreeAt F L (probes F L i - 1)) :
    Probing F L (probes F L j) (s.run rnds j) ∧ ¬ (s.run rnds j).Accepted := by
  induction j with
  | zero =>
    refine ⟨h, ?_⟩
    rintro ⟨r, hr, -⟩
    cases hs.symm.trans hr
  | succ j ih =>
    obtain ⟨hj, -⟩ := ih fun i hi ↦ hno i (hi.trans (lt_succ_self j))
    obtain ⟨h1, hle⟩ := probes_mem (L := L) hF j
    obtain ⟨hnext, r, hr, hrej⟩ := hj.reject h1 hle (hno j (lt_succ_self j)) (rnds j)
    refine ⟨hnext, ?_⟩
    rintro ⟨r', hr', -, hrej'⟩
    obtain rfl := mem_unique hr hr'
    cases hrej.symm.trans hrej'

end Exchange

/-- **When backtracking converges.** A leader that has just been elected, with the log `F`, sends
appends to a follower with the log `L`, and each of the two answers the other. The exchange comes to
a reply that is not a rejection, after which the follower has the entries of the leader, if and only
if the follower is not in a later term, its log is at least as long as the leader's or ends in an
entry with the leader's term there, and the logs are equal up to the index where they meet. -/
theorem backtracking_converges_iff {leader follower : RawNode} (hst : leader.state = .leader)
    (hleader : Whole leader.log F) (hfollower : Whole follower.log L) (hF : F ≠ [])
    (hnext : leader.nextIndex.get follower.id 0 = leader.log.lastIndex) (hmsgs : leader.msgs = [])
    (hmsgs' : follower.msgs = []) (rnds : ℕ → ℕ) :
    (∃ j, ((Exchange.start leader follower).run rnds j).Accepted ∧
      ((Exchange.start leader follower).run rnds j).Agrees) ↔
    follower.term ≤ leader.term ∧ (F.length ≤ L.length ∨ AgreeAt F L L.length) ∧
      L.take (meeting F L) = F.take (meeting F L) := by
  set s := Exchange.start leader follower with hs
  rcases le_or_gt follower.term leader.term with hT | hT
  · have h := Exchange.probing_start hst hleader hfollower hF hnext hmsgs hmsgs' hT
    rw [and_iff_right hT, ← exists_probe_iff hF]
    by_cases hagree : ∃ j, AgreeAt F L (probes F L j - 1)
    · -- the first probe at which the terms agree ends the exchange
      rw [and_iff_right hagree]
      have hfirst : ∀ i < Nat.find hagree, ¬ AgreeAt F L (probes F L i - 1) :=
        fun i hi ↦ Nat.find_min hagree hi
      obtain ⟨h1, hle⟩ := probes_mem (L := L) hF (Nat.find hagree)
      obtain ⟨hlast, -⟩ := h.run hF rfl rnds hfirst
      obtain ⟨hnone, hacc, hiff⟩ :=
        hlast.accept h1 hle (Nat.find_spec hagree) (rnds (Nat.find hagree))
      rw [probe_eq_meeting hF (Nat.find_spec hagree) hfirst] at hiff
      refine ⟨fun ⟨j, haccj, hagrj⟩ ↦ hiff.mp ?_,
        fun htake ↦ ⟨Nat.find hagree + 1, hacc, hiff.mpr htake⟩⟩
      have hj : Nat.find hagree + 1 ≤ j := by
        by_contra hlt
        exact (h.run hF rfl rnds fun i hi ↦ hfirst i (by omega)).2 haccj
      have hend : (s.run rnds (Nat.find hagree + 1)).append = none := hnone
      rwa [Exchange.run_of_append_none hend hj] at hagrj
    · rw [not_exists] at hagree
      refine iff_of_false ?_ fun ⟨⟨j, hj⟩, _⟩ ↦ hagree j hj
      rintro ⟨j, hacc, -⟩
      exact (h.run hF rfl rnds fun i _ ↦ hagree i).2 hacc
  · -- a later term of the follower deposes the leader
    refine iff_of_false ?_ fun h ↦ absurd h.1 (not_le.mpr hT)
    rintro ⟨j, hacc, -⟩
    obtain ⟨hnone, hrej⟩ := Exchange.round_deposed (s := s) rfl rfl hT rfl hmsgs (rnds 0)
    cases j with
    | zero =>
      obtain ⟨r, hr, -⟩ := hacc
      exact absurd hr (by simp [hs, Exchange.run, Exchange.start])
    | succ j =>
      have hend : (s.run rnds 1).append = none := hnone
      rw [Exchange.run_of_append_none hend (Nat.succ_le_succ (Nat.zero_le j))] at hacc
      exact hrej hacc

/-! ## Nodes with given logs -/

/-- Any numbered list is the log of a node that starts from what has been persisted. -/
theorem whole_newRaftLog (hL : Indexed L) : Whole (newRaftLog (appendEntries {} L)) L := by
  have hs : (appendEntries {} L).Holds L := by
    refine holds_empty.appendEntries (fun x hx ↦ hL.getElem_index hx) ?_ ?_
      (zero_le _) fun h0 ↦ absurd h0 (lt_irrefl _)
    · exact fun i hi ↦ absurd hi (not_lt_zero i)
    · intro i hi _
      exact ⟨_, getElem_mem hi, hL i _ (getElem?_eq_getElem hi)⟩
  exact ⟨⟨rfl, ⟨L, hs, (append_nil L).symm, zero_le _⟩, hL, le_rfl, le_rfl, zero_le _⟩, rfl, rfl⟩

/-- A node that has persisted the entries `L`. -/
def nodeWith (id : NodeId) (L : List Entry) : RawNode :=
  newRawNode id [1, 2] (LSMLogStorage.appendEntries {} L) 0

/-- The leader of term `3` with the entries `F`, as it is when it has been elected. -/
def leaderWith (F : List Entry) : RawNode :=
  { nodeWith 1 F with state := .leader, term := 3, nextIndex := AList.insert 2 F.length ∅ }

/-- The entries of a node that has been elected in terms `2` and `3`. -/
def electedTwice : List Entry := [{ term := 2, index := 1 }, { term := 3, index := 2 }]

/-- The entry of a node that has been elected in term `1`. -/
def electedOnce : List Entry := [{ term := 1, index := 1 }]

theorem indexed_of_map_index (h : L.map Entry.index = List.range' 1 L.length) : Indexed L := by
  intro i e he
  have hi := (List.getElem?_eq_some_iff.mp he).1
  have hmap : (L.map Entry.index)[i]? = some e.index := by rw [List.getElem?_map, he, map_some]
  rw [h, List.getElem?_range' hi, Option.some.injEq] at hmap
  omega

theorem nextIndex_leaderWith {F : List Entry} (hF : Indexed F) :
    (leaderWith F).nextIndex.get 2 0 = (leaderWith F).log.lastIndex :=
  (GoMap.get_insert_self _ _ _ _).trans (whole_newRaftLog hF).lastIndex_eq.symm

/-- A follower without entries takes over the leader's. -/
theorem backtracking_converges_iff_empty :
    ∃ j, ((Exchange.start (leaderWith electedTwice) (nodeWith 2 [])).run (fun _ ↦ 0) j).Accepted ∧
      ((Exchange.start (leaderWith electedTwice) (nodeWith 2 [])).run (fun _ ↦ 0) j).Agrees := by
  have hF : Indexed electedTwice := indexed_of_map_index rfl
  have hL : Indexed ([] : List Entry) := indexed_of_map_index rfl
  exact (backtracking_converges_iff rfl (whole_newRaftLog hF) (whole_newRaftLog hL) (by decide)
    (nextIndex_leaderWith hF) rfl rfl _).mpr ⟨by decide, .inr (.inl rfl), by decide +kernel⟩

/-- A follower whose only entry has another term than the leader's at that index rejects forever. -/
theorem exists_rejected_forever : ¬ ∃ (rnds : ℕ → ℕ) (j : ℕ),
    ((Exchange.start (leaderWith electedTwice) (nodeWith 2 electedOnce)).run rnds j).Accepted := by
  rintro ⟨rnds, j, hacc⟩
  have hF : Indexed electedTwice := indexed_of_map_index rfl
  have hL : Indexed electedOnce := indexed_of_map_index rfl
  have hne : electedTwice ≠ [] := by decide
  have h : (Exchange.start (leaderWith electedTwice) (nodeWith 2 electedOnce)).Probing electedTwice
      electedOnce electedTwice.length :=
    Exchange.probing_start rfl (whole_newRaftLog hF) (whole_newRaftLog hL) hne
      (nextIndex_leaderWith hF) rfl rfl (by decide)
  have hno : ¬ ∃ j, AgreeAt electedTwice electedOnce (probes electedTwice electedOnce j - 1) := by
    rw [exists_probe_iff hne]
    decide
  exact (h.run hne rfl rnds fun i _ hi ↦ hno ⟨i, hi⟩).2 hacc

end DucklingDB.Raft
