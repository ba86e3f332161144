import DucklingDB.Raft.Safety

/-!
# What an acknowledgement means

The index that a follower acknowledges to a leader is one up to which it has the leader's log. The
source sends the follower's own last index instead. The two differ after a snapshot that does not
cover the follower's log (`falseAck`).

The progress that a leader keeps of a peer is as old as the last acknowledgement it has seen. It
therefore bounds the common part of the two logs only while the peer is in the leader's term:
`staleProgress` is a run that meets all the conditions, in which a deposed leader, who does not know
it yet, still counts an entry that its peer has replaced.
-/

namespace DucklingDB.Raft

open List

open Consensus (State)

/-! ## The terms of an acknowledgement -/

namespace RawNode

variable {rn : RawNode} {rnd : ℕ} {m x : Message}

section

variable (hmsgs : rn.msgs = [])
include hmsgs

theorem mem_send_msgs {r : Message} (hx : x ∈ (rn.send r).msgs) : x = { r with src := rn.id } := by
  rw [send, hmsgs, nil_append] at hx
  exact mem_singleton.mp hx

theorem rejectAppend_reject (hx : x ∈ (rn.rejectAppend m).msgs) : x.reject = true := by
  rw [mem_send_msgs hmsgs hx]

theorem stepApp_ack (hx : x ∈ (rn.stepApp rnd m).msgs) (hr : x.reject = false) :
    x.src = rn.id ∧ x.term = m.term ∧ (rn.stepApp rnd m).term = m.term := by
  have hmsgs' : (rn.becomeFollower rnd m.term m.src).msgs = [] := hmsgs
  rw [stepApp] at hx ⊢
  split at hx
  · rw [rejectAppend_reject hmsgs hx] at hr
    cases hr
  · rename_i hT
    dsimp only at hx ⊢
    rw [if_neg hT]
    split at hx
    · rw [rejectAppend_reject hmsgs' hx] at hr
      cases hr
    · rename_i hprev
      rw [if_neg hprev, mem_send_msgs hmsgs hx]
      exact ⟨rfl, rfl, rfl⟩

theorem stepSnap_ack (hx : x ∈ (rn.stepSnap rnd m).msgs) (hr : x.reject = false) :
    x.src = rn.id ∧ x.term = m.term ∧ (rn.stepSnap rnd m).term = m.term := by
  rw [stepSnap] at hx ⊢
  split at hx
  · rw [rejectAppend_reject hmsgs hx] at hr
    cases hr
  · rename_i hT
    dsimp only at hx ⊢
    rw [if_neg hT]
    split at hx <;> rw [mem_send_msgs hmsgs hx]
    · exact ⟨rfl, rfl, rfl⟩
    · exact ⟨rfl, rfl, rfl⟩

/-- An acknowledgement carries the term of the message that it answers, which is then the node's. -/
theorem step_ack (hty : m.type = .app ∨ m.type = .snap) (hx : x ∈ (rn.step rnd m).msgs)
    (hr : x.reject = false) : x.src = rn.id ∧ x.term = m.term ∧ (rn.step rnd m).term = m.term := by
  rw [step] at hx ⊢
  cases h : rn.handleTerm rnd m with
  | none =>
    rw [h] at hx
    rw [hmsgs] at hx
    cases hx
  | some rn₁ =>
    rw [h] at hx
    obtain ⟨hm₁, hid⟩ : rn₁.msgs = [] ∧ rn₁.id = rn.id := by
      rcases handleTerm_cases h with ⟨rfl, -⟩ | ⟨-, rfl⟩
      · exact ⟨hmsgs, rfl⟩
      · exact ⟨hmsgs, rfl⟩
    rw [← hid]
    rcases hty with hty | hty <;> simp only [dispatch, hty] at hx ⊢
    · exact stepApp_ack hm₁ hx hr
    · exact stepSnap_ack hm₁ hx hr

end

end RawNode

/-! ## Soundness -/

section Sound

variable {cfg : Config} {r : Run cfg ReplicationGood} {α : ℕ → State NodeId Entry} {n k : ℕ}
  {p q : NodeId} {T i j : ℕ} {e : Entry}

/-- What a node has acknowledged in its current term, it has as the leader has it. -/
theorem Shadow.keeps_of_acked (h : Shadow r α) (hp : p ∈ cfg.ids) (hq : q ∈ cfg.ids)
    (hT : ((r.state n).nodes q).term = T) (hj : j ≤ (α n).acked q T) (hk : (r.state k).Leads p T)
    (he : ((r.state k).nodes p).log.storage.log.lookup j = some e) :
    ((r.state n).nodes q).Keeps j e := by
  obtain ⟨hj1, hget⟩ := (h.refines k).lookup hp he
  obtain ⟨hlead, hlog⟩ := h.of_leads hp hk
  have hterm : (α n).term q = T := ((h.refines n).node q hq).term.trans hT
  have hcur := (h.inv n).safe.acked_current q
  have hack := (h.inv n).safe.acked_le q T
  have hleadn := (h.inv n).safe.acked_leader (p := q) (T := T) (by omega)
  rw [hterm] at hcur
  -- both leader logs are parts of the one at the later of the two times
  have hfull : ((α n).full T)[j - 1]? = some e := by
    obtain ⟨t, ht⟩ := (h.extends (le_max_left n k)).full hleadn
    obtain ⟨u, hu⟩ := (h.extends (le_max_right n k)).full (T := T) (by rw [hlead]; rfl)
    rw [hlog] at hget
    have hlate : ((α (max n k)).full T)[j - 1]? = some e := by
      rw [← hu, List.getElem?_append_left (List.getElem?_eq_some_iff.mp hget).1, hget]
    rwa [← ht, getElem?_append_left (by omega)] at hlate
  refine (h.refines n).keeps hq hj1 ?_
  obtain ⟨t, ht⟩ := hcur
  rw [← ht, getElem?_append_left (by rw [length_take]; omega), getElem?_take_of_lt (by omega),
    hfull]

/-- A leader log has the length that the log of its leader had at some time. -/
theorem Shadow.exists_lastIndex (h : Shadow r α) (hl : (α n).leader T = some p) :
    ∃ k ≤ n, (r.state k).Leads p T ∧
      ((r.state k).nodes p).log.lastIndex = ((α n).full T).length := by
  obtain ⟨k, hk, hlk, hp, hfull⟩ := h.exists_leads hl
  refine ⟨k, hk, hlk, ?_⟩
  rw [((h.refines k).node p hp).log.lastIndex_eq, (h.of_leads hp hlk).2, hfull]

end Sound

/-- **Acknowledgements are sound.** In every run that meets the conditions: a node that acknowledges
index `i` to the leader `L` of `T` has what `L` has up to `i` whenever it leads `T`, and `L` has led
`T` with at least `i` entries. The progress of a peer that a leader keeps is at most its own last
index, and the peer has the leader's log up to there as long as it is in the leader's term. -/
theorem acknowledgement_sound {cfg : Config} (r : Run cfg ReplicationGood) :
    (∀ n m rnd x, r.event n = some (.deliver m rnd) → m.type = .app ∨ m.type = .snap →
      x ∈ (((r.state n).nodes m.dst).step rnd m).msgs → x.type = .appResp → x.reject = false →
      (∃ k ≤ n + 1, (r.state k).Leads m.src m.term ∧
        x.index ≤ ((r.state k).nodes m.src).log.lastIndex) ∧
      ∀ k, (r.state k).Leads m.src m.term → ∀ j ≤ x.index, ∀ e,
        ((r.state k).nodes m.src).log.storage.log.lookup j = some e →
        ((r.state (n + 1)).nodes m.dst).Keeps j e) ∧
    ∀ n, ∀ p ∈ cfg.ids, ∀ T, (r.state n).Leads p T → ∀ q,
      ((r.state n).nodes p).matchIndex.get q 0 ≤ ((r.state n).nodes p).log.lastIndex ∧
      (q ∈ cfg.ids → ((r.state n).nodes q).term = T →
        ∀ j ≤ ((r.state n).nodes p).matchIndex.get q 0, ∀ e,
          ((r.state n).nodes p).log.storage.log.lookup j = some e →
          ((r.state n).nodes q).Keeps j e) := by
  obtain ⟨α, hα⟩ := r.exists_shadow
  refine ⟨fun n m rnd x hev hty hx hxty hr ↦ ?_, fun n p hp T hlead q ↦ ?_⟩
  · obtain ⟨hact, -⟩ := r.next n _ hev
    obtain ⟨⟨hid, hnet⟩, hnext⟩ := Cluster.act_eq_some hact
    have hid : m.dst ∈ cfg.ids := hid
    have hsettled := (hα.refines n).settled
    obtain ⟨hsrc, hterm, hstep⟩ := RawNode.step_ack (hsettled.msgs _ hid) hty hx hr
    rw [hsettled.id _ hid] at hsrc
    -- the sender led the term of the message
    have hleader : (α n).leader m.term = some m.src := by
      have := (hα.refines n).net m (hnet m rnd rfl)
      rcases hty with hty | hty <;> simp only [MsgRel, hty] at this
      · obtain ⟨_, hrel⟩ := this
        exact hrel.sender
      · exact this.sender
    have hleader' := (hα.extends (Nat.le_succ n)).leader hleader
    have hack : x.index ≤ (α (n + 1)).acked m.dst m.term := by
      have := (hα.refines (n + 1)).net x (by
        rw [hnext]
        exact mem_append_right _ hx)
      simp only [MsgRel, hxty] at this
      rw [← hsrc, ← hterm]
      exact this hr
    have hT : ((r.state (n + 1)).nodes m.dst).term = m.term := by
      rw [hnext]
      exact (congrArg RawNode.term (Cluster.settle_nodes_self _ _ _)).trans hstep
    constructor
    · obtain ⟨k, hk, hlk, hlast⟩ := hα.exists_lastIndex hleader'
      refine ⟨k, hk, hlk, ?_⟩
      rw [hlast]
      exact hack.trans ((hα.inv _).safe.acked_le _ _)
    · intro k hlk j hj e he
      exact hα.keeps_of_acked ((hα.refines n).src m (hnet m rnd rfl)) hid hT (hj.trans hack) hlk he
  · have hnode := (hα.refines n).node p hp
    obtain ⟨hst, rfl⟩ := hlead
    have hmatch : ((r.state n).nodes p).matchIndex.get q 0 ≤
        (α n).acked q ((r.state n).nodes p).term := by
      rw [GoMap.get]
      cases hlk : ((r.state n).nodes p).matchIndex.lookup q with
      | none => exact Nat.zero_le _
      | some v => exact ((hnode.leader hst).2.2.1 q v hlk).2
    refine ⟨?_, fun hq hT j hj e he ↦ ?_⟩
    · rw [hnode.log.lastIndex_eq, hnode.full_eq (hα.inv n) hst]
      exact hmatch.trans ((hα.inv n).safe.acked_le _ _)
    · exact hα.keeps_of_acked hp hq hT (hj.trans hmatch) ⟨hst, rfl⟩ he

/-- Node `2` acknowledges two entries of term `1` to node `1`. -/
theorem acknowledgement_sound_replicated :
    ∃ (r : Run threeNodes ReplicationGood) (n : ℕ), (r.state n).Leads 1 1 ∧
      ((r.state n).nodes 1).matchIndex.get 2 0 = 2 ∧ ((r.state n).nodes 2).term = 1 ∧
      ((r.state n).nodes 2).Keeps 2 { term := 1, index := 2, data := some [1] } := by
  let r : Run threeNodes ReplicationGood :=
    (Run.ofActions replicated replicated_admits).mono fun _ _ h ↦ h.1
  have hl : (r.state 17).Leads 1 1 := by decide +kernel
  have hm : ((r.state 17).nodes 1).matchIndex.get 2 0 = 2 := by decide +kernel
  have hT : ((r.state 17).nodes 2).term = 1 := by decide +kernel
  exact ⟨r, 17, hl, hm, hT, ((acknowledgement_sound r).2 17 1 (by decide) 1 hl 2).2 (by decide) hT 2
    hm.ge _ (by decide +kernel)⟩

/-- Node `1`, the leader of term `1`, keeps two entries to itself. It then receives a snapshot of
the first entry of term `2` and acknowledges its own last index. -/
def falseAck : List Action :=
  Action.elect 1 2 1 0 0 ++
  [Action.requestVote 1 3 1 0 0, .propose 1 (some [1]) 0, .propose 1 (some [2]) 0] ++
  Action.elect 3 2 2 0 0 ++
  [.append 3 2 2 0 0 0 [{ term := 2, index := 1 }], .ack 3 2 2 1, .snapshot 3 [],
    .propose 3 (some [3]) 0,
    .deliver { type := .snap, src := 3, dst := 1, term := 2
               snapshot := { metadata := { index := 1, term := 2 }, data := [] } } 0]

/-- Five nodes with the shortest timeouts. -/
def fiveNodes : Config :=
  { peers := [1, 2, 3, 4, 5], ids := [1, 2, 3, 4, 5], ids_sub := fun _ h ↦ h }

/-- `c` times out and is elected in `T` by five nodes with the votes of `v` and `w`. -/
def Action.electFive (c v w T : ℕ) : List Action :=
  timeout c ++ probe c v T 0 0 ++ probe c w T 0 0 ++
  [requestVote c v T 0 0, voteResp c v T, requestVote c w T 0 0, voteResp c w T]

/-- Node `2` acknowledges index `2` to the leader of term `1` and then takes the entries of the
leader of term `2` instead. Node `1` has not heard of term `2`. -/
def staleProgress : List Action :=
  Action.electFive 1 2 4 1 ++
  [Action.requestVote 1 3 1 0 0, .propose 1 (some [1]) 0,
    .append 1 2 1 0 0 0 [{ term := 1, index := 1 }, { term := 1, index := 2, data := some [1] }],
    .ack 1 2 1 2] ++
  Action.electFive 3 4 5 2 ++
  [.propose 3 (some [2]) 0,
    .append 3 2 2 0 0 0 [{ term := 2, index := 1 }, { term := 2, index := 2, data := some [2] }]]

/-- An acknowledgement can be wrong when it is sent, and progress can be out of date even where all
acknowledgements are right. -/
theorem exists_unsound_acknowledgement :
    (¬∀ (cfg : Config) (r : AnyRun cfg) n m rnd x, r.event n = some (.deliver m rnd) →
      m.type = .app ∨ m.type = .snap → x ∈ (((r.state n).nodes m.dst).step rnd m).msgs →
      x.type = .appResp → x.reject = false → ∀ k, (r.state k).Leads m.src m.term →
      ∀ j ≤ x.index, ∀ e, ((r.state k).nodes m.src).log.storage.log.lookup j = some e →
      ((r.state (n + 1)).nodes m.dst).Keeps j e) ∧
    ¬∀ (cfg : Config) (r : Run cfg ReplicationGood) (n : ℕ), ∀ p ∈ cfg.ids, ∀ T,
      (r.state n).Leads p T → ∀ q ∈ cfg.ids, ∀ j ≤ ((r.state n).nodes p).matchIndex.get q 0, ∀ e,
      ((r.state n).nodes p).log.storage.log.lookup j = some e →
      ((r.state n).nodes q).Keeps j e := by
  refine ⟨fun h ↦ ?_, fun h ↦ ?_⟩
  · have hadm : (Cluster.init threeNodes).Admits threeNodes (fun _ _ ↦ True) falseAck := by
      decide +kernel
    have := h threeNodes (Run.ofActions _ hadm) 35
      { type := .snap, src := 3, dst := 1, term := 2
        snapshot := { metadata := { index := 1, term := 2 }, data := [] } } 0
      { type := .appResp, src := 1, dst := 3, term := 2, index := 3 } rfl (Or.inr rfl)
    simp only [Run.ofActions_state] at this
    have := this (by decide +kernel) trivial trivial 36 (by decide +kernel) 2 (by decide)
      { term := 2, index := 2, data := some [3] } (by decide +kernel)
    exact absurd this (by decide +kernel)
  · have hadm : (Cluster.init fiveNodes).Admits fiveNodes ReplicationGood staleProgress := by
      decide +kernel
    have := h fiveNodes (Run.ofActions _ hadm) 42 1 (by decide) 1
    simp only [Run.ofActions_state] at this
    have := this (by decide +kernel) 2 (by decide) 2 (by decide +kernel)
      { term := 1, index := 2, data := some [1] } (by decide +kernel)
    exact absurd this (by decide +kernel)

end DucklingDB.Raft
