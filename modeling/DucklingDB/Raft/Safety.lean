import DucklingDB.Raft.Replication

/-!
# Safety of replication

A run that meets `ReplicationGood` has a shadow: a run of the abstract machine that each of its
states refines. What the machine guarantees about the logs of one state and of different times is
then read off the shadow.

* `log_matching`: logs that agree in the term of an entry agree up to there, and terms do not
  decrease.
* `leader_completeness`: what a leader has committed is in the log of every leader of a later term.
* `state_machine_safety`: no two entries handed out for one index differ, if no stale entry is
  handed out.

Without the conditions all three fail. `overwritten` is a run in which a leftover of a replaced log
does the damage.
-/

namespace DucklingDB.Raft

open Consensus (State Inv Extends DecidedAt Supported)

/-! ## The shadow of a run -/

section Shadow

variable {cfg : Config}

/-- The states `α` are refined along the run. -/
structure Shadow (r : Run cfg ReplicationGood) (α : ℕ → State NodeId Entry) : Prop where
  zero : α 0 = State.init
  refines : ∀ n, Refines True cfg (r.state n) (α n)
  idle : ∀ n, r.event n = none → α (n + 1) = α n
  next : ∀ n a, r.event n = some a →
    Simulated True cfg a (r.state n) (r.state (n + 1)) (α n) (α (n + 1))

/-- **Every run has a shadow.** -/
theorem Run.exists_shadow (r : Run cfg ReplicationGood) : ∃ α, Shadow r α := by
  have step : ∀ n (A : { A // Refines True cfg (r.state n) A }),
      ∃ A' : { A // Refines True cfg (r.state (n + 1)) A }, (r.event n = none → A'.1 = A.1) ∧
        ∀ a, r.event n = some a → Simulated True cfg a (r.state n) (r.state (n + 1)) A.1 A'.1 := by
    intro n A
    cases he : r.event n with
    | none => exact ⟨⟨A.1, (r.idle n he).symm ▸ A.2⟩, fun _ ↦ rfl, fun a ha ↦ by cases ha⟩
    | some a =>
      obtain ⟨hact, hgood⟩ := r.next n a he
      obtain ⟨A', hA'⟩ := A.2.act hact hgood
      refine ⟨⟨A', hA'.refines⟩, (fun h ↦ by cases h), fun b hb ↦ ?_⟩
      cases hb
      exact hA'
  choose f hidle hnext using step
  let α : (n : ℕ) → { A // Refines True cfg (r.state n) A } := fun n ↦
    Nat.rec ⟨State.init, r.zero ▸ refines_init cfg⟩ (fun n A ↦ f n A) n
  exact ⟨fun n ↦ (α n).1, rfl, fun n ↦ (α n).2, fun n ↦ hidle n (α n), fun n ↦ hnext n (α n)⟩

variable {r : Run cfg ReplicationGood} {α : ℕ → State NodeId Entry} {i j n : ℕ} {p : NodeId} {T : ℕ}

section

variable (h : Shadow r α)
include h

theorem Shadow.extends (hij : i ≤ j) : Extends (α i) (α j) := by
  induction j, hij using Nat.le_induction with
  | base => exact .refl _
  | succ j _ ih =>
    cases he : r.event j with
    | none => exact (h.idle j he).symm ▸ ih
    | some a => exact ih.trans (h.next j a he).ext

theorem Shadow.inv (n : ℕ) : Inv (quorums cfg.peers) (α n) := (h.refines n).inv

/-- The log of a leader is the leader log of its term. -/
theorem Shadow.of_leads (hp : p ∈ cfg.ids) (hl : (r.state n).Leads p T) :
    (α n).leader T = some p ∧ (α n).log p = (α n).full T := by
  obtain ⟨hst, rfl⟩ := hl
  have hnode := (h.refines n).node p hp
  exact ⟨(hnode.leader hst).1, hnode.full_eq (h.inv n) hst⟩

/-- A leader log was the log of its leader at some time. -/
theorem Shadow.exists_leads (hl : (α n).leader T = some p) :
    ∃ k ≤ n, (r.state k).Leads p T ∧ p ∈ cfg.ids ∧ (α n).full T = (α k).full T := by
  induction n with
  | zero =>
    rw [h.zero] at hl
    cases hl
  | succ n ih =>
    -- what is unchanged was the log of the leader before
    have hkeep : (α (n + 1)).full T = (α n).full T → (α (n + 1)).leader T = (α n).leader T →
        ∃ k ≤ n + 1, (r.state k).Leads p T ∧ p ∈ cfg.ids ∧ (α (n + 1)).full T = (α k).full T := by
      intro hfull hlead
      obtain ⟨k, hk, hlk, hp, heq⟩ := ih (hlead ▸ hl)
      exact ⟨k, hk.trans (Nat.le_succ n), hlk, hp, hfull.trans heq⟩
    cases he : r.event n with
    | none => exact hkeep (by rw [h.idle n he]) (by rw [h.idle n he])
    | some a =>
      rcases (h.next n a he).leads T with ⟨hfull, hlead⟩ | ⟨q, hq, hlq⟩
      · exact hkeep hfull hlead
      · have hqp : q = p := Option.mem_unique (h.of_leads hq hlq).1 hl
        subst hqp
        exact ⟨n + 1, le_rfl, hlq, hq, rfl⟩

end

end Shadow

/-! ## Physical entries -/

section Physical

variable {cfg : Config} {A : State NodeId Entry} {c : Cluster} {p : NodeId} {i : ℕ} {e : Entry}

/-- Node `rn` has `e` at index `i`, or a snapshot in its place. -/
def RawNode.Keeps (rn : RawNode) (i : ℕ) (e : Entry) : Prop :=
  rn.log.storage.log.lookup i = some e ∨
    rn.log.storage.log.lookup i = none ∧ i ≤ rn.log.storage.loadSnapshotMeta.index

instance (rn : RawNode) (i : ℕ) (e : Entry) : Decidable (rn.Keeps i e) :=
  inferInstanceAs (Decidable (_ ∨ _))

section

variable (h : Refines True cfg c A) (hp : p ∈ cfg.ids)
include h hp

theorem Refines.holds : (c.nodes p).log.storage.Holds (A.log p) :=
  (h.node p hp).log.holds (h.unstable p hp)

theorem Refines.lookup (he : (c.nodes p).log.storage.log.lookup i = some e) :
    1 ≤ i ∧ (A.log p)[i - 1]? = some e := (h.holds hp).lookup (.inl trivial) he

theorem Refines.keeps (hi : 1 ≤ i) (he : (A.log p)[i - 1]? = some e) : (c.nodes p).Keeps i e := by
  have hs := h.holds hp
  cases hlk : (c.nodes p).log.storage.log.lookup i with
  | some x =>
    have := (hs.lookup (.inl trivial) hlk).2.symm.trans he
    exact .inl (hlk.trans this)
  | none =>
    refine .inr ⟨hlk, ?_⟩
    by_contra hlt
    have hlen := (List.getElem?_eq_some_iff.mp he).1
    obtain ⟨x, hx⟩ := hs.present (not_le.mp hlt) (by omega)
    rw [hlk] at hx
    cases hx

end

end Physical

/-! ## Two schedules -/

/-- The conditions of a run whose nodes apply the same entries. -/
def ApplyGood (c : Cluster) (a : Action) : Prop := ReplicationGood c a ∧ HandoutGood c a

instance (c : Cluster) : DecidablePred (ApplyGood c) := fun _ ↦ inferInstanceAs (Decidable (_ ∧ _))

/-- Node `1` leads term `1` and replicates two entries to node `2`, which commits them and is then
elected in term `2`. -/
def replicated : List Action :=
  Action.elect 1 2 1 0 0 ++
  [.propose 1 (some [1]) 0,
    .append 1 2 1 0 0 0 [{ term := 1, index := 1 }, { term := 1, index := 2, data := some [1] }],
    .ack 1 2 1 2, .propose 1 (some [2]) 0,
    .append 1 2 1 2 1 2 [{ term := 1, index := 3, data := some [2] }]] ++
  Action.elect 2 3 2 3 1

/-- Node `1`, the leader of term `1`, keeps two entries to itself. Node `3` leads term `2` and
replaces the first two entries of node `1`, the third stays behind. An entry of term `2` is thus
committed at index `2`, but the log of node `1` seems to end in term `1`, and it votes in term `3`
for node `2`, which has not got that entry. -/
def overwritten : List Action :=
  Action.elect 1 2 1 0 0 ++
  [Action.requestVote 1 3 1 0 0, .propose 1 (some [1]) 0, .propose 1 (some [2]) 0] ++
  Action.elect 3 2 2 0 0 ++
  [.append 3 1 2 0 0 0 [{ term := 2, index := 1 }], .ack 3 1 2 1, .propose 3 (some [3]) 0,
    .append 3 1 2 1 2 1 [{ term := 2, index := 2, data := some [3] }], .ack 3 1 2 2,
    .append 3 2 2 0 0 0 [{ term := 2, index := 1 }]] ++
  Action.timeout 1 ++ Action.elect 2 1 3 1 2 ++
  [.append 2 1 3 1 2 0 [{ term := 3, index := 2 }], .ack 2 1 3 2]

theorem replicated_admits : (Cluster.init threeNodes).Admits threeNodes ApplyGood replicated := by
  decide +kernel

theorem overwritten_admits :
    (Cluster.init threeNodes).Admits threeNodes (fun _ _ ↦ True) overwritten := by decide +kernel

/-! ## Log matching -/

theorem Refines.term_mono {cfg : Config} {c : Cluster} {A : State NodeId Entry} {p : NodeId}
    (h : Refines True cfg c A) (hp : p ∈ cfg.ids) {i j t u : ℕ} (hij : i ≤ j)
    (hi : (c.nodes p).log.term i = .ok t) (hj : (c.nodes p).log.term j = .ok u) : t ≤ u := by
  have hlive := (h.node p hp).log
  by_cases h0 : i = 0
  · subst h0
    have : t = 0 := by simpa [RaftLog.term] using hi.symm
    omega
  · obtain ⟨x, hx, rfl⟩ := hlive.of_term hi (by omega)
    obtain ⟨y, hy, rfl⟩ := hlive.of_term hj (by omega)
    -- the log up to `y` is a part of the log of the leader who created `y`
    obtain ⟨hlead, tail, htail⟩ := h.inv.logs.log_supported p _ y hy
    refine h.inv.logs.full_term_le h.inv.records hlead x ?_
    rw [← htail]
    refine List.mem_append_left _ (List.mem_of_getElem? (i := i - 1) ?_)
    rw [List.getElem?_take_of_lt (by omega), hx]

/-- **Log matching.** In every state of a run without leftovers, stale acknowledgements and
forgotten votes: two nodes that know the same term for an index have the same entries up to there,
as far as they still have them; and the terms of each log do not decrease. -/
theorem log_matching {cfg : Config} (r : Run cfg ReplicationGood) (n : ℕ) :
    (∀ p ∈ cfg.ids, ∀ q ∈ cfg.ids, ∀ i t,
      ((r.state n).nodes p).log.term i = .ok t → ((r.state n).nodes q).log.term i = .ok t →
      ∀ j ≤ i, ∀ e e', ((r.state n).nodes p).log.storage.log.lookup j = some e →
        ((r.state n).nodes q).log.storage.log.lookup j = some e' → e = e') ∧
    ∀ p ∈ cfg.ids, ∀ i j t u, i ≤ j → ((r.state n).nodes p).log.term i = .ok t →
      ((r.state n).nodes p).log.term j = .ok u → t ≤ u := by
  obtain ⟨α, hα⟩ := r.exists_shadow
  have h := hα.refines n
  refine ⟨?_, fun p hp i j t u hij hi hj ↦ h.term_mono hp hij hi hj⟩
  intro p hp q hq i t htp htq j hji e e' he he'
  obtain ⟨hj, hget⟩ := h.lookup hp he
  obtain ⟨-, hget'⟩ := h.lookup hq he'
  obtain ⟨x, hx, hxt⟩ := (h.node p hp).log.of_term htp (by omega)
  obtain ⟨y, hy, hyt⟩ := (h.node q hq).log.of_term htq (by omega)
  have htake := (h.inv.logs.log_supported p).take_eq (h.inv.logs.log_supported q) hx hy
    (hxt.trans hyt.symm)
  rw [← List.getElem?_take_of_lt (show j - 1 < i - 1 + 1 by omega), htake,
    List.getElem?_take_of_lt (by omega)] at hget
  exact Option.mem_unique hget hget'

/-- After the first append nodes `1` and `2` agree on index `2`, and so on index `1`. -/
theorem log_matching_replicated :
    ∃ (r : Run threeNodes ReplicationGood) (n : ℕ),
      ((r.state n).nodes 1).log.term 2 = .ok 1 ∧ ((r.state n).nodes 2).log.term 2 = .ok 1 ∧
      (∃ e, ((r.state n).nodes 1).log.storage.log.lookup 1 = some e) ∧
      ∀ e e', ((r.state n).nodes 1).log.storage.log.lookup 1 = some e →
        ((r.state n).nodes 2).log.storage.log.lookup 1 = some e' → e = e' := by
  let r : Run threeNodes ReplicationGood :=
    (Run.ofActions replicated replicated_admits).mono fun _ _ h ↦ h.1
  have h₁ : ((r.state 16).nodes 1).log.term 2 = .ok 1 := by decide +kernel
  have h₂ : ((r.state 16).nodes 2).log.term 2 = .ok 1 := by decide +kernel
  refine ⟨r, 16, h₁, h₂, ⟨{ term := 1, index := 1 }, by decide +kernel⟩, fun e e' he he' ↦ ?_⟩
  exact (log_matching r 16).1 1 (by decide) 2 (by decide) 2 1 h₁ h₂ 1 (by decide) e e' he he'

theorem exists_decreasing_terms :
    ¬∀ (cfg : Config) (r : AnyRun cfg) (n : ℕ), ∀ p ∈ cfg.ids, ∀ i j t u, i ≤ j →
      ((r.state n).nodes p).log.term i = .ok t → ((r.state n).nodes p).log.term j = .ok u →
      t ≤ u := by
  intro h
  have := h threeNodes (Run.ofActions _ overwritten_admits) 32 1 (by decide) 1 2 2 1 (by decide)
  rw [Run.ofActions_state] at this
  exact absurd (this (by decide +kernel) (by decide +kernel)) (by decide)

/-! ## Leader completeness -/

/-- **Leader completeness.** A leader of `T` that has committed index `i`, and has `e` there at some
time of its leadership, is followed by leaders that all have `e` at `i`, or a snapshot in its
place. -/
theorem leader_completeness {cfg : Config} (r : Run cfg ReplicationGood) {k l m : ℕ} {p q : NodeId}
    {T U i : ℕ} {e : Entry} (hp : p ∈ cfg.ids) (hq : q ∈ cfg.ids) (hk : (r.state k).Leads p T)
    (hcommit : i ≤ ((r.state k).nodes p).log.committed) (hm : (r.state m).Leads p T)
    (he : ((r.state m).nodes p).log.storage.log.lookup i = some e)
    (hl : (r.state l).Leads q U) (hTU : T < U) : ((r.state l).nodes q).Keeps i e := by
  obtain ⟨α, hα⟩ := r.exists_shadow
  -- everything is compared at a time after all others
  set N := max k (max l m) with hN
  have hkN := hα.extends (show k ≤ N by omega)
  have hlN := hα.extends (show l ≤ N by omega)
  have hmN := hα.extends (show m ≤ N by omega)
  obtain ⟨hleadk, hlogk⟩ := hα.of_leads hp hk
  obtain ⟨hleadm, hlogm⟩ := hα.of_leads hp hm
  obtain ⟨hleadl, hlogl⟩ := hα.of_leads hq hl
  obtain ⟨hi, hget⟩ := (hα.refines m).lookup hp he
  have hnode := (hα.refines k).node p hp
  -- the entry is in the leader log, and decided
  have hfull : ((α N).full T)[i - 1]? = some e := by
    obtain ⟨t, ht⟩ := hmN.full (T := T) (by rw [hleadm]; rfl)
    rw [← ht, ← hlogm, List.getElem?_append_left (List.getElem?_eq_some_iff.mp hget).1, hget]
  have hlen : i - 1 < ((α k).log p).length := by
    have := hnode.log.committed_le
    omega
  obtain ⟨x, hx⟩ : ∃ x, ((α k).log p)[i - 1]? = some x := ⟨_, List.getElem?_eq_getElem hlen⟩
  have hxe : x = e := by
    obtain ⟨t, ht⟩ := hkN.full (T := T) (by rw [hleadk]; rfl)
    rw [← ht, ← hlogk, List.getElem?_append_left hlen, hx] at hfull
    exact Option.some.inj hfull
  subst hxe
  obtain ⟨V, c, hch, hb, hV, hc, tail, htail⟩ := (hα.inv k).safe.commit_chosen p (by
    rw [hnode.commit]
    omega)
  obtain ⟨hleadV, hcV⟩ := (hα.inv k).chosen_leader hch (by omega)
  rw [hnode.commit] at hc htail
  have hVx : ((α k).full V)[i - 1]? = some x := by
    rwa [← htail, List.getElem?_append_left (by rw [List.length_take]; omega),
      List.getElem?_take_of_lt (by omega)] at hx
  have hVxN : ((α N).full V)[i - 1]? = some x := by
    obtain ⟨t, ht⟩ := hkN.full hleadV
    rw [← ht, List.getElem?_append_left (List.getElem?_eq_some_iff.mp hVx).1, hVx]
  -- so it is in what the later leader started from
  have hVU : V < U := by
    rw [hnode.term, hk.2] at hV
    omega
  have hbase := (hα.inv N).safe.complete (T := V) (U := U) (n := c)
    (hlN.leader_isSome (by rw [hleadl]; rfl)) hVU (by rwa [hkN.base hleadV])
    (hkN.chosen hch).choosable
  rw [hlN.base (by rw [hleadl]; rfl)] at hbase
  obtain ⟨t, ht⟩ := hbase.trans ((hα.inv l).logs.base_full (by rw [hleadl]; rfl))
  refine (hα.refines l).keeps hq hi ?_
  have hlt := (List.getElem?_eq_some_iff.mp hVxN).1
  rw [hlogl, ← ht, List.getElem?_append_left (by rw [List.length_take]; omega),
    List.getElem?_take_of_lt (by omega), hVxN]

/-- Node `2` leads term `2` with the entry that node `1` committed in term `1`. -/
theorem leader_completeness_replicated :
    ∃ (r : Run threeNodes ReplicationGood) (k l : ℕ), (r.state k).Leads 1 1 ∧
      2 ≤ ((r.state k).nodes 1).log.committed ∧ (r.state l).Leads 2 2 ∧
      ((r.state l).nodes 2).Keeps 2 { term := 1, index := 2, data := some [1] } := by
  let r : Run threeNodes ReplicationGood :=
    (Run.ofActions replicated replicated_admits).mono fun _ _ h ↦ h.1
  have hk : (r.state 17).Leads 1 1 := by decide +kernel
  have hc : 2 ≤ ((r.state 17).nodes 1).log.committed := by decide +kernel
  have hl : (r.state 33).Leads 2 2 := by decide +kernel
  exact ⟨r, 17, 33, hk, hc, hl, leader_completeness r (by decide) (by decide) hk hc hk
    (by decide +kernel) hl (by decide)⟩

theorem exists_lost_entry :
    ¬∀ (cfg : Config) (r : AnyRun cfg) (k l m : ℕ) (p q : NodeId) (T U i : ℕ) (e : Entry),
      p ∈ cfg.ids → q ∈ cfg.ids → (r.state k).Leads p T →
      i ≤ ((r.state k).nodes p).log.committed → (r.state m).Leads p T →
      ((r.state m).nodes p).log.storage.log.lookup i = some e → (r.state l).Leads q U →
      T < U → ((r.state l).nodes q).Keeps i e := by
  intro h
  have := h threeNodes (Run.ofActions _ overwritten_admits) 36 61 36 3 2 2 3 2
    { term := 2, index := 2, data := some [3] } (by decide) (by decide)
  simp only [Run.ofActions_state] at this
  exact absurd (this (by decide +kernel) (by decide +kernel) (by decide +kernel) (by decide +kernel)
    (by decide +kernel) (by decide)) (by decide +kernel)

/-! ## Leaders only append -/

/-- **Leader append-only.** What a leader's storage has at an index, the leader keeps there for as
long as it leads the term. -/
theorem leader_append_only (r : Run cfg ReplicationGood) {k m T i : ℕ} {p : NodeId} {e : Entry}
    (hp : p ∈ cfg.ids) (hkm : k ≤ m) (hk : (r.state k).Leads p T) (hm : (r.state m).Leads p T)
    (he : ((r.state k).nodes p).log.storage.log.lookup i = some e) :
    ((r.state m).nodes p).Keeps i e := by
  obtain ⟨α, hα⟩ := r.exists_shadow
  obtain ⟨hlead, hlog⟩ := hα.of_leads hp hk
  obtain ⟨-, hlog'⟩ := hα.of_leads hp hm
  obtain ⟨hi, hget⟩ := (hα.refines k).lookup hp he
  obtain ⟨t, ht⟩ := (hα.extends hkm).full (T := T) (by rw [hlead]; rfl)
  refine (hα.refines m).keeps hp hi ?_
  rw [hlog', ← ht, ← hlog, List.getElem?_append_left (List.getElem?_eq_some_iff.mp hget).1, hget]

/-- The run in which the entries of node `1` get to node `2`. -/
def replicatedRun : Run threeNodes ReplicationGood := .ofActions replicated (by decide +kernel)

/-- Node `1` keeps its second entry while it replicates it and proposes the next one. -/
theorem leader_append_only_replicated : (replicatedRun.state 15).Leads 1 1 ∧
    (replicatedRun.state 19).Leads 1 1 ∧
      ((replicatedRun.state 19).nodes 1).Keeps 2 { term := 1, index := 2, data := some [1] } := by
  have hk : (replicatedRun.state 15).Leads 1 1 := by decide +kernel
  have hm : (replicatedRun.state 19).Leads 1 1 := by decide +kernel
  exact ⟨hk, hm, leader_append_only replicatedRun (by decide) (by decide) hk hm (by decide +kernel)⟩

/-! ## State machine safety -/

theorem Shadow.emitted {cfg : Config} {r : Run cfg ReplicationGood} {α : ℕ → State NodeId Entry}
    (h : Shadow r α) (hgood : ∀ n a, r.event n = some a → HandoutGood (r.state n) a) (n : ℕ) :
    ∀ x ∈ (r.state n).emitted, EntryDecided cfg.peers (α n) x.2 := by
  induction n with
  | zero =>
    rw [r.zero]
    rintro _ ⟨⟩
  | succ n ih =>
    intro x hx
    cases he : r.event n with
    | none =>
      rw [r.idle n he] at hx
      rw [h.idle n he]
      exact ih x hx
    | some a =>
      rcases (h.next n a he).handout (hgood n a he) x hx with hx | hx
      · exact ⟨(ih x hx).1, (ih x hx).2.extends (h.inv n) (h.next n a he).ext⟩
      · exact hx

/-- **State machine safety.** In every run that meets the conditions, the entries handed out for one
index are the same, at all nodes and all times. -/
theorem state_machine_safety {cfg : Config} (r : Run cfg ApplyGood) {i j : ℕ} {p q : NodeId}
    {e e' : Entry} (he : (p, e) ∈ (r.state i).emitted) (he' : (q, e') ∈ (r.state j).emitted)
    (hidx : e.index = e'.index) : e = e' := by
  let r' : Run cfg ReplicationGood := r.mono fun _ _ h ↦ h.1
  obtain ⟨α, hα⟩ := r'.exists_shadow
  have hgood : ∀ n a, r'.event n = some a → HandoutGood (r'.state n) a := fun n a ha ↦
    (r.next n a ha).2.2
  have h := (hα.emitted hgood i _ he).2.extends (hα.inv i) (hα.extends (le_max_left i j))
  have h' := (hα.emitted hgood j _ he').2.extends (hα.inv j) (hα.extends (le_max_right i j))
  rw [← hidx] at h'
  exact h.unique (hα.inv _) h'

/-- Nodes `1` and `2` both hand out index `2`. -/
theorem state_machine_safety_replicated :
    ∃ (r : Run threeNodes ApplyGood) (n : ℕ),
      (1, ({ term := 1, index := 2, data := some [1] } : Entry)) ∈ (r.state n).emitted ∧
      (∃ e, (2, e) ∈ (r.state n).emitted ∧ e.index = 2) ∧
      ∀ e, (2, e) ∈ (r.state n).emitted → e.index = 2 →
        e = { term := 1, index := 2, data := some [1] } := by
  let r : Run threeNodes ApplyGood := Run.ofActions replicated replicated_admits
  have h₁ : (1, ({ term := 1, index := 2, data := some [1] } : Entry)) ∈ (r.state 19).emitted := by
    decide +kernel
  have h₂ : (2, ({ term := 1, index := 2, data := some [1] } : Entry)) ∈ (r.state 19).emitted := by
    decide +kernel
  exact ⟨r, 19, h₁, ⟨_, h₂, rfl⟩, fun e he hidx ↦ state_machine_safety r he h₁ hidx⟩

theorem exists_two_applied :
    ¬∀ (cfg : Config) (r : AnyRun cfg) (i j : ℕ) (p q : NodeId) (e e' : Entry),
      (p, e) ∈ (r.state i).emitted → (q, e') ∈ (r.state j).emitted → e.index = e'.index →
      e.term = e'.term ∧ e.data = e'.data := by
  intro h
  have := h threeNodes (Run.ofActions _ overwritten_admits) 63 63 3 2
    { term := 2, index := 2, data := some [3] } { term := 3, index := 2 }
  simp only [Run.ofActions_state] at this
  exact absurd (this (by decide +kernel) (by decide +kernel) (by decide)).1 (by decide)

end DucklingDB.Raft
