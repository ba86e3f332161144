import DucklingDB.KvServer.Replica
import DucklingDB.Raft.Run
import DucklingDB.Raft.Shape

/-!
# What an answered proposal means

A replica answers a proposal when it applies the entry at the index under which the proposal is
filed. The proposal was filed there by position: the loop hands proposals to the `RawNode` one at a
time and files each under the next entry with a payload that becomes unstable. Nothing ties the
entry to the proposal, and two things can separate them. The `RawNode` may ignore a proposal because
it no longer leads; the proposal then takes the next entry that arrives, whoever made it. And a
later leader may put another entry at the index.

`ProposalGood` excludes both. Under it the entry that answers a proposal is the one that was
appended for it (`proposal_answered`). Without it, it need not be (`exists_foreign_answer`).
-/

namespace DucklingDB.KvServer

open Raft LSMLogStorage List AList

variable {σ : Type} {sm : StateMachine σ}

/-! ## The loops of `handleReady` -/

namespace Replica

/-- What applying entries leaves alone, and what it adds to the histories. `fits` is a condition
that holds between an entry and the proposal filed under its index. -/
structure Applies (fits : Proposal → Entry → Prop) (es : List Entry) (r r' : Replica σ) : Prop where
  rn : r'.rn = r.rn
  waiting : r'.waiting = r.waiting
  propc : r'.propc = r.propc
  props : r'.pendingProps = r.pendingProps
  lastSnap : r'.lastSnapIndex = r.lastSnapIndex
  pending : ∀ {i prop}, r'.pending.lookup i = some prop → r.pending.lookup i = some prop
  results : ∀ q ∈ r'.results, q ∈ r.results ∨ fits q.1 q.2.entry ∧ q.2 ∈ r'.applied
  applied : ∀ o ∈ r'.applied, o ∈ r.applied ∨ o.entry ∈ es
  keeps : ∀ o ∈ r.applied, o ∈ r'.applied

variable {fits : Proposal → Entry → Prop}

theorem applies_applyEntry (r : Replica σ) (e : Entry)
    (h : ∀ prop, r.pending.lookup e.index = some prop → fits prop e) :
    Applies fits [e] r (r.applyEntry sm e) := by
  have happ : ∀ o ∈ r.applied ++ [⟨e, (command sm r.engine e).2⟩], o ∈ r.applied ∨
      o.entry ∈ [e] := by
    intro o ho
    rcases mem_append.mp ho with ho | ho
    · exact .inl ho
    · rw [mem_singleton.mp ho]
      exact .inr (mem_singleton_self e)
  rw [applyEntry]
  split
  · exact ⟨rfl, rfl, rfl, rfl, rfl, fun h ↦ h, fun q hq ↦ .inl hq, happ,
      fun o ho ↦ mem_append_left _ ho⟩
  · rename_i prop hprop
    refine ⟨rfl, rfl, rfl, rfl, rfl, fun {i prop'} hi ↦ ?_, fun q hq ↦ ?_, happ,
      fun o ho ↦ mem_append_left _ ho⟩
    · by_cases hie : i = e.index
      · rw [hie, lookup_erase] at hi
        cases hi
      · rwa [lookup_erase_ne hie] at hi
    · rcases mem_append.mp hq with hq | hq
      · exact .inl hq
      · rw [mem_singleton.mp hq]
        exact .inr ⟨h prop hprop, mem_append_right _ (mem_singleton_self _)⟩

theorem applies_foldl (es : List Entry) (r : Replica σ)
    (h : ∀ e ∈ es, ∀ prop, r.pending.lookup e.index = some prop → fits prop e) :
    Applies fits es r (es.foldl (applyEntry sm) r) := by
  induction es generalizing r with
  | nil =>
    exact ⟨rfl, rfl, rfl, rfl, rfl, fun h ↦ h, fun q hq ↦ .inl hq, fun o ho ↦ .inl ho,
      fun o ho ↦ ho⟩
  | cons e es ih =>
    have h₁ : Applies fits [e] r (r.applyEntry sm e) := applies_applyEntry r e (h e (.head _))
    have h₂ := ih (r.applyEntry sm e) fun x hx prop hprop ↦
      h x (mem_cons_of_mem e hx) prop (h₁.pending hprop)
    rw [foldl_cons]
    refine ⟨h₂.rn.trans h₁.rn, h₂.waiting.trans h₁.waiting, h₂.propc.trans h₁.propc,
      h₂.props.trans h₁.props, h₂.lastSnap.trans h₁.lastSnap, fun hi ↦ h₁.pending (h₂.pending hi),
      fun q hq ↦ ?_, fun o ho ↦ ?_, fun o ho ↦ h₂.keeps o (h₁.keeps o ho)⟩
    · rcases h₂.results q hq with hq | hq
      · exact (h₁.results q hq).imp (fun h ↦ h) fun h ↦ ⟨h.1, h₂.keeps _ h.2⟩
      · exact .inr hq
    · rcases h₂.applied o ho with ho | ho
      · refine (h₁.applied o ho).imp (fun h ↦ h) fun h ↦ ?_
        rw [mem_singleton.mp h]
        exact (.head _)
      · exact .inr (mem_cons_of_mem e ho)

theorem foldl_file_nil (p : GoMap ℕ Proposal) (es : List Entry) :
    es.foldl file ([], p) = ([], p) := by
  induction es with
  | nil => rfl
  | cons e es ih => exact ih

end Replica

/-! ## Between iterations of the loop -/

/-- What holds of replica `id` between two iterations of its loop, after the given calls and with
the given entries appended for proposals. -/
structure Sound (calls : List (NodeId × Proposal)) (created : List (NodeId × Proposal × Entry))
    (id : NodeId) (r : Replica σ) : Prop where
  regular : r.rn.log.Regular
  unstable : r.rn.log.unstable = []
  msgs : ∀ m ∈ r.rn.msgs, m.WellNumbered
  props : r.pendingProps = []
  lastSnap : r.lastSnapIndex ≤ r.rn.log.storage.loadSnapshotMeta.index
  /-- A proposal is filed under a persisted index. -/
  filed : ∀ {i prop}, r.pending.lookup i = some prop → i ≤ r.rn.log.storage.lastIndex
  /-- The entry there was appended for it. -/
  fits : ∀ {x prop}, r.pending.lookup x.index = some prop →
    r.rn.log.storage.log.lookup x.index = some x → (id, prop, x) ∈ created
  results : ∀ q ∈ r.results, (id, q.1, q.2.entry) ∈ created ∧ q.2 ∈ r.applied
  applied : ∀ o ∈ r.applied, o.entry.index ≤ r.rn.log.committed
  created : ∀ {prop e}, (id, prop, e) ∈ created → e.index ≤ r.rn.log.storage.lastIndex
  queued : ∀ {prop}, prop ∈ r.waiting ∨ prop ∈ r.propc → (id, prop) ∈ calls

/-- An index of the storage or of an unstable entry. -/
def Reached (l : RaftLog) (i : ℕ) : Prop := i ≤ l.storage.lastIndex ∨ ∃ x ∈ l.unstable, x.index = i

/-- What holds of replica `id` when an iteration has come to `handleReady`. The proposals are
considered as they will be filed. -/
structure Due (calls : List (NodeId × Proposal)) (created : List (NodeId × Proposal × Entry))
    (id : NodeId) (r : Replica σ) : Prop where
  persistable : r.rn.log.Persistable
  msgs : ∀ m ∈ r.rn.msgs, m.WellNumbered
  props : (r.assign r.rn.log.unstable).pendingProps = []
  lastSnap : r.lastSnapIndex ≤ r.rn.log.storage.loadSnapshotMeta.index
  filed : ∀ {i prop}, (r.assign r.rn.log.unstable).pending.lookup i = some prop → Reached r.rn.log i
  fits : ∀ {x prop}, (r.assign r.rn.log.unstable).pending.lookup x.index = some prop →
    r.rn.log.storage.log.lookup x.index = some x ∨ x ∈ r.rn.log.unstable → (id, prop, x) ∈ created
  results : ∀ q ∈ r.results, (id, q.1, q.2.entry) ∈ created ∧ q.2 ∈ r.applied
  applied : ∀ o ∈ r.applied, o.entry.index ≤ r.rn.log.committed
  created : ∀ {prop e}, (id, prop, e) ∈ created → Reached r.rn.log e.index
  queued : ∀ {prop}, prop ∈ r.waiting ∨ prop ∈ r.propc → (id, prop) ∈ calls

section Invariant

variable {calls : List (NodeId × Proposal)} {created : List (NodeId × Proposal × Entry)}
  {id : NodeId} {r : Replica σ}

section

variable (h : Sound calls created id r)
include h

theorem Sound.mono {calls' : List (NodeId × Proposal)} {created' : List (NodeId × Proposal × Entry)}
    (hcalls : ∀ c ∈ calls, c ∈ calls') (hsub : ∀ c ∈ created, c ∈ created')
    (hown : ∀ {prop e}, (id, prop, e) ∈ created' → (id, prop, e) ∈ created) :
    Sound calls' created' id r :=
  { h with
    fits := fun hp hx ↦ hsub _ (h.fits hp hx)
    results := fun q hq ↦ ⟨hsub _ (h.results q hq).1, (h.results q hq).2⟩
    created := fun he ↦ h.created (hown he)
    queued := fun hp ↦ hcalls _ (h.queued hp) }

theorem Sound.setStorage {s : LSMLogStorage} {n : ℕ} (hs : r.rn.log.Grows (r.rn.setStorage s).log)
    (hn : n ≤ s.loadSnapshotMeta.index) :
    Sound calls created id { r with rn := r.rn.setStorage s, lastSnapIndex := n } where
  regular := hs.regular
  unstable := h.unstable
  msgs := h.msgs
  props := h.props
  lastSnap := hn
  filed hp := (h.filed hp).trans hs.last_eq.ge
  fits hp hx := h.fits hp (hs.lookup hx)
  results := h.results
  applied := h.applied
  created he := (h.created he).trans hs.last_eq.ge
  queued := h.queued

theorem Sound.createSnapshotOnLoop : Sound calls created id (r.createSnapshotOnLoop sm) := by
  rw [Replica.createSnapshotOnLoop]
  split
  · exact h
  · rename_i t ht
    split
    · exact h
    · rename_i h0
      have hpos : 0 < r.rn.log.applied := Nat.pos_of_ne_zero h0
      have hg := RawNode.createSnapshot_grows h.regular (sm.serialize r.engine)
      rw [RawNode.createSnapshot, ht] at hg ⊢
      simp only [if_neg h0] at hg ⊢
      refine h.setStorage hg ?_
      rw [compact_meta, saveSnapshot_meta hpos]

theorem Sound.maybeSnapshotAndCompact : Sound calls created id (r.maybeSnapshotAndCompact sm) := by
  have hcompact : ∀ r' : Replica σ, Sound calls created id r' → Sound calls created id { r' with
          rn := r'.rn.setStorage
            (r'.rn.log.storage.compact (r'.rn.compactableIndex r'.lastSnapIndex)) } := by
    intro r' h'
    have hle := (compactableIndex_le r'.rn r'.lastSnapIndex).trans h'.lastSnap
    refine h'.setStorage (RawNode.compact_grows h'.regular hle) ?_
    rw [compact_meta]
    exact h'.lastSnap
  rw [Replica.maybeSnapshotAndCompact]
  dsimp only
  split
  · split
    · exact h.createSnapshotOnLoop
    · split
      · exact hcompact _ h.createSnapshotOnLoop
      · exact h.createSnapshotOnLoop
  · split
    · exact h
    · split
      · exact hcompact _ h
      · exact h

/-! ## One iteration -/

/-- An event whose accepted entries, if any, respect the proposals that wait for their indices. -/
theorem Sound.acted {rn' : RawNode} {accepted : Entry → Prop} (ha : RawNode.Acted accepted r.rn rn')
    (hacc : ∀ x, accepted x → ∀ prop, r.pending.lookup x.index = some prop →
      (id, prop, x) ∈ created) :
    Due calls created id { r with rn := rn' } := by
  have hassign : { r with rn := rn' }.assign rn'.log.unstable = { r with rn := rn' } := by
    rw [Replica.assign]
    simp only [h.props, Replica.foldl_file_nil]
  refine ⟨ha.persistable, ha.numbered, ?_, h.lastSnap.trans ha.snap_le, fun hp ↦ ?_,
    fun {x prop} hp hx ↦ ?_, h.results, fun o ho ↦ (h.applied o ho).trans ha.commit_le,
    fun he ↦ .inl ((h.created he).trans ha.last_eq.ge), h.queued⟩
  · rw [hassign]
    exact h.props
  · rw [hassign] at hp
    exact .inl ((h.filed hp).trans ha.last_eq.ge)
  · rw [hassign] at hp
    rcases hx with hx | hx
    · exact h.fits hp (ha.lookup hx)
    · rcases ha.fresh x hx with hlt | hx
      · exact absurd (h.filed hp) (not_le.mpr hlt)
      · exact hacc x hx prop hp

theorem Sound.due : Due calls created id r := by
  have ha : RawNode.Acted (fun _ ↦ False) r.rn r.rn := .of_grows (.refl h.regular) h.msgs
  exact h.acted ha fun x hx ↦ hx.elim

theorem Sound.take {prop : Proposal} {rest : List Proposal} {d : Bytes}
    (hq : r.propc = prop :: rest) (hd : prop.data = some d) (hst : r.rn.state = .leader) (rnd : ℕ) :
    Due calls (created ++ [(id, prop, Replicas.proposedEntry r.rn prop)]) id { r with
        propc := rest, pendingProps := r.pendingProps ++ [prop]
        rn := r.rn.propose rnd prop.data } := by
  set e := Replicas.proposedEntry r.rn prop with he
  have hidx : e.index = r.rn.log.storage.lastIndex + 1 := by
    rw [he, Replicas.proposedEntry, h.regular.lastIndex_eq, h.unstable]
    rfl
  have hu : (r.rn.propose rnd prop.data).log.unstable = [e] :=
    RawNode.propose_unstable r.rn rnd prop.data hst h.unstable
  have ha := (Action.propose id prop.data rnd).apply_acted h.regular h.unstable h.msgs
    fun _ _ h ↦ by cases h
  simp only [Action.apply] at ha
  have hlast := ha.last_eq
  have hassign : ({ r with
      propc := rest, pendingProps := r.pendingProps ++ [prop]
      rn := r.rn.propose rnd prop.data } : Replica σ).assign [e] = { r with
        propc := rest, pendingProps := [], pending := AList.insert e.index prop r.pending
        rn := r.rn.propose rnd prop.data } := by
    have : e.data = some d := hd
    simp only [Replica.assign, foldl_cons, foldl_nil, h.props, nil_append, Replica.file, this]
  refine ⟨ha.persistable, ha.numbered, ?_, h.lastSnap.trans ha.snap_le, fun {i p} hp ↦ ?_,
    fun {x p} hp hx ↦ ?_, fun q hq' ↦ ?_, fun o ho ↦ (h.applied o ho).trans ha.commit_le,
    fun {p y} hy ↦ ?_, fun {p} hp ↦ h.queued (hp.imp (fun h ↦ h) fun hp ↦ ?_)⟩
  · rw [hu, hassign]
  · rw [hu, hassign] at hp
    by_cases hi : i = e.index
    · exact .inr ⟨e, by rw [hu]; exact mem_singleton_self e, hi.symm⟩
    · rw [lookup_insert_ne hi] at hp
      exact .inl ((h.filed hp).trans hlast.ge)
  · -- the new entry lies behind every persisted one
    rw [hu, hassign] at hp
    rw [hu, mem_singleton] at hx
    by_cases hi : x.index = e.index
    · rw [hi, lookup_insert] at hp
      cases hp
      rcases hx with hx | rfl
      · have := le_lastIndex (ha.lookup hx)
        omega
      · exact mem_append_right _ (mem_singleton_self _)
    · rw [lookup_insert_ne hi] at hp
      rcases hx with hx | rfl
      · exact mem_append_left _ (h.fits hp (ha.lookup hx))
      · exact absurd rfl hi
  · exact ⟨mem_append_left _ (h.results q hq').1, (h.results q hq').2⟩
  · rcases mem_append.mp hy with hy | hy
    · exact .inl ((h.created hy).trans hlast.ge)
    · cases mem_singleton.mp hy
      exact .inr ⟨e, by rw [hu]; exact mem_singleton_self e, rfl⟩
  · rw [hq]
    exact mem_cons_of_mem prop hp

end

/-- **An iteration of the loop keeps the invariant.** -/
theorem Due.handleReady (h : Due calls created id r) :
    Sound calls created id (r.handleReady sm) := by
  have hper := r.rn.handleReady_persisted h.persistable
  have hreads := h.persistable.reads_nextEntries
  have hreached : ∀ {i}, Reached r.rn.log i → i ≤ r.rn.handleReady.log.storage.lastIndex := by
    rintro i (hi | ⟨x, hx, rfl⟩)
    · exact hi.trans hper.last_le
    · exact hper.written x hx
  rw [Replica.handleReady]
  split <;> rename_i hready
  · dsimp only
    -- the replica when the committed entries are applied
    set r₁ : Replica σ := Replica.assign _ r.rn.ready.entries with hr₁
    have hpend : r₁.pending = (r.assign r.rn.log.unstable).pending := by
      rw [hr₁]
      split <;> rfl
    have hprops : r₁.pendingProps = (r.assign r.rn.log.unstable).pendingProps := by
      rw [hr₁]
      split <;> rfl
    have hrest : r₁.rn = r.rn ∧ r₁.waiting = r.waiting ∧ r₁.propc = r.propc ∧
        r₁.results = r.results ∧ r₁.applied = r.applied := by
      rw [hr₁]
      split <;> exact ⟨rfl, rfl, rfl, rfl, rfl⟩
    obtain ⟨hrn, hwait, hpropc, hres, happl⟩ := hrest
    have hsnap : r₁.lastSnapIndex ≤ r.rn.handleReady.log.storage.loadSnapshotMeta.index := by
      rw [hper.snap, hr₁]
      cases hp : r.rn.log.hasPendingSnapshot with
      | false =>
        rw [if_pos (by simp [RawNode.ready, hp, Snapshot.isEmpty])]
        exact h.lastSnap
      | true =>
        have hne : r.rn.log.pendingSnapshot.isEmpty = false := by
          simpa [RaftLog.hasPendingSnapshot] using hp
        simp [RawNode.ready, hp, hne, Replica.assign]
    obtain ⟨hrn', hwait', hpropc', hprops', hlast', hpend', hres', happl', hkeep'⟩ :
        Replica.Applies (fun prop x ↦ (id, prop, x) ∈ created) r.rn.ready.committedEntries r₁
          (r.rn.ready.committedEntries.foldl (Replica.applyEntry sm) r₁) :=
      Replica.applies_foldl _ r₁ fun x hx prop hprop ↦ h.fits (hpend ▸ hprop) (hreads.source x hx)
    set r₂ := r.rn.ready.committedEntries.foldl (Replica.applyEntry sm) r₁ with hr₂
    rw [hrn', hrn]
    refine Sound.maybeSnapshotAndCompact ⟨hper.regular, hper.unstable, fun m hm ↦ ?_, ?_, ?_,
      fun hp ↦ ?_, fun hp hx ↦ ?_, fun q hq ↦ ?_, fun o ho ↦ ?_, fun he ↦ hreached (h.created he),
      fun hp ↦ ?_⟩
    · cases hm
    · exact hprops'.trans (hprops.trans h.props)
    · exact hlast'.le.trans hsnap
    · exact hreached (h.filed (hpend ▸ hpend' hp))
    · exact h.fits (hpend ▸ hpend' hp) (hper.lookup hx)
    · rcases hres' q hq with hq | hq
      · rw [hres] at hq
        obtain ⟨hc, ha⟩ := h.results q hq
        exact ⟨hc, hkeep' _ (happl ▸ ha)⟩
      · exact hq
    · rw [hper.committed]
      rcases happl' o ho with ho | ho
      · exact h.applied o (happl ▸ ho)
      · exact Nat.lt_succ_iff.mp (hreads.lt _ ho)
    · rw [hwait', hwait, hpropc', hpropc] at hp
      exact h.queued hp
  · simp only [RawNode.hasReady, Bool.or_eq_true, decide_eq_true_eq, not_or, not_not] at hready
    obtain ⟨⟨⟨⟨⟨-, hp⟩, hu⟩, -⟩, -⟩, -⟩ := hready
    have hu : r.rn.log.unstable = [] := hu
    have hassign : r.assign r.rn.log.unstable = r := by rw [hu]; rfl
    have hreached : ∀ {i}, Reached r.rn.log i → i ≤ r.rn.log.storage.lastIndex := by
      rintro i (hi | ⟨x, hx, -⟩)
      · exact hi
      · rw [hu] at hx
        cases hx
    exact ⟨h.persistable.regular hu (by simpa using hp), hu, h.msgs, hassign ▸ h.props, h.lastSnap,
      fun hp ↦ hreached (h.filed (by rwa [hassign])),
      fun hp hx ↦ h.fits (by rwa [hassign]) (.inl hx), h.results, h.applied,
      fun he ↦ hreached (h.created he), h.queued⟩

end Invariant

/-! ## All replicas -/

/-- The condition on an event. A proposal is taken by a leader, it has a payload, and no other
replica has appended proposals in the term. An append that the replica accepts brings, at an index
that a proposal waits for, the entry that was appended for it. -/
def ProposalGood (s : Replicas σ) : Event → Prop
  | .take id _ =>
    (s.nodes id).rn.state = .leader ∧ (∀ prop ∈ (s.nodes id).propc.head?, prop.data ≠ none) ∧
      ∀ c ∈ s.created, c.2.2.term = (s.nodes id).rn.term → c.1 = id
  | .deliver m _ =>
    (s.nodes m.dst).rn.Accepts m → ∀ x ∈ m.entries,
      ∀ prop ∈ (s.nodes m.dst).pending.lookup x.index, (m.dst, prop, x) ∈ s.created
  | .tick _ _ | .call _ _ | .enqueue _ _ | .snapshot _ => True

instance (s : Replicas σ) (e : Event) : Decidable (ProposalGood s e) :=
  match e with
  | .take _ _ => inferInstanceAs (Decidable (_ ∧ _ ∧ _))
  | .deliver _ _ => inferInstanceAs (Decidable (_ → _))
  | .tick _ _ | .call _ _ | .enqueue _ _ | .snapshot _ => isTrue trivial

/-- Every event of the run that `es` describes meets the condition. -/
def ProposalsGood (cfg : Config) (sm : StateMachine σ) (s : Replicas σ) : List Event → Prop
  | [] => True
  | e :: es => ProposalGood s e ∧ ∀ s' ∈ s.act cfg sm e, ProposalsGood cfg sm s' es

instance (cfg : Config) (sm : StateMachine σ) : ∀ (s : Replicas σ) (es : List Event),
    Decidable (ProposalsGood cfg sm s es)
  | _, [] => isTrue trivial
  | _, _ :: es =>
    have : ∀ s', Decidable (ProposalsGood cfg sm s' es) := fun s' ↦
      instDecidableProposalsGood cfg sm s' es
    inferInstanceAs (Decidable (_ ∧ _))

/-- What holds of the messages and of the entries appended for proposals. -/
structure Recorded (s : Replicas σ) : Prop where
  net : ∀ m ∈ s.net, m.WellNumbered
  terms : ∀ c ∈ s.created, ∀ c' ∈ s.created, c.2.2.term = c'.2.2.term → c.1 = c'.1
  indices : ∀ c ∈ s.created, ∀ c' ∈ s.created, c.1 = c'.1 → c.2.2.index = c'.2.2.index → c = c'
  data : ∀ c ∈ s.created, c.2.2.data = c.2.1.data
  called : ∀ c ∈ s.created, (c.1, c.2.1) ∈ s.calls

/-- The invariant of the system. -/
structure Consistent (s : Replicas σ) : Prop extends Recorded s where
  node : ∀ id, Sound s.calls s.created id (s.nodes id)

theorem consistent_init (cfg : Config) (engine : σ) : Consistent (Replicas.init cfg engine) := by
  have hnil : ∀ {α : Type} {p : α → Prop} (a : α), a ∈ ([] : List α) → p a := fun _ h ↦ by cases h
  refine ⟨⟨hnil, hnil, hnil, hnil, hnil⟩, fun id ↦ ?_⟩
  exact ⟨RaftLog.regular_newRaftLog, rfl, hnil, rfl, le_rfl, (fun h ↦ by cases h),
    (fun h ↦ by cases h), hnil, hnil, (fun h ↦ by cases h),
    fun h ↦ by rcases h with h | h <;> cases h⟩

variable {cfg : Config} {s s' : Replicas σ} {id : NodeId} {r : Replica σ}

theorem Recorded.settle (h : Recorded s) (hdue : Due s.calls s.created id r)
    (hother : ∀ i, i ≠ id → Sound s.calls s.created i (s.nodes i)) :
    Consistent (s.settle sm id r) := by
  refine ⟨⟨fun m hm ↦ ?_, h.terms, h.indices, h.data, h.called⟩, fun i ↦ ?_⟩
  · rcases mem_append.mp hm with hm | hm
    · exact h.net m hm
    · exact hdue.msgs m hm
  · change Sound s.calls s.created i (if i = id then r.handleReady sm else s.nodes i)
    split <;> rename_i hi
    · rw [hi]
      exact hdue.handleReady
    · exact hother i hi

section

variable (h : Consistent s)
include h

theorem Consistent.set
    {calls : List (NodeId × Proposal)} (hcalls : ∀ c ∈ s.calls, c ∈ calls)
    (hr : Sound calls s.created id r) : Consistent { s.set id r with calls := calls } := by
  refine ⟨⟨h.net, h.terms, h.indices, h.data, fun c hc ↦ hcalls _ (h.called c hc)⟩, fun i ↦ ?_⟩
  change Sound calls s.created i (if i = id then r else s.nodes i)
  split
  · rename_i hi
    rw [hi]
    exact hr
  · exact (h.node i).mono hcalls (fun _ h ↦ h) fun h ↦ h

theorem Consistent.recorded_take {prop : Proposal}
    {rest : List Proposal} (hq : (s.nodes id).propc = prop :: rest)
    (hterm : ∀ c ∈ s.created, c.2.2.term = (s.nodes id).rn.term → c.1 = id) :
    Recorded { s with
      created := s.created ++ [(id, prop, Replicas.proposedEntry (s.nodes id).rn prop)] } := by
  set e := Replicas.proposedEntry (s.nodes id).rn prop with he
  have hnode := h.node id
  -- its index is new
  have hnew : ∀ c ∈ s.created, c.1 = id → c.2.2.index ≠ e.index := by
    rintro ⟨i, p, x⟩ hc rfl
    have hidx : e.index = (s.nodes i).rn.log.storage.lastIndex + 1 := by
      rw [he, Replicas.proposedEntry, hnode.regular.lastIndex_eq, hnode.unstable]
      rfl
    exact ((Nat.lt_succ_of_le (hnode.created hc)).trans_eq hidx.symm).ne
  refine ⟨h.net, fun c hc c' hc' ht ↦ ?_, fun c hc c' hc' hid hidx ↦ ?_, fun c hc ↦ ?_,
    fun c hc ↦ ?_⟩
  · rcases mem_append.mp hc with hc | hc <;> rcases mem_append.mp hc' with hc' | hc'
    · exact h.terms c hc c' hc' ht
    · rw [mem_singleton.mp hc'] at ht ⊢
      exact hterm c hc ht
    · rw [mem_singleton.mp hc] at ht ⊢
      exact (hterm c' hc' ht.symm).symm
    · rw [mem_singleton.mp hc, mem_singleton.mp hc']
  · rcases mem_append.mp hc with hc | hc <;> rcases mem_append.mp hc' with hc' | hc'
    · exact h.indices c hc c' hc' hid hidx
    · rw [mem_singleton.mp hc'] at hid hidx
      exact absurd hidx (hnew c hc hid)
    · rw [mem_singleton.mp hc] at hid hidx
      exact absurd hidx.symm (hnew c' hc' hid.symm)
    · rw [mem_singleton.mp hc, mem_singleton.mp hc']
  · rcases mem_append.mp hc with hc | hc
    · exact h.data c hc
    · rw [mem_singleton.mp hc]
      rfl
  · rcases mem_append.mp hc with hc | hc
    · exact h.called c hc
    · rw [mem_singleton.mp hc]
      exact hnode.queued (.inr (by rw [hq]; exact (.head _)))

/-- **Every event that meets the condition keeps the invariant.** -/
theorem Consistent.act {e : Event} (hg : ProposalGood s e)
    (ha : s.act cfg sm e = some s') : Consistent s' := by
  rw [Replicas.act] at ha
  split at ha
  · cases e with
    | tick id rnd =>
      cases ha
      have hn := h.node id
      have hacted := (Action.tick id rnd).apply_acted hn.regular hn.unstable hn.msgs
        fun _ _ h ↦ by cases h
      refine h.settle (hn.acted hacted ?_) fun i _ ↦ h.node i
      rintro x ⟨m, ⟨rnd, hm⟩, -⟩
      cases hm
    | call id prop =>
      dsimp only at ha
      split at ha
      · cases ha
        have hn := h.node id
        have hcalls : ∀ c ∈ s.calls, c ∈ s.calls ++ [(id, prop)] := fun c hc ↦ mem_append_left _ hc
        refine h.set hcalls { hn.mono hcalls (fun _ h ↦ h) fun h ↦ h with queued := ?_ }
        rintro p (hp | hp)
        · rcases mem_cons.mp hp with rfl | hp
          · exact mem_append_right _ (mem_singleton_self _)
          · exact mem_append_left _ (hn.queued (.inl hp))
        · exact mem_append_left _ (hn.queued (.inr hp))
      · cases ha
    | enqueue id prop =>
      dsimp only at ha
      split at ha
      · rename_i hc
        cases ha
        have hn := h.node id
        refine h.set (fun _ hc ↦ hc) { hn with queued := ?_ }
        rintro p (hp | hp)
        · exact hn.queued (.inl (mem_of_mem_erase hp))
        · rcases mem_append.mp hp with hp | hp
          · exact hn.queued (.inr hp)
          · rw [mem_singleton.mp hp]
            exact hn.queued (.inl hc.1)
      · cases ha
    | take id rnd =>
      dsimp only [Event.node] at ha
      obtain ⟨hst, hdata, hterm⟩ := hg
      cases hq : (s.nodes id).propc with
      | nil => simp only [hq] at ha; cases ha
      | cons prop rest =>
        simp only [hq, if_pos hst] at ha
        cases ha
        obtain ⟨d, hd⟩ := Option.ne_none_iff_exists'.mp (hdata prop (by rw [hq]; rfl))
        refine (h.recorded_take hq hterm).settle ((h.node id).take hq hd hst rnd) fun i hi ↦ ?_
        refine (h.node i).mono (fun _ h ↦ h) (fun c hc ↦ mem_append_left _ hc) fun hc ↦ ?_
        rcases mem_append.mp hc with hc | hc
        · exact hc
        · cases mem_singleton.mp hc
          exact absurd rfl hi
    | deliver m rnd =>
      dsimp only [Event.node] at ha
      split at ha
      · rename_i hm
        cases ha
        have hn := h.node m.dst
        have hacted := (Action.deliver m rnd).apply_acted hn.regular hn.unstable hn.msgs
          fun _ _ heq ↦ by cases heq; exact h.net m hm
        refine h.settle (hn.acted hacted ?_) fun i _ ↦ h.node i
        rintro x ⟨m', ⟨rnd', heq⟩, hacc, hx⟩ prop hprop
        cases heq
        exact hg hacc x hx prop hprop
      · cases ha
    | snapshot id =>
      cases ha
      exact h.settle (h.node id).createSnapshotOnLoop.due fun i _ ↦ h.node i
  · cases ha

/-- The invariant holds throughout a run whose events meet the condition. -/
theorem Consistent.run {es : List Event} (hg : ProposalsGood cfg sm s es)
    (hr : s.run cfg sm es = some s') : Consistent s' := by
  induction es generalizing s with
  | nil =>
    cases hr
    exact h
  | cons e es ih =>
    obtain ⟨s₁, ha, hr⟩ := Option.bind_eq_some_iff.mp hr
    exact ih (h.act hg.1 ha) (hg.2 s₁ ha) hr

end

/-! ## Answered proposals -/

namespace Replicas

variable (s : Replicas σ)

/-- `Propose` returned `nil` for `prop` at replica `id`. -/
def ReturnedNil (id : NodeId) (prop : Proposal) : Prop :=
  ∃ o, (prop, o) ∈ (s.nodes id).results ∧ o.err = none

/-- An entry with exactly this data was committed, and applied without error, at replica `id`. -/
def AppliedData (id : NodeId) (data : Option Bytes) : Prop :=
  ∃ o ∈ (s.nodes id).applied,
    o.err = none ∧ o.entry.data = data ∧ o.entry.index ≤ (s.nodes id).rn.log.committed

/-- The entry `e` answered `prop` at replica `id`. -/
def Answered (id : NodeId) (prop : Proposal) (e : Entry) : Prop :=
  ∃ o, (prop, o) ∈ (s.nodes id).results ∧ o.entry = e

end Replicas

/-- **What an answered proposal means.** In a run whose events meet `ProposalGood`, a proposal for
which `Propose` returned `nil` was appended with its own data, and that entry was committed and
applied without error; and an entry answers no proposal but the one it was appended for. -/
theorem proposal_answered (cfg : Config) (sm : StateMachine σ) (engine : σ) (es : List Event)
    (hgood : ProposalsGood cfg sm (Replicas.init cfg engine) es)
    (hrun : (Replicas.init cfg engine).run cfg sm es = some s) :
    (∀ id prop, s.ReturnedNil id prop → s.AppliedData id prop.data) ∧
      ∀ id prop e, s.Answered id prop e → (id, prop, e) ∈ s.created ∧
        ∀ id' prop', (id', prop', e) ∈ s.created → id' = id ∧ prop' = prop := by
  have h := (consistent_init cfg engine).run hgood hrun
  constructor
  · rintro id prop ⟨o, ho, herr⟩
    obtain ⟨hc, ha⟩ := (h.node id).results _ ho
    exact ⟨o, ha, herr, h.data _ hc, (h.node id).applied o ha⟩
  · rintro id prop e ⟨o, ho, rfl⟩
    obtain ⟨hc, -⟩ := (h.node id).results _ ho
    refine ⟨hc, fun id' prop' hc' ↦ ?_⟩
    have hid : id' = id := h.terms _ hc' _ hc rfl
    have heq := h.indices _ hc' _ hc hid rfl
    cases heq
    exact ⟨rfl, rfl⟩

/-- The steps of a schedule at the nodes themselves. -/
def Event.ofActions (as : List Action) : List Event :=
  as.flatMap fun
    | .tick id rnd => [.tick id rnd]
    | .deliver m rnd => [.deliver m rnd]
    | .propose _ _ _ | .snapshot _ _ | .compact _ => []

/-- A state machine that keeps the payloads. -/
def journal : StateMachine (List Bytes) where
  batch log data := (log ++ [data], none)
  serialize := List.flatten
  install _ data := [data]

/-- Replica `1` leads and replicates a proposal to replica `2`. -/
def answeredProposal : List Event :=
  Event.ofActions (Action.elect 1 2 1 0 0) ++
  [.call 1 ⟨1, some [1]⟩, .enqueue 1 ⟨1, some [1]⟩, .take 1 0] ++
  Event.ofActions
    [.append 1 2 1 0 0 0 [{ term := 1, index := 1 }, { term := 1, index := 2, data := some [1] }],
      .ack 1 2 1 2]

theorem proposal_answered_replicated :
    ∃ s, (Replicas.init threeNodes []).run threeNodes journal answeredProposal = some s ∧
      s.ReturnedNil 1 ⟨1, some [1]⟩ ∧ s.AppliedData 1 (some [1]) := by
  have hgood : ProposalsGood threeNodes journal (Replicas.init threeNodes []) answeredProposal := by
    decide +kernel
  have hnil : ∃ s ∈ (Replicas.init threeNodes []).run threeNodes journal answeredProposal,
      (⟨1, some [1]⟩, ⟨⟨1, 2, some [1]⟩, none⟩) ∈ (s.nodes 1).results := by decide +kernel
  obtain ⟨s, hs, hmem⟩ := hnil
  have hnil : s.ReturnedNil 1 ⟨1, some [1]⟩ := ⟨_, hmem, rfl⟩
  exact ⟨s, hs, hnil, (proposal_answered _ _ _ _ hgood hs).1 1 _ hnil⟩

/-- Replica `1` leads term `1` and accepts a call of `Propose`. Before its loop takes the proposal,
replica `3` is elected in term `2` and replica `1` follows it. The `RawNode` of replica `1` ignores
the proposal; the next entry with a payload, proposed at replica `3`, answers it. -/
def foreignAnswer : List Event :=
  Event.ofActions (Action.elect 1 2 1 0 0 ++ [Action.requestVote 1 3 1 0 0]) ++
  [.call 1 ⟨1, some [1]⟩, .enqueue 1 ⟨1, some [1]⟩] ++
  Event.ofActions (Action.elect 3 2 2 0 0 ++
    [.append 3 1 2 0 0 0 [{ term := 2, index := 1 }], .ack 3 1 2 1]) ++
  [.take 1 0, .call 3 ⟨2, some [2]⟩, .enqueue 3 ⟨2, some [2]⟩, .take 3 0] ++
  Event.ofActions ([.append 3 1 2 1 2 1 [{ term := 2, index := 2, data := some [2] }],
    .ack 3 1 2 2] ++ List.replicate 3 (.tick 3 0) ++
    [.deliver { type := .heartbeat, src := 3, dst := 1, term := 2, commit := 2 } 0])

/-- `Propose` returns `nil` for data that no replica ever appended. -/
theorem exists_foreign_answer :
    ∃ s, (Replicas.init threeNodes []).run threeNodes journal foreignAnswer = some s ∧
      s.ReturnedNil 1 ⟨1, some [1]⟩ ∧ ¬ s.AppliedData 1 (some [1]) ∧
      s.Answered 1 ⟨1, some [1]⟩ ⟨2, 2, some [2]⟩ ∧
      (3, ⟨2, some [2]⟩, ⟨2, 2, some [2]⟩) ∈ s.created := by
  have hall : ∃ s ∈ (Replicas.init threeNodes []).run threeNodes journal foreignAnswer,
      (⟨1, some [1]⟩, ⟨⟨2, 2, some [2]⟩, none⟩) ∈ (s.nodes 1).results ∧
      (∀ o ∈ (s.nodes 1).applied, o.entry.data ≠ some [1]) ∧
      (3, ⟨2, some [2]⟩, ⟨2, 2, some [2]⟩) ∈ s.created := by decide +kernel
  obtain ⟨s, hs, hres, happ, hcr⟩ := hall
  exact ⟨s, hs, ⟨_, hres, rfl⟩, fun ⟨o, ho, _, hd, _⟩ ↦ happ o ho hd, ⟨_, hres, rfl⟩, hcr⟩

end DucklingDB.KvServer
