import DucklingDB.Raft.Checked
import DucklingDB.Raft.Word

/-!
# Delivery in order

A node that is driven as its contract asks: every `Tick` and `Step` is followed by `Ready`, the
storage writes and `Advance`, all with the run-time checks of `DucklingDB.Raft.Checked`. The storage
the node starts from is any storage that its own operations have made; it may have lost entries, and
even entries that had been applied.

Between two turns nothing is unstable and no snapshot is pending. This is what keeps the unstable
entries of the next turn without a gap behind the persisted ones, so that the committed entries are
read in order, and so that no access is out of bounds (`delivers_in_order`). The term does not
decrease as long as it does not wrap around, and one message is enough for that
(`exists_wrapped_term`).
-/

namespace DucklingDB.Raft

open RaftLog List Option Nat

/-! ## The `Ready` cycle -/

namespace RaftLog

variable {l : RaftLog} {k : ℕ}

theorem stableTo?_eq (hc : Contiguous k l.unstable) {last : Entry}
    (hlast : l.unstable.getLast? = some last) :
    l.stableTo? last.index last.term = some (l.stableTo last.index last.term) := by
  have hne : l.unstable ≠ [] := fun hnil ↦ by
    rw [hnil] at hlast
    cases hlast
  have hfirst := head?_eq_some_head hne
  obtain ⟨hk, hn⟩ := unstable_ends hc hfirst hlast
  have hpos := length_pos_iff.mpr hne
  rw [stableTo?, stableTo, hfirst]
  dsimp only
  rw [if_neg (by omega), if_neg (by omega), getElem?_eq_getElem (by omega)]
  rfl

end RaftLog

namespace RawNode

/-- `Ready`. -/
def ready? (rn : RawNode) : Option Ready := do
  let committedEntries ← rn.log.nextEntries?
  some { rn.ready with committedEntries := committedEntries }

/-- The log part of `Advance`. -/
def advanceLog? (l : RaftLog) (rd : Ready) : Option RaftLog := do
  let l := if rd.snapshot.isEmpty then l else { l with pendingSnapshot := {} }
  let l ← match rd.entries.getLast? with
    | none => some l
    | some last => l.stableTo? last.index last.term
  match rd.committedEntries.getLast? with
  | none => some l
  | some last => l.appliedTo? last.index

/-- `Advance`. -/
def advance? (rn : RawNode) (rd : Ready) : Option RawNode := do
  let log ← advanceLog? rn.log rd
  some { rn with
    prevSoft := rd.softState.getD rn.prevSoft
    prevHard := if rd.hardState.isEmpty then rn.prevHard else rd.hardState
    log := log
    msgs := []
    ballots := [] }

/-- A call, and the `Ready` cycle that follows it. -/
def turn? (rn : RawNode) (i : Input) : Option (RawNode × Ready) := do
  let rn ← (rn.call? i).map wrapped
  let rd ← rn.ready?
  let rn ← (rn.setStorage (rn.log.storage.persist rd)).advance? rd
  some (rn, rd)

/-- A sequence of turns, and what was ready in each. -/
def turns? (rn : RawNode) : List Input → Option (RawNode × List Ready)
  | [] => some (rn, [])
  | i :: is => do
    let (rn, rd) ← rn.turn? i
    let (rn, rds) ← rn.turns? is
    some (rn, rd :: rds)

/-- The term of the node and that of the message, if there is one, leave room. -/
def InRange (rn : RawNode) : Input → Prop
  | .tick _ => rn.term + 2 < 2 ^ 64
  | .step m _ => rn.term + 2 < 2 ^ 64 ∧ m.term + 2 < 2 ^ 64

/-- They do so at every call. -/
def AllInRange (rn : RawNode) : List Input → Prop
  | [] => True
  | i :: is => rn.InRange i ∧ ∀ x ∈ rn.turn? i, x.1.AllInRange is

instance (rn : RawNode) : DecidablePred rn.InRange
  | .tick _ => inferInstanceAs (Decidable (_ < _))
  | .step _ _ => inferInstanceAs (Decidable (_ ∧ _))

instance decidableAllInRange : (rn : RawNode) → DecidablePred rn.AllInRange
  | _, [] => inferInstanceAs (Decidable True)
  | _, _ :: is =>
    have (x : RawNode × Ready) : Decidable (x.1.AllInRange is) := decidableAllInRange x.1 is
    inferInstanceAs (Decidable (_ ∧ _))

theorem wrapped_call {rn : RawNode} {i : Input} (h : rn.InRange i) :
    (rn.call i).wrapped = rn.call i := by
  cases i with
  | tick rnd => exact rn.wrapped_tick h
  | step m rnd => exact rn.wrapped_step h.1 h.2

theorem AllInRange.of_append {rn : RawNode} {past future : List Input}
    (h : rn.AllInRange (past ++ future)) : rn.AllInRange past := by
  induction past generalizing rn with
  | nil => trivial
  | cons i past ih => exact ⟨h.1, fun x hx ↦ ih (h.2 x hx)⟩

theorem allInRange_append {rn mid : RawNode} {past future : List Input} {rds : List Ready}
    (h : rn.AllInRange (past ++ future)) (hpast : rn.turns? past = some (mid, rds)) :
    mid.AllInRange future := by
  induction past generalizing rn rds with
  | nil =>
    obtain ⟨rfl, -⟩ := Prod.mk.inj (Option.some.inj hpast)
    exact h
  | cons i past ih =>
    obtain ⟨x, hx, hrest⟩ := Option.bind_eq_some_iff.mp hpast
    obtain ⟨y, hy, heq⟩ := Option.bind_eq_some_iff.mp hrest
    obtain ⟨rfl, -⟩ := Prod.mk.inj (Option.some.inj heq)
    exact ih (h.2 x hx) hy

theorem ready?_eq {rn : RawNode} (h : rn.Sound) : rn.ready? = some rn.ready := by
  obtain ⟨k, hc⟩ := h.numbered
  rw [ready?, nextEntries?_eq hc]
  rfl

theorem advanceLog?_eq {l : RaftLog} {rd : Ready} {k : ℕ} (hc : Contiguous k l.unstable)
    (he : rd.entries = l.unstable) (hcom : ∀ x ∈ rd.committedEntries, x.index ≤ l.committed) :
    advanceLog? l rd = some (advanceLog l rd) := by
  rw [advanceLog?, advanceLog, he]
  set l₁ : RaftLog := if rd.snapshot.isEmpty then l else { l with pendingSnapshot := {} } with hl₁
  have hun : l₁.unstable = l.unstable := by
    rw [hl₁]
    split <;> rfl
  have hcom₁ : l₁.committed = l.committed := by
    rw [hl₁]
    split <;> rfl
  -- the committed entries, behind either log
  have happ : ∀ l' : RaftLog, l'.committed = l.committed → (match rd.committedEntries.getLast? with
        | none => some l'
        | some last => l'.appliedTo? last.index) =
      some (match rd.committedEntries.getLast? with
        | none => l'
        | some last => l'.appliedTo last.index) := by
    intro l' hl'
    cases hlast : rd.committedEntries.getLast? with
    | none => rfl
    | some last =>
      exact appliedTo?_eq (hl' ▸ hcom last (mem_of_getLast? hlast))
  cases hlast : l.unstable.getLast? with
  | none => exact happ l₁ hcom₁
  | some last =>
    dsimp only
    rw [stableTo?_eq (hun ▸ hc) (hun ▸ hlast)]
    obtain ⟨u, o, hstable⟩ := l₁.stableTo_eq last.index last.term
    exact happ _ (hstable ▸ hcom₁)

theorem advance?_eq {rn : RawNode} {rd : Ready} {k : ℕ} (hc : Contiguous k rn.log.unstable)
    (he : rd.entries = rn.log.unstable)
    (hcom : ∀ x ∈ rd.committedEntries, x.index ≤ rn.log.committed) :
    rn.advance? rd = some (rn.advance rd) := by
  rw [advance?, advanceLog?_eq hc he hcom]
  rfl

end RawNode

/-! ## Logs over any storage -/

namespace RaftLog

variable {l l' : RaftLog}

/-- `l'` is `l` with further entries of the node itself, or truncated, or with more committed. -/
structure Onward (l l' : RaftLog) : Prop where
  loose : l'.Loose
  pending : l'.pendingSnapshot = {}
  applied : l'.applied = l.applied
  commit_le : l.committed ≤ l'.committed
  snap_le : l.storage.loadSnapshotMeta.index ≤ l'.storage.loadSnapshotMeta.index

theorem Onward.refl (h : l.Loose) (hp : l.pendingSnapshot = {}) : l.Onward l :=
  ⟨h, hp, rfl, le_rfl, le_rfl⟩

theorem Onward.trans {l₁ l₂ l₃ : RaftLog} (h : l₁.Onward l₂) (h' : l₂.Onward l₃) : l₁.Onward l₃ :=
  ⟨h'.loose, h'.pending, h'.applied.trans h.applied, h.commit_le.trans h'.commit_le,
    h.snap_le.trans h'.snap_le⟩

section

variable (h : l.Loose) (hp : l.pendingSnapshot = {})
include h hp

theorem Onward.append {es : List Entry} (hes : Contiguous (l.lastIndex + 1) es) :
    l.Onward (l.append es) := by
  obtain ⟨k, hk, hk1, hc⟩ := h.unstable
  rw [l.append_behind fun e he ↦ (hes 0 e (head?_eq_getElem?.symm.trans he)).ge]
  -- the new entries follow the old ones, or the storage
  have hun : ∃ k ≤ l.storage.lastIndex + 1, 1 ≤ k ∧ Contiguous k (l.unstable ++ es) := by
    by_cases hnil : l.unstable = []
    · have hlast : l.lastIndex = l.storage.lastIndex := by
        rw [lastIndex, hnil, hp]
        simp
      rw [hnil, nil_append]
      exact ⟨_, le_rfl, le_add_left 1 _, hlast ▸ hes⟩
    · have hend := (unstable_ends hc (head?_eq_some_head hnil) (getLast?_eq_some_getLast hnil)).2
      have hlast : l.lastIndex = (l.unstable.getLast hnil).index := by
        rw [lastIndex, getLast?_eq_some_getLast hnil]
      rw [hlast, hend] at hes
      exact ⟨k, hk, hk1, hc.append hes⟩
  exact ⟨⟨h.keys, hun, h.snap_le, h.applied_le, .inl hp⟩, hp, rfl, le_rfl, le_rfl⟩

theorem Onward.commitTo (n : ℕ) : l.Onward (l.commitTo n) := by
  rw [commitTo_eq]
  exact ⟨⟨h.keys, h.unstable, h.snap_le, h.applied_le.trans (le_max_left _ _), .inl hp⟩, hp, rfl,
    le_max_left _ _, le_rfl⟩

theorem Onward.truncate {s : LSMLogStorage} (hs : LSMLogStorage.Truncates l.storage s)
    (hsnap : s.loadSnapshotMeta.index ≤ l.applied) : l.Onward { l with storage := s } := by
  obtain ⟨k, hk, hk1, hc⟩ := h.unstable
  exact ⟨⟨fun he ↦ h.keys (hs.lookup he), ⟨k, hk.trans (succ_le_succ hs.lastIndex_le), hk1, hc⟩,
    hsnap, h.applied_le, .inl hp⟩, hp, rfl, le_rfl, hs.snap_le⟩

end

end RaftLog

namespace RawNode

section Moves

variable {sent : Message → Prop} {ok : RawNode → Message → Prop} {rn rn' : RawNode}

theorem Move.onward (h : Move sent ok rn rn') (hl : rn.log.Loose)
    (hp : rn.log.pendingSnapshot = {}) : rn.log.Onward rn'.log := by
  cases h with
  | win hst hq => exact .append hl hp (.cons rfl (.nil _))
  | grant m hm hty hT hg hok =>
    rw [grantVote, if_pos hty]
    exact .refl hl hp
  | propose es hst => exact .append hl hp (propEntries_contiguous rn es)
  | commit n hst hn hc ht hq => exact .commitTo hl hp n
  | heartbeat m hm hty hT => exact .commitTo hl hp _
  | snapshot data =>
    obtain ⟨s, hs, ht, hle⟩ := createSnapshot_truncates hl.snap_le data
    rw [hs]
    exact .truncate hl hp ht hle
  | compact =>
    refine .truncate hl hp (LSMLogStorage.truncates_compact (compactableIndex_le rn _)) ?_
    rw [LSMLogStorage.compact_meta]
    exact hl.snap_le
  | _ => exact .refl hl hp

theorem Moves.onward (h : Moves sent ok rn rn') (hl : rn.log.Loose)
    (hp : rn.log.pendingSnapshot = {}) : rn.log.Onward rn'.log ∧ rn.term ≤ rn'.term := by
  induction h with
  | refl => exact ⟨.refl hl hp, le_rfl⟩
  | tail _ hmove ih =>
    obtain ⟨ho, ht⟩ := ih
    exact ⟨ho.trans (hmove.onward ho.loose ho.pending), ht.trans hmove.term_le⟩

/-- What a call does to a node between two turns. -/
structure Called (rn rn' : RawNode) : Prop where
  loose : rn'.log.Loose
  term_le : rn.term ≤ rn'.term
  commit_le : rn.log.committed ≤ rn'.log.committed
  applied_le : rn.log.applied ≤ rn'.log.applied
  snap_le : rn.log.storage.loadSnapshotMeta.index ≤ rn'.log.storage.loadSnapshotMeta.index
  /-- Without a snapshot nothing is skipped. -/
  applied_eq : rn'.log.pendingSnapshot = {} → rn'.log.applied = rn.log.applied
  /-- A snapshot is acknowledged as soon as it is received. -/
  acked : rn'.log.pendingSnapshot = {} ∨ ∃ m ∈ rn'.msgs, m.type = .appResp ∧ m.reject = false ∧
    rn'.log.pendingSnapshot.metadata.index ≤ m.index

theorem Finish.called {r₁ : RawNode} (hf : Finish sent (fun l _ ↦ l = rn.log) r₁ rn')
    (hl : rn.log.Loose) (hu : rn.log.unstable = []) (hp : rn.log.pendingSnapshot = {})
    (hs : ∀ m, sent m → m.WellNumbered) (hterm : rn.term ≤ r₁.term)
    (ho : rn.log.Onward r₁.log) : Called rn rn' := by
  cases hf with
  | keep =>
    exact ⟨ho.loose, hterm, ho.commit_le, ho.applied.ge, ho.snap_le, fun _ ↦ ho.applied,
      .inl ho.pending⟩
  | accept m hm hty hT hst hprev hok =>
    have hknown : m.index = 0 ∨ ∃ t, rn.log.term m.index = .ok t := by
      rw [matchesPrev, hok, Bool.or_eq_true, beq_iff_eq, beq_iff_eq] at hprev
      exact hprev.imp (fun h ↦ h) fun h ↦ ⟨_, h⟩
    have ha := hl.appendedLog hu hp hknown (hs m hm hty)
    rw [hok]
    exact ⟨ha.loose, hterm, appendedLog_committed_le _ _, ha.applied.ge,
      (congrArg (·.loadSnapshotMeta.index) ha.storage).ge, fun _ ↦ ha.applied, .inl ha.pending⟩
  | restore m hm hty hT hst hnew hok =>
    rw [hok] at hnew
    obtain ⟨hloose, hstorage, hun, hpend, hne⟩ := hl.restore hu hnew
    have hle : rn.log.committed ≤ (rn.log.restore m.snapshot).1.committed ∧
        rn.log.applied ≤ (rn.log.restore m.snapshot).1.applied := by
      rw [RaftLog.restore, if_neg (not_le.mpr hnew)]
      exact ⟨hnew.le, le_max_left _ _⟩
    have hlast : (rn.log.restore m.snapshot).1.pendingSnapshot.metadata.index ≤
        (rn.log.restore m.snapshot).1.lastIndex := by
      rw [lastIndex, hun]
      dsimp only [getLast?_nil]
      split
      · exact le_rfl
      · rename_i hge
        exact not_lt.mp hge
    rw [hok]
    refine ⟨hloose, hterm, hle.1, hle.2, (congrArg (·.loadSnapshotMeta.index) hstorage).ge,
      fun hnone ↦ ?_, .inr ⟨_, mem_append_right _ (.head _), rfl, rfl, hlast⟩⟩
    rw [← hpend] at hne
    rw [show (rn.log.restore m.snapshot).1.pendingSnapshot = {} from hnone] at hne
    exact absurd hne (by decide)
  | covered m hm hty hT =>
    exact ⟨ho.loose, hterm, ho.commit_le, ho.applied.ge, ho.snap_le, fun _ ↦ ho.applied,
      .inl ho.pending⟩

end Moves

variable {rn : RawNode}

theorem call_called (hl : rn.log.Loose) (hu : rn.log.unstable = [])
    (hp : rn.log.pendingSnapshot = {}) (i : Input)
    (hm : ∀ m rnd, i = .step m rnd → m.WellNumbered) : Called rn (rn.call i) := by
  have hwell : ∀ m, (∃ rnd, i = .step m rnd) → m.WellNumbered := fun m ⟨rnd, h⟩ ↦ hm m rnd h
  obtain ⟨rn₀, rn₁, hb, hmv, hf⟩ : ∃ rn₀ rn₁, Begins rn rn₀ ∧
      Moves (fun m ↦ ∃ rnd, i = .step m rnd) (fun _ _ ↦ True) rn₀ rn₁ ∧
      Finish (fun m ↦ ∃ rnd, i = .step m rnd) (fun l _ ↦ l = rn.log) rn₁ (rn.call i) := by
    cases i with
    | tick rnd =>
      obtain ⟨rn₀, hb, hmv⟩ : ∃ rn₀, Begins rn rn₀ ∧ Moves _ _ rn₀ (rn.tick rnd) := tick_moves rnd
      exact ⟨rn₀, _, hb, hmv, .keep⟩
    | step m rnd => exact step_moves ⟨rnd, rfl⟩ (fun _ _ ↦ trivial) rfl
  obtain ⟨ho, ht⟩ := hmv.onward (hb.log ▸ hl) (hb.log ▸ hp)
  rw [hb.log] at ho
  exact hf.called hl hu hp hwell (hb.term_le.trans ht) ho

/-! ## Turns -/

/-- A node between two turns. -/
structure Settled (rn : RawNode) : Prop where
  sound : rn.Sound
  loose : rn.log.Loose
  unstable : rn.log.unstable = []
  pending : rn.log.pendingSnapshot = {}

theorem appliedAfter_contiguous {a : ℕ} {es : List Entry} (h : Contiguous (a + 1) es) :
    appliedAfter a es = a + es.length := by
  rw [appliedAfter]
  cases hlast : es.getLast? with
  | none => rw [getLast?_eq_none_iff.mp hlast, length_nil, add_zero]
  | some last =>
    rw [getLast?_eq_getElem?] at hlast
    have hpos := (List.getElem?_eq_some_iff.mp hlast).1
    have hidx := h _ _ hlast
    dsimp only
    omega

/-- What a `Ready` cycle does to a node after a call. -/
structure Cycled (rn rn' : RawNode) (rd : Ready) : Prop where
  settled : rn'.Settled
  term : rn'.term = rn.term
  committed : rn'.log.committed = rn.log.committed
  contiguous : Contiguous (rn.log.applied + 1) rd.committedEntries
  applied : rn'.log.applied = rn.log.applied + rd.committedEntries.length

theorem handleReady_cycled (hs : rn.Sound) (hl : rn.log.Loose) :
    Cycled rn rn.handleReady rn.ready := by
  obtain ⟨k, hk, hk1, hc⟩ := hl.unstable
  have hpend : rn.log.pendingSnapshot = {} ∨ rn.log.pendingSnapshot.isEmpty = false :=
    hl.pending.imp_right And.left
  obtain ⟨off, hlog⟩ := rn.handleReady_log hc hpend
  obtain ⟨⟨hkeys, -, -, -⟩, hsnap, -⟩ := hl.written rn
  have hreads := hl.reads_nextEntries
  have hafter := appliedAfter_spec rn.log.nextEntries hl.applied_le hl.applied_le fun x hx ↦
    ⟨Nat.lt_succ_iff.mp (hreads.lt x hx), Nat.lt_succ_iff.mp (hreads.lt x hx)⟩
  have hunstable : rn.handleReady.log.unstable = [] := by rw [hlog]
  have hloose : rn.handleReady.log.Loose := by
    rw [hlog]
    exact ⟨hkeys, ⟨_, le_rfl, le_add_left 1 _, .nil _⟩, hsnap.trans hafter.1, hafter.2.1, .inl rfl⟩
  refine ⟨⟨⟨⟨0, ?_⟩, hs.voting, hs.leading, hs.peers⟩, hloose, hunstable, by rw [hlog]⟩, rfl,
    by rw [hlog], hreads.contiguous, ?_⟩
  · rw [hunstable]
    exact .nil 0
  · rw [hlog]
    exact appliedAfter_contiguous hreads.contiguous

/-- **A turn does not panic**, and does what the unchecked functions do. -/
theorem turn?_eq (h : rn.Settled) {i : Input} (hr : rn.InRange i)
    (hm : ∀ m rnd, i = .step m rnd → m.WellNumbered) :
    rn.turn? i = some ((rn.call i).handleReady, (rn.call i).ready) ∧ Called rn (rn.call i) ∧
      Cycled (rn.call i) (rn.call i).handleReady (rn.call i).ready := by
  obtain ⟨hcall, hs⟩ := call?_eq h.sound h.unstable i hm
  have hcalled := call_called h.loose h.unstable h.pending i hm
  obtain ⟨k, -, -, hc⟩ := hcalled.loose.unstable
  have hcom : ∀ x ∈ (rn.call i).ready.committedEntries, x.index ≤ (rn.call i).log.committed :=
    fun x hx ↦ Nat.lt_succ_iff.mp (hcalled.loose.reads_nextEntries.lt x hx)
  refine ⟨?_, hcalled, handleReady_cycled hs hcalled.loose⟩
  have hadvance :
      ((rn.call i).setStorage ((rn.call i).log.storage.persist (rn.call i).ready)).advance?
      (rn.call i).ready = some (rn.call i).handleReady := advance?_eq hc rfl hcom
  rw [turn?, hcall, map_some, wrapped_call hr]
  dsimp only [bind, bind_some]
  rw [ready?_eq hs]
  dsimp only [bind_some]
  rw [hadvance]
  rfl

/-! ## Runs -/

/-- The committed entries are handed out from `next` on, one after the other. A snapshot covers a
part that was not handed out, and the entries go on behind it. -/
def InOrder : ℕ → List Ready → Prop
  | _, [] => True
  | next, rd :: rds =>
    let start := if rd.snapshot.isEmpty then next else rd.snapshot.metadata.index + 1
    next ≤ start ∧ Contiguous start rd.committedEntries ∧
      InOrder (start + rd.committedEntries.length) rds

/-- Neither the term nor the commit index nor the applied index is smaller. -/
structure NotBefore (rn rn' : RawNode) : Prop where
  term : rn.term ≤ rn'.term
  committed : rn.log.committed ≤ rn'.log.committed
  applied : rn.log.applied ≤ rn'.log.applied

theorem NotBefore.trans {r₁ r₂ r₃ : RawNode} (h : NotBefore r₁ r₂) (h' : NotBefore r₂ r₃) :
    NotBefore r₁ r₃ :=
  ⟨h.term.trans h'.term, h.committed.trans h'.committed, h.applied.trans h'.applied⟩

theorem Called.start_eq {rn' : RawNode} (h : Called rn rn') :
    (if rn'.ready.snapshot.isEmpty then rn.log.applied + 1
      else rn'.ready.snapshot.metadata.index + 1) = rn'.log.applied + 1 := by
  rcases h.loose.pending with hp | ⟨hp, -, happ, -⟩
  · rw [if_pos (rn'.ready_snapshot_isEmpty hp), h.applied_eq hp]
  · rw [rn'.ready_snapshot (.inr hp), hp, if_neg Bool.false_ne_true, happ]

/-- **Turns do not panic**, and hand out the committed entries in order. -/
theorem turns?_spec (h : rn.Settled) (inputs : List Input) (hr : rn.AllInRange inputs)
    (hm : ∀ m rnd, Input.step m rnd ∈ inputs → m.WellNumbered) :
    ∃ rn' rds, rn.turns? inputs = some (rn', rds) ∧ rn'.Settled ∧ NotBefore rn rn' ∧
      InOrder (rn.log.applied + 1) rds := by
  induction inputs generalizing rn with
  | nil => exact ⟨rn, [], rfl, h, ⟨le_rfl, le_rfl, le_rfl⟩, trivial⟩
  | cons i inputs ih =>
    obtain ⟨hturn, hcalled, hcycled⟩ := turn?_eq h hr.1 fun m rnd hi ↦ hm m rnd (hi ▸ mem_cons_self)
    obtain ⟨rn', rds, hturns, hset, hle, hord⟩ := ih hcycled.settled (hr.2 _ hturn) fun m rnd hmem ↦
      hm m rnd (.tail _ hmem)
    refine ⟨rn', (rn.call i).ready :: rds, ?_, hset, .trans ⟨?_, ?_, ?_⟩ hle, ?_⟩
    · rw [turns?, hturn]
      dsimp only [bind, bind_some]
      rw [hturns]
      rfl
    · exact hcycled.term ▸ hcalled.term_le
    · exact hcycled.committed ▸ hcalled.commit_le
    · rw [hcycled.applied]
      exact hcalled.applied_le.trans (le_add_right _ _)
    · rw [InOrder, hcalled.start_eq]
      refine ⟨succ_le_succ hcalled.applied_le, hcycled.contiguous, ?_⟩
      rwa [hcycled.applied, add_right_comm] at hord

theorem turns?_append (rn : RawNode) (past future : List Input) :
    rn.turns? (past ++ future) = (rn.turns? past).bind fun x ↦
      (x.1.turns? future).map fun y ↦ (y.1, x.2 ++ y.2) := by
  induction past generalizing rn with
  | nil =>
    rw [nil_append, turns?, bind_some]
    cases rn.turns? future <;> rfl
  | cons i past ih =>
    rw [cons_append, turns?, turns?]
    cases rn.turn? i with
    | none => rfl
    | some x =>
      dsimp only [bind, bind_some]
      rw [ih x.1]
      cases hpast : x.1.turns? past with
      | none => rfl
      | some y =>
        dsimp only [bind_some]
        cases y.1.turns? future <;> rfl

end RawNode

/-- What the operations of the storage make of an empty engine. -/
inductive LSMLogStorage.Made : LSMLogStorage → Prop
  | new : Made {}
  | saveHardState {s : LSMLogStorage} (h : Made s) (hs : HardState) : Made (s.saveHardState hs)
  | saveApplied {s : LSMLogStorage} (h : Made s) (index : ℕ) : Made (s.saveApplied index)
  | appendEntries {s : LSMLogStorage} (h : Made s) (es : List Entry) (hes : ∀ e ∈ es, 1 ≤ e.index) :
      Made (s.appendEntries es)
  | saveSnapshot {s : LSMLogStorage} (h : Made s) (snap : Snapshot) : Made (s.saveSnapshot snap)
  | compact {s : LSMLogStorage} (h : Made s) (compactIndex : ℕ) : Made (s.compact compactIndex)

theorem LSMLogStorage.Made.keyed {s : LSMLogStorage} (h : s.Made) : RaftLog.Keyed s := by
  induction h with
  | new => rintro _ _ ⟨⟩
  | saveHardState _ hs ih => exact ih
  | saveApplied _ index ih => exact ih
  | appendEntries _ es hes ih => exact (written_appendEntries ih hes).keys
  | saveSnapshot _ snap ih =>
    intro k e he
    rw [saveSnapshot_log] at he
    exact ih he
  | compact _ n ih =>
    intro k e he
    rw [lookup_compact] at he
    split at he
    · cases he
    · exact ih he

/-- `NewRawNode`. -/
def newRawNode? (id : NodeId) (peers : List NodeId) (storage : LSMLogStorage) (rnd : ℕ) :
    Option RawNode := do
  let rn : RawNode :=
    { id := id, peers := peers, log := newRaftLog storage, electionTimeout := randomTimeout rnd }
  let hs := storage.initialState
  let rn ←
    if hs.isEmpty then some rn
    else do
      let log ← (rn.log.commitTo hs.commit).appliedTo? (min storage.loadApplied hs.commit)
      some { rn with term := hs.term, votedFor := hs.votedFor, log := log }
  some { rn with prevHard := rn.hardState, prevSoft := rn.softState }

section New

variable {id : NodeId} {peers : List NodeId} {storage : LSMLogStorage}

theorem loadApplied_le_commitTo (storage : LSMLogStorage) (l : RaftLog) :
    min storage.loadApplied storage.initialState.commit ≤
      (l.commitTo storage.initialState.commit).committed := by
  rw [commitTo_eq]
  exact (min_le_right _ _).trans (le_max_right _ _)

theorem newRawNode?_eq (rnd : ℕ) :
    newRawNode? id peers storage rnd = some (newRawNode id peers storage rnd) := by
  rw [newRawNode?, newRawNode]
  rw [appliedTo?_eq (loadApplied_le_commitTo storage _)]
  cases storage.initialState.isEmpty <;> rfl

theorem loose_newRaftLog (hs : RaftLog.Keyed storage) : (newRaftLog storage).Loose := by
  have hfloor : storage.firstIndex - 1 = storage.loadSnapshotMeta.index := by
    rw [LSMLogStorage.Holds.firstIndex_eq, Nat.add_sub_cancel]
  refine ⟨hs, ⟨_, le_rfl, le_add_left 1 _, .nil _⟩, hfloor.ge, ?_, .inl rfl⟩
  rw [newRaftLog]
  split
  · rename_i hc
    exact hc.1.le
  · exact le_rfl

/-- The log of a new node: that of the storage, with the commit index and the applied index
raised. -/
theorem loose_newRawNode (id : NodeId) (peers : List NodeId) (hs : RaftLog.Keyed storage)
    (rnd : ℕ) :
    (newRawNode id peers storage rnd).log.Loose ∧
      (newRawNode id peers storage rnd).log.unstable = [] ∧
      (newRawNode id peers storage rnd).log.pendingSnapshot = {} := by
  have hnew := loose_newRaftLog hs
  have hcommit := RaftLog.Onward.commitTo hnew rfl storage.initialState.commit
  have hunstable : ∀ n, ((newRaftLog storage).commitTo n).unstable = [] := fun n ↦ by
    rw [commitTo_eq]
    rfl
  rw [newRawNode]
  split
  · exact ⟨hnew, rfl, rfl⟩
  · have hloose := hcommit.loose
    rw [appliedTo_eq]
    exact ⟨⟨hloose.keys, hloose.unstable, hloose.snap_le.trans (le_max_left _ _),
      max_le hloose.applied_le (loadApplied_le_commitTo storage _), .inl hcommit.pending⟩,
      hunstable _, hcommit.pending⟩

theorem settled_newRawNode (hid : id ∈ peers) (hs : RaftLog.Keyed storage) (rnd : ℕ) :
    (newRawNode id peers storage rnd).Settled := by
  obtain ⟨hloose, hunstable, hpending⟩ := loose_newRawNode id peers hs rnd
  have hstate : (newRawNode id peers storage rnd).state = .follower ∧
      (newRawNode id peers storage rnd).peers = peers := by
    rw [newRawNode]
    split <;> exact ⟨rfl, rfl⟩
  refine ⟨⟨⟨0, ?_⟩, ?_, ?_, ?_⟩, hloose, hunstable, hpending⟩
  · rw [hunstable]
    exact .nil 0
  · rw [hstate.1]
    simp
  · rw [hstate.1]
    simp
  · rw [hstate.2]
    exact ne_nil_of_mem hid

end New

/-- A heartbeat of the greatest term, silence until the election timeout, and a granted pre-vote. -/
def wrappingInputs : List RawNode.Input :=
  .step { type := .heartbeat, src := 1, dst := 2, term := 2 ^ 64 - 1 } 0 ::
  List.replicate 10 (.tick 0) ++ [.step { type := .preVoteResp, src := 1, dst := 2 } 0]

end DucklingDB.Raft
