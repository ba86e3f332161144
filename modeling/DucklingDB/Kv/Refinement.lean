import DucklingDB.Kv.Represent
import DucklingDB.Kv.System

/-!
# Coordinators refine the transactional store

A call on a coordinator is a run of the store of `Transaction.Spec`: some quiet moves -- raising its
own write timestamp, aborting, pushing and cleaning up after others -- and then at most one move of
its own. `Rel` relates the two: the engine holds the cells, and for every transaction the record in
the engine and the coordinator's copy are the two copies of the store. This file has the relation,
what a call does about the intents of others, and reading.
-/

namespace DucklingDB.Txn

open Hlc Mvcc DucklingDB.Transaction Function Timestamp TxnCoordSender Transaction
open Function (update update_of_ne update_self)

variable [MetadataCodec] [RecordCodec]

/-- The store of the coordinators. -/
abbrev Store := State TxnID Bytes Timestamp Bytes

/-! ## The relation -/

/-- The record `p`, the coordinator's copy `m` and the operations `ops` of the transaction `id` are
what the store says about it. -/
structure TxnRel (U : Set Bytes) (id : TxnID) (ops : List Op) (p m : Transaction)
    (x : Transaction.Txn Bytes Timestamp Bytes) : Prop where
  record_id : p.id = id
  held_id : m.id = id
  nonzero : id.isZero = false
  ops_eq : x.ops = ops
  record : x.record = ⟨p.status, p.writeTimestamp⟩
  held : x.held = ⟨m.status, m.writeTimestamp⟩
  record_read : p.readTimestamp = x.read
  held_read : m.readTimestamp = x.read
  isolation : p.isolation = m.isolation
  keys : ∀ k ∈ m.intentKeys, k ∈ U
  written : ∀ {k w}, lastWrite ops k = some w → k ∈ m.intentKeys
  valid_read : Valid x.read
  hasNext : x.read.HasNext
  valid_record : Valid p.writeTimestamp
  valid_held : Valid m.writeTimestamp

/-- The engine, the coordinators' copies and their operations are the store `a`. -/
structure Rel (U : Set Bytes) (e : Engine) (mem : TxnID → Option Transaction)
    (ops : TxnID → List Op) (a : Store) : Prop where
  rep : Represents U e a.cells
  inv : Inv a
  absent : ∀ {id}, mem id = none → a.txns id = none ∧ ops id = []
  txn : ∀ {id m}, mem id = some m →
    ∃ p x, recordOf e id = some p ∧ a.txns id = some x ∧ TxnRel U id (ops id) p m x

section Rel

variable {U : Set Bytes} {e e' : Engine} {mem : TxnID → Option Transaction} {ops : TxnID → List Op}
  {a a' : Store} {id : TxnID} {m p : Transaction} {x : Transaction.Txn Bytes Timestamp Bytes}
  {mv : Move TxnID Bytes Timestamp Bytes} {k : Bytes} {t : TxnID} {ts : Timestamp}

section

variable (h : Rel U e mem ops a)
include h

theorem Rel.of_txns (hx : a.txns id = some x) :
    ∃ p m, recordOf e id = some p ∧ mem id = some m ∧ TxnRel U id (ops id) p m x := by
  cases hm : mem id with
  | none =>
    rw [(h.absent hm).1] at hx
    cases hx
  | some m =>
    obtain ⟨p, x', hp, hx', htr⟩ := h.txn hm
    rw [hx] at hx'
    obtain rfl := Option.some.inj hx'
    exact ⟨p, m, hp, rfl, htr⟩

theorem Rel.setCell {c : Cell TxnID Timestamp Bytes} (hrep : Represents U e' (update a.cells k c))
    (hrec : ∀ id, recordData e' id = recordData e id) (hstep : Step a mv (a.setCell k c)) :
    Rel U e' mem ops (a.setCell k c) := by
  refine ⟨hrep, h.inv.step hstep, h.absent, fun {id m} hm ↦ ?_⟩
  obtain ⟨p, x, hp, hx, htr⟩ := h.txn hm
  refine ⟨p, x, ?_, hx, htr⟩
  rw [recordOf, hrec, ← recordOf, hp]

variable {x' : Transaction.Txn Bytes Timestamp Bytes}

theorem Rel.setTxn {p' m' : Transaction} {ops' : List Op} (hrep : Represents U e' a'.cells)
    (hrec : recordOf e' id = some p') (hother : ∀ id', id' ≠ id → recordOf e' id' = recordOf e id')
    (htr : TxnRel U id ops' p' m' x') (hinv : Inv a')
    (htxns : a'.txns = update a.txns id (some x')) :
    Rel U e' (update mem id (some m')) (update ops id ops') a' := by
  refine ⟨hrep, hinv, fun {id'} hm ↦ ?_, fun {id' m} hm ↦ ?_⟩
  · by_cases heq : id' = id
    · rw [heq, update_self] at hm
      cases hm
    · rw [update_of_ne heq] at hm
      rw [htxns, update_of_ne heq, update_of_ne heq]
      exact h.absent hm
  · by_cases heq : id' = id
    · subst heq
      rw [update_self] at hm
      obtain rfl := Option.some.inj hm
      exact ⟨p', x', hrec, by rw [htxns, update_self], by rw [update_self]; exact htr⟩
    · rw [update_of_ne heq] at hm
      obtain ⟨p, x, hp, hx, htr'⟩ := h.txn hm
      refine ⟨p, x, (hother id' heq).trans hp, ?_, ?_⟩
      · rw [htxns, update_of_ne heq, hx]
      · rw [update_of_ne heq]
        exact htr'

theorem Rel.setHeld {m' : Transaction}
    (hp : recordOf e id = some p) (htr : TxnRel U id (ops id) p m' x')
    (hstep : Step a mv (a.setTxn id x')) :
    Rel U e (update mem id (some m')) ops (a.setTxn id x') := by
  have hrel : Rel U e _ _ (a.setTxn id x') :=
    h.setTxn h.rep hp (fun _ _ ↦ rfl) htr (h.inv.step hstep) rfl
  rwa [update_eq_self] at hrel

theorem Rel.setRecord (hm : mem id = some m) {p' : Transaction} (htr : TxnRel U id (ops id) p' m x')
    (hstep : Step a mv (a.setTxn id x')) :
    ∃ e', putTxnRecord e p' = .ok e' ∧ Rel U e' mem ops (a.setTxn id x') := by
  obtain ⟨e', hok, hrep, hself, hother⟩ := h.rep.putTxnRecord p'
  rw [htr.record_id] at hself hother
  refine ⟨e', hok, ?_⟩
  have hrel : Rel U e' _ _ (a.setTxn id x') := h.setTxn hrep hself hother htr (h.inv.step hstep) rfl
  rwa [update_eq_self, ← hm, update_eq_self] at hrel

end

end Rel

/-! ## Conflicts -/

section Conflicts

variable {U : Set Bytes} {mem : TxnID → Option Transaction} {ops : TxnID → List Op} {id : TxnID}
  {tc tc' tc'' : TxnCoordSender} {a a' a'' : Store} {k : Bytes} {t : TxnID} {ts : Timestamp}
  {m p : Transaction} {x : Transaction.Txn Bytes Timestamp Bytes}

/-- The relation during a call on the coordinator of `id`. -/
abbrev RelAt (U : Set Bytes) (mem : TxnID → Option Transaction) (ops : TxnID → List Op) (id : TxnID)
    (tc : TxnCoordSender) (a : Store) : Prop :=
  Rel U tc.engine (update mem id (some tc.txn)) ops a

theorem RelAt.self (h : RelAt U mem ops id tc a) :
    ∃ p x, recordOf tc.engine id = some p ∧ a.txns id = some x ∧ TxnRel U id (ops id) p tc.txn x :=
  h.txn (update_self ..)

theorem RelAt.other (h : RelAt U mem ops id tc a) (hx : a.txns t = some x) (hne : t ≠ id) :
    ∃ p m, recordOf tc.engine t = some p ∧ update mem id (some tc.txn) t = some m ∧
      mem t = some m ∧ TxnRel U t (ops t) p m x := by
  obtain ⟨p, m, hp, hm, htr⟩ := h.of_txns hx
  exact ⟨p, m, hp, hm, (update_of_ne hne ..).symm.trans hm, htr⟩

/-- What a call has done so far to others: quiet moves, and nothing to its own transaction. -/
structure Resolved (U : Set Bytes) (mem : TxnID → Option Transaction) (ops : TxnID → List Op)
    (id : TxnID) (tc tc' : TxnCoordSender) (a a' : Store) : Prop where
  txn : tc'.txn = tc.txn
  tscache : tc'.tscache = tc.tscache
  quiet : Quiet id a a'
  rel : RelAt U mem ops id tc' a'

/-- The intent of `k` at `ts` is gone from the cells. -/
def Dropped (a a' : Store) (k : Bytes) (ts : Timestamp) : Prop :=
  ∃ prev, Previous (a.cells k).versions ts prev ∧
    a'.cells = update a.cells k ((a.cells k).drop prev)

section

variable (h : RelAt U mem ops id tc a)
include h

section

variable (hk : k ∈ U) (hi : (a.cells k).intent = some (t, ts)) (hx : a.txns t = some x)
include hk hi hx

theorem finalizeForeignIntent_spec (ha : x.record.status = .aborted) :
    ∃ tc' a', tc.finalizeForeignIntent k t .aborted {} = (.ok (), tc') ∧
      Resolved U mem ops id tc tc' a a' ∧ Dropped a a' k ts := by
  obtain ⟨e', prev, hok, hprev, hrep, hrec⟩ := h.rep.resolve_abort hk hi {}
  have hstep : Step a (.clean k) (a.setCell k ((a.cells k).drop prev)) := .clean hi hx ha hprev
  have hquiet : Move.IsQuiet id (.clean k : Move TxnID Bytes Timestamp Bytes) := trivial
  refine ⟨{ tc with engine := e' }, _, ?_,
    ⟨rfl, rfl, .single hquiet hstep, h.setCell hrep hrec hstep⟩, prev, hprev, rfl⟩
  rw [finalizeForeignIntent, hok]

/-- A pending transaction is aborted, and its intent taken back. -/
theorem abortAndFinalize_spec (hne : t ≠ id) (hp : recordOf tc.engine t = some p)
    (hpend : p.status = .pending) :
    ∃ tc' a', tc.abortAndFinalize p k t = (.ok (), tc') ∧ Resolved U mem ops id tc tc' a a' ∧
      Dropped a a' k ts := by
  obtain ⟨p', m, hp', hm, -, htr⟩ := h.other hx hne
  obtain rfl := Option.mem_unique hp hp'
  have hkill : Step a (.kill t)
      (a.setTxn t { x with record := { x.record with status := .aborted } }) :=
    .kill hx (by rw [htr.record, hpend])
  have htr' : TxnRel U t (ops t) { p with status := .aborted, lastHeartbeat := tc.now.1 } m
      { x with record := { x.record with status := .aborted } } :=
    { htr with record := by rw [htr.record] }
  obtain ⟨e', hok, hrel⟩ := h.setRecord hm htr' hkill
  have hrel' : RelAt U mem ops id { tc.now.2 with engine := e' } _ := hrel
  obtain ⟨tc', a', hok', hres, hdrop⟩ := finalizeForeignIntent_spec hrel' hk hi (update_self ..) rfl
  refine ⟨tc', a', ?_, ⟨hres.txn, hres.tscache, (Steps.single hne hkill).trans hres.quiet,
    hres.rel⟩, hdrop⟩
  rw [abortAndFinalize, abortBlocker]
  simp only [putRecord, now] at hok ⊢
  rw [hok]
  exact hok'

end

theorem RelAt.owner (hi : (a.cells k).intent = some (t, ts)) (hne : t ≠ id) :
    ∃ p m x, recordOf tc.engine t = some p ∧ a.txns t = some x ∧
      update mem id (some tc.txn) t = some m ∧ TxnRel U t (ops t) p m x ∧
      p.status ≠ .committed ∧ x.read ≤ ts := by
  obtain ⟨-, x, -, hx, hnc, -, -, hle⟩ := (h.inv.cell k).intent hi
  obtain ⟨p, m, hp, hm, -, htr⟩ := h.other hx hne
  refine ⟨p, m, x, hp, hx, hm, htr, fun hc ↦ hnc ?_, hle⟩
  rw [htr.record, hc]

/-- **`resolveForeignIntent`** takes the intent back, or loses the priority fight. -/
theorem resolveForeignIntent_spec (hk : k ∈ U) (hi : (a.cells k).intent = some (t, ts))
    (hne : t ≠ id) : (∃ err, tc.resolveForeignIntent k t = (.error (.retry err), tc)) ∨
    ∃ tc' a', tc.resolveForeignIntent k t = (.ok (), tc') ∧ Resolved U mem ops id tc tc' a a' ∧
      Dropped a a' k ts := by
  obtain ⟨p, m, x, hp, hx, hm, htr, hnc, -⟩ := h.owner hi hne
  have hload : loadTxnRecord tc.engine t = .ok (some p) := by rw [h.rep.loadTxnRecord, hp]
  rw [resolveForeignIntent, hload]
  cases hst : p.status with
  | committed => exact absurd hst hnc
  | aborted =>
    right
    obtain ⟨tc', a', hok, hres⟩ := finalizeForeignIntent_spec h hk hi hx (by rw [htr.record, hst])
    refine ⟨tc', a', ?_, hres⟩
    simp only [hst]
    exact hok
  | pending =>
    simp only [hst]
    split
    · right
      exact abortAndFinalize_spec h hk hi hx hne hp hst
    · exact .inl ⟨_, rfl⟩

theorem pushBlockerRecord_spec (hne : t ≠ id) (hm : update mem id (some tc.txn) t = some m)
    (hx : a.txns t = some x) (htr : TxnRel U t (ops t) p m x) (hpend : p.status = .pending)
    {w : Timestamp} (hw : Valid w) :
    ∃ tc' a' x', tc.pushBlockerRecord p w = (.ok (), tc') ∧ Resolved U mem ops id tc tc' a a' ∧
      a'.cells = a.cells ∧ a'.txns t = some x' ∧ w ≤ x'.record.write := by
  rw [pushBlockerRecord]
  split <;> rename_i hless
  · rw [less_iff] at hless
    have hstep : Step a (.pushRecord t w)
        (a.setTxn t { x with record := { x.record with write := w } }) :=
      .pushRecord hx (by rw [htr.record, hpend]) (by rw [htr.record]; exact hless.le)
    have htr' : TxnRel U t (ops t) { p with writeTimestamp := w, lastHeartbeat := tc.now.1 } m
        { x with record := { x.record with write := w } } :=
      { htr with record := by rw [htr.record], valid_record := hw }
    obtain ⟨e', hok, hrel⟩ := h.setRecord hm htr' hstep
    have hput : putTxnRecord tc.now.2.engine
        { p with writeTimestamp := w, lastHeartbeat := tc.now.1 } = .ok e' := hok
    have hquiet : Move.IsQuiet id (.pushRecord t w : Move TxnID Bytes Timestamp Bytes) := hne
    refine ⟨{ tc.now.2 with engine := e' }, _, _, ?_, ⟨rfl, rfl, .single hquiet hstep, hrel⟩, rfl,
      update_self .., le_rfl⟩
    simp only [putRecord, hput]
  · rw [less_iff, not_lt] at hless
    exact ⟨tc, a, x, rfl, ⟨rfl, rfl, .refl, h⟩, rfl, hx, by rw [htr.record]; exact hless⟩

/-- The record of a pending transaction is pushed, and then its intent. -/
theorem pushBlocker_spec (hk : k ∈ U) (hi : (a.cells k).intent = some (t, ts)) (hne : t ≠ id)
    (hp : recordOf tc.engine t = some p) (hpend : p.status = .pending) {w : Timestamp}
    (hw : Valid w) (hlt : ts < w) :
    ∃ tc' a', tc.pushBlocker p k t w = (.ok (), tc') ∧ Resolved U mem ops id tc tc' a a' := by
  obtain ⟨p', m, x, hp', hx, hm, htr, -, -⟩ := h.owner hi hne
  obtain rfl := Option.mem_unique hp hp'
  obtain ⟨tc₁, a₁, x₁, hok₁, hres₁, hcells, hx₁, hle⟩ :=
    pushBlockerRecord_spec h hne hm hx htr hpend hw
  rw [← hcells] at hi
  obtain ⟨e', hok, hrep, hrec⟩ := hres₁.rel.rep.push hk hi hw hlt
  have hstep : Step a₁ (.push k w) (a₁.setCell k ((a₁.cells k).push w)) := .push hi hlt hx₁ hle
  refine ⟨{ tc₁ with engine := e' }, _, ?_, hres₁.txn, hres₁.tscache,
    hres₁.quiet.tail (show Move.IsQuiet id (.push k w) from trivial) hstep,
    hres₁.rel.setCell hrep hrec hstep⟩
  rw [pushBlocker]
  simp only [hok₁, hok]

/-- **`handleReadIntent`** removes the intent from the reader's snapshot, or loses the priority
fight. -/
theorem handleReadIntent_spec (hk : k ∈ U) (hi : (a.cells k).intent = some (t, ts)) (hne : t ≠ id)
    (hle : ts ≤ tc.txn.readTimestamp) :
    (∃ err, tc.handleReadIntent k t = (.error (.retry err), tc)) ∨
    ∃ tc' a', tc.handleReadIntent k t = (.ok (), tc') ∧ Resolved U mem ops id tc tc' a a' := by
  obtain ⟨p, m, x, hp, hx, hm, htr, hnc, -⟩ := h.owner hi hne
  have hload : loadTxnRecord tc.engine t = .ok (some p) := by rw [h.rep.loadTxnRecord, hp]
  rw [handleReadIntent, hload]
  cases hst : p.status with
  | committed => exact absurd hst hnc
  | aborted =>
    right
    obtain ⟨tc', a', hok, hres, -⟩ :=
      finalizeForeignIntent_spec h hk hi hx (by rw [htr.record, hst])
    refine ⟨tc', a', ?_, hres⟩
    simp only [hst]
    exact hok
  | pending =>
    simp only [hst]
    split
    · split
      · right
        obtain ⟨tc', a', hok, hres, -⟩ := abortAndFinalize_spec h hk hi hx hne hp hst
        exact ⟨tc', a', hok, hres⟩
      · exact .inl ⟨_, rfl⟩
    · right
      obtain ⟨_, _, _, _, hself⟩ := h.self
      have hread := hself.held_read
      refine pushBlocker_spec h hk hi hne hp hst ?_ (hle.trans_lt ?_)
      · rw [hread]
        exact hself.valid_read.next hself.hasNext
      · rw [hread]
        exact lt_next hself.hasNext

end

end Conflicts

/-! ## Reading -/

section Read

omit [MetadataCodec] [RecordCodec] in
theorem Transaction.status_of_not_finalized {t : Transaction} (h : t.isFinalized = false) :
    t.status = .pending := by
  rw [isFinalized] at h
  cases hs : t.status <;> simp [hs] at h ⊢

variable {U : Set Bytes} {mem : TxnID → Option Transaction} {ops : TxnID → List Op} {id : TxnID}
  {tc : TxnCoordSender} {a : Store} {k : Bytes}

section

variable (h : RelAt U mem ops id tc a)
include h

theorem RelAt.valid_readTimestamp : Valid tc.txn.readTimestamp := by
  obtain ⟨_, _, _, _, hself⟩ := h.self
  rw [hself.held_read]
  exact hself.valid_read

theorem RelAt.id_eq : tc.txn.id = id := by
  obtain ⟨_, _, _, _, hself⟩ := h.self
  exact hself.held_id

omit [MetadataCodec] [RecordCodec] in
/-- The cache after a `Get`. -/
def Registered (tc tc' : TxnCoordSender) (k : Bytes) (order : List Bytes) : Prop :=
  tc'.tscache = tc.tscache ∨ tc'.tscache = (tc.registerRead k order).tscache

/-- **The loop of `Get`** returns what the cell shows, if it returns an answer. -/
theorem getLoop_spec (hk : k ∈ U) (order : List Bytes) (n : ℕ) :
    ∃ r tc' a', tc.getLoop k order n = (r, tc') ∧ Quiet id a a' ∧ RelAt U mem ops id tc' a' ∧
      tc'.txn = tc.txn ∧ Registered tc tc' k order ∧
      ∀ r', readResult r = some r' → (a'.cells k).Shows (some id) tc.txn.readTimestamp r' := by
  induction n generalizing tc a with
  | zero =>
    exact ⟨_, tc, a, rfl, .refl, h, rfl, .inl rfl, fun r' hr' ↦ absurd hr' (by simp [readResult])⟩
  | succ n ih =>
    have hget := h.rep.get hk h.valid_readTimestamp
      { txn := some tc.txn.id, maxTimestamp := tc.txn.maxTimestamp }
    rw [h.id_eq] at hget
    rw [getLoop, h.id_eq]
    rcases hget with ⟨t, its, hi, hne, hle, hget⟩ | ⟨u, -, -, -, hget⟩ | ⟨r, hshow, hget⟩
    · have hne' : t ≠ id := fun heq ↦ hne (by rw [heq])
      simp only [hget]
      rcases handleReadIntent_spec h hk hi hne' hle with ⟨err, herr⟩ | ⟨tc₁, a₁, hok, hres⟩
      · simp only [herr]
        exact ⟨_, tc, a, rfl, .refl, h, rfl, .inl rfl,
          fun r' hr' ↦ absurd hr' (by simp [readResult])⟩
      · simp only [hok]
        obtain ⟨r, tc', a', hloop, hquiet, hrel, htxn, hcache, hshow⟩ := ih hres.rel
        refine ⟨r, tc', a', hloop, hres.quiet.trans hquiet, hrel, htxn.trans hres.txn, ?_, ?_⟩
        · simpa only [Registered, registerRead, hres.tscache, hres.txn] using hcache
        · rw [hres.txn] at hshow
          exact hshow
    · simp only [hget]
      exact ⟨_, tc, a, rfl, .refl, h, rfl, .inl rfl, fun r' hr' ↦ absurd hr' (by simp [readResult])⟩
    · cases r with
      | none =>
        simp only [hget, Option.elim]
        refine ⟨_, tc, a, rfl, .refl, h, rfl, .inl rfl, fun r' hr' ↦ ?_⟩
        obtain rfl := Option.some.inj hr'
        exact hshow
      | some v =>
        simp only [hget, Option.elim]
        refine ⟨_, tc.registerRead k order, a, rfl, .refl, h, rfl, .inr rfl, fun r' hr' ↦ ?_⟩
        obtain rfl := Option.some.inj hr'
        exact hshow

/-- **`Get`** has no answer, or is a read of the store. -/
theorem get_spec (hk : k ∈ U) (order : List Bytes) :
    ∃ result tc' a₁, tc.get k order = (result, tc') ∧ Registered tc tc' k order ∧ Quiet id a a₁ ∧
      tc'.txn = tc.txn ∧
      (readResult result = none ∧ RelAt U mem ops id tc' a₁ ∨
        ∃ r a', readResult result = some r ∧ Step a₁ (.read id k r) a' ∧
          RelAt U mem (update ops id (ops id ++ [.read k r])) id tc' a') := by
  rw [TxnCoordSender.get]
  cases hfin : tc.txn.isFinalized with
  | true =>
    rw [if_pos rfl]
    exact ⟨_, tc, a, rfl, .inl rfl, .refl, rfl, .inl ⟨rfl, h⟩⟩
  | false =>
    rw [if_neg (by simp)]
    obtain ⟨result, tc', a₁, hloop, hquiet, hrel, htxn, hcache, hshow⟩ :=
      getLoop_spec h hk order maxWriteIntentResolutions
    refine ⟨result, tc', a₁, hloop, hcache, hquiet, htxn, ?_⟩
    cases hr : readResult result with
    | none => exact .inl ⟨rfl, hrel⟩
    | some r =>
      right
      obtain ⟨p, x, hp, hx, htr⟩ := hrel.self
      have hpend : x.held.status = .pending := by
        rw [htr.held, htxn, status_of_not_finalized hfin]
      have hshow' : (a₁.cells k).Shows (some id) x.read r := by
        rw [← htr.held_read, htxn]
        exact hshow r hr
      have hstep : Step a₁ (.read id k r) (a₁.setTxn id { x with ops := x.ops ++ [.read k r] }) :=
        .read hx hpend hshow'
      refine ⟨r, _, rfl, hstep, ?_⟩
      have htr' : TxnRel U id (ops id ++ [.read k r]) p tc'.txn
          { x with ops := x.ops ++ [.read k r] } :=
        { htr with
          ops_eq := by rw [htr.ops_eq]
          written := fun hw ↦ htr.written (by rwa [lastWrite_concat_read] at hw) }
      have hrel' : Rel U tc'.engine _ _ (a₁.setTxn id { x with ops := x.ops ++ [.read k r] }) :=
        hrel.setTxn hrel.rep hp (fun _ _ ↦ rfl) htr' (hrel.inv.step hstep) rfl
      rwa [update_idem] at hrel'

end

end Read

/-! ## Beginning -/

/-- **`Begin`** starts a transaction. -/
theorem begin_spec {U : Set Bytes} {e : Engine} {mem : TxnID → Option Transaction}
    {ops : TxnID → List Op} {a : Store} {id : TxnID} (h : Rel U e mem ops a) (hm : mem id = none)
    (hid : id.isZero = false) {clock : Clock} (hts : Valid clock.now.1)
    (hnext : clock.now.1.HasNext) (cache : Option Tscache.Cache) (iso : IsolationLevel)
    (priority : Int32) :
    ∃ tc' a', begin e clock cache iso id priority = (.ok (), tc') ∧
      Step a (.start id clock.now.1) a' ∧ RelAt U mem ops id tc' a' ∧ tc'.tscache = cache := by
  obtain ⟨hnone, hops⟩ := h.absent hm
  let x : Transaction.Txn Bytes Timestamp Bytes :=
    ⟨clock.now.1, ⟨.pending, clock.now.1⟩, ⟨.pending, clock.now.1⟩, []⟩
  let a' : Store := { a.setTxn id x with begun := a.begun ++ [id] }
  have hstep : Step a (.start id clock.now.1) a' := .start hnone
  let m : Transaction := {
    id := id, isolation := iso, readTimestamp := clock.now.1, writeTimestamp := clock.now.1
    maxTimestamp :=
      { wallTime := clock.now.1.wallTime + clock.now.2.maxOffset, logical := clock.now.1.logical }
    priority := priority, lastHeartbeat := clock.now.1 }
  obtain ⟨e', hok, hrep, hself, hother⟩ := h.rep.putTxnRecord m
  have htr : TxnRel U id [] m m x :=
    { record_id := rfl, held_id := rfl, nonzero := hid, ops_eq := rfl, record := rfl, held := rfl
      record_read := rfl, held_read := rfl, isolation := rfl
      keys := by rintro _ ⟨⟩
      written := by simp
      valid_read := hts, hasNext := hnext, valid_record := hts, valid_held := hts }
  refine ⟨{ engine := e', clock := clock.now.2, tscache := cache, txn := m }, _, ?_, hstep, ?_, rfl⟩
  · rw [begin]
    simp only [writeTxnRecord, putRecord]
    rw [show putTxnRecord e m = .ok e' from hok]
  · have hrel : Rel U e' (update mem id (some m)) (update ops id []) a' :=
      h.setTxn hrep hself hother htr (h.inv.step hstep) rfl
    rwa [← hops, update_eq_self] at hrel

end DucklingDB.Txn
