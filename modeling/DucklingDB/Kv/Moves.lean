import DucklingDB.Kv.Refinement

/-!
# The calls of a coordinator as moves

Writing, committing and aborting as moves of the store.
-/

namespace DucklingDB.Txn

open Hlc Mvcc DucklingDB.Transaction Function Timestamp TxnCoordSender List Option Transaction State

variable [MetadataCodec] [RecordCodec]

/-! ## Writing -/

section Write

variable {U : Set Bytes} {mem : TxnID → Option Transaction} {ops : TxnID → List Op} {id : TxnID}
  {tc tc' tc'' : TxnCoordSender} {a a' : Store} {k : Bytes} {ts : Timestamp}

/-- The coordinator has raised its write timestamp at most. -/
structure Bumped (tc tc' : TxnCoordSender) : Prop where
  txn : tc'.txn = { tc.txn with writeTimestamp := tc'.txn.writeTimestamp }
  le : tc.txn.writeTimestamp ≤ tc'.txn.writeTimestamp
  tscache : tc'.tscache = tc.tscache

/-- A quiet run of a call that has raised its write timestamp at most. -/
structure Readied (U : Set Bytes) (mem : TxnID → Option Transaction) (ops : TxnID → List Op)
    (id : TxnID) (tc tc' : TxnCoordSender) (a a' : Store) : Prop where
  quiet : Quiet id a a'
  rel : RelAt U mem ops id tc' a'
  bumped : Bumped tc tc'

theorem Readied.refl (h : RelAt U mem ops id tc a) : Readied U mem ops id tc tc a a :=
  ⟨.refl, h, rfl, le_rfl, rfl⟩

theorem Readied.trans {a'' : Store} (h : Readied U mem ops id tc tc' a a')
    (h' : Readied U mem ops id tc' tc'' a' a'') : Readied U mem ops id tc tc'' a a'' := by
  refine ⟨h.quiet.trans h'.quiet, h'.rel, ?_, h.bumped.le.trans h'.bumped.le,
    h'.bumped.tscache.trans h.bumped.tscache⟩
  rw [h'.bumped.txn, h.bumped.txn]

theorem Resolved.readied (h : Resolved U mem ops id tc tc' a a') :
    Readied U mem ops id tc tc' a a' :=
  ⟨h.quiet, h.rel, by rw [h.txn], by rw [h.txn], h.tscache⟩

theorem bumpWriteTimestampTo_spec (h : RelAt U mem ops id tc a) (hpend : tc.txn.status = .pending)
    (hts : Valid ts) : ∃ a', Readied U mem ops id tc (tc.bumpWriteTimestampTo ts) a a' ∧
      a'.cells = a.cells ∧ ts ≤ (tc.bumpWriteTimestampTo ts).txn.writeTimestamp := by
  rw [bumpWriteTimestampTo]
  split <;> rename_i hlt
  · rw [less_iff] at hlt
    obtain ⟨p, x, hp, hx, htr⟩ := h.self
    have hstep : Step a (.bump id ts)
        (a.setTxn id { x with held := { x.held with write := ts } }) :=
      .bump hx (by rw [htr.held, hpend]) (by rw [htr.held]; exact hlt.le)
    have htr' : TxnRel U id (ops id) p { tc.txn with writeTimestamp := ts }
        { x with held := { x.held with write := ts } } :=
      { htr with held := by rw [htr.held], valid_held := hts }
    have hrel := h.setHeld hp htr' hstep
    rw [update_idem] at hrel
    have hquiet : Move.IsQuiet id (.bump id ts : Move TxnID Bytes Timestamp Bytes) := rfl
    exact ⟨_, ⟨.single hquiet hstep, hrel, rfl, hlt.le, rfl⟩, rfl, le_rfl⟩
  · rw [less_iff, not_lt] at hlt
    exact ⟨a, .refl h, rfl, hlt⟩

/-- The outcome of the loop of `writeLocked`: it fails, or it lays the intent. -/
def WriteOutcome (U : Set Bytes) (mem : TxnID → Option Transaction) (ops : TxnID → List Op)
    (id : TxnID) (k : Bytes) (value : Option Bytes) (tc : TxnCoordSender) (a : Store)
    (out : Result Unit) : Prop :=
  ∃ tc₁ a₁, Readied U mem ops id tc tc₁ a a₁ ∧
    ((∃ err, out = (.error err, tc₁)) ∨
      ∃ e', out = (.ok (), { tc₁ with engine := e' }) ∧
        (a₁.cells k).Admits id tc₁.txn.writeTimestamp ∧
        Represents U e'
          (update a₁.cells k ((a₁.cells k).lay id tc₁.txn.writeTimestamp value)) ∧
        (∀ id', recordData e' id' = recordData tc₁.engine id') ∧
        ((a₁.cells k).owner = some id →
          a₁.cells k = a.cells k ∧ tc₁.txn.writeTimestamp = tc.txn.writeTimestamp))

theorem Readied.outcome {value : Option Bytes} {out : Result Unit}
    (h : Readied U mem ops id tc tc' a a') (hno : (a'.cells k).owner ≠ some id)
    (h' : WriteOutcome U mem ops id k value tc' a' out) :
    WriteOutcome U mem ops id k value tc a out := by
  obtain ⟨tc₁, a₁, hr, hout⟩ := h'
  refine ⟨tc₁, a₁, h.trans hr, hout.imp_right ?_⟩
  rintro ⟨e', hok, hadm, hrep, hrec, hown⟩
  refine ⟨e', hok, hadm, hrep, hrec, fun ho ↦ absurd ?_ hno⟩
  rw [← (hown ho).1, ho]

section

variable (h : RelAt U mem ops id tc a)
include h

theorem RelAt.valid_writeTimestamp : Valid tc.txn.writeTimestamp := by
  obtain ⟨_, _, _, _, hself⟩ := h.self
  exact hself.valid_held

theorem writeLoop_admitted (hk : k ∈ U) (value : Option Bytes)
    (hc : (a.cells k).Admits id tc.txn.writeTimestamp) (n : ℕ) :
    WriteOutcome U mem ops id k value tc a (tc.writeLoop k value (n + 1)) := by
  obtain ⟨_, _, _, _, hself⟩ := h.self
  obtain ⟨e', hok, hrep, hrec⟩ := h.rep.write hk hself.nonzero h.valid_writeTimestamp value hc
  refine ⟨tc, a, .refl h, .inr ⟨e', ?_, hc, hrep, hrec, fun _ ↦ ⟨rfl, rfl⟩⟩⟩
  rw [writeLoop, h.id_eq, hok]

theorem writeLoop_free (hpend : tc.txn.status = .pending) (hk : k ∈ U) (value : Option Bytes)
    (hi : (a.cells k).intent = none) (hnext : ∀ u, (a.cells k).stamp = some u → u.HasNext) (n : ℕ) :
    WriteOutcome U mem ops id k value tc a (tc.writeLoop k value (n + 2)) := by
  by_cases hlt : ∀ u, (a.cells k).stamp = some u → u < tc.txn.writeTimestamp
  · exact writeLoop_admitted h hk value (.inl ⟨hi, hlt⟩) (n + 1)
  · push Not at hlt
    obtain ⟨u, hu, hle⟩ := hlt
    have herr := h.rep.write_tooOld hk h.valid_writeTimestamp value id hi hu hle
    obtain ⟨a', hr, hcells, hge⟩ :=
      bumpWriteTimestampTo_spec h hpend ((h.rep.valid_stamp hk hu).next (hnext u hu))
    rw [writeLoop, h.id_eq, herr]
    have hcell : (a'.cells k).intent = none ∧ (a'.cells k).stamp = some u := by
      rw [hcells]
      exact ⟨hi, hu⟩
    refine hr.outcome (by simp [Cell.owner, hcell.1])
      (writeLoop_admitted hr.rel hk value (.inl ⟨hcell.1, fun u' hu' ↦ ?_⟩) n)
    obtain rfl := mem_unique hcell.2 hu'
    exact (lt_next (hnext u hu)).trans_le hge

/-- **The loop of `writeLocked`** fails, or lays the intent; it does not run out of attempts. -/
theorem writeLoop_spec (hpend : tc.txn.status = .pending) (hk : k ∈ U) (value : Option Bytes)
    (hnext : ∀ u, (a.cells k).stamp = some u → u.HasNext) (n : ℕ) :
    WriteOutcome U mem ops id k value tc a (tc.writeLoop k value (n + 3)) := by
  cases hi : (a.cells k).intent with
  | none => exact writeLoop_free h hpend hk value hi hnext (n + 1)
  | some owned =>
    obtain ⟨t, ts⟩ := owned
    by_cases hne : t = id
    · subst hne
      exact writeLoop_admitted h hk value (.inr ⟨ts, hi⟩) (n + 2)
    · have herr := h.rep.write_foreign hk h.valid_writeTimestamp value hi hne
      rw [writeLoop, h.id_eq, herr]
      rcases resolveForeignIntent_spec h hk hi hne with ⟨err, herr'⟩ |
        ⟨tc₁, a₁, hok, hres, prev, hprev, hcells⟩
      · simp only [herr']
        exact ⟨tc, a, .refl h, .inl ⟨_, rfl⟩⟩
      · simp only [hok]
        have hcell : (a₁.cells k).intent = none ∧ (a₁.cells k).stamp = prev := by
          rw [hcells, update_self, drop_eq hi]
          exact ⟨rfl, rfl⟩
        refine hres.readied.outcome (by simp [Cell.owner, hcell.1])
          (writeLoop_free hres.rel ?_ hk value hcell.1 (fun u hu ↦ ?_) n)
        · rw [hres.txn, hpend]
        · -- the version below the intent has a successor because the intent has one
          rcases hprev with ⟨u', _, rfl, hlt, -⟩ | ⟨rfl, -⟩
          · obtain rfl := mem_unique hcell.2 hu
            exact (hnext ts ((h.inv.cell k).intent hi).1).mono hlt.le
          · cases hcell.2.symm.trans hu

/-- The timestamps of a cache have successors. -/
abbrev Room (ts : Timestamp) : Prop := ts.Nonneg ∧ ts.HasNext

/-- `pushPastCachedRead` raises the write timestamp above the cached reads of the key. -/
theorem pushPastCachedRead_spec (hpend : tc.txn.status = .pending)
    (hcache : ∀ c, tc.tscache = some c → c.All Room) (k : Bytes) :
    ∃ a', Readied U mem ops id tc (tc.pushPastCachedRead k) a a' ∧ a'.cells = a.cells ∧
      ∀ c, tc.tscache = some c →
        (c.getMax k).next ≤ (tc.pushPastCachedRead k).txn.writeTimestamp := by
  rw [pushPastCachedRead]
  cases hc : tc.tscache with
  | none => exact ⟨a, .refl h, rfl, by simp⟩
  | some c =>
    obtain ⟨hnonneg, hnext⟩ := (hcache c hc).getMax k
    simp only [Option.some.injEq, forall_eq']
    split <;> rename_i hle
    · rw [lessEq_iff] at hle
      -- a cached read at or above a write timestamp is not the zero mark
      have hvalid : Valid (c.getMax k) := by
        refine ⟨hnonneg, fun heq ↦ ?_⟩
        rw [heq] at hle
        exact h.valid_writeTimestamp.2 (le_antisymm hle h.valid_writeTimestamp.1.empty_le)
      obtain ⟨a', hr, hcells, hge⟩ := bumpWriteTimestampTo_spec h hpend (hvalid.next hnext)
      exact ⟨a', hr, hcells, hge⟩
    · rw [lessEq_iff, not_le] at hle
      exact ⟨a, .refl h, rfl, h.valid_writeTimestamp.1.next_le hle⟩

end

omit [MetadataCodec] [RecordCodec] in
theorem Transaction.addIntentKey_eq (t : Transaction) (key : Bytes) :
    ∃ keys, t.addIntentKey key = { t with intentKeys := keys } ∧
      ∀ k, k ∈ keys ↔ k = key ∨ k ∈ t.intentKeys := by
  rw [addIntentKey]
  split
  · rename_i hin
    refine ⟨t.intentKeys, rfl, fun k ↦ ⟨Or.inr, ?_⟩⟩
    rintro (rfl | hk)
    · exact hin
    · exact hk
  · exact ⟨t.intentKeys ++ [key], rfl, fun k ↦ by simp [or_comm]⟩

/-- **`writeLocked`** fails, or is a write of the store. -/
theorem writeLocked_spec (h : RelAt U mem ops id tc a) (hk : k ∈ U) (value : Option Bytes)
    (hcache : ∀ c, tc.tscache = some c → c.All Room)
    (hnext : ∀ u, (a.cells k).stamp = some u → u.HasNext) :
    (∃ err tc' a', tc.writeLocked k value = (.error err, tc') ∧ Readied U mem ops id tc tc' a a') ∨
    ∃ tc' a₁ x₁ a', tc.writeLocked k value = (.ok (), tc') ∧ tc'.tscache = tc.tscache ∧
      Quiet id a a₁ ∧ a₁.txns id = some x₁ ∧ x₁.held.write = tc'.txn.writeTimestamp ∧
      (∀ c, tc.tscache = some c → (c.getMax k).next ≤ tc'.txn.writeTimestamp) ∧
      tc.txn.writeTimestamp ≤ tc'.txn.writeTimestamp ∧
      (tc.txn.isFinalized = false ∧ ((a₁.cells k).owner = some id → a₁.cells k = a.cells k ∧
        tc'.txn.writeTimestamp = (tc.pushPastCachedRead k).txn.writeTimestamp)) ∧
      Step a₁ (.write id k value) a' ∧
      RelAt U mem (update ops id (ops id ++ [.write k value])) id tc' a' := by
  have hdef := writeLocked.eq_1 tc k value
  cases hfin : tc.txn.isFinalized with
  | true =>
    rw [hfin, if_pos rfl] at hdef
    exact .inl ⟨_, tc, a, hdef, .refl h⟩
  | false =>
    rw [hfin, if_neg (by simp)] at hdef
    have hpend := status_of_not_finalized hfin
    obtain ⟨a₀, hr₀, hcells₀, hge₀⟩ := pushPastCachedRead_spec h hpend hcache k
    obtain ⟨tc₁, a₁, hr₁, hout⟩ : WriteOutcome U mem ops id k value (tc.pushPastCachedRead k) a₀
        ((tc.pushPastCachedRead k).writeLoop k value maxWriteIntentResolutions) := by
      refine writeLoop_spec hr₀.rel ?_ hk value (fun u hu ↦ ?_) 5
      · rw [hr₀.bumped.txn, hpend]
      · exact hnext u (hcells₀ ▸ hu)
    have hr := hr₀.trans hr₁
    rcases hout with ⟨err, hout⟩ | ⟨e', hout, hadm, hrep, hrecs, hown⟩
    · rw [hout] at hdef
      exact .inl ⟨err, tc₁, a₁, hdef, hr⟩
    · right
      rw [hout] at hdef
      -- the record is written over
      obtain ⟨keys, hadd, hkeys⟩ := tc₁.txn.addIntentKey_eq k
      obtain ⟨e'', hok, hrep'', hself'', hother''⟩ :=
        hrep.putTxnRecord { tc₁.txn with intentKeys := keys }
      have hok' : tc.writeLocked k value =
          (.ok (), { tc₁ with engine := e'', txn := { tc₁.txn with intentKeys := keys } }) := by
        rw [hdef]
        simp only [writeTxnRecord, putRecord, hadd, hok]
      obtain ⟨p₁, x₁, hp₁, hx₁, htr₁⟩ := hr.rel.self
      have hheld : x₁.held.status = .pending := by rw [htr₁.held, hr.bumped.txn, hpend]
      have hwrite : x₁.held.write = tc₁.txn.writeTimestamp := by rw [htr₁.held]
      have hstep : Step a₁ (.write id k value) _ := .write hx₁ hheld (hwrite.symm ▸ hadm)
      refine ⟨_, a₁, x₁, _, hok', hr.bumped.tscache, hr.quiet, hx₁, hwrite, fun c hc ↦ ?_,
        hr.bumped.le, ⟨rfl, fun ho ↦ ⟨(hown ho).1.trans (congrFun hcells₀ k), (hown ho).2⟩⟩,
        hstep, ?_⟩
      · exact (hge₀ c hc).trans hr₁.bumped.le
      · rw [htr₁.held_id] at hself'' hother''
        have htr' : TxnRel U id (ops id ++ [.write k value]) { tc₁.txn with intentKeys := keys }
            { tc₁.txn with intentKeys := keys }
            { x₁ with record := x₁.held, ops := x₁.ops ++ [.write k value] } :=
          { record_id := htr₁.held_id, held_id := htr₁.held_id, nonzero := htr₁.nonzero
            ops_eq := by rw [htr₁.ops_eq]
            record := htr₁.held, held := htr₁.held
            record_read := htr₁.held_read, held_read := htr₁.held_read, isolation := rfl
            keys := fun k' hk' ↦ by
              rcases (hkeys k').mp hk' with rfl | hk'
              · exact hk
              · exact htr₁.keys k' hk'
            written := fun {k' w} hw ↦ by
              refine (hkeys k').mpr ?_
              by_cases heq : k' = k
              · exact .inl heq
              · rw [lastWrite_concat_write_of_ne (Ne.symm heq)] at hw
                exact .inr (htr₁.written hw)
            valid_read := htr₁.valid_read, hasNext := htr₁.hasNext
            valid_record := htr₁.valid_held, valid_held := htr₁.valid_held }
        have hrel := hr.rel.setTxn (by rw [setCell_cells, hwrite]; exact hrep'') hself''
          (fun id' hne ↦ ?_) htr' (hr.rel.inv.step hstep) rfl
        · rwa [update_idem] at hrel
        · rw [hother'' id' hne, recordOf, hrecs, ← recordOf]

end Write

/-! ## Finishing -/

section Finish

variable {U : Set Bytes} {mem : TxnID → Option Transaction} {ops : TxnID → List Op} {id : TxnID}
  {tc : TxnCoordSender} {a : Store} {status : Mvcc.TxnStatus} {c : Timestamp}
  {f : Bytes → Cell TxnID Timestamp Bytes → Cell TxnID Timestamp Bytes}

/-- Resolving the intent of `id` on `k` in the way of `status` and `c` applies `f` to its cell. -/
def Resolves (U : Set Bytes) (id : TxnID) (status : Mvcc.TxnStatus) (c : Timestamp)
    (f : Bytes → Cell TxnID Timestamp Bytes → Cell TxnID Timestamp Bytes) (k : Bytes)
    (cell : Cell TxnID Timestamp Bytes) : Prop :=
  (f k cell).owner ≠ some id ∧ ∀ e cells, k ∈ U → cells k = cell → Represents U e cells →
    ∃ e', mvccResolveWriteIntent e k id status c = .ok e' ∧
      Represents U e' (update cells k (f k cell)) ∧
      ∀ id', recordData e' id' = recordData e id'

/-- **The loop of `resolveIntents`** resolves the intents on the listed keys. -/
theorem resolveKeys_spec {cells : Cells} (hid : tc.txn.id = id) (keys : List Bytes)
    (hkeys : ∀ k ∈ keys, k ∈ U) (hrep : Represents U tc.engine cells)
    (hf : ∀ k, (cells k).owner = some id → Resolves U id status c f k (cells k)) :
    ∃ e' cells', tc.resolveKeys status c keys = (.ok (), { tc with engine := e' }) ∧
      Represents U e' cells' ∧ (∀ id', recordData e' id' = recordData tc.engine id') ∧
      ∀ k, cells' k = if k ∈ keys ∧ (cells k).owner = some id then f k (cells k) else cells k := by
  induction keys generalizing tc cells with
  | nil =>
    refine ⟨tc.engine, cells, rfl, hrep, fun _ ↦ rfl, fun k ↦ ?_⟩
    rw [if_neg fun h ↦ by cases h.1]
  | cons key keys ih =>
    have hk := hkeys key (.head _)
    have hkeys' : ∀ k ∈ keys, k ∈ U := fun k hk ↦ hkeys k (.tail _ hk)
    rw [resolveKeys, hid]
    by_cases hown : (cells key).owner = some id
    · obtain ⟨hdone, hres⟩ := hf key hown
      obtain ⟨e₁, hok₁, hrep₁, hrec₁⟩ := hres tc.engine cells hk rfl hrep
      -- the resolved cell is none of the remaining ones
      have hcell : ∀ k, (update cells key (f key (cells key)) k).owner = some id →
          k ≠ key ∧ (cells k).owner = some id := by
        intro k hk
        by_cases heq : k = key
        · subst heq
          rw [update_self] at hk
          exact absurd hk hdone
        · rw [update_of_ne heq] at hk
          exact ⟨heq, hk⟩
      have hid₁ : ({ tc with engine := e₁ } : TxnCoordSender).txn.id = id := hid
      obtain ⟨e', cells', hok, hrep', hrec', hcells⟩ := ih hid₁ hkeys' hrep₁ fun k hk ↦ by
        obtain ⟨hne, hk⟩ := hcell k hk
        rw [update_of_ne hne]
        exact hf k hk
      simp only [hok₁]
      refine ⟨e', cells', hok, hrep', fun id' ↦ (hrec' id').trans (hrec₁ id'), fun k ↦ ?_⟩
      rw [hcells k]
      by_cases heq : k = key
      · subst heq
        rw [update_self, if_neg fun h ↦ hdone h.2, if_pos ⟨mem_cons_self, hown⟩]
      · rw [update_of_ne heq]
        simp only [mem_cons, heq, false_or]
    · rw [hrep.resolve_other hk hown]
      obtain ⟨e', cells', hok, hrep', hrec', hcells⟩ := ih hid hkeys' hrep hf
      refine ⟨e', cells', hok, hrep', hrec', fun k ↦ ?_⟩
      rw [hcells k]
      by_cases heq : k = key
      · subst heq
        rw [if_neg fun h ↦ hown h.2, if_neg fun h ↦ hown h.2]
      · simp only [mem_cons, heq, false_or]

variable {cell : Cell TxnID Timestamp Bytes} {ts : Timestamp}

theorem resolves_abort (hi : cell.intent = some (id, ts)) {prev : Bytes → Option Timestamp}
    {k : Bytes} (hp : Previous cell.versions ts (prev k)) (c : Timestamp) :
    Resolves U id .aborted c (fun k cell ↦ cell.drop (prev k)) k cell := by
  refine ⟨?_, fun e cells hk hcell hrep ↦ ?_⟩
  · simp only [drop_eq hi]
    simp [Cell.owner]
  · subst hcell
    obtain ⟨e', prev', hok, hp', hrep', hrec⟩ := hrep.resolve_abort hk hi c
    rw [hp'.unique hp] at hrep'
    exact ⟨e', hok, hrep', hrec⟩

theorem resolves_commit (hi : cell.intent = some (id, ts)) (hc : Valid c) (k : Bytes) :
    Resolves U id .committed c (fun _ cell ↦ cell.settle c) k cell := by
  refine ⟨?_, fun e cells hk hcell hrep ↦ ?_⟩
  · simp only [settle_eq hi]
    simp [Cell.owner]
  · subst hcell
    exact hrep.resolve_commit hk hi hc

section

variable (h : RelAt U mem ops id tc a)
include h

/-- A transaction has intents on listed keys only. -/
theorem RelAt.mem_intentKeys {k : Bytes} (hown : (a.cells k).owner = some id) :
    k ∈ tc.txn.intentKeys := by
  obtain ⟨p, x, -, hx, htr⟩ := h.self
  obtain ⟨ts, hi⟩ := owner_eq_some.mp hown
  obtain ⟨-, y, v, hy, -, hv, -⟩ := (h.inv.cell k).intent hi
  obtain rfl := mem_unique hx hy
  rw [htr.ops_eq] at hv
  exact htr.written hv

theorem finish_spec {x : Transaction.Txn Bytes Timestamp Bytes} {final : Transaction.Status}
    {w : Timestamp} (hx : a.txns id = some x) (keep : Transaction)
    (hkeep : keep =
      { tc.txn with writeTimestamp := w, priority := keep.priority, status := keep.status })
    (hw : Valid w) (context : String)
    (hf : ∀ k, (a.cells k).owner = some id → Resolves U id status c f k (a.cells k)) {mv a'}
    (ha' : a' = (a.setTxn id { x with record := ⟨final, w⟩, held := ⟨final, w⟩ }).mapOwned id f)
    (hstep : Step a mv a') :
    ∃ tc', { tc with txn := keep }.finish final context status c = (.ok (), tc') ∧
      RelAt U mem ops id tc' a' ∧ tc'.txn.writeTimestamp = w ∧ tc'.tscache = tc.tscache := by
  obtain ⟨p, x', hp, hx', htr⟩ := h.self
  obtain rfl := mem_unique hx hx'
  have hid : keep.id = id := by rw [hkeep]; exact htr.held_id
  -- the record
  let m' : Transaction := { keep with status := final, lastHeartbeat := tc.now.1 }
  obtain ⟨e₁, hok₁, hrep₁, hself₁, hother₁⟩ := h.rep.putTxnRecord m'
  have hself : recordOf e₁ id = some m' := by
    rw [← hid]
    exact hself₁
  have hother : ∀ id', id' ≠ id → recordOf e₁ id' = recordOf tc.engine id' := fun id' hne ↦
    hother₁ id' (by rw [show m'.id = id from hid]; exact hne)
  have hkeys : keep.intentKeys = tc.txn.intentKeys := by rw [hkeep]
  have hread : keep.readTimestamp = tc.txn.readTimestamp := by rw [hkeep]
  have hwrite : keep.writeTimestamp = w := by rw [hkeep]
  -- the intents
  have hid₁ : ({ tc.now.2 with engine := e₁, txn := m' } : TxnCoordSender).txn.id = id := hid
  obtain ⟨e', cells', hok, hrep', hrec', hcells⟩ := resolveKeys_spec hid₁ keep.intentKeys
    (fun k hk ↦ htr.keys k (hkeys ▸ hk)) hrep₁ hf
  have hall : cells' = a'.cells := by
    funext k
    rw [hcells k, ha', mapOwned_cells, setTxn_cells]
    by_cases hown : (a.cells k).owner = some id
    · rw [if_pos ⟨hkeys ▸ h.mem_intentKeys hown, hown⟩, if_pos hown]
    · rw [if_neg fun hc ↦ hown hc.2, if_neg hown]
  refine ⟨{ tc.now.2 with engine := e', txn := m' }, ?_, ?_, hwrite, rfl⟩
  · rw [finish]
    have hput : putTxnRecord tc.engine
        { keep with status := final, lastHeartbeat := tc.clock.now.1 } = .ok e₁ := hok₁
    simp only [now, writeTxnRecord, putRecord, hput, resolveIntents]
    exact hok
  · have htr' : TxnRel U id (ops id) m' m' { x with record := ⟨final, w⟩, held := ⟨final, w⟩ } :=
      { record_id := hid, held_id := hid, nonzero := htr.nonzero, ops_eq := htr.ops_eq
        record := by rw [← hwrite], held := by rw [← hwrite]
        record_read := hread.trans htr.held_read, held_read := hread.trans htr.held_read
        isolation := rfl
        keys := fun k hk ↦ htr.keys k (hkeys ▸ hk)
        written := fun hv ↦ by
          show _ ∈ keep.intentKeys
          rw [hkeys]
          exact htr.written hv
        valid_read := htr.valid_read, hasNext := htr.hasNext
        valid_record := by
          show Valid keep.writeTimestamp
          rw [hwrite]
          exact hw
        valid_held := by
          show Valid keep.writeTimestamp
          rw [hwrite]
          exact hw }
    have hrecs : ∀ id', recordOf e' id' = recordOf e₁ id' := fun id' ↦ by
      rw [recordOf, hrec', ← recordOf]
    have hrel := h.setTxn (hall ▸ hrep') ((hrecs id).trans hself)
      (fun id' hne ↦ (hrecs id').trans (hother id' hne)) htr' (h.inv.step hstep)
      (by rw [ha', mapOwned_txns, setTxn_txns])
    rwa [update_idem, update_eq_self] at hrel

theorem refreshRecord_eq {p : Transaction} (hp : recordOf tc.engine id = some p) :
    tc.refreshRecord = (.ok (), { tc with
      txn := { tc.txn with
        status := p.status, writeTimestamp := p.writeTimestamp, priority := p.priority } }) := by
  rw [refreshRecord, h.id_eq, h.rep.loadTxnRecord, hp]

/-- **`Abort`** is an abort of the store. -/
theorem abort_spec : tc.txn.isFinalized = true ∧ tc.abort = (.error .finalized, tc) ∨
    ∃ tc' a', tc.abort = (.ok (), tc') ∧ Step a (.abort id) a' ∧ RelAt U mem ops id tc' a' ∧
      tc'.tscache = tc.tscache := by
  rw [abort]
  cases hfin : tc.txn.isFinalized with
  | true => exact .inl ⟨rfl, if_pos rfl⟩
  | false =>
    right
    rw [if_neg (by simp)]
    obtain ⟨p, x, hp, hx, htr⟩ := h.self
    have hpend : x.held.status = .pending := by
      rw [htr.held, status_of_not_finalized hfin]
    have hwrite : x.record.write = p.writeTimestamp := by rw [htr.record]
    have hprev : ∀ k, ∃ prev, ∀ ts, (a.cells k).intent = some (id, ts) →
        Previous (a.cells k).versions ts prev := by
      intro k
      cases hi : (a.cells k).intent with
      | none => exact ⟨none, by simp⟩
      | some owned =>
        obtain ⟨t, its⟩ := owned
        by_cases hne : t = id
        · subst hne
          have hk := htr.keys k (h.mem_intentKeys (owner_eq_some.mpr ⟨its, hi⟩))
          obtain ⟨_, prev, -, hp, -⟩ := h.rep.resolve_abort hk hi {}
          refine ⟨prev, fun ts hts ↦ ?_⟩
          obtain rfl := congrArg Prod.snd (Option.some.inj hts)
          exact hp
        · exact ⟨none, fun ts hts ↦ absurd (congrArg Prod.fst (Option.some.inj hts)) hne⟩
    choose prev hprev using hprev
    have hstep : Step a (.abort id) _ := .abort hx hpend hprev
    rw [hwrite] at hstep
    obtain ⟨tc', hok, hrel, -, hcache⟩ := finish_spec h hx { tc.txn with
        status := p.status, writeTimestamp := p.writeTimestamp, priority := p.priority }
      rfl htr.valid_record "txn: abort record" (c := {})
      (fun k hown ↦ by
        obtain ⟨ts, hi⟩ := owner_eq_some.mp hown
        exact resolves_abort hi (hprev k ts hi) {}) rfl hstep
    refine ⟨tc', _, ?_, hstep, hrel, hcache⟩
    rw [refreshRecord_eq h hp]
    exact hok

end

omit [MetadataCodec] [RecordCodec] in
/-- The isolation level is in the way of a commit if it is `SSI` and the write timestamp was
pushed. -/
theorem checkCommitIsolation_eq_none : tc.checkCommitIsolation = none ↔
    (tc.txn.isolation = .SSI → tc.txn.writeTimestamp ≤ tc.txn.readTimestamp) := by
  rw [checkCommitIsolation, ← not_lt, ← less_iff]
  cases tc.txn.isolation with
  | SI => simp
  | SSI => simp

/-- **`Commit`** fails, at most refreshing the coordinator's copy, or is a commit of the store. It
fails only for a transaction that is finalized, was aborted by another one, or serializable and
pushed. -/
theorem commit_spec (h : RelAt U mem ops id tc a) :
    (∃ err tc' a', tc.commit = (.error err, tc') ∧ (a' = a ∨ Step a (.refresh id) a') ∧
      RelAt U mem ops id tc' a' ∧ tc'.tscache = tc.tscache ∧
      (tc.txn.isFinalized = true ∨ ∃ p, recordOf tc.engine id = some p ∧ (p.status = .aborted ∨
        ¬(tc.txn.isolation = .SSI → p.writeTimestamp ≤ tc.txn.readTimestamp)))) ∨
    ∃ tc' a' x, tc.commit = (.ok (), tc') ∧ Step a (.commit id) a' ∧ RelAt U mem ops id tc' a' ∧
      tc'.tscache = tc.tscache ∧ a.txns id = some x ∧ x.record.write = tc'.txn.writeTimestamp ∧
      (tc.txn.isolation = .SSI → x.record.write ≤ x.read) := by
  rw [commit]
  cases hfin : tc.txn.isFinalized with
  | true => exact .inl ⟨_, tc, a, if_pos rfl, .inl rfl, h, rfl, .inl rfl⟩
  | false =>
    rw [if_neg (by simp)]
    obtain ⟨p, x, hp, hx, htr⟩ := h.self
    rw [refreshRecord_eq h hp]
    have hpend : x.held.status = .pending := by
      rw [htr.held, status_of_not_finalized hfin]
    have hnc : p.status ≠ .committed := by
      intro hc
      have hrc : x.record.status = .committed := by rw [htr.record, hc]
      rw [(h.inv.txn hx).held_eq hrc, hrc] at hpend
      cases hpend
    have hwrite : x.record.write = p.writeTimestamp := by rw [htr.record]
    -- what a failed commit leaves behind
    have hrefresh : Step a (.refresh id) (a.setTxn id { x with held := x.record }) :=
      .refresh hx hpend
    have htr' : TxnRel U id (ops id) p { tc.txn with
        status := p.status, writeTimestamp := p.writeTimestamp, priority := p.priority }
        { x with held := x.record } :=
      { htr with held := htr.record, valid_held := htr.valid_record }
    have hrel := h.setHeld hp htr' hrefresh
    rw [update_idem] at hrel
    simp only
    split
    · rename_i hab
      exact .inl ⟨_, _, _, rfl, .inr hrefresh, hrel, rfl, .inr ⟨p, hp, .inl hab⟩⟩
    · rename_i hna
      have hrp : x.record.status = .pending := by
        rw [htr.record]
        cases hst : p.status with
        | pending => rfl
        | committed => exact absurd hst hnc
        | aborted => exact absurd hst hna
      split
      · rename_i err hiso
        have hpushed := checkCommitIsolation_eq_none.not.mp (by rw [hiso]; simp)
        exact .inl ⟨_, _, _, rfl, .inr hrefresh, hrel, rfl, .inr ⟨p, hp, .inr hpushed⟩⟩
      · rename_i hiso
        right
        have hres : ∀ k, (a.cells k).owner = some id → Resolves U id .committed p.writeTimestamp
            (fun _ cell ↦ cell.settle p.writeTimestamp) k (a.cells k) := by
          intro k hown
          obtain ⟨ts, hi⟩ := owner_eq_some.mp hown
          exact resolves_commit hi htr.valid_record k
        have hstep : Step a (.commit id) _ := .commit hx hpend hrp
        rw [hwrite] at hstep
        obtain ⟨tc', hok, hrel', hw', hcache⟩ := finish_spec h hx { tc.txn with
            status := p.status, writeTimestamp := p.writeTimestamp, priority := p.priority }
          rfl htr.valid_record "txn: commit record" hres rfl hstep
        refine ⟨tc', _, x, hok, hstep, hrel', hcache, hx, hwrite.trans hw'.symm, fun hssi ↦ ?_⟩
        have hle := checkCommitIsolation_eq_none.mp hiso hssi
        rw [htr.held_read] at hle
        exact hwrite.trans_le hle

end Finish

end DucklingDB.Txn
