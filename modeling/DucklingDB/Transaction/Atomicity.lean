import DucklingDB.Transaction.Spec

/-!
# Atomicity

Three invariants of the store, from the weakest to the strongest. In every run an intent is the last
write of its owner, which has not committed (`Inv`). If transactions rewrite their intents in place
only (`Strict`), then the versions of a cell that are not its intent are last writes of committed
transactions, each at the timestamp at which its transaction committed (`Clean`). If besides no
transaction writes after it was aborted (`Alive`), then a transaction keeps its intents until it
ends, so the last writes of a committed transaction are all there (`Complete`).

The invariants are stated cell by cell and transaction by transaction. Most steps change one
transaction and no cell, and `Evolves` says which changes a cell does not notice. An intent needs
room to be moved: the other versions of the cell lie below both copies of its owner's write
timestamp, so they lie below whatever the owner commits at.
-/

namespace DucklingDB.Transaction

open Option State

open Function (update update_apply update_of_ne update_self)

variable {ι κ τ ν : Type*}

/-! ## Cells -/

section Cells

variable {c : Cell ι τ ν} {t : ι} {ts : τ}

theorem owner_eq_some : c.owner = some t ↔ ∃ ts, c.intent = some (t, ts) := by
  rw [Cell.owner, map_eq_some_iff]
  constructor
  · rintro ⟨⟨t', ts⟩, h, rfl⟩
    exact ⟨ts, h⟩
  · rintro ⟨ts, h⟩
    exact ⟨(t, ts), h, rfl⟩

variable [DecidableEq τ]

theorem lay_of_ne {u : τ} (hne : u ≠ ts) {w : Option ν} :
    (c.lay t ts w).versions u = c.versions u :=
  update_of_ne hne ..

section

variable (h : c.intent = some (t, ts))
include h

theorem drop_eq (prev : Option τ) :
    c.drop prev = ⟨none, prev, update c.versions ts none⟩ := by
  simp only [Cell.drop, h]

theorem settle_eq (ts' : τ) :
    c.settle ts' = ⟨none, some ts', relocate c.versions ts ts'⟩ := by
  simp only [Cell.settle, h]

theorem push_eq (ts' : τ) :
    c.push ts' = ⟨some (t, ts'), some ts', relocate c.versions ts ts'⟩ := by
  simp only [Cell.push, h]

end

end Cells

/-! ## The invariant -/

variable [DecidableEq κ] [LinearOrder τ] {x : Txn κ τ ν}

/-- What holds of a transaction. -/
structure TxnInv (x : Txn κ τ ν) : Prop where
  held_eq : x.record.status = .committed → x.held = x.record
  committed : x.held.status = .committed → x.record.status = .committed
  aborted : x.held.status = .aborted → x.record.status = .aborted
  read_le_record : x.read ≤ x.record.write
  read_le_held : x.read ≤ x.held.write

/-- What holds of the cell `c` of `k`. -/
structure CellInv (txns : ι → Option (Txn κ τ ν)) (k : κ) (c : Cell ι τ ν) : Prop where
  /-- An intent is the last write of its owner, and what the stamp names. -/
  intent : ∀ {t ts}, c.intent = some (t, ts) → c.stamp = some ts ∧ ∃ x w, txns t = some x ∧
    x.record.status ≠ .committed ∧ lastWrite x.ops k = some w ∧ c.versions ts = some w ∧ x.read ≤ ts
  /-- The stamp names a version. -/
  stamp : ∀ {u}, c.stamp = some u → ∃ v, c.versions u = some v

/-- There is nothing in the cell `c` of `k` but committed writes, and an intent above them. -/
structure CellClean (txns : ι → Option (Txn κ τ ν)) (k : κ) (c : Cell ι τ ν) : Prop where
  /-- The other versions lie below an intent and what it can be committed at. -/
  room : ∀ {t ts x u v}, c.intent = some (t, ts) → txns t = some x → u ≠ ts →
    c.versions u = some v → u < ts ∧ u < x.record.write ∧ u < x.held.write
  /-- A version that is not the intent was committed. -/
  version : ∀ {u w}, c.versions u = some w → (∃ t, c.intent = some (t, u)) ∨
    ∃ t x, txns t = some x ∧ x.record = ⟨.committed, u⟩ ∧ lastWrite x.ops k = some w
  /-- The stamp names the newest version. -/
  newest : ∀ {u v}, c.versions u = some v → ∃ n, c.stamp = some n ∧ u ≤ n

/-- Nothing of the cell `c` of `k` is lost. -/
structure Kept (txns : ι → Option (Txn κ τ ν)) (k : κ) (c : Cell ι τ ν) : Prop where
  /-- What was committed is there. -/
  committed : ∀ {t x w}, txns t = some x → x.record.status = .committed →
    lastWrite x.ops k = some w →
      c.versions x.record.write = some w ∧ ∀ t', c.intent ≠ some (t', x.record.write)
  /-- A transaction that may still commit has kept its intents. -/
  pending : ∀ {t x w}, txns t = some x → x.held.status = .pending → x.record.status = .pending →
    lastWrite x.ops k = some w → ∃ ts, c.intent = some (t, ts)
  /-- Two transactions do not commit a key at one timestamp. -/
  unique : ∀ {t t' x x' w w'}, txns t = some x → txns t' = some x' → x.record.status = .committed →
    x'.record.status = .committed → lastWrite x.ops k = some w → lastWrite x'.ops k = some w' →
      x.record.write = x'.record.write → t = t'

/-- The invariant of the store. -/
structure Inv (s : State ι κ τ ν) : Prop where
  txn : ∀ {t x}, s.txns t = some x → TxnInv x
  cell : ∀ k, CellInv s.txns k (s.cells k)

/-- There is nothing in the store but committed writes and intents. -/
def Clean (s : State ι κ τ ν) : Prop := ∀ k, CellClean s.txns k (s.cells k)

/-- Nothing is lost. -/
def Complete (s : State ι κ τ ν) : Prop := ∀ k, Kept s.txns k (s.cells k)

theorem inv_init : Inv ({} : State ι κ τ ν) := by
  constructor
  · intro t x h
    cases h
  · intro k
    exact ⟨by simp, by simp⟩

theorem clean_init : Clean ({} : State ι κ τ ν) := fun _ ↦ ⟨by simp, by simp, by simp⟩

omit [LinearOrder τ] in
theorem complete_init : Complete ({} : State ι κ τ ν) := fun _ ↦ ⟨by simp, by simp, by simp⟩

omit [DecidableEq κ] in
/-- A coordinator that thinks its transaction is pending knows that it has not committed. -/
theorem TxnInv.not_committed (h : TxnInv x) (hh : x.held.status = .pending) :
    x.record.status ≠ .committed := by
  intro hc
  rw [h.held_eq hc, hc] at hh
  cases hh

omit [DecidableEq κ] in
/-- And that it is pending unless another transaction has aborted it. -/
theorem TxnInv.pending (h : TxnInv x) (hh : x.held.status = .pending)
    (ha : x.record.status ≠ .aborted) : x.record.status = .pending := by
  cases hst : x.record.status with
  | pending => rfl
  | committed => exact absurd hst (h.not_committed hh)
  | aborted => exact absurd hst ha

/-! ## Steps that change a cell -/

section Change

variable {txns : ι → Option (Txn κ τ ν)} {k : κ} {c : Cell ι τ ν} {t : ι} {ts w : τ} {x : Txn κ τ ν}
  {prev : Option τ}

/-- A version beside the intent was committed. -/
theorem CellClean.version_of_ne (h : CellClean txns k c) (hi : c.intent = some (t, ts)) {u : τ}
    {v : Option ν} (hv : c.versions u = some v) (hne : u ≠ ts) :
    ∃ t x, txns t = some x ∧ x.record = ⟨.committed, u⟩ ∧ lastWrite x.ops k = some v := by
  refine (h.version hv).resolve_left ?_
  rintro ⟨t', hi'⟩
  obtain rfl := congrArg Prod.snd (mem_unique hi hi')
  exact hne rfl

/-- The timestamp of a committed write lies below an intent and what it can be committed at. -/
theorem Kept.committed_lt (hk : Kept txns k c) (h : CellClean txns k c)
    (hi : c.intent = some (t, ts)) (hx : txns t = some x) {t' : ι} {y : Txn κ τ ν} {v : Option ν}
    (hy : txns t' = some y)
    (hc : y.record.status = .committed) (hv : lastWrite y.ops k = some v) :
    y.record.write ≠ ts ∧ y.record.write < ts ∧ y.record.write < x.record.write := by
  obtain ⟨hver, hno⟩ := hk.committed hy hc hv
  have hne : y.record.write ≠ ts := fun heq ↦ hno t (heq ▸ hi)
  exact ⟨hne, (h.room hi hx hne hver).1, (h.room hi hx hne hver).2.1⟩

theorem CellInv.push (h : CellInv txns k c) (hi : c.intent = some (t, ts)) (hw : ts < w) :
    CellInv txns k (c.push w) := by
  obtain ⟨-, x, v, hx, hnc, hv, hver, hle⟩ := h.intent hi
  have hnew : relocate c.versions ts w w = some v := relocate_eq_some.mpr (.inl ⟨rfl, hver⟩)
  rw [push_eq hi]
  constructor
  · intro t' ts' hi'
    obtain ⟨rfl, rfl⟩ := Prod.mk.inj (Option.some.inj hi')
    exact ⟨rfl, x, v, hx, hnc, hv, hnew, hle.trans hw.le⟩
  · intro u hu
    obtain rfl := Option.some.inj hu
    exact ⟨v, hnew⟩

theorem CellClean.push (h : CellClean txns k c) (hi : c.intent = some (t, ts))
    (hx : txns t = some x) (hw : ts < w) : CellClean txns k (c.push w) := by
  rw [push_eq hi]
  refine ⟨fun {t' ts' x' u v} hi' hx' hne hu ↦ ?_, fun {u v} hu ↦ ?_, fun {u v} hu ↦ ⟨w, rfl, ?_⟩⟩
  · obtain ⟨rfl, rfl⟩ := Prod.mk.inj (Option.some.inj hi')
    obtain ⟨rfl, -⟩ | ⟨-, hne', hu⟩ := relocate_eq_some.mp hu
    · exact absurd rfl hne
    · obtain ⟨h₁, h₂⟩ := h.room hi hx' hne' hu
      exact ⟨h₁.trans hw, h₂⟩
  · obtain ⟨rfl, -⟩ | ⟨-, hne, hu⟩ := relocate_eq_some.mp hu
    · exact .inl ⟨t, rfl⟩
    · exact .inr (h.version_of_ne hi hu hne)
  · obtain ⟨rfl, -⟩ | ⟨-, hne, hu⟩ := relocate_eq_some.mp hu
    · exact le_rfl
    · exact ((h.room hi hx hne hu).1.trans hw).le

theorem Kept.push (hk : Kept txns k c) (h : CellClean txns k c) (hi : c.intent = some (t, ts))
    (hx : txns t = some x) (hw : ts < w) : Kept txns k (c.push w) := by
  rw [push_eq hi]
  refine ⟨fun {t' y v'} hy hc hv' ↦ ?_, fun {t' y v'} hy hh hr hv' ↦ ?_, hk.unique⟩
  · obtain ⟨hne, hlt, -⟩ := hk.committed_lt h hi hx hy hc hv'
    have hnew : y.record.write ≠ w := (hlt.trans hw).ne
    refine ⟨relocate_eq_some.mpr (.inr ⟨hnew, hne, (hk.committed hy hc hv').1⟩), fun t' hi' ↦ ?_⟩
    exact hnew (congrArg Prod.snd (Option.some.inj hi')).symm
  · obtain ⟨ts', hi'⟩ := hk.pending hy hh hr hv'
    obtain ⟨rfl, -⟩ := Prod.mk.inj (mem_unique hi hi')
    exact ⟨w, rfl⟩

theorem CellInv.drop (hi : c.intent = some (t, ts)) (hp : Previous c.versions ts prev) :
    CellInv txns k (c.drop prev) := by
  rw [drop_eq hi]
  refine ⟨by simp, fun {u} hu ↦ ?_⟩
  rcases hp with ⟨u', v, rfl, hlt, hv, -⟩ | ⟨rfl, -⟩
  · obtain rfl := Option.some.inj hu
    exact ⟨v, (update_of_ne hlt.ne ..).trans hv⟩
  · cases hu

theorem CellClean.drop (h : CellClean txns k c) (hi : c.intent = some (t, ts))
    (hx : txns t = some x) (hp : Previous c.versions ts prev) : CellClean txns k (c.drop prev) := by
  rw [drop_eq hi]
  refine ⟨by simp, fun {u v} hu ↦ ?_, fun {u v} hu ↦ ?_⟩
  · obtain ⟨hne, hu⟩ := update_none_eq_some.mp hu
    exact .inr (h.version_of_ne hi hu hne)
  · obtain ⟨hne, hver⟩ := update_none_eq_some.mp hu
    have hlt := (h.room hi hx hne hver).1
    rcases hp with ⟨n, -, rfl, -, -, hmax⟩ | ⟨-, hnone⟩
    · exact ⟨n, rfl, hmax u v hlt hver⟩
    · cases (hnone u hlt).symm.trans hver

theorem Kept.drop (hk : Kept txns k c) (h : CellClean txns k c) (hi : c.intent = some (t, ts))
    (hx : txns t = some x) (ha : x.record.status = .aborted) (prev : Option τ) :
    Kept txns k (c.drop prev) := by
  rw [drop_eq hi]
  refine ⟨fun {t' y v} hy hc hv ↦ ?_, fun {t' y v} hy hh hr hv ↦ ?_, hk.unique⟩
  · obtain ⟨hne, -⟩ := hk.committed_lt h hi hx hy hc hv
    exact ⟨update_none_eq_some.mpr ⟨hne, (hk.committed hy hc hv).1⟩, by simp⟩
  · -- a pending transaction would have the intent
    obtain ⟨ts', hi'⟩ := hk.pending hy hh hr hv
    obtain ⟨rfl, -⟩ := Prod.mk.inj (mem_unique hi hi')
    obtain rfl := mem_unique hx hy
    rw [ha] at hr
    cases hr

end Change

/-! ## Steps that change a transaction -/

/-- `x` may become `x'` without the cell of `k` noticing. -/
structure Evolves (k : κ) (x x' : Txn κ τ ν) : Prop where
  read : x'.read = x.read
  lastWrite : lastWrite x'.ops k = lastWrite x.ops k
  committed : x.record.status = .committed ∨ x'.record.status = .committed → x'.record = x.record
  room : ∀ u, u < x.record.write → u < x.held.write → u < x'.record.write ∧ u < x'.held.write

/-- `x'` is no more alive than `x` was. -/
def Declines (x x' : Txn κ τ ν) : Prop :=
  x'.held.status = .pending → x'.record.status = .pending →
    x.held.status = .pending ∧ x.record.status = .pending

variable [DecidableEq ι]

section Evolve

variable {s : State ι κ τ ν} {txns : ι → Option (Txn κ τ ν)} {k : κ} {c : Cell ι τ ν} {t : ι}
  {x x' : Txn κ τ ν}

variable {t' : ι} {y : Txn κ τ ν}

omit [DecidableEq κ] [LinearOrder τ] in
theorem update_txn (h : update txns t (some x') t' = some y) :
    t' = t ∧ y = x' ∨ t' ≠ t ∧ txns t' = some y := by
  rw [update_apply] at h
  split at h
  · rename_i heq
    exact .inl ⟨heq, (Option.some.inj h).symm⟩
  · rename_i hne
    exact .inr ⟨hne, h⟩

theorem Evolves.refl (k : κ) (x : Txn κ τ ν) : Evolves k x x :=
  ⟨rfl, rfl, fun _ ↦ rfl, fun _ h₁ h₂ ↦ ⟨h₁, h₂⟩⟩

/-- What is known of a transaction that evolved: it is as before, or it has evolved. -/
theorem Evolves.cases (he : Evolves k x x') (hx : txns t = some x)
    (h : update txns t (some x') t' = some y) :
    ∃ y', txns t' = some y' ∧ Evolves k y' y := by
  rcases update_txn h with ⟨rfl, rfl⟩ | ⟨-, h'⟩
  · exact ⟨x, hx, he⟩
  · exact ⟨y, h', .refl k y⟩

theorem Evolves.exists (he : Evolves k x x') (hx : txns t = some x) (h : txns t' = some y) :
    ∃ y', update txns t (some x') t' = some y' ∧ Evolves k y y' := by
  by_cases heq : t' = t
  · subst heq
    obtain rfl := mem_unique hx h
    exact ⟨x', update_self .., he⟩
  · exact ⟨y, (update_of_ne heq ..).trans h, .refl k y⟩

theorem CellInv.evolve (h : CellInv txns k c) (he : Evolves k x x') (hx : txns t = some x) :
    CellInv (update txns t (some x')) k c := by
  refine ⟨fun {t' ts} hi ↦ ?_, h.stamp⟩
  obtain ⟨hst, y, w, hy, hnc, hw, hv, hle⟩ := h.intent hi
  obtain ⟨y', hy', he'⟩ := he.exists hx hy
  refine ⟨hst, y', w, hy', fun hc ↦ hnc ?_, he'.lastWrite.trans hw, hv, he'.read.le.trans hle⟩
  rw [← he'.committed (.inr hc), hc]

theorem CellClean.evolve (h : CellClean txns k c) (he : Evolves k x x') (hx : txns t = some x) :
    CellClean (update txns t (some x')) k c := by
  refine ⟨fun {t' ts y u v} hi hy hne hu ↦ ?_, fun {u w} hv ↦ (h.version hv).imp_right ?_, h.newest⟩
  · obtain ⟨y', hy', he'⟩ := he.cases hx hy
    obtain ⟨h₁, h₂, h₃⟩ := h.room hi hy' hne hu
    exact ⟨h₁, he'.room u h₂ h₃⟩
  · rintro ⟨t', y, hy, hr, hw⟩
    obtain ⟨y', hy', he'⟩ := he.exists hx hy
    exact ⟨t', y', hy', (he'.committed (.inl (by rw [hr]))).trans hr, he'.lastWrite.trans hw⟩

theorem Kept.evolve (hk : Kept txns k c) (he : Evolves k x x') (hd : Declines x x')
    (hx : txns t = some x) : Kept (update txns t (some x')) k c := by
  refine ⟨fun {t' y w} hy hc hw ↦ ?_, fun {t' y w} hy hh hr hw ↦ ?_,
    fun {t₁ t₂ y₁ y₂ w₁ w₂} hy₁ hy₂ hc₁ hc₂ hw₁ hw₂ heq ↦ ?_⟩
  · obtain ⟨y', hy', he'⟩ := he.cases hx hy
    have hrec := he'.committed (.inr hc)
    rw [hrec] at hc ⊢
    exact hk.committed hy' hc (he'.lastWrite ▸ hw)
  · rcases update_txn hy with ⟨rfl, rfl⟩ | ⟨-, hy⟩
    · obtain ⟨hh', hr'⟩ := hd hh hr
      exact hk.pending hx hh' hr' (he.lastWrite ▸ hw)
    · exact hk.pending hy hh hr hw
  · obtain ⟨y₁', hy₁', he₁⟩ := he.cases hx hy₁
    obtain ⟨y₂', hy₂', he₂⟩ := he.cases hx hy₂
    have hrec₁ := he₁.committed (.inr hc₁)
    have hrec₂ := he₂.committed (.inr hc₂)
    rw [hrec₁] at hc₁ heq
    rw [hrec₂] at hc₂ heq
    exact hk.unique hy₁' hy₂' hc₁ hc₂ (he₁.lastWrite ▸ hw₁) (he₂.lastWrite ▸ hw₂) heq

theorem Inv.txn_update (h : Inv s) (hinv : TxnInv x) (hy : update s.txns t (some x) t' = some y) :
    TxnInv y := by
  rcases update_txn hy with ⟨-, rfl⟩ | ⟨-, hy⟩
  · exact hinv
  · exact h.txn hy

omit [DecidableEq κ] [LinearOrder τ] in
theorem update_of_none (ht : txns t = none) (hy : txns t' = some y) :
    update txns t (some x) t' = some y := by
  rw [update_of_ne, hy]
  rintro rfl
  rw [ht] at hy
  cases hy

theorem CellInv.insert (h : CellInv txns k c) (ht : txns t = none) :
    CellInv (update txns t (some x)) k c := by
  refine ⟨fun {t' ts} hi ↦ ?_, h.stamp⟩
  obtain ⟨hst, y, w, hy, hrest⟩ := h.intent hi
  exact ⟨hst, y, w, update_of_none ht hy, hrest⟩

theorem CellClean.insert (hc : CellClean txns k c) (h : CellInv txns k c) (ht : txns t = none) :
    CellClean (update txns t (some x)) k c := by
  refine ⟨fun {t' ts y u v} hi hy hne hu ↦ ?_, fun {u w} hv ↦ (hc.version hv).imp_right ?_,
    hc.newest⟩
  · obtain ⟨-, y', _, hy', -⟩ := h.intent hi
    obtain rfl := mem_unique (update_of_none ht hy') hy
    exact hc.room hi hy' hne hu
  · rintro ⟨t', y, hy, hrest⟩
    exact ⟨t', y, update_of_none ht hy, hrest⟩

omit [DecidableEq κ] [LinearOrder τ] in
/-- An update leaves a transaction alone whose record has another status. -/
theorem update_of_status (hx : txns t = some x) (hy : txns t' = some y)
    (hne : y.record.status ≠ x.record.status) : update txns t (some x') t' = some y := by
  rw [update_of_ne, hy]
  rintro rfl
  exact hne (mem_unique hx hy ▸ rfl)

omit [LinearOrder τ] in
theorem update_of_lastWrite (hw : lastWrite x.ops k = none) {w : Option ν}
    (hy : update txns t (some x) t' = some y) (hyw : lastWrite y.ops k = some w) :
    txns t' = some y := by
  rcases update_txn hy with ⟨-, rfl⟩ | ⟨-, hy⟩
  · rw [hw] at hyw
    cases hyw
  · exact hy

omit [LinearOrder τ] in
theorem Kept.update (hk : Kept txns k c) (hw : lastWrite x.ops k = none) :
    Kept (update txns t (some x)) k c :=
  ⟨fun hy hc hyw ↦ hk.committed (update_of_lastWrite hw hy hyw) hc hyw,
    fun hy hh hr hyw ↦ hk.pending (update_of_lastWrite hw hy hyw) hh hr hyw,
    fun hy hy' hc hc' hyw hyw' ↦ hk.unique (update_of_lastWrite hw hy hyw)
      (update_of_lastWrite hw hy' hyw') hc hc' hyw hyw'⟩

end Evolve

/-! ## Writing and finishing -/

section Finish

variable {s s' : State ι κ τ ν} {txns : ι → Option (Txn κ τ ν)} {k : κ} {c : Cell ι τ ν} {t : ι}
  {x : Txn κ τ ν}

theorem CellInv.lay (hinv : TxnInv x) (hh : x.held.status = .pending) (w : Option ν) :
    CellInv (update txns t (some { x with record := x.held, ops := x.ops ++ [.write k w] })) k
      (c.lay t x.held.write w) := by
  constructor
  · intro t' ts hi'
    obtain ⟨rfl, rfl⟩ := Prod.mk.inj (Option.some.inj hi')
    exact ⟨rfl, _, w, update_self .., by simp [hh], lastWrite_concat_write w,
      update_self .., hinv.read_le_held⟩
  · intro u hu
    obtain rfl := Option.some.inj hu
    exact ⟨w, update_self ..⟩

variable {ts : τ}

omit [DecidableEq ι] in
/-- The versions of a clean cell lie below a write that it admits, but for an intent at the very
timestamp of the write. -/
theorem CellClean.lt_of_admits (h : CellClean txns k c) (hx : txns t = some x) {u : τ}
    (hc : c.Admits t ts) (hs : ∀ ts', c.intent = some (t, ts') → ts' = ts) {v : Option ν}
    (hne : u ≠ ts) (hu : c.versions u = some v) : u < ts ∧ ∀ t', c.intent ≠ some (t', u) := by
  rcases hc with ⟨hi, hlt⟩ | ⟨ts', hi⟩
  · obtain ⟨n, hn, hle⟩ := h.newest hu
    exact ⟨hle.trans_lt (hlt n hn), fun t' hi' ↦ by cases hi.symm.trans hi'⟩
  · obtain rfl := hs ts' hi
    refine ⟨(h.room hi hx hne hu).1, fun t' hi' ↦ hne ?_⟩
    exact congrArg Prod.snd (mem_unique hi' hi)

theorem CellClean.lay (h : CellClean txns k c) (hinv : TxnInv x) (hx : txns t = some x)
    (hh : x.held.status = .pending) (hc : c.Admits t x.held.write)
    (hs : ∀ ts', c.intent = some (t, ts') → ts' = x.held.write) (w : Option ν) :
    CellClean (update txns t (some { x with record := x.held, ops := x.ops ++ [.write k w] }))
      k (c.lay t x.held.write w) := by
  refine ⟨fun {t' ts y u v} hi' hy hne hu ↦ ?_, fun {u v} hu ↦ ?_, fun {u v} hu ↦ ⟨_, rfl, ?_⟩⟩
  · obtain ⟨rfl, rfl⟩ := Prod.mk.inj (Option.some.inj hi')
    rw [lay_of_ne hne] at hu
    have hlt := (h.lt_of_admits hx hc hs hne hu).1
    rcases update_txn hy with ⟨-, rfl⟩ | ⟨hne', -⟩
    · exact ⟨hlt, hlt, hlt⟩
    · exact absurd rfl hne'
  · by_cases heq : u = x.held.write
    · subst heq
      exact .inl ⟨t, rfl⟩
    · rw [lay_of_ne heq] at hu
      obtain ⟨t', y, hy, hyr, hyw⟩ := (h.version hu).resolve_left fun ⟨t', hi'⟩ ↦
        (h.lt_of_admits hx hc hs heq hu).2 t' hi'
      -- the writer has not committed
      have hne := hinv.not_committed hh
      exact .inr ⟨t', y, update_of_status hx hy (by simp [hyr, hne.symm]), hyr, hyw⟩
  · by_cases heq : u = x.held.write
    · exact heq.le
    · rw [lay_of_ne heq] at hu
      exact (h.lt_of_admits hx hc hs heq hu).1.le

theorem Kept.lay (hk : Kept txns k c) (h : CellClean txns k c) (hh : x.held.status = .pending)
    (hc : c.Admits t x.held.write) (hs : ∀ ts', c.intent = some (t, ts') → ts' = x.held.write)
    (w : Option ν) :
    Kept (Function.update txns t (some { x with record := x.held, ops := x.ops ++ [.write k w] })) k
      (c.lay t x.held.write w) := by
  -- a committed transaction is another one
  have hold : ∀ {t' y}, Function.update txns t (some { x with
      record := x.held, ops := x.ops ++ [.write k w] }) t' = some y →
        y.record.status = .committed → txns t' = some y := by
    intro t' y hy hyc
    rcases update_txn hy with ⟨-, rfl⟩ | ⟨-, hy⟩
    · rw [hh] at hyc
      cases hyc
    · exact hy
  refine ⟨fun {t' y v} hy hyc hyw ↦ ?_, fun {t' y v} hy hyh hyr hyw ↦ ?_,
    fun hy hy' hyc hyc' ↦ hk.unique (hold hy hyc) (hold hy' hyc') hyc hyc'⟩
  · obtain ⟨hver, hno⟩ := hk.committed (hold hy hyc) hyc hyw
    have hne : y.record.write ≠ x.held.write := by
      intro heq
      rcases hc with ⟨-, hlt⟩ | ⟨ts', hi⟩
      · obtain ⟨n, hn, hle⟩ := h.newest hver
        exact (hle.trans_lt (hlt n hn)).ne heq
      · exact hno t (heq ▸ hs ts' hi ▸ hi)
    refine ⟨(update_of_ne hne ..).trans hver, fun t' hi' ↦ hne ?_⟩
    exact (congrArg Prod.snd (Option.some.inj hi')).symm
  · rcases update_txn hy with ⟨rfl, -⟩ | ⟨hne, hy⟩
    · exact ⟨_, rfl⟩
    · -- no other transaction has the intent
      obtain ⟨ts, hi'⟩ := hk.pending hy hyh hyr hyw
      rcases hc with ⟨hi, -⟩ | ⟨ts', hi⟩
      · cases hi.symm.trans hi'
      · exact absurd (congrArg Prod.fst (mem_unique hi' hi)) hne

variable {x' : Txn κ τ ν} {P : κ → Cell ι τ ν → Prop}

/-- The cell of a key that a committing transaction has an intent on. -/
theorem CellInv.settle (h : CellInv txns k c) (hi : c.intent = some (t, ts)) {u : τ} :
    CellInv (update txns t (some x')) k (c.settle u) := by
  obtain ⟨-, _, v, -, -, -, hver, -⟩ := h.intent hi
  rw [settle_eq hi]
  refine ⟨by simp, fun {u'} hu ↦ ?_⟩
  obtain rfl := Option.some.inj hu
  exact ⟨v, relocate_eq_some.mpr (.inl ⟨rfl, hver⟩)⟩

theorem CellClean.settle (hc : CellClean txns k c) (h : CellInv txns k c) (hx : txns t = some x)
    (hr : x.record.status = .pending) (hi : c.intent = some (t, ts)) :
    CellClean (update txns t (some { x with
      record := ⟨.committed, x.record.write⟩, held := ⟨.committed, x.record.write⟩ })) k
      (c.settle x.record.write) := by
  obtain ⟨-, x', w, hx', -, hw, hver, -⟩ := h.intent hi
  obtain rfl := mem_unique hx hx'
  rw [settle_eq hi]
  refine ⟨by simp, fun {u v} hu ↦ .inr ?_, fun {u v} hu ↦ ⟨_, rfl, ?_⟩⟩
  · obtain ⟨rfl, hu'⟩ | ⟨-, hne, hu⟩ := relocate_eq_some.mp hu
    · obtain rfl := mem_unique hver hu'
      exact ⟨t, _, update_self .., rfl, hw⟩
    · obtain ⟨t', y, hy, hyr, hyw⟩ := hc.version_of_ne hi hu hne
      exact ⟨t', y, update_of_status hx hy (by simp [hyr, hr]), hyr, hyw⟩
  · obtain ⟨rfl, -⟩ | ⟨-, hne, hu⟩ := relocate_eq_some.mp hu
    · exact le_rfl
    · exact (hc.room hi hx hne hu).2.1.le

theorem Kept.settle (hk : Kept txns k c) (hc : CellClean txns k c) (h : CellInv txns k c)
    (hx : txns t = some x) (hi : c.intent = some (t, ts)) :
    Kept (Function.update txns t (some { x with
      record := ⟨.committed, x.record.write⟩, held := ⟨.committed, x.record.write⟩ })) k
      (c.settle x.record.write) := by
  obtain ⟨-, x', w, hx', -, hw, hver, -⟩ := h.intent hi
  obtain rfl := mem_unique hx hx'
  rw [settle_eq hi]
  -- the committed writes of the others stay where they are
  have hothers : ∀ {t' y v}, txns t' = some y → y.record.status = .committed →
      lastWrite y.ops k = some v → y.record.write ≠ x.record.write ∧
        relocate c.versions ts x.record.write y.record.write = some v := by
    intro t' y v hy hyc hyw
    obtain ⟨hne, -, hlt⟩ := hk.committed_lt hc hi hx hy hyc hyw
    exact ⟨hlt.ne, relocate_eq_some.mpr (.inr ⟨hlt.ne, hne, (hk.committed hy hyc hyw).1⟩)⟩
  refine ⟨fun {t' y v} hy hyc hyw ↦ ⟨?_, by simp⟩,
    fun {t' y v} hy hyh hyr hyw ↦ ?_, fun {t₁ t₂ y₁ y₂ v₁ v₂} hy₁ hy₂ hc₁ hc₂ hw₁ hw₂ heq ↦ ?_⟩
  · rcases update_txn hy with ⟨rfl, rfl⟩ | ⟨-, hy⟩
    · obtain rfl := mem_unique hw hyw
      exact relocate_eq_some.mpr (.inl ⟨rfl, hver⟩)
    · exact (hothers hy hyc hyw).2
  · rcases update_txn hy with ⟨rfl, rfl⟩ | ⟨hne, hy⟩
    · cases hyh
    · obtain ⟨ts', hi'⟩ := hk.pending hy hyh hyr hyw
      exact absurd (congrArg Prod.fst (mem_unique hi' hi)) hne
  · rcases update_txn hy₁ with ⟨rfl, rfl⟩ | ⟨-, hy₁'⟩ <;>
      rcases update_txn hy₂ with ⟨rfl, rfl⟩ | ⟨-, hy₂'⟩
    · rfl
    · exact absurd heq.symm (hothers hy₂' hc₂ hw₂).1
    · exact absurd heq (hothers hy₁' hc₁ hw₁).1
    · exact hk.unique hy₁' hy₂' hc₁ hc₂ hw₁ hw₂ heq

/-- The cell of a key that a committing transaction has no intent on. -/
theorem CellInv.commit_other (h : CellInv txns k c) (hno : c.owner ≠ some t) :
    CellInv (update txns t (some x')) k c := by
  refine ⟨fun {t' ts} hi ↦ ?_, h.stamp⟩
  obtain ⟨hst, y, w, hy, hrest⟩ := h.intent hi
  refine ⟨hst, y, w, ?_, hrest⟩
  rw [update_of_ne, hy]
  rintro rfl
  exact hno (owner_eq_some.mpr ⟨ts, hi⟩)

theorem CellClean.commit_other (h : CellClean txns k c) (hx : txns t = some x)
    (hr : x.record.status = .pending) (hno : c.owner ≠ some t) :
    CellClean (update txns t (some x')) k c := by
  refine ⟨fun {t' ts y u v} hi hy hne hu ↦ ?_, fun {u v} hu ↦ (h.version hu).imp_right ?_, h.newest⟩
  · rcases update_txn hy with ⟨rfl, -⟩ | ⟨-, hy⟩
    · exact absurd (owner_eq_some.mpr ⟨ts, hi⟩) hno
    · exact h.room hi hy hne hu
  · rintro ⟨t', y, hy, hyr, hyw⟩
    exact ⟨t', y, update_of_status hx hy (by simp [hyr, hr]), hyr, hyw⟩

omit [LinearOrder τ] [DecidableEq ι] in
/-- A transaction that may commit and has no intent on the key has not written it. -/
theorem Kept.lastWrite_eq_none (hk : Kept txns k c) (hx : txns t = some x)
    (hh : x.held.status = .pending) (hr : x.record.status = .pending) (hno : c.owner ≠ some t) :
    lastWrite x.ops k = none := by
  by_contra hne
  obtain ⟨w, hw⟩ := ne_none_iff_exists'.mp hne
  exact hno (owner_eq_some.mpr (hk.pending hx hh hr hw))

omit [DecidableEq ι] [LinearOrder τ] in
theorem forall_setCell (hc : P k c) (h : ∀ k' ≠ k, P k' (s.cells k'))
    (k' : κ) : P k' ((s.setCell k c).cells k') := by
  by_cases heq : k' = k
  · subst heq
    rw [setCell_cells, update_self]
    exact hc
  · rw [setCell_cells, update_of_ne heq]
    exact h k' heq

omit [DecidableEq κ] [LinearOrder τ] in
theorem forall_mapOwned {f : κ → Cell ι τ ν → Cell ι τ ν}
    (hown : ∀ k ts, (s.cells k).intent = some (t, ts) → P k (f k (s.cells k)))
    (h : ∀ k, (s.cells k).owner ≠ some t → P k (s.cells k)) (k : κ) :
    P k ((s.mapOwned t f).cells k) := by
  rw [mapOwned_cells]
  split <;> rename_i howner
  · obtain ⟨ts, hi⟩ := owner_eq_some.mp howner
    exact hown k ts hi
  · exact h k howner

/-! ## Steps -/

omit [DecidableEq ι] in
theorem evolves_of_write {w : Option ν} {k' : κ} (hinv : TxnInv x) (hh : x.held.status = .pending)
    (hne : k ≠ k') : Evolves k' x { x with record := x.held, ops := x.ops ++ [.write k w] } := by
  refine ⟨rfl, lastWrite_concat_write_of_ne hne w, ?_, fun u _ h₂ ↦ ⟨h₂, h₂⟩⟩
  rintro (hc | hc)
  · exact absurd hc (hinv.not_committed hh)
  · rw [hh] at hc
    cases hc

omit [DecidableEq ι] in
theorem evolves_of_abort (hinv : TxnInv x) (hh : x.held.status = .pending) (k : κ) :
    Evolves k x { x with
      record := ⟨.aborted, x.record.write⟩, held := ⟨.aborted, x.record.write⟩ } := by
  refine ⟨rfl, rfl, ?_, fun u h₁ _ ↦ ⟨h₁, h₁⟩⟩
  rintro (hc | hc)
  · exact absurd hc (hinv.not_committed hh)
  · cases hc

omit [DecidableEq ι] [LinearOrder τ] in
/-- The moves that change one transaction and end nothing. -/
def Move.IsMinor : Move ι κ τ ν → Prop
  | .bump _ _ | .refresh _ | .kill _ | .pushRecord _ _ | .read _ _ _ => True
  | _ => False

variable {mv : Move ι κ τ ν}

theorem Step.minor (hs : Step s mv s') (h : Inv s) (hm : mv.IsMinor) :
    ∃ t x x', s.txns t = some x ∧ s' = s.setTxn t x' ∧ (∀ k, Evolves k x x') ∧ Declines x x' ∧
      (x'.record.status = .pending → x.record.status = .pending) ∧ TxnInv x' := by
  cases hs with
  | @bump t x w hx hh hw =>
    have hinv := h.txn hx
    exact ⟨t, x, _, hx, rfl, fun k ↦ ⟨rfl, rfl, fun _ ↦ rfl, fun u h₁ h₂ ↦ ⟨h₁, h₂.trans_le hw⟩⟩,
      fun h₁ h₂ ↦ ⟨h₁, h₂⟩, fun hp ↦ hp, fun hc ↦ absurd hc (hinv.not_committed hh), hinv.committed,
      hinv.aborted, hinv.read_le_record, hinv.read_le_held.trans hw⟩
  | @refresh t x hx hh =>
    have hinv := h.txn hx
    exact ⟨t, x, _, hx, rfl, fun k ↦ ⟨rfl, rfl, fun _ ↦ rfl, fun u h₁ _ ↦ ⟨h₁, h₁⟩⟩,
      fun _ h₂ ↦ ⟨hh, h₂⟩, fun hp ↦ hp, fun _ ↦ rfl, fun hc ↦ hc, fun ha ↦ ha, hinv.read_le_record,
      hinv.read_le_record⟩
  | @kill t x hx hr =>
    have hinv := h.txn hx
    refine ⟨t, x, _, hx, rfl, fun k ↦ ⟨rfl, rfl, ?_, fun u h₁ h₂ ↦ ⟨h₁, h₂⟩⟩,
      by rintro _ ⟨⟩, fun _ ↦ hr, by rintro ⟨⟩, fun hc ↦ ?_,
      fun _ ↦ rfl, hinv.read_le_record, hinv.read_le_held⟩
    · rintro (hc | hc)
      · cases hr.symm.trans hc
      · cases hc
    · cases hr.symm.trans (hinv.committed hc)
  | @pushRecord t x w hx hr hw =>
    have hinv := h.txn hx
    have hnc : x.record.status ≠ .committed := by rw [hr]; simp
    exact ⟨t, x, _, hx, rfl, fun k ↦ ⟨rfl, rfl, fun hc ↦ absurd (hc.elim (fun h ↦ h) fun h ↦ h) hnc,
        fun u h₁ h₂ ↦ ⟨h₁.trans_le hw, h₂⟩⟩, fun h₁ h₂ ↦ ⟨h₁, h₂⟩, fun _ ↦ hr,
      fun hc ↦ absurd hc hnc, hinv.committed, hinv.aborted, hinv.read_le_record.trans hw,
      hinv.read_le_held⟩
  | @read t x k r hx hh hsh =>
    have hinv := h.txn hx
    exact ⟨t, x, _, hx, rfl,
      fun k' ↦ ⟨rfl, lastWrite_concat_read k r, fun _ ↦ rfl, fun u h₁ h₂ ↦ ⟨h₁, h₂⟩⟩,
      fun h₁ h₂ ↦ ⟨h₁, h₂⟩, fun hp ↦ hp, hinv.held_eq, hinv.committed, hinv.aborted,
      hinv.read_le_record, hinv.read_le_held⟩
  | start _ | push _ _ _ _ | clean _ _ _ _ | write _ _ _ | commit _ _ _ | abort _ _ _ =>
    exact hm.elim

/-- **Every step keeps the invariant.** -/
theorem Inv.step (h : Inv s) (hs : Step s mv s') : Inv s' := by
  by_cases hm : mv.IsMinor
  · obtain ⟨t, x, x', hx, rfl, hev, -, -, hinv⟩ := hs.minor h hm
    exact ⟨h.txn_update hinv, fun k ↦ (h.cell k).evolve (hev k) hx⟩
  cases hs with
  | @start t r ht =>
    refine ⟨h.txn_update ?_, fun k ↦ (h.cell k).insert ht⟩
    exact ⟨by simp, by simp, by simp, le_rfl, le_rfl⟩
  | push hi hw _ _ => exact ⟨h.txn, forall_setCell ((h.cell _).push hi hw) fun k _ ↦ h.cell k⟩
  | clean hi _ _ hp => exact ⟨h.txn, forall_setCell (CellInv.drop hi hp) fun k _ ↦ h.cell k⟩
  | @write t x k w hx hh hc =>
    have hinv := h.txn hx
    refine ⟨h.txn_update ?_, forall_setCell (CellInv.lay hinv hh w) fun k' hne ↦ ?_⟩
    · exact ⟨fun _ ↦ rfl, fun hc ↦ hc, fun ha ↦ ha, hinv.read_le_held, hinv.read_le_held⟩
    · exact (h.cell k').evolve (evolves_of_write hinv hh hne.symm) hx
  | @commit t x hx hh hr =>
    have hinv := h.txn hx
    refine ⟨h.txn_update ?_, forall_mapOwned (fun k ts hi ↦ (h.cell k).settle hi) fun k hown ↦
      (h.cell k).commit_other hown⟩
    exact ⟨fun _ ↦ rfl, fun hc ↦ hc, by simp, hinv.read_le_record, hinv.read_le_record⟩
  | @abort t x prev hx hh hp =>
    have hinv := h.txn hx
    refine ⟨h.txn_update ?_, forall_mapOwned (fun k ts hi ↦ CellInv.drop hi (hp k ts hi)) fun k _ ↦
      (h.cell k).evolve (evolves_of_abort hinv hh k) hx⟩
    exact ⟨by simp, by simp, fun _ ↦ rfl, hinv.read_le_record, hinv.read_le_record⟩
  | bump _ _ _ | refresh _ _ | kill _ _ | pushRecord _ _ _ | read _ _ _ => exact absurd trivial hm

variable {G : State ι κ τ ν → Move ι κ τ ν → Prop}

/-- **Every run keeps the invariant.** -/
theorem Inv.steps (h : Inv s) (hs : Steps G s s') : Inv s' :=
  hs.invariant (fun hinv _ hstep ↦ hinv.step hstep) h

section

omit [DecidableEq κ] [LinearOrder τ] [DecidableEq ι]

/-- A transaction that writes over its own intent does so in place. -/
def Strict (s : State ι κ τ ν) : Move ι κ τ ν → Prop
  | .write t k _ => ∀ x ts, s.txns t = some x → (s.cells k).intent = some (t, ts) →
      ts = x.held.write
  | _ => True

theorem strict_of_ne (h : ∀ t k w, mv ≠ .write t k w) : Strict s mv := by
  cases mv with
  | write _ _ _ => exact absurd rfl (h _ _ _)
  | _ => trivial

end

/-- **A step leaves nothing uncommitted behind** if intents are rewritten in place. -/
theorem Clean.step (hc : Clean s) (h : Inv s) (hs : Step s mv s') (hst : Strict s mv) :
    Clean s' := by
  by_cases hm : mv.IsMinor
  · obtain ⟨t, x, x', hx, rfl, hev, -, -⟩ := hs.minor h hm
    exact fun k ↦ (hc k).evolve (hev k) hx
  cases hs with
  | start ht => exact fun k ↦ (hc k).insert (h.cell k) ht
  | push hi hw hx _ => exact forall_setCell ((hc _).push hi hx hw) fun k _ ↦ hc k
  | clean hi hx _ hp => exact forall_setCell ((hc _).drop hi hx hp) fun k _ ↦ hc k
  | @write t x k w hx hh ha =>
    have hinv := h.txn hx
    refine forall_setCell ((hc k).lay hinv hx hh ha (fun ts' ↦ hst x ts' hx) w) fun k' hne ↦ ?_
    exact (hc k').evolve (evolves_of_write hinv hh hne.symm) hx
  | @commit t x hx hh hr =>
    exact forall_mapOwned (fun k ts hi ↦ (hc k).settle (h.cell k) hx hr hi) fun k hown ↦
      (hc k).commit_other hx hr hown
  | @abort t x prev hx hh hp =>
    have hcell := fun k ↦ (hc k).evolve (evolves_of_abort (h.txn hx) hh k) hx
    exact forall_mapOwned (fun k ts hi ↦ (hcell k).drop hi (update_self ..) (hp k ts hi)) fun k _ ↦
      hcell k
  | bump _ _ _ | refresh _ _ | kill _ _ | pushRecord _ _ _ | read _ _ _ => exact absurd trivial hm

/-- **A run leaves nothing uncommitted behind** if intents are rewritten in place. -/
theorem Clean.steps (hc : Clean s) (h : Inv s) (hs : Steps G s s')
    (hG : ∀ s mv, G s mv → Strict s mv) : Clean s' := by
  induction hs with
  | refl => exact hc
  | tail hrun hg hstep ih => exact ih.step (h.steps hrun) hstep (hG _ _ hg)

section

omit [DecidableEq κ] [LinearOrder τ] [DecidableEq ι]

/-- The transaction that writes has not been aborted. -/
def Alive (s : State ι κ τ ν) : Move ι κ τ ν → Prop
  | .write t _ _ => ∀ x, s.txns t = some x → x.record.status ≠ .aborted
  | _ => True

theorem alive_of_ne (h : ∀ t k w, mv ≠ .write t k w) : Alive s mv := by
  cases mv with
  | write _ _ _ => exact absurd rfl (h _ _ _)
  | _ => trivial

end

/-- **Nothing is lost in a step** in which no aborted transaction writes. -/
theorem Complete.step (hk : Complete s) (hc : Clean s) (h : Inv s) (hs : Step s mv s')
    (hst : Strict s mv) (ha : Alive s mv) : Complete s' := by
  by_cases hm : mv.IsMinor
  · obtain ⟨t, x, x', hx, rfl, hev, hd, -, -⟩ := hs.minor h hm
    exact fun k ↦ (hk k).evolve (hev k) hd hx
  cases hs with
  | @start t r ht => exact fun k ↦ (hk k).update rfl
  | push hi hw hx _ => exact forall_setCell ((hk _).push (hc _) hi hx hw) fun k _ ↦ hk k
  | clean hi hx hab _ => exact forall_setCell ((hk _).drop (hc _) hi hx hab _) fun k _ ↦ hk k
  | @write t x k w hx hh had =>
    have hinv := h.txn hx
    have hr := hinv.pending hh (ha x hx)
    refine forall_setCell ((hk k).lay (hc k) hh had (fun ts' ↦ hst x ts' hx) w) fun k' hne ↦ ?_
    exact (hk k').evolve (evolves_of_write hinv hh hne.symm) (fun _ _ ↦ ⟨hh, hr⟩) hx
  | @commit t x hx hh hr =>
    refine forall_mapOwned (fun k ts hi ↦ (hk k).settle (hc k) (h.cell k) hx hi) fun k hown ↦ ?_
    have hnone := (hk k).lastWrite_eq_none hx hh hr hown
    exact (hk k).update hnone
  | @abort t x prev hx hh _ =>
    have hev := evolves_of_abort (h.txn hx) hh
    have hkept := fun k ↦ (hk k).evolve (hev k) (by rintro ⟨⟩) hx
    refine forall_mapOwned (fun k ts hi ↦ ?_) fun k _ ↦ hkept k
    exact (hkept k).drop ((hc k).evolve (hev k) hx) hi (update_self ..) rfl _
  | bump _ _ _ | refresh _ _ | kill _ _ | pushRecord _ _ _ | read _ _ _ => exact absurd trivial hm

/-- **Nothing is lost in a run** in which no aborted transaction writes. -/
theorem Complete.steps (hk : Complete s) (hc : Clean s) (h : Inv s) (hs : Steps G s s')
    (hst : ∀ s mv, G s mv → Strict s mv) (ha : ∀ s mv, G s mv → Alive s mv) : Complete s' := by
  induction hs with
  | refl => exact hk
  | tail hrun hg hstep ih =>
    exact ih.step (hc.steps h hrun hst) (h.steps hrun) hstep (hst _ _ hg) (ha _ _ hg)

variable {t' : ι} {y : Txn κ τ ν} {c' : τ}

/-- A committed transaction stays as it is. -/
theorem Step.committed_stays (hs : Step s mv s') (h : Inv s) (hy : s.txns t' = some y)
    (hc : y.record.status = .committed) : s'.txns t' = some y := by
  have hheld : y.held.status ≠ .pending := fun hh ↦ (h.txn hy).not_committed hh hc
  have hrec : y.record.status ≠ .pending := by rw [hc]; simp
  -- a step that changes `t` finds it pending
  have hother : ∀ {t x x'}, s.txns t = some x →
      (x.held.status = .pending ∨ x.record.status = .pending) →
      update s.txns t (some x') t' = some y := by
    intro t x x' hx hpend
    rw [update_of_ne, hy]
    rintro rfl
    obtain rfl := mem_unique hx hy
    exact hpend.elim hheld hrec
  cases hs with
  | start ht => exact update_of_none ht hy
  | push _ _ _ _ | clean _ _ _ _ => exact hy
  | bump hx hh _ | refresh hx hh | write hx hh _ | read hx hh _ | commit hx hh _ | abort hx hh _ =>
    exact hother hx (.inl hh)
  | kill hx hr | pushRecord hx hr _ => exact hother hx (.inr hr)

omit [DecidableEq κ] in
/-- `t` has committed at `c`. -/
def State.Committed (s : State ι κ τ ν) (t : ι) (c : τ) : Prop :=
  ∃ x, s.txns t = some x ∧ x.record = ⟨.committed, c⟩

omit [DecidableEq κ] [LinearOrder τ] in
theorem committed_of_update (htxns : s'.txns = update s.txns t (some x'))
    (hx : s.txns t = some x) (hrec : x'.record = ⟨.committed, c'⟩ ↔ x.record = ⟨.committed, c'⟩) :
    s'.Committed t' c' ↔ s.Committed t' c' := by
  rw [State.Committed, State.Committed, htxns]
  by_cases heq : t' = t
  · subst heq
    simp [hx, hrec]
  · rw [update_of_ne heq]

/-- Only a commit makes a transaction committed, and none takes it back. -/
theorem Step.committed_iff (hs : Step s mv s') (h : Inv s) :
    s'.Committed t' c' ↔ s.Committed t' c' ∨
      mv = .commit t' ∧ ∃ x, s.txns t' = some x ∧ x.record.write = c' := by
  -- what is pending is not committed, before and after
  have hne : ∀ {r : Copy τ}, r.status ≠ .committed → (r = ⟨.committed, c'⟩ ↔ False) := by
    intro r hr
    simp only [iff_false]
    rintro rfl
    exact hr rfl
  have hold : (∀ t, mv ≠ .commit t) → (s'.Committed t' c' ↔ s.Committed t' c') →
      (s'.Committed t' c' ↔ s.Committed t' c' ∨
        mv = .commit t' ∧ ∃ x, s.txns t' = some x ∧ x.record.write = c') := fun hmv hiff ↦
    hiff.trans (or_iff_left fun hc ↦ hmv t' hc.1).symm
  cases hs with
  | @start t _ ht =>
    refine hold (by simp) ?_
    rw [State.Committed, State.Committed, setTxn_txns]
    by_cases heq : t' = t
    · subst heq
      simp [ht]
    · rw [update_of_ne heq]
  | bump hx _ _ | refresh hx _ | read hx _ _ =>
    exact hold (by simp) (committed_of_update rfl hx Iff.rfl)
  | kill hx hr | pushRecord hx hr _ =>
    exact hold (by simp) (committed_of_update rfl hx
      ((hne (by simp [hr])).trans (hne (by simp [hr])).symm))
  | push _ _ _ _ | clean _ _ _ _ => exact hold (by simp) Iff.rfl
  | write hx hh _ | abort hx hh _ =>
    exact hold (by simp) (committed_of_update rfl hx
      ((hne (by simp [hh])).trans (hne ((h.txn hx).not_committed hh)).symm))
  | @commit t x hx hh hr =>
    rw [State.Committed, State.Committed, mapOwned_txns, setTxn_txns]
    by_cases heq : t' = t
    · subst heq
      have hno := hne (r := x.record) (by simp [hr])
      simp [hx, hno]
    · rw [update_of_ne heq]
      simp [Ne.symm heq]

/-- Quiet moves commit nothing. -/
theorem Steps.committed_iff (hs : Quiet t s s') (h : Inv s) :
    s'.Committed t' c' ↔ s.Committed t' c' := by
  induction hs with
  | refl => exact Iff.rfl
  | @tail s₁ s₂ mv hrun hq hstep ih =>
    rw [hstep.committed_iff (h.steps hrun), ih, or_iff_left_iff_imp]
    rintro ⟨rfl, -⟩
    exact hq.elim

omit [DecidableEq ι] in
/-- **What a read returns** is a committed write, or the reader's own. -/
theorem Clean.shown (hc : Clean s) (h : Inv s) {own : Option ι} {v : ν}
    (hs : (s.cells k).Shows own ts (some v)) :
    ∃ t x, s.txns t = some x ∧ lastWrite x.ops k = some (some v) ∧
      (x.record.status = .committed ∧ x.record.write ≤ ts ∨ own = some t) := by
  obtain ⟨hno, ⟨-, hv⟩ | ⟨-, ⟨u, hle, hu, -⟩ | ⟨-, hv⟩⟩⟩ := hs
  · cases hv
  · rcases (hc k).version hu with ⟨t, hi⟩ | ⟨t, x, hx, hr, hw⟩
    · obtain ⟨-, x, w, hx, -, hw, hu', -⟩ := (h.cell k).intent hi
      obtain rfl := mem_unique hu hu'
      exact ⟨t, x, hx, hw, .inr ((hno t u hi).resolve_right (not_lt.mpr hle))⟩
    · exact ⟨t, x, hx, hw, .inl ⟨by rw [hr], by rw [hr]; exact hle⟩⟩
  · cases hv

/-! ## Records -/

omit [DecidableEq κ] [DecidableEq ι] in
/-- `c'` is `c` moved forward: what has ended has ended the same way, and the write timestamp is not
lower. -/
structure Copy.Forward (c c' : Copy τ) : Prop where
  status : c.status ≠ .pending → c'.status = c.status
  write : c.write ≤ c'.write

theorem Copy.Forward.refl (c : Copy τ) : c.Forward c := ⟨fun _ ↦ rfl, le_rfl⟩

theorem Copy.Forward.trans {c c' c'' : Copy τ} (h : c.Forward c') (h' : c'.Forward c'') :
    c.Forward c'' := by
  refine ⟨fun hne ↦ ?_, h.write.trans h'.write⟩
  have hst := h.status hne
  rw [h'.status (hst ▸ hne), hst]

section

omit [DecidableEq κ] [DecidableEq ι]

/-- A write moves the record of its transaction forward. -/
def Onward (s : State ι κ τ ν) : Move ι κ τ ν → Prop
  | .write t _ _ => ∀ x, s.txns t = some x → x.record.Forward x.held
  | _ => True

theorem onward_of_ne (h : ∀ t k w, mv ≠ .write t k w) : Onward s mv := by
  cases mv with
  | write _ _ _ => exact absurd rfl (h _ _ _)
  | _ => trivial

end

omit [DecidableEq κ] in
theorem forward_update (hx : txns t = some x) (hf : x.record.Forward x'.record)
    (hy : txns t' = some y) :
    ∃ y', update txns t (some x') t' = some y' ∧ y.record.Forward y'.record := by
  by_cases heq : t' = t
  · subst heq
    obtain rfl := mem_unique hx hy
    exact ⟨x', update_self .., hf⟩
  · exact ⟨y, (update_of_ne heq ..).trans hy, .refl _⟩

/-- **A step moves every record forward**, if its write does so. -/
theorem Step.forward (hs : Step s mv s') (h : Inv s) (ho : Onward s mv) (hy : s.txns t' = some y) :
    ∃ y', s'.txns t' = some y' ∧ y.record.Forward y'.record := by
  cases hs with
  | start ht => exact ⟨y, update_of_none ht hy, .refl _⟩
  | push _ _ _ _ | clean _ _ _ _ => exact ⟨y, hy, .refl _⟩
  | bump hx _ _ | refresh hx _ | read hx _ _ =>
    refine forward_update hx ?_ hy
    exact .refl _
  | kill hx hr | commit hx _ hr =>
    refine forward_update hx ?_ hy
    exact ⟨fun hne ↦ absurd hr hne, le_rfl⟩
  | pushRecord hx hr hw =>
    refine forward_update hx ?_ hy
    exact ⟨fun _ ↦ rfl, hw⟩
  | write hx _ _ =>
    refine forward_update hx ?_ hy
    exact ho _ hx
  | @abort t x _ hx hh _ =>
    refine forward_update hx ?_ hy
    refine ⟨fun hne ↦ ?_, le_rfl⟩
    -- the record was aborted already
    by_contra ha
    exact hne ((h.txn hx).pending hh (Ne.symm ha))

/-- **A run moves every record forward**, if its writes do so. -/
theorem Steps.forward (hs : Steps G s s') (h : Inv s) (hG : ∀ s mv, G s mv → Onward s mv)
    (hy : s.txns t' = some y) : ∃ y', s'.txns t' = some y' ∧ y.record.Forward y'.record := by
  induction hs with
  | refl => exact ⟨y, hy, .refl _⟩
  | tail hrun hg hstep ih =>
    obtain ⟨y₁, hy₁, hf₁⟩ := ih
    obtain ⟨y₂, hy₂, hf₂⟩ := hstep.forward (h.steps hrun) (hG _ _ hg) hy₁
    exact ⟨y₂, hy₂, hf₁.trans hf₂⟩

end Finish

end DucklingDB.Transaction
