import DucklingDB.Mvcc.Codec

/-!
# Inline values

`MVCCPut` at the zero timestamp stores its value in the metadata of the key, and `MVCCGet` at the
zero timestamp reads it there. As a register this loses two things. An empty value is dropped when
the metadata is encoded, and reads as no value. And `MVCCDelete` has no inline case: it marks the
metadata as deleted and leaves the value where it is, so a deleted value is still read.
-/

namespace DucklingDB.Mvcc

open Hlc SortedMap

/-- A write at the zero timestamp. -/
inductive InlineOp where
  | put (value : Bytes) (txn : Option TxnID)
  | delete (txn : Option TxnID)

section Inline

variable [MetadataCodec]

/-- The engine, and what has been written to the register. -/
structure Inline where
  engine : Engine
  /-- The value of the last `MVCCPut`. -/
  lastPut : Option Bytes := none
  /-- Whether an `MVCCDelete` has come after it. -/
  deleted : Bool := false

/-- What a register holds. -/
def Inline.register (s : Inline) : Option Bytes := if s.deleted then none else s.lastPut

/-- A write that fails changes nothing. -/
def Inline.step (k : Bytes) (s : Inline) : InlineOp → Inline
  | .put value txn =>
    match mvccPut s.engine k {} value txn with
    | .ok e => ⟨e, some value, false⟩
    | .error _ => s
  | .delete txn =>
    match mvccDelete s.engine k {} txn with
    | .ok e => { s with engine := e, deleted := true }
    | .error _ => s

def Inline.run (k : Bytes) (s : Inline) (ops : List InlineOp) : Inline :=
  ops.foldl (Inline.step k) s

/-- The metadata has the value of the last put, unless it is empty. -/
def Inline.Inv (k : Bytes) (s : Inline) : Prop :=
  ∃ md, loadMeta s.engine k = .ok md ∧
    md.bind MVCCMetadata.inlineValue = s.lastPut.filter fun v ↦ !v.isEmpty

variable {e : Engine} {k : Bytes} {s : Inline}

theorem loadMeta_putMeta (e : Engine) (k : Bytes) (m : MVCCMetadata) :
    loadMeta (putMeta e k m) k = .ok (some m.omitEmpty) := by
  rw [loadMeta, putMeta, get_insert, if_pos rfl]
  simp only [MetadataCodec.unmarshal_marshal]

theorem Inline.Inv.put (h : s.Inv k) (value : Bytes) (txn : Option TxnID) :
    (s.step k (.put value txn)).Inv k := by
  obtain ⟨md, hmd, -⟩ := h
  have hput : mvccPut s.engine k {} value txn = .ok (putMeta s.engine k { md.getD {} with
      inlineValue := some value, keyBytes := k.length, valBytes := value.length }) := by
    rw [mvccPut, hmd]
    rfl
  rw [Inline.step, hput]
  exact ⟨_, loadMeta_putMeta _ _ _, rfl⟩

theorem Inline.Inv.delete (h : s.Inv k) (txn : Option TxnID) : (s.step k (.delete txn)).Inv k := by
  obtain ⟨md, hmd, hval⟩ := h
  rw [Inline.step, mvccDelete, hmd]
  dsimp only
  cases writeConflict (md.getD {}) k {} txn with
  | some err => exact ⟨md, hmd, hval⟩
  | none =>
    refine ⟨_, loadMeta_putMeta _ _ _, ?_⟩
    have hkeep : (md.getD {}).inlineValue = md.bind MVCCMetadata.inlineValue := by
      cases md <;> rfl
    -- what is dropped from an encoded value has been dropped before
    change ((md.getD {}).inlineValue.filter fun v ↦ !v.isEmpty) = _
    rw [hkeep, hval, Option.filter_filter]
    simp only [Bool.and_self]

theorem Inline.Inv.run (h : s.Inv k) (ops : List InlineOp) : (s.run k ops).Inv k := by
  induction ops generalizing s with
  | nil => exact h
  | cons op ops ih =>
    cases op with
    | put value txn => exact ih (h.put value txn)
    | delete txn => exact ih (h.delete txn)

theorem Inline.Inv.get (h : s.Inv k) (opts : ReadOptions) : mvccGet s.engine k {} opts =
    (s.lastPut.filter fun v ↦ !v.isEmpty).elim (.error .keyNotFound) .ok := by
  obtain ⟨md, hmd, hval⟩ := h
  rw [mvccGet, hmd, ← hval]
  cases md with
  | none => rfl
  | some m =>
    dsimp only [Option.bind_some]
    rw [if_pos (by rfl)]
    cases m.inlineValue <;> rfl

/-- **When inline values behave as a register.** Over any engine without metadata for the key, and
after any writes at the zero timestamp, the read at the zero timestamp returns what a register
would, if and only if nothing was put, or an empty value was put last and then deleted, or a value
that is not empty was put last and not deleted. -/
theorem inline_register_iff (he : e.get (encodeMeta k) = none) (ops : List InlineOp)
    (opts : ReadOptions) :
    mvccGet (Inline.run k ⟨e, none, false⟩ ops).engine k {} opts =
        (Inline.run k ⟨e, none, false⟩ ops).register.elim (.error .keyNotFound) .ok ↔
      ∀ v, (Inline.run k ⟨e, none, false⟩ ops).lastPut = some v →
        (v = [] ↔ (Inline.run k ⟨e, none, false⟩ ops).deleted = true) := by
  have h₀ : Inline.Inv k ⟨e, none, false⟩ := ⟨none, by rw [loadMeta, he], rfl⟩
  rw [(h₀.run ops).get opts, Inline.register]
  generalize Inline.run k ⟨e, none, false⟩ ops = s
  obtain ⟨e', lastPut, deleted⟩ := s
  cases lastPut with
  | none => cases deleted <;> simp
  | some v =>
    cases v with
    | nil => cases deleted <;> simp [Option.filter]
    | cons x v => cases deleted <;> simp [Option.filter]

end Inline

theorem inline_register_iff_twoPuts :
    (empty : Engine).get (encodeMeta [0x6b]) = none ∧
    mvccGet (Inline.run [0x6b] ⟨empty, none, false⟩
      [.put [1] none, .delete none, .put [2] none]).engine [0x6b] {} {} = .ok [2] := by
  have he : (empty : Engine).get (encodeMeta [0x6b]) = none := rfl
  refine ⟨he,
    ((inline_register_iff he [.put [1] none, .delete none, .put [2] none] {}).mpr ?_).trans ?_⟩
  · decide +kernel
  · decide +kernel

/-- A deleted value is read, and an empty one is not. -/
theorem exists_inline_wrong :
    mvccGet (Inline.run [0x6b] ⟨empty, none, false⟩
      [.put [1] none, .delete none]).engine [0x6b] {} {} = .ok [1] ∧
    mvccGet (Inline.run [0x6b] ⟨empty, none, false⟩
      [.put [] none]).engine [0x6b] {} {} = .error .keyNotFound := by
  decide +kernel

end DucklingDB.Mvcc
