import Mathlib.Data.List.Induction
import Mathlib.Logic.Function.Basic
import Mathlib.Order.Lattice

/-!
# Transactions over versioned cells

A store keeps every key in a cell of versions, each at a timestamp. A transaction reads at its read
timestamp. Its writes are *intents*, versions that the cell marks as uncommitted, and its commit
turns them all into versions at one timestamp, its write timestamp.

Whether a transaction is pending, and its write timestamp, are kept twice: in the record that
everyone sees, and in the copy its coordinator holds. Others may abort the record, or push its write
timestamp, and the coordinator learns of that only when it refreshes its copy. An intent whose owner
is aborted may be dropped by anyone, and the intent of a pending transaction may be pushed to a
later timestamp.

`Step` lists the ways in which the store changes. Keys, timestamps, values and identifiers are
arbitrary.
-/

namespace DucklingDB.Transaction

open List

variable {ι κ τ ν : Type*}

/-! ## Cells -/

/-- The versions of a key; a version is a value or, for `none`, a deletion. `stamp` is the timestamp
that the cell gives out as that of its newest version, and the intent is given by its owner and its
timestamp. -/
structure Cell (ι τ ν : Type*) where
  intent : Option (ι × τ) := none
  stamp : Option τ := none
  versions : τ → Option (Option ν) := fun _ ↦ none

/-- `r` is what the newest version in `p` says, if there is one, and `none` otherwise. -/
def Newest [LE τ] (f : τ → Option (Option ν)) (p : τ → Prop) (r : Option ν) : Prop :=
  (∃ u, p u ∧ f u = some r ∧ ∀ u' v, p u' → f u' = some v → u' ≤ u) ∨
    (∀ u, p u → f u = none) ∧ r = none

/-- `prev` is the newest timestamp below `ts` that has a version. -/
def Previous [LT τ] [LE τ] (f : τ → Option (Option ν)) (ts : τ) (prev : Option τ) : Prop :=
  (∃ u v, prev = some u ∧ u < ts ∧ f u = some v ∧ ∀ u' v', u' < ts → f u' = some v' → u' ≤ u) ∨
    prev = none ∧ ∀ u, u < ts → f u = none

theorem Previous.unique [PartialOrder τ] {f : τ → Option (Option ν)} {ts : τ}
    {prev prev' : Option τ} (h : Previous f ts prev) (h' : Previous f ts prev') : prev = prev' := by
  rcases h with ⟨u, v, rfl, hlt, hv, hmax⟩ | ⟨rfl, hnone⟩ <;>
    rcases h' with ⟨u', v', rfl, hlt', hv', hmax'⟩ | ⟨rfl, hnone'⟩
  · rw [le_antisymm (hmax' u v hlt hv) (hmax u' v' hlt' hv')]
  · cases (hnone' u hlt).symm.trans hv
  · cases (hnone u' hlt').symm.trans hv'
  · rfl

/-- The versions `f` with the one at `old` moved to `new`. -/
def relocate {α : Type*} [DecidableEq τ] (f : τ → Option α) (old new : τ) : τ → Option α :=
  fun u ↦ if u = new then f old else if u = old then none else f u

theorem relocate_eq_some {α : Type*} [DecidableEq τ] {f : τ → Option α} {old new u : τ} {v : α} :
    relocate f old new u = some v ↔ u = new ∧ f old = some v ∨ u ≠ new ∧ u ≠ old ∧
      f u = some v := by
  rw [relocate]
  split
  · simp [*]
  · rename_i hne
    split
    · rename_i heq
      subst heq
      simp [hne]
    · simp [*]

open Function (update update_of_ne update_self)

theorem update_none_eq_some {α : Type*} [DecidableEq τ] {f : τ → Option α} {old u : τ} {v : α} :
    update f old none u = some v ↔ u ≠ old ∧ f u = some v := by
  rw [Function.update_apply]
  split <;> simp [*]

namespace Cell

/-- The transaction that has an intent here. -/
def owner (c : Cell ι τ ν) : Option ι := c.intent.map Prod.fst

variable [DecidableEq τ]

variable (c : Cell ι τ ν)

/-- Lay an intent of `t`. If `t` has one already, at another timestamp, then its version stays. -/
def lay (t : ι) (ts : τ) (w : Option ν) : Cell ι τ ν where
  intent := some (t, ts)
  stamp := some ts
  versions := update c.versions ts (some w)

/-- Take the intent back; `prev` becomes the stamp. -/
def drop (prev : Option τ) : Cell ι τ ν :=
  match c.intent with
  | none => c
  | some (_, ts) => { intent := none, stamp := prev, versions := update c.versions ts none }

/-- Make the intent a version at `ts'`. -/
def settle (ts' : τ) : Cell ι τ ν :=
  match c.intent with
  | none => c
  | some (_, ts) => { intent := none, stamp := some ts', versions := relocate c.versions ts ts' }

/-- Move the intent to `ts'`. -/
def push (ts' : τ) : Cell ι τ ν :=
  match c.intent with
  | none => c
  | some (t, ts) =>
    { intent := some (t, ts'), stamp := some ts', versions := relocate c.versions ts ts' }

/-- `t` may write at `ts`: above the stamp, or wherever it has an intent already. -/
def Admits [LT τ] (c : Cell ι τ ν) (t : ι) (ts : τ) : Prop :=
  (c.intent = none ∧ ∀ u, c.stamp = some u → u < ts) ∨ ∃ ts', c.intent = some (t, ts')

omit [DecidableEq τ] in
/-- A read at `ts` returns `r`: no intent of another transaction is in the way, and `r` is what the
newest version at or below `ts` says; nothing, if there is no stamp. `own` is the reader, if it is a
transaction. -/
def Shows [LE τ] [LT τ] (c : Cell ι τ ν) (own : Option ι) (ts : τ) (r : Option ν) : Prop :=
  (∀ t ts', c.intent = some (t, ts') → own = some t ∨ ts < ts') ∧
    (c.stamp = none ∧ r = none ∨ c.stamp ≠ none ∧ Newest c.versions (· ≤ ts) r)

end Cell

/-! ## Transactions -/

/-- The state of a transaction. -/
inductive Status where
  | pending
  | committed
  | aborted
  deriving DecidableEq, Repr

/-- What a transaction did: a read with its result, `none` standing for not found, or a write, with
`none` for a deletion. -/
inductive Op (κ ν : Type*) where
  | read (k : κ) (r : Option ν)
  | write (k : κ) (w : Option ν)
  deriving DecidableEq, Repr

/-- What is written to `k`. -/
def Op.writes [DecidableEq κ] (k : κ) : Op κ ν → Option (Option ν)
  | .read _ _ => none
  | .write k' w => if k' = k then some w else none

/-- The last write to `k`. -/
def lastWrite [DecidableEq κ] (ops : List (Op κ ν)) (k : κ) : Option (Option ν) :=
  ops.foldl (fun acc op ↦ (op.writes k).or acc) none

/-- Whether `k` is read. -/
def reads [DecidableEq κ] (ops : List (Op κ ν)) (k : κ) : Bool :=
  ops.any fun
    | .read k' _ => k' = k
    | .write _ _ => false

/-- One of the two copies of the changeable part of a transaction. -/
structure Copy (τ : Type*) where
  status : Status
  write : τ

structure Txn (κ τ ν : Type*) where
  read : τ
  record : Copy τ
  held : Copy τ
  ops : List (Op κ ν) := []

/-- The store, with the transactions in the order in which they began. -/
structure State (ι κ τ ν : Type*) where
  begun : List ι := []
  txns : ι → Option (Txn κ τ ν) := fun _ ↦ none
  cells : κ → Cell ι τ ν := fun _ ↦ {}

namespace State

variable [DecidableEq ι] [DecidableEq κ]

def setTxn (s : State ι κ τ ν) (t : ι) (x : Txn κ τ ν) : State ι κ τ ν :=
  { s with txns := update s.txns t (some x) }

def setCell (s : State ι κ τ ν) (k : κ) (c : Cell ι τ ν) : State ι κ τ ν :=
  { s with cells := update s.cells k c }

omit [DecidableEq κ] in
/-- Change every cell that has an intent of `t`. -/
def mapOwned (s : State ι κ τ ν) (t : ι) (f : κ → Cell ι τ ν → Cell ι τ ν) : State ι κ τ ν :=
  { s with cells := fun k ↦ if (s.cells k).owner = some t then f k (s.cells k) else s.cells k }

variable {s : State ι κ τ ν} {t : ι} {x : Txn κ τ ν} {k : κ} {c : Cell ι τ ν}
  {f : κ → Cell ι τ ν → Cell ι τ ν}

omit [DecidableEq κ] in
@[simp] theorem setTxn_txns : (s.setTxn t x).txns = update s.txns t (some x) := rfl

omit [DecidableEq κ] in
@[simp] theorem setTxn_cells : (s.setTxn t x).cells = s.cells := rfl

omit [DecidableEq ι] in
@[simp] theorem setCell_cells : (s.setCell k c).cells = update s.cells k c := rfl

omit [DecidableEq κ] in
@[simp] theorem mapOwned_txns : (s.mapOwned t f).txns = s.txns := rfl

omit [DecidableEq κ] in
@[simp] theorem mapOwned_cells (k : κ) : (s.mapOwned t f).cells k =
    if (s.cells k).owner = some t then f k (s.cells k) else s.cells k := rfl

end State

/-! ## Steps -/

/-- What can happen. -/
inductive Move (ι κ τ ν : Type*) where
  | start (t : ι) (read : τ)
  /-- The coordinator raises its write timestamp. -/
  | bump (t : ι) (w : τ)
  /-- The coordinator copies the record. -/
  | refresh (t : ι)
  /-- The record is aborted by another transaction. -/
  | kill (t : ι)
  /-- The write timestamp of the record is raised by another transaction. -/
  | pushRecord (t : ι) (w : τ)
  /-- An intent is moved up. -/
  | push (k : κ) (w : τ)
  /-- The intent of an aborted transaction is taken back. -/
  | clean (k : κ)
  | write (t : ι) (k : κ) (w : Option ν)
  | read (t : ι) (k : κ) (r : Option ν)
  | commit (t : ι)
  | abort (t : ι)

/-- The moves that `t` makes on the way to its own: it raises its write timestamp, and acts on the
records and intents of others. -/
def Move.IsQuiet (t : ι) : Move ι κ τ ν → Prop
  | .bump t' _ => t' = t
  | .kill t' => t' ≠ t
  | .pushRecord t' _ => t' ≠ t
  | .push _ _ => True
  | .clean _ => True
  | _ => False

/-- A move that neither starts nor commits a transaction, and is not a write. -/
def Move.IsPlain : Move ι κ τ ν → Prop
  | .start _ _ => False
  | .write _ _ _ => False
  | .commit _ => False
  | _ => True

theorem Move.IsQuiet.isPlain {t : ι} {mv : Move ι κ τ ν} (h : mv.IsQuiet t) : mv.IsPlain := by
  cases mv with
  | start _ _ | write _ _ _ | commit _ => exact h.elim
  | _ => trivial

variable [DecidableEq ι] [DecidableEq κ] [LinearOrder τ]

/-- How the store changes. A write stores the coordinator's copy as the record, whatever the record
says: a record that was aborted is pending again. -/
inductive Step (s : State ι κ τ ν) : Move ι κ τ ν → State ι κ τ ν → Prop
  | start {t r} : s.txns t = none →
      Step s (.start t r) { s.setTxn t ⟨r, ⟨.pending, r⟩, ⟨.pending, r⟩, []⟩ with
      begun := s.begun ++ [t] }
  | bump {t x w} : s.txns t = some x → x.held.status = .pending → x.held.write ≤ w →
      Step s (.bump t w) (s.setTxn t { x with held := { x.held with write := w } })
  | refresh {t x} : s.txns t = some x → x.held.status = .pending →
      Step s (.refresh t) (s.setTxn t { x with held := x.record })
  | kill {t x} : s.txns t = some x → x.record.status = .pending →
      Step s (.kill t) (s.setTxn t { x with record := { x.record with status := .aborted } })
  | pushRecord {t x w} : s.txns t = some x → x.record.status = .pending → x.record.write ≤ w →
      Step s (.pushRecord t w) (s.setTxn t { x with record := { x.record with write := w } })
  | push {k t ts w x} : (s.cells k).intent = some (t, ts) → ts < w → s.txns t = some x →
      w ≤ x.record.write → Step s (.push k w) (s.setCell k ((s.cells k).push w))
  | clean {k t ts x prev} : (s.cells k).intent = some (t, ts) → s.txns t = some x →
      x.record.status = .aborted → Previous (s.cells k).versions ts prev →
      Step s (.clean k) (s.setCell k ((s.cells k).drop prev))
  | write {t x k w} : s.txns t = some x → x.held.status = .pending →
      (s.cells k).Admits t x.held.write →
      Step s (.write t k w)
        ((s.setTxn t { x with record := x.held, ops := x.ops ++ [.write k w] }).setCell k
          ((s.cells k).lay t x.held.write w))
  | read {t x k r} : s.txns t = some x → x.held.status = .pending →
      (s.cells k).Shows (some t) x.read r →
      Step s (.read t k r) (s.setTxn t { x with ops := x.ops ++ [.read k r] })
  | commit {t x} : s.txns t = some x → x.held.status = .pending → x.record.status = .pending →
      Step s (.commit t)
        ((s.setTxn t { x with
          record := ⟨.committed, x.record.write⟩, held := ⟨.committed, x.record.write⟩ }).mapOwned t
            fun _ c ↦ c.settle x.record.write)
  | abort {t x} {prev : κ → Option τ} : s.txns t = some x → x.held.status = .pending →
      (∀ k ts, (s.cells k).intent = some (t, ts) → Previous (s.cells k).versions ts (prev k)) →
      Step s (.abort t)
        ((s.setTxn t { x with
          record := ⟨.aborted, x.record.write⟩, held := ⟨.aborted, x.record.write⟩ }).mapOwned t
            fun k c ↦ c.drop (prev k))

/-- A run of the store, each step of which satisfies `G`. -/
inductive Steps (G : State ι κ τ ν → Move ι κ τ ν → Prop) : State ι κ τ ν → State ι κ τ ν → Prop
  | refl {s} : Steps G s s
  | tail {s s₁ s₂ mv} : Steps G s s₁ → G s₁ mv → Step s₁ mv s₂ → Steps G s s₂

/-- A run of moves of `t` before its own. -/
abbrev Quiet (t : ι) : State ι κ τ ν → State ι κ τ ν → Prop := Steps fun _ mv ↦ mv.IsQuiet t

section Steps

variable {G G' : State ι κ τ ν → Move ι κ τ ν → Prop} {s s₁ s₂ : State ι κ τ ν}

theorem Steps.single {mv} (hG : G s mv) (h : Step s mv s₁) : Steps G s s₁ := .tail .refl hG h

theorem Steps.trans (h : Steps G s s₁) (h' : Steps G s₁ s₂) : Steps G s s₂ := by
  induction h' with
  | refl => exact h
  | tail _ hG hstep ih => exact ih.tail hG hstep

theorem Steps.mono (h : Steps G s s₁) (hG : ∀ s mv, G s mv → G' s mv) : Steps G' s s₁ := by
  induction h with
  | refl => exact .refl
  | tail _ hg hstep ih => exact ih.tail (hG _ _ hg) hstep

/-- A property that every step keeps holds after every run. -/
theorem Steps.invariant {P : State ι κ τ ν → Prop}
    (hP : ∀ {s mv s'}, P s → G s mv → Step s mv s' → P s') (h : Steps G s s₁) (hs : P s) :
    P s₁ := by
  induction h with
  | refl => exact hs
  | tail _ hG hstep ih => exact hP ih hG hstep

/-- Quiet moves leave a transaction's own record and operations alone. -/
theorem Steps.self {t : ι} {x : Txn κ τ ν} (h : Quiet t s s₁) (hx : s.txns t = some x) :
    ∃ x', s₁.txns t = some x' ∧ x'.record = x.record ∧ x'.read = x.read ∧ x'.ops = x.ops := by
  refine h.invariant (P := fun s ↦ ∃ x', s.txns t = some x' ∧ x'.record = x.record ∧
    x'.read = x.read ∧ x'.ops = x.ops) (fun {s mv s'} hs hq hstep ↦ ?_) ⟨x, hx, rfl, rfl, rfl⟩
  obtain ⟨x', hx', hrest⟩ := hs
  cases hstep with
  | bump hb _ _ =>
    obtain rfl : _ = t := hq
    rw [hx'] at hb
    obtain rfl := Option.some.inj hb
    exact ⟨_, update_self .., hrest⟩
  | kill _ _ => exact ⟨x', (update_of_ne (Ne.symm hq) ..).trans hx', hrest⟩
  | pushRecord _ _ _ => exact ⟨x', (update_of_ne (Ne.symm hq) ..).trans hx', hrest⟩
  | push _ _ _ _ => exact ⟨x', hx', hrest⟩
  | clean _ _ _ _ => exact ⟨x', hx', hrest⟩
  | start _ => exact hq.elim
  | refresh _ _ => exact hq.elim
  | write _ _ _ => exact hq.elim
  | read _ _ _ => exact hq.elim
  | commit _ _ _ => exact hq.elim
  | abort _ _ _ => exact hq.elim

variable {txns : ι → Option (Txn κ τ ν)} {mv : Move ι κ τ ν} {t : ι}

omit [DecidableEq κ] [LinearOrder τ] in
theorem prefix_update {t t' : ι} {x x' y : Txn κ τ ν}
    (hx : txns t = some x) (hread : x'.read = x.read) (hops : x.ops <+: x'.ops)
    (hy : txns t' = some y) : ∃ y', update txns t (some x') t' = some y' ∧
      y'.read = y.read ∧ y.ops <+: y'.ops := by
  by_cases heq : t' = t
  · subst heq
    obtain rfl := Option.mem_unique hx hy
    exact ⟨x', update_self .., hread, hops⟩
  · exact ⟨y, (update_of_ne heq ..).trans hy, rfl, prefix_refl _⟩

/-- A transaction keeps its read timestamp and what it did. -/
theorem Step.prefix {x : Txn κ τ ν} (hs : Step s mv s₁)
    (hx : s.txns t = some x) : ∃ x', s₁.txns t = some x' ∧ x'.read = x.read ∧ x.ops <+: x'.ops := by
  cases hs with
  | start ht =>
    refine ⟨x, ?_, rfl, prefix_refl _⟩
    rw [State.setTxn_txns, update_of_ne, hx]
    rintro rfl
    cases ht.symm.trans hx
  | push _ _ _ _ => exact ⟨x, hx, rfl, prefix_refl _⟩
  | clean _ _ _ _ => exact ⟨x, hx, rfl, prefix_refl _⟩
  | write hy _ _ =>
    refine prefix_update hy ?_ ?_ hx
    · rfl
    · exact prefix_append _ _
  | read hy _ _ =>
    refine prefix_update hy ?_ ?_ hx
    · rfl
    · exact prefix_append _ _
  | bump hy _ _ | refresh hy _ | kill hy _ | pushRecord hy _ _ | commit hy _ _ | abort hy _ _ =>
    refine prefix_update hy ?_ ?_ hx
    · rfl
    · exact prefix_refl _

theorem Step.begun_eq (hs : Step s mv s₁) (hno : ∀ t r, mv ≠ .start t r) : s₁.begun = s.begun := by
  cases hs with
  | start _ => exact absurd rfl (hno _ _)
  | _ => rfl

theorem Steps.begun_eq (h : Quiet t s s₁) : s₁.begun = s.begun := by
  induction h with
  | refl => rfl
  | tail _ hq hstep ih =>
    refine (hstep.begun_eq ?_).trans ih
    rintro _ _ rfl
    exact hq.elim

/-- What a transaction did, and at which read timestamp. -/
def Txn.history (x : Txn κ τ ν) : τ × List (Op κ ν) := (x.read, x.ops)

omit [DecidableEq κ] [LinearOrder τ] in
theorem history_update {x x' : Txn κ τ ν}
    (hx : txns t = some x) (hh : x'.history = x.history) (t' : ι) :
    (update txns t (some x') t').map Txn.history = (txns t').map Txn.history := by
  by_cases heq : t' = t
  · subst heq
    rw [update_self, hx, Option.map_some, Option.map_some, hh]
  · rw [update_of_ne heq]

/-- Quiet moves add nothing to what the transactions did. -/
theorem Steps.history (h : Quiet t s s₁) (t' : ι) :
    (s₁.txns t').map Txn.history = (s.txns t').map Txn.history := by
  induction h with
  | refl => rfl
  | tail _ hq hstep ih =>
    rw [← ih]
    cases hstep with
    | bump hx _ _ =>
      refine history_update hx ?_ t'
      rfl
    | kill hx _ =>
      refine history_update hx ?_ t'
      rfl
    | pushRecord hx _ _ =>
      refine history_update hx ?_ t'
      rfl
    | push _ _ _ _ => rfl
    | clean _ _ _ _ => rfl
    | start _ => exact hq.elim
    | refresh _ _ => exact hq.elim
    | write _ _ _ => exact hq.elim
    | read _ _ _ => exact hq.elim
    | commit _ _ _ => exact hq.elim
    | abort _ _ _ => exact hq.elim

end Steps

/-! ## Writes -/

section lastWrite

variable {k : κ} {ops : List (Op κ ν)}

omit [DecidableEq ι] [LinearOrder τ]

@[simp] theorem lastWrite_nil : lastWrite ([] : List (Op κ ν)) k = none := rfl

theorem lastWrite_concat (ops : List (Op κ ν)) (op : Op κ ν) (k : κ) :
    lastWrite (ops ++ [op]) k = (op.writes k).or (lastWrite ops k) := by
  rw [lastWrite, foldl_append]
  rfl

theorem lastWrite_append (ops ops' : List (Op κ ν)) (k : κ) :
    lastWrite (ops ++ ops') k = (lastWrite ops' k).or (lastWrite ops k) := by
  induction ops' using List.reverseRecOn with
  | nil => rw [append_nil, lastWrite_nil, Option.none_or]
  | append_singleton ops' op ih =>
    rw [← append_assoc, lastWrite_concat, ih, lastWrite_concat, Option.or_assoc]

@[simp] theorem lastWrite_concat_read (k' : κ) (r : Option ν) :
    lastWrite (ops ++ [.read k' r]) k = lastWrite ops k := by
  rw [lastWrite_concat, Op.writes, Option.none_or]

@[simp] theorem lastWrite_concat_write (w : Option ν) :
    lastWrite (ops ++ [.write k w]) k = some w := by
  rw [lastWrite_concat, Op.writes, if_pos rfl, Option.some_or]

theorem lastWrite_concat_write_of_ne {k' : κ} (hne : k' ≠ k) (w : Option ν) :
    lastWrite (ops ++ [.write k' w]) k = lastWrite ops k := by
  rw [lastWrite_concat, Op.writes, if_neg hne, Option.none_or]

theorem reads_iff : reads ops k = true ↔ ∃ r, .read k r ∈ ops := by
  rw [reads, any_eq_true]
  constructor
  · rintro ⟨op, hmem, hop⟩
    cases op with
    | read k' r =>
      obtain rfl := of_decide_eq_true hop
      exact ⟨r, hmem⟩
    | write _ _ => cases hop
  · rintro ⟨r, hmem⟩
    exact ⟨_, hmem, by simp⟩

end lastWrite

end DucklingDB.Transaction
