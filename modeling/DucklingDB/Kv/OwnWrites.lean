import DucklingDB.Kv.Record
import DucklingDB.Transaction.Hold

/-!
# Reading one's own writes

A transaction that has written a key and has not been aborted since has an intent on the key, which
is its last write. A `Get` of the key then answers at once, and it answers with that write if the
intent lies at or below the read timestamp.

It need not lie there. `Get` looks for versions at or below `ReadTimestamp` whoever wrote them,
while a write lands at `WriteTimestamp`, which a cached read, a newer version or a reader of the
intent moves up.
-/

namespace DucklingDB.Txn

open Hlc Mvcc DucklingDB.Transaction

section OwnWrites

variable [MetadataCodec] [RecordCodec]

/-- The record of `t` is not aborted. -/
def System.Unharmed (s : System) (t : TxnID) : Prop :=
  ∀ p ∈ recordOf s.engine t, p.status ≠ .aborted

instance {s : System} {t : TxnID} : Decidable (s.Unharmed t) := inferInstanceAs (Decidable (∀ _, _))

variable {U : Set Bytes} {s s' s₁ s₂ s₃ : System} {a a' a₁ : Store} {id t : TxnID} {k : Bytes}
  {w : Option Bytes}

variable {evs : List Event}

theorem along_of_mem {P : Event → Prop} (h : ∀ ev ∈ evs, P ev) : s.Along (fun _ ev ↦ P ev) evs := by
  induction evs generalizing s with
  | nil => trivial
  | cons ev evs ih =>
    exact ⟨h ev (.head _), fun r _ ↦ ih fun ev' hev' ↦ h ev' (.tail _ hev')⟩

theorem SysRel.spares (h : SysRel U s a) (hun : s.Unharmed t) {c : Call} {k' : Bytes}
    {value : Option Bytes} (hw : Writes s s' a a₁ id c k' value) :
    Spares t a₁ (.write id k' value) := by
  rintro rfl x₁ hx₁
  obtain ⟨p, hp, hrec⟩ := h.record_before hw hx₁
  rw [hrec]
  exact hun p hp

/-- The last write of `t` to `k` is `w`, and there is an intent as long as `t` is pending. -/
def Held (t : TxnID) (k : Bytes) (w : Option Bytes) (a : Store) : Prop :=
  Holds t k a ∧ ∃ x, a.txns t = some x ∧ lastWrite x.ops k = some w

/-- A held write is held after a run in which `t` is unharmed and does not write `k`. -/
theorem SysRel.held_run (h : SysRel U s a) (hx : Held t k w a)
    (hgood : s.Along (fun s ev ↦ s.Orderly U ev) evs) (hun : s.Along (fun s _ ↦ s.Unharmed t) evs)
    (hno : ∀ c, .call t c ∈ evs → ∀ v, c.written ≠ some (k, v)) (hrun : s.run evs = some s') :
    ∃ a', SysRel U s' a' ∧ Held t k w a' := by
  have hno' : ∀ ev ∈ evs, ∀ c, ev = .call t c → ∀ v, c.written ≠ some (k, v) := by
    rintro ev hev c rfl
    exact hno c hev
  have hall := along_and.mpr ⟨hgood, along_and.mpr ⟨hun, along_of_mem hno'⟩⟩
  refine SysRel.run (P := fun _ a ↦ Held t k w a) (fun _ _ hg ↦ hg.1)
    (fun {s ev ans s' a a'} h hp hg hs _ hturn ↦ ?_) h hx hall hrun
  have hsteps : Steps (fun a mv ↦ Spares t a mv ∧ ∀ v, mv ≠ .write t k v) a a' := by
    refine hturn.steps (fun a mv hne ↦ ⟨spares_of_ne hne, hne t k⟩) ?_
    rintro id c k' value a₁ rfl rfl hw
    refine ⟨h.spares hg.2.1 hw, fun v heq ↦ ?_⟩
    obtain ⟨rfl, rfl, rfl⟩ := Move.write.inj heq
    exact hg.2.2 c rfl value hw.written
  refine ⟨hp.1.steps h.rel.inv hsteps fun _ _ hG ↦ hG.1, ?_⟩
  refine hsteps.invariant (P := fun a ↦ ∃ x, a.txns t = some x ∧ lastWrite x.ops k = some w)
    (fun hx hG hstep ↦ ?_) hp.2
  obtain ⟨x, hx, hw⟩ := hx
  obtain ⟨x', hx', heq⟩ := hstep.lastWrite_eq hG.2 hx
  exact ⟨x', hx', heq.trans hw⟩

/-- **`Get` of a key on which the transaction has an intent** at or below its read timestamp. -/
theorem get_own {mem : TxnID → Option Transaction} {ops : TxnID → List Op} {tc : TxnCoordSender}
    {ts : Timestamp} (h : RelAt U mem ops id tc a) (hk : k ∈ U) (hfin : tc.txn.isFinalized = false)
    (hi : (a.cells k).intent = some (id, ts)) (hle : ts ≤ tc.txn.readTimestamp)
    (hw : lastWrite (ops id) k = some w) (order : List Bytes) :
    ∃ tc', tc.get k order = (w.elim (.error (.mvcc .keyNotFound)) .ok, tc') := by
  have hget := h.rep.get hk h.valid_readTimestamp
    { txn := some tc.txn.id, maxTimestamp := tc.txn.maxTimestamp }
  rw [h.id_eq] at hget
  rw [TxnCoordSender.get, hfin, if_neg (by simp), maxWriteIntentResolutions,
    TxnCoordSender.getLoop, h.id_eq]
  rcases hget with ⟨t, its, hi', hne, -⟩ | ⟨_, -, -, hno, -⟩ | ⟨r, hshow, hget⟩
  · obtain ⟨rfl, -⟩ := Prod.mk.inj (Option.mem_unique hi hi')
    exact absurd rfl hne
  · exact absurd rfl (hno id ts hi)
  · obtain ⟨p, x, -, hx, htr⟩ := h.self
    rw [htr.held_read] at hle hshow
    have hr := h.inv.shows_own hx hi hle hshow
    rw [htr.ops_eq, hw] at hr
    obtain rfl := Option.some.inj hr
    cases w with
    | none => simp only [hget, Option.elim]; exact ⟨_, rfl⟩
    | some v => simp only [hget, Option.elim]; exact ⟨_, rfl⟩

/-- **Reading one's own write.** Let a `Put` or `Delete` of `k` by `t` succeed, and let `t` neither
be aborted nor write `k` nor commit until its next `Get` of `k`. The `Get` returns what was written
if the intent of `t` on `k` lies at or below its read timestamp. -/
theorem read_own_write {evs evs' : List Event} {c : Call} {ans : Answer} {s₄ : System} {y : Sender}
    {order : List Bytes} (hU : UserKeys U) (hs : s.Fresh)
    (hgood : s.Along (fun s ev ↦ s.Orderly U ev) (evs ++ .call t c :: evs'))
    (hrun : s.run evs = some s₁) (hc : c.written = some (k, w))
    (hput : s₁.step (.call t c) = some (.done (.ok ()), s₂)) (hrun' : s₂.run evs' = some s₃)
    (hun : s₂.Along (fun s _ ↦ s.Unharmed t) evs') (hun' : s₃.Unharmed t)
    (hno : ∀ c, .call t c ∈ evs' → ∀ v, c.written ≠ some (k, v)) (hcom : s₃.commits t = none)
    (hget : s₃.step (.call t (.get k order)) = some (ans, s₄)) (hy : s₃.senders t = some y)
    (hle : ∀ i ∈ intentOf s₃.engine k, i.2 ≤ y.txn.readTimestamp) :
    ans = .value (w.elim (.error (.mvcc .keyNotFound)) .ok) := by
  obtain ⟨hgood₁, hgood₂, hgood₃⟩ := along_append hgood hrun
  have hk : k ∈ U := hgood₂.key_mem hc
  obtain ⟨a₁, h₁⟩ := (sysRel_fresh hU hs).exists_run hgood₁ hrun
  obtain ⟨a₂, h₂, hturn⟩ := h₁.step hgood₂ hput
  have hheld : Held t k w a₂ := by
    obtain ⟨k', value, a₁, hw, hstep⟩ := hturn.of_written hc
    obtain ⟨rfl, rfl⟩ := Prod.mk.inj (Option.mem_unique hw.written hc)
    exact hstep.holds
  obtain ⟨a₃, h₃, hholds₃, x₃, hx₃, hw₃⟩ := h₂.held_run hheld (hgood₃ _ hput) hun hno hrun'
  -- its owner is pending
  obtain ⟨p, x, hp, hx, htr⟩ := (h₃.attach hy).self
  obtain rfl := Option.mem_unique hx₃ hx
  have hpend : x₃.record.status = .pending := by
    cases hst : x₃.record.status with
    | pending => rfl
    | committed =>
      have hc₃ := h₃.commits.mpr ⟨x₃, hx, by rw [← hst]⟩
      cases hcom.symm.trans hc₃
    | aborted =>
      rw [htr.record] at hst
      exact absurd hst (hun' p hp)
  have hfin : y.txn.isFinalized = false := by
    have hinv := h₃.rel.inv.txn hx
    have hst : x₃.held.status = y.txn.status := by rw [htr.held]; rfl
    rw [Transaction.isFinalized, ← hst]
    cases hh : x₃.held.status with
    | pending => rfl
    | committed => cases hpend.symm.trans (hinv.committed hh)
    | aborted => cases hpend.symm.trans (hinv.aborted hh)
  obtain ⟨ts, hi⟩ := owner_eq_some.mp (hholds₃ x₃ hx (by simp [hw₃]) hpend)
  obtain ⟨tc', hout⟩ := get_own (h₃.attach hy) hk hfin hi
    (hle _ ((h₃.rel.rep.intent k hk).trans hi)) (htr.ops_eq ▸ hw₃) order
  rw [System.step, hy, Option.map_some] at hget
  simp only [System.call, hout] at hget
  have hans := congrArg Prod.fst (Option.some.inj hget)
  refine hans.symm.trans ?_
  split <;> rfl

end OwnWrites

/-! ## Runs -/

theorem read_own_write_put : ∃ s₁ s₂ s₃ y ans s₄,
    blank.run [.begin (txnId 1) 1 .SSI 0 (some 0)] = some s₁ ∧
    s₁.step (.call (txnId 1) (.put [0x6b] [1])) = some (.done (.ok ()), s₂) ∧
    s₂.run [.begin (txnId 2) 1 .SSI 0 (some 0)] = some s₃ ∧ s₃.senders (txnId 1) = some y ∧
    s₃.step (.call (txnId 1) (.get [0x6b] [])) = some (ans, s₄) ∧ ans = .value (.ok [1]) := by
  have hgood : blank.Along (fun s ev ↦ s.Orderly letters ev)
      ([.begin (txnId 1) 1 .SSI 0 (some 0)] ++ .call (txnId 1) (.put [0x6b] [1]) ::
        [.begin (txnId 2) 1 .SSI 0 (some 0)]) := by decide +kernel
  have hrun : ∃ s₁ ∈ blank.run [.begin (txnId 1) 1 .SSI 0 (some 0)],
      ∃ r₂ ∈ s₁.step (.call (txnId 1) (.put [0x6b] [1])),
      ∃ s₃ ∈ r₂.2.run [.begin (txnId 2) 1 .SSI 0 (some 0)], ∃ y ∈ s₃.senders (txnId 1),
      ∃ r₄ ∈ s₃.step (.call (txnId 1) (.get [0x6b] [])), r₂.1 = .done (.ok ()) ∧
        r₂.2.Along (fun s _ ↦ s.Unharmed (txnId 1)) [.begin (txnId 2) 1 .SSI 0 (some 0)] ∧
        s₃.Unharmed (txnId 1) ∧ s₃.commits (txnId 1) = none ∧
        ∀ i ∈ intentOf s₃.engine [0x6b], i.2 ≤ y.txn.readTimestamp := by decide +kernel
  obtain ⟨s₁, hs₁, ⟨ans₂, s₂⟩, hs₂, s₃, hs₃, y, hy, ⟨ans, s₄⟩, hs₄, rfl, hun, hun', hcom, hle⟩ :=
    hrun
  refine ⟨s₁, s₂, s₃, y, ans, s₄, hs₁, hs₂, hs₃, hy, hs₄, ?_⟩
  refine read_own_write (w := some [1]) userKeys_letters fresh_blank hgood hs₁ rfl hs₂ hs₃ hun hun'
    (by simp) hcom hs₄ hy hle

/-- A transaction begins, and a later one writes a key and commits. -/
def newer : List Event :=
  [.begin (txnId 1) 1 .SSI 0 (some 0), .begin (txnId 2) 1 .SSI 0 (some 0),
    .call (txnId 2) (.put [0x6b] [2]), .call (txnId 2) .commit]

/-- A transaction does not find what it has just written. -/
theorem exists_unseen_write : ∃ s₁ s₂ s₃, blank.run newer = some s₁ ∧
    s₁.step (.call (txnId 1) (.put [0x6b] [1])) = some (.done (.ok ()), s₂) ∧
    s₂.Unharmed (txnId 1) ∧
    s₂.step (.call (txnId 1) (.get [0x6b] [])) =
      some (.value (.error (.mvcc .keyNotFound)), s₃) := by
  have hrun : ∃ s₁ ∈ blank.run newer, ∃ r₂ ∈ s₁.step (.call (txnId 1) (.put [0x6b] [1])),
      ∃ r₃ ∈ r₂.2.step (.call (txnId 1) (.get [0x6b] [])), r₂.1 = .done (.ok ()) ∧
        r₂.2.Unharmed (txnId 1) ∧ r₃.1 = .value (.error (.mvcc .keyNotFound)) := by decide +kernel
  obtain ⟨s₁, hs₁, ⟨ans₂, s₂⟩, hs₂, ⟨ans₃, s₃⟩, hs₃, rfl, hun, rfl⟩ := hrun
  exact ⟨s₁, s₂, s₃, hs₁, hs₂, hun, hs₃⟩

end DucklingDB.Txn
