import DucklingDB.Kv.Snapshot

/-!
# Transaction records

A record moves forward (`Transaction.Forward`) if what has ended stays as it ended and the write
timestamp is not lowered. Everything that is done to a record moves it forward but one:
`writeLocked` ends with writing the coordinator's copy over the record without looking at it, and a
rival may have aborted or pushed the record since the copy was made. In an orderly run the records
move forward if no write is made after that (`System.Onward`), unless a cached read brings the copy
to where the record has been pushed.
-/

namespace DucklingDB.Txn

open Hlc Mvcc DucklingDB.Transaction Option

/-- The record `p'` is the record `p` moved forward. -/
structure Transaction.Forward (p p' : Transaction) : Prop where
  status : p.status ≠ .pending → p'.status = p.status
  write : p.writeTimestamp ≤ p'.writeTimestamp

section Record

variable [MetadataCodec] [RecordCodec]

/-- Before a write: the record has not ended, and has not been pushed further than the coordinator
reaches. -/
def System.Onward (s : System) : Event → Prop
  | .begin _ _ _ _ _ => True
  | .call id c => ∀ kv ∈ c.written, ∀ x ∈ s.senders id, x.txn.isFinalized = false →
    ∀ p ∈ recordOf s.engine id, p.status = .pending ∧ s.Reaches x kv.1 p.writeTimestamp

instance {s : System} {ev : Event} : Decidable (s.Onward ev) :=
  match ev with
  | .begin _ _ _ _ _ => inferInstanceAs (Decidable True)
  | .call _ _ => inferInstanceAs (Decidable (∀ _, _))

/-- The records of the transactions of `s` have moved forward in `s'`. -/
def System.Forward (s s' : System) : Prop :=
  ∀ t, (s.senders t).isSome = true → ∀ p, recordOf s.engine t = some p →
    ∃ p', recordOf s'.engine t = some p' ∧ p.Forward p'

variable {U : Set Bytes} {s s' s₁ s₂ : System} {a a' a₁ : Store} {id : TxnID} {k : Bytes}
  {ev : Event} {ans : Answer}

section

variable (h : SysRel U s a)
include h

theorem SysRel.record {t : TxnID} {p : Transaction}
    (ht : (s.senders t).isSome = true) (hp : recordOf s.engine t = some p) :
    ∃ x, a.txns t = some x ∧ x.record = ⟨p.status, p.writeTimestamp⟩ := by
  obtain ⟨y, hy⟩ := isSome_iff_exists.mp ht
  obtain ⟨p', x, hp', hx, htr⟩ := (h.attach hy).self
  obtain rfl := mem_unique hp hp'
  exact ⟨x, hx, htr.record⟩

theorem SysRel.record_of {t : TxnID} {x : Transaction.Txn Bytes Timestamp Bytes}
    (hx : a.txns t = some x) :
    ∃ p, recordOf s.engine t = some p ∧ x.record = ⟨p.status, p.writeTimestamp⟩ := by
  obtain ⟨p, _, hp, -, htr⟩ := h.rel.of_txns hx
  exact ⟨p, hp, htr.record⟩

theorem SysRel.onward {c : Call} {value : Option Bytes}
    (ho : s.Onward (.call id c)) (hw : Writes s s' a a₁ id c k value) :
    Transaction.Onward a₁ (.write id k value) := by
  intro x₁ hx₁
  obtain ⟨x, x', x₁', hx, hx', hx₁', hheld, -, -, hfin, -⟩ := hw.held
  obtain rfl := mem_unique hx₁ hx₁'
  obtain ⟨p, hp, hrec⟩ := h.record_before hw hx₁
  obtain ⟨hpend, hreach⟩ := ho (k, value) hw.written x hx hfin p hp
  rw [hrec]
  refine ⟨fun hne ↦ absurd hpend hne, ?_⟩
  rw [hheld]
  exact hw.reaches hx hx' hreach

/-- **An onward step moves the records forward.** -/
theorem SysRel.forward (h' : SysRel U s' a') (ho : s.Onward ev)
    (hturn : Turn s a ev ans s' a') : s.Forward s' := by
  have hrun : Steps Transaction.Onward a a' := by
    refine hturn.steps (fun a mv hno ↦ onward_of_ne hno) ?_
    rintro id c k value a₁ rfl rfl hw
    exact h.onward ho hw
  intro t ht p hp
  obtain ⟨x, hx, hrec⟩ := h.record ht hp
  obtain ⟨x', hx', hf⟩ := hrun.forward h.rel.inv (fun _ _ hG ↦ hG) hx
  obtain ⟨p', hp', hrec'⟩ := h'.record_of hx'
  rw [hrec, hrec'] at hf
  exact ⟨p', hp', hf.status, hf.write⟩

end

theorem System.Forward.trans (h : s.Forward s₁) (h' : s₁.Forward s₂)
    (hmono : ∀ t, (s.senders t).isSome = true → (s₁.senders t).isSome = true) : s.Forward s₂ := by
  intro t ht p hp
  obtain ⟨p₁, hp₁, hf₁⟩ := h t ht p hp
  obtain ⟨p₂, hp₂, hf₂⟩ := h' t (hmono t ht) p₁ hp₁
  refine ⟨p₂, hp₂, fun hne ↦ ?_, hf₁.write.trans hf₂.write⟩
  have hst := hf₁.status hne
  rw [hf₂.status (hst ▸ hne), hst]

variable {evs : List Event}

theorem SysRel.forward_run (h : SysRel U s a)
    (hgood : s.Along (fun s ev ↦ s.Orderly U ev ∧ s.Onward ev) evs) (hrun : s.run evs = some s') :
    s.Forward s' := by
  obtain ⟨_, -, hf, -⟩ := SysRel.run
    (P := fun s' _ ↦ s.Forward s' ∧ ∀ t, (s.senders t).isSome = true → (s'.senders t).isSome = true)
    (fun _ _ hg ↦ hg.1) (fun h hp hg _ h' hturn ↦ ⟨hp.1.trans (h.forward h' hg.2 hturn) hp.2,
      fun t ht ↦ h.senders_mono h' hturn (hp.2 t ht)⟩) h
    ⟨fun t _ p hp ↦ ⟨p, hp, fun _ ↦ rfl, le_rfl⟩, fun _ ht ↦ ht⟩ hgood hrun
  exact hf

/-- **Records move forward.** In an orderly run whose writes are onward, the record of every
transaction moves forward from every state of the run to every later one. -/
theorem records_move_forward {evs evs' : List Event} (hU : UserKeys U) (hs : s.Fresh)
    (hgood : s.Along (fun s ev ↦ s.Orderly U ev ∧ s.Onward ev) (evs ++ evs'))
    (hrun : s.run evs = some s₁) (hrun' : s₁.run evs' = some s₂) {t : TxnID} {p : Transaction}
    (ht : (s₁.senders t).isSome = true) (hp : recordOf s₁.engine t = some p) :
    ∃ p', recordOf s₂.engine t = some p' ∧
      (p.status ≠ .pending → p'.status = p.status) ∧ p.writeTimestamp ≤ p'.writeTimestamp := by
  obtain ⟨hgood₁, hgood₂⟩ := along_append hgood hrun
  obtain ⟨a₁, h₁⟩ := (sysRel_fresh hU hs).exists_run (along_and.mp hgood₁).1 hrun
  obtain ⟨p', hp', hf⟩ := h₁.forward_run hgood₂ hrun' t ht p hp
  exact ⟨p', hp', hf.status, hf.write⟩

end Record

/-! ## Runs -/

/-- A reader pushes the record and the intent of a transaction, and reads the value beneath it
... -/
def pushedOver : List Event :=
  [.begin (txnId 1) 1 .SI 0 (some 0), .call (txnId 1) (.put [0x6b] [1]), .call (txnId 1) .commit,
    .begin (txnId 3) 1 .SI 0 (some 0), .call (txnId 3) (.put [0x6b] [2]),
    .begin (txnId 2) 1 .SI 0 (some 0), .call (txnId 2) (.get [0x6b] [])]

/-- ... which writes the key once more and commits. -/
def writtenAgain : List Event := [.call (txnId 3) (.put [0x6b] [3]), .call (txnId 3) .commit]

theorem records_move_forward_pushed :
    blank.Along (fun s ev ↦ s.Orderly letters ev ∧ s.Onward ev) (pushedOver ++ writtenAgain) ∧
    ∃ s₁ s₂ x p p', blank.run pushedOver = some s₁ ∧ s₁.run writtenAgain = some s₂ ∧
      s₁.senders (txnId 3) = some x ∧ recordOf s₁.engine (txnId 3) = some p ∧
      x.txn.writeTimestamp < p.writeTimestamp ∧ recordOf s₂.engine (txnId 3) = some p' ∧
      p.writeTimestamp ≤ p'.writeTimestamp := by
  have hgood : blank.Along (fun s ev ↦ s.Orderly letters ev ∧ s.Onward ev)
      (pushedOver ++ writtenAgain) := by decide +kernel
  have hrun : ∃ s₁ ∈ blank.run pushedOver, ∃ s₂ ∈ s₁.run writtenAgain, ∃ x ∈ s₁.senders (txnId 3),
      ∃ p ∈ recordOf s₁.engine (txnId 3), x.txn.writeTimestamp < p.writeTimestamp := by
    decide +kernel
  obtain ⟨s₁, hs₁, s₂, hs₂, x, hx, p, hp, hlt⟩ := hrun
  obtain ⟨p', hp', -, hle⟩ := records_move_forward userKeys_letters fresh_blank hgood hs₁ hs₂
    (by rw [hx, isSome_some]) hp
  exact ⟨hgood, s₁, s₂, x, p, p', hs₁, hs₂, hx, hp, hlt, hp', hle⟩

/-- A transaction with a higher priority aborts another one and takes its intent back. -/
def overruled : List Event :=
  [.begin (txnId 1) 1 .SI 0 (some 0), .call (txnId 1) (.put [0x6b] [1]),
    .begin (txnId 2) 2 .SI 0 (some 0), .call (txnId 2) (.put [0x6b] [2])]

/-- A record that was aborted is pending again after the next write of its transaction. -/
theorem exists_revived_record : ∃ s s' p p', blank.run overruled = some s ∧
    s.run [.call (txnId 1) (.put [0x6a] [1])] = some s' ∧ recordOf s.engine (txnId 1) = some p ∧
    recordOf s'.engine (txnId 1) = some p' ∧ p.status = .aborted ∧ p'.status = .pending := by
  have hrun : ∃ s ∈ blank.run overruled, ∃ s' ∈ s.run [.call (txnId 1) (.put [0x6a] [1])],
      ∃ p ∈ recordOf s.engine (txnId 1), ∃ p' ∈ recordOf s'.engine (txnId 1),
        p.status = .aborted ∧ p'.status = .pending := by decide +kernel
  obtain ⟨s, hs, s', hs', p, hp, p', hp', hst, hst'⟩ := hrun
  exact ⟨s, s', p, p', hs, hs', hp, hp', hst, hst'⟩

end DucklingDB.Txn
