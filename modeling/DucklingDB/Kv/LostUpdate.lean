import DucklingDB.Kv.OwnWrites

/-!
# Lost updates

Two transactions that have both read a key and written it afterwards do not both commit -- if both
write before either has committed (`System.Yields`). Then the intent of the first one was in the way
of the second one, which has aborted the first one to get past it.

If the first one has committed there is no intent any more. `MVCCPut` finds a newer version,
`writeLocked` moves the write timestamp past it, and at `Commit` nobody asks whether the key was
read before that version was there: under snapshot isolation any write timestamp is good enough.
-/

namespace DucklingDB.Txn

open Hlc Mvcc DucklingDB.Transaction Option

section LostUpdate

variable [MetadataCodec] [RecordCodec]

/-- A write of `t` that succeeds finds the record of `t` not aborted and, if `t` has read `k` and
writes it now, `t'` not committed. -/
def System.Yields (t t' : TxnID) (k : Bytes) (s : System) : Event → Prop
  | .begin _ _ _ _ _ => True
  | .call id c => id = t → c.written.isSome → ∀ r ∈ s.step (.call id c), r.1 = .done (.ok ()) →
    s.Unharmed t ∧ ∀ kv ∈ c.written, kv.1 = k → reads (s.ops t) k = true → s.commits t' = none

instance {t t' : TxnID} {k : Bytes} {s : System} {ev : Event} : Decidable (s.Yields t t' k ev) :=
  match ev with
  | .begin _ _ _ _ _ => inferInstanceAs (Decidable True)
  | .call _ _ => inferInstanceAs (Decidable (_ → _))

variable {U : Set Bytes} {s s' : System} {a a' a₁ : Store} {id t t' : TxnID} {k : Bytes}

theorem SysRel.yields (h : SysRel U s a) {c : Call} {k' : Bytes} {value : Option Bytes}
    (hy : s.Yields t t' k (.call id c)) (hs : s.step (.call id c) = some (.done (.ok ()), s'))
    (hw : Writes s s' a a₁ id c k' value) :
    Spares t a₁ (.write id k' value) ∧ Transaction.Yields t t' k a₁ (.write id k' value) := by
  by_cases heq : id = t
  · subst heq
    obtain ⟨hun, hcom⟩ := hy rfl (by rw [hw.written, isSome_some]) _ hs rfl
    refine ⟨h.spares hun hw, ?_⟩
    rintro - rfl x₁ hx₁ hr y hy hc
    -- the quiet moves have added no read and committed nothing
    have hhist := hw.quiet.history id
    rw [hx₁, map_some] at hhist
    obtain ⟨x, hx, hhist⟩ := map_eq_some_iff.mp hhist.symm
    rw [← (Prod.mk.inj hhist).2, h.ops_eq hx] at hr
    have hold : a.Committed t' y.record.write :=
      (hw.quiet.committed_iff h.rel.inv).mp ⟨y, hy, by rw [← hc]⟩
    have hnone := hcom _ hw.written rfl hr
    cases hnone.symm.trans (h.commits.mpr hold)
  · exact ⟨fun hid ↦ absurd hid heq, fun hid ↦ absurd hid heq⟩

/-- **No lost update.** Two transactions that have both read `k` and written it afterwards do not
both commit, if neither writes after it was aborted, and neither writes `k` after the other one has
committed. -/
theorem no_lost_update {evs : List Event} (hU : UserKeys U) (hs : s.Fresh) (hne : t ≠ t')
    (hgood : s.Along (fun s ev ↦ s.Orderly U ev ∧ s.Yields t t' k ev ∧ s.Yields t' t k ev) evs)
    (hrun : s.run evs = some s') (hu : Updates k (s'.ops t)) (hu' : Updates k (s'.ops t')) :
    s'.commits t = none ∨ s'.commits t' = none := by
  obtain ⟨a, h, -, -, hcon⟩ := SysRel.run
    (P := fun _ a ↦ Holds t k a ∧ Holds t' k a ∧ Contested t t' k a) (fun _ _ hg ↦ hg.1)
    (fun {s ev ans s' a a'} h hp hg hs _ hturn ↦ by
      have hsteps : Steps (fun a mv ↦ (Spares t a mv ∧ Transaction.Yields t t' k a mv) ∧
          Spares t' a mv ∧ Transaction.Yields t' t k a mv) a a' := by
        refine hturn.steps (fun a mv hno ↦ ⟨⟨spares_of_ne hno, yields_of_ne hno⟩, spares_of_ne hno,
          yields_of_ne hno⟩) ?_
        rintro id c k' value a₁ rfl rfl hw
        exact ⟨h.yields hg.2.1 hs hw, h.yields hg.2.2 hs hw⟩
      obtain ⟨hh, hh', hcon⟩ := hp
      exact ⟨hh.steps h.rel.inv hsteps fun _ _ hG ↦ hG.1.1,
        hh'.steps h.rel.inv hsteps fun _ _ hG ↦ hG.2.1,
        hcon.steps hh hh' h.rel.inv hne hsteps fun _ _ hG ↦ hG⟩)
    (sysRel_fresh hU hs) ⟨by rintro _ ⟨⟩, by rintro _ ⟨⟩, by rintro _ _ ⟨⟩⟩ hgood hrun
  by_contra hboth
  push Not at hboth
  obtain ⟨c, hc⟩ := Option.ne_none_iff_exists'.mp hboth.1
  obtain ⟨c', hc'⟩ := Option.ne_none_iff_exists'.mp hboth.2
  obtain ⟨x, hx, hr, hops⟩ := h.committed hc
  obtain ⟨y, hy, hr', hops'⟩ := h.committed hc'
  have hab := hcon x y hx hy (hops ▸ hu) (hops' ▸ hu')
  simp [hr, hr'] at hab

end LostUpdate

/-! ## Runs -/

/-- Two transactions read a key and then write it; the second one has the higher priority. -/
def duel : List Event :=
  [.begin (txnId 1) 1 .SI 0 none, .begin (txnId 2) 2 .SI 0 none, .call (txnId 1) (.get [0x6b] []),
    .call (txnId 2) (.get [0x6b] []), .call (txnId 1) (.put [0x6b] [1]),
    .call (txnId 2) (.put [0x6b] [2]), .call (txnId 1) .commit, .call (txnId 2) .commit]

theorem no_lost_update_duel : ∃ s, blank.run duel = some s ∧ Updates [0x6b] (s.ops (txnId 1)) ∧
    Updates [0x6b] (s.ops (txnId 2)) ∧
      (s.commits (txnId 1) = none ∨ s.commits (txnId 2) = none) := by
  have hgood : blank.Along (fun s ev ↦ s.Orderly letters ev ∧
      s.Yields (txnId 1) (txnId 2) [0x6b] ev ∧
      s.Yields (txnId 2) (txnId 1) [0x6b] ev) duel := by decide +kernel
  have hrun : ∃ s ∈ blank.run duel,
      s.ops (txnId 1) = [.read [0x6b] none, .write [0x6b] (some [1])] ∧
      s.ops (txnId 2) = [.read [0x6b] none, .write [0x6b] (some [2])] := by decide +kernel
  obtain ⟨s, hs, hops, hops'⟩ := hrun
  have hu : Updates [0x6b] (s.ops (txnId 1)) := ⟨[.read [0x6b] none], some [1], [], hops, rfl⟩
  have hu' : Updates [0x6b] (s.ops (txnId 2)) := ⟨[.read [0x6b] none], some [2], [], hops', rfl⟩
  exact ⟨s, hs, hu, hu', no_lost_update userKeys_letters fresh_blank (by decide) hgood hs hu hu'⟩

/-- Two transactions read a key; one writes it and commits, and then the other one does. -/
def overwritten : List Event :=
  [.begin (txnId 1) 1 .SI 0 (some 0), .begin (txnId 2) 1 .SI 0 (some 0),
    .call (txnId 1) (.get [0x6b] []), .call (txnId 2) (.get [0x6b] []),
    .call (txnId 2) (.put [0x6b] [2]), .call (txnId 2) .commit, .call (txnId 1) (.put [0x6b] [1]),
    .call (txnId 1) .commit]

/-- Both have found no value, and both commit. -/
theorem exists_lost_update : ∃ s c c', blank.run overwritten = some s ∧
    s.ops (txnId 1) = [.read [0x6b] none, .write [0x6b] (some [1])] ∧
    s.ops (txnId 2) = [.read [0x6b] none, .write [0x6b] (some [2])] ∧
    s.commits (txnId 1) = some c ∧ s.commits (txnId 2) = some c' := by
  have hrun : ∃ s ∈ blank.run overwritten,
      s.ops (txnId 1) = [.read [0x6b] none, .write [0x6b] (some [1])] ∧
      s.ops (txnId 2) = [.read [0x6b] none, .write [0x6b] (some [2])] ∧
      (∃ c ∈ s.commits (txnId 1), True) ∧ ∃ c' ∈ s.commits (txnId 2), True := by decide +kernel
  obtain ⟨s, hs, hops, hops', ⟨c, hc, -⟩, c', hc', -⟩ := hrun
  exact ⟨s, c, c', hs, hops, hops', hc, hc'⟩

end DucklingDB.Txn
