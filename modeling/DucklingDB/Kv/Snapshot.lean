import DucklingDB.Kv.Atomicity
import DucklingDB.Transaction.Snapshot

/-!
# No retroactive writes

Once a `Get` has completed, no version at or below its read timestamp is committed any more by
another transaction -- if the writes of the run are covered (`System.Covered`): every completed read
of the key by another transaction is known to the timestamp cache that the writer asks, or lies
below its write timestamp anyway, and nobody has pushed its record further than that.

Neither is guaranteed by the code. A `Get` that finds nothing is not put into the cache, nor is one
whose timestamp lies below the low-water mark that an eviction has left; and `writeLocked` writes
the coordinator's copy of the record over one that a reader has pushed.
-/

namespace DucklingDB.Txn

open Hlc Mvcc DucklingDB.Transaction Option

section NoRetroactiveWrites

variable [MetadataCodec] [RecordCodec]

/-- The coordinator's write timestamp has reached `ts`, or it will when it is pushed past the reads
of `k` that the cache knows of. -/
def System.Reaches (s : System) (x : Sender) (k : Bytes) (ts : Timestamp) : Prop :=
  ts ≤ x.txn.writeTimestamp ∨ ∃ i ∈ x.cache, ts ≤ ((s.caches i).getMax k).next

instance {s : System} {x : Sender} {k : Bytes} {ts : Timestamp} : Decidable (s.Reaches x k ts) :=
  inferInstanceAs (Decidable (_ ∨ _))

/-- Before a write: the completed reads of the key by others lie below the coordinator's write
timestamp or are known to its cache, and its record has not been pushed further than it reaches. -/
def System.Covered (s : System) : Event → Prop
  | .begin _ _ _ _ _ => True
  | .call id c => ∀ kv ∈ c.written, ∀ x ∈ s.senders id, x.txn.isFinalized = false →
    (∀ p ∈ recordOf s.engine id, s.Reaches x kv.1 p.writeTimestamp) ∧
    ∀ id' ∈ s.begun, id' ≠ id → reads (s.ops id') kv.1 = true → ∀ y ∈ s.senders id',
      y.txn.readTimestamp < x.txn.writeTimestamp ∨
        ∃ i ∈ x.cache, y.txn.readTimestamp ≤ (s.caches i).getMax kv.1

instance {s : System} {ev : Event} : Decidable (s.Covered ev) :=
  match ev with
  | .begin _ _ _ _ _ => inferInstanceAs (Decidable True)
  | .call _ _ => inferInstanceAs (Decidable (∀ _, _))

variable {U : Set Bytes} {s s₁ s₂ : System} {a a₁ : Store} {k : Bytes}

omit [MetadataCodec] [RecordCodec] in
/-- A write that succeeds ends no lower than its coordinator reached before it. -/
theorem Writes.reaches {id : TxnID} {c : Call} {value : Option Bytes} {x x' : Sender}
    {ts : Timestamp} (hw : Writes s s₁ a a₁ id c k value) (hx : s.senders id = some x)
    (hx' : s₁.senders id = some x')
    (hr : s.Reaches x k ts) : ts ≤ x'.txn.writeTimestamp := by
  obtain ⟨y, y', -, hy, hy', -, -, hcache, hmono, -⟩ := hw.held
  obtain rfl := mem_unique hx hy
  obtain rfl := mem_unique hx' hy'
  rcases hr with hle | ⟨i, hi, hle⟩
  · exact hle.trans hmono
  · exact hle.trans (hcache i hi)

section

variable (h : SysRel U s a)
include h

theorem SysRel.covered {id : TxnID} {c : Call} {value : Option Bytes} (hc : s.Covered (.call id c))
    (hw : Writes s s₁ a a₁ id c k value) : Transaction.Covered a₁ (.write id k value) := by
  intro x₁ hx₁
  obtain ⟨x, x', x₁', hx, hx', hx₁', hheld, hcache, hmono, hfin, -⟩ := hw.held
  obtain rfl := mem_unique hx₁ hx₁'
  obtain ⟨hrec, hreads⟩ := hc (k, value) hw.written x hx hfin
  constructor
  · obtain ⟨p, hp, hsame⟩ := h.record_before hw hx₁
    rw [hsame, hheld]
    exact hw.reaches hx hx' (hrec p hp)
  · -- the quiet moves have added no read
    intro r y hne hy hr
    have hhist := hw.quiet.history r
    rw [hy, map_some] at hhist
    obtain ⟨y₀, hy₀, hhist⟩ := map_eq_some_iff.mp hhist.symm
    obtain ⟨hread, hops⟩ := Prod.mk.inj hhist
    obtain ⟨p, m, hp, hm, htr⟩ := h.rel.of_txns hy₀
    obtain ⟨z, hz, rfl⟩ := map_eq_some_iff.mp hm
    have hbegun : r ∈ s.begun := h.mem_begun.mpr (by rw [hz, isSome_some])
    rw [Txn.Reads, ← hops, htr.ops_eq] at hr
    rw [← hread, ← htr.held_read, hheld]
    rcases hreads r hbegun hne hr z hz with hlt | ⟨i, hi, hle⟩
    · exact hlt.trans_le hmono
    · calc z.txn.readTimestamp ≤ (s.caches i).getMax k := hle
        _ < ((s.caches i).getMax k).next := Timestamp.lt_next ((h.caches i).getMax k).2
        _ ≤ x'.txn.writeTimestamp := hcache i hi

theorem SysRel.strict_covered {ev : Event} {ans : Answer} (hgood : s.Orderly U ev)
    (hst : s.Strict ev) (hc : s.Covered ev) (hturn : Turn s a ev ans s₁ a₁) :
    Steps (fun a mv ↦ Transaction.Strict a mv ∧ Transaction.Covered a mv) a a₁ := by
  refine hturn.steps (fun a mv hno ↦ ⟨strict_of_ne hno, covered_of_ne hno⟩) ?_
  rintro id c k value a₁ rfl rfl hw
  exact ⟨h.strict hgood hst hw, h.covered hc hw⟩

theorem SysRel.hasRead {r : TxnID} {y : Sender} (hy : s.senders r = some y)
    (hr : reads (s.ops r) k = true) : a.HasRead r k y.txn.readTimestamp := by
  obtain ⟨p, x, hp, hx, htr⟩ := (h.attach hy).self
  refine ⟨x, hx, htr.held_read.symm, ?_⟩
  rw [Txn.Reads, htr.ops_eq]
  exact hr

theorem SysRel.fixed (hk : k ∈ U) {u : Timestamp} (hu : Valid u) {raw : Bytes}
    (hraw : version s.engine k u = some raw) (hno : ∀ t, intentOf s.engine k ≠ some (t, u)) :
    ∃ w, encodeWrite w = raw ∧ (a.cells k).Fixed u w := by
  obtain ⟨w, hw, rfl⟩ := h.rel.rep.version_eq_some hk hu hraw
  exact ⟨w, rfl, hw, fun t hi ↦ hno t ((h.rel.rep.intent k hk).trans hi)⟩

theorem SysRel.wrote {t : TxnID} {u : Timestamp} {w : Option Bytes} (hw : a.Wrote t k u w) :
    s.commits t = some u ∧ lastWrite (s.ops t) k = some w := by
  obtain ⟨x, hx, hr, hw⟩ := hw
  exact ⟨h.commits.mpr ⟨x, hx, hr⟩, h.ops_eq hx ▸ hw⟩

end

/-- **No retroactive writes.** Let `r` have completed a `Get` of `k`, with a value or not found,
when the system is in the state `s₁`. Whatever version of `k` at or below the read timestamp of `r`
is committed later, in `s₂`, was committed in `s₁` already, or is a write of `r` itself. -/
theorem no_retroactive_writes {evs evs' : List Event} (hU : UserKeys U) (hs : s.Fresh)
    (hgood : s.Along (fun s ev ↦ s.Orderly U ev ∧ s.Strict ev ∧ s.Covered ev) (evs ++ evs'))
    (hrun : s.run evs = some s₁) (hrun' : s₁.run evs' = some s₂) {r : TxnID} {y : Sender}
    (hy : s₁.senders r = some y) (hk : k ∈ U) (hr : reads (s₁.ops r) k = true) {u : Timestamp}
    (hu : Valid u) (hle : u ≤ y.txn.readTimestamp) {raw : Bytes}
    (hraw : version s₂.engine k u = some raw) (hno : ∀ t, intentOf s₂.engine k ≠ some (t, u)) :
    (∃ t w, s₁.commits t = some u ∧ lastWrite (s₁.ops t) k = some w ∧ encodeWrite w = raw) ∨
      ∃ w, s₂.commits r = some u ∧ lastWrite (s₂.ops r) k = some w ∧ encodeWrite w = raw := by
  obtain ⟨hgood₁, hgood₂⟩ := along_append hgood hrun
  obtain ⟨a₁, h₁, hclean, hshield⟩ := SysRel.run (P := fun _ a ↦ Clean a ∧ Shielded a)
    (fun _ _ hg ↦ hg.1) (fun h hp hg _ _ hturn ↦ by
      have hsteps := h.strict_covered hg.1 hg.2.1 hg.2.2 hturn
      exact ⟨hp.1.steps h.rel.inv hsteps fun _ _ hG ↦ hG.1,
        hp.2.steps h.rel.inv hsteps fun _ _ hG ↦ hG.2⟩)
    (sysRel_fresh hU hs) ⟨clean_init, shielded_init⟩ hgood₁ hrun
  obtain ⟨a₂, h₂, hrun₂⟩ := SysRel.run
    (P := fun _ a ↦ Steps (fun a mv ↦ Transaction.Strict a mv ∧ Transaction.Covered a mv) a₁ a)
    (fun _ _ hg ↦ hg.1)
    (fun h hrun hg _ _ hturn ↦ hrun.trans (h.strict_covered hg.1 hg.2.1 hg.2.2 hturn)) h₁ .refl
    hgood₂ hrun'
  obtain ⟨w, rfl, hfix⟩ := h₂.fixed hk hu hraw hno
  rcases hshield.fixed_of_steps hclean h₁.rel.inv hrun₂ (fun _ _ hG ↦ hG.1) (fun _ _ hG ↦ hG.2)
    (h₁.hasRead hy hr) hle hfix with hfix | hwrote
  · obtain ⟨t, hwrote⟩ := hclean.wrote_of_fixed hfix
    exact Or.inl ⟨t, w, (h₁.wrote hwrote).1, (h₁.wrote hwrote).2, rfl⟩
  · exact Or.inr ⟨w, (h₂.wrote hwrote).1, (h₂.wrote hwrote).2, rfl⟩

end NoRetroactiveWrites

/-! ## Runs -/

/-- A transaction reads a committed value ... -/
def readFirst : List Event :=
  [.begin (txnId 1) 1 .SI 0 (some 0), .call (txnId 1) (.put [0x6b] [1]), .call (txnId 1) .commit,
    .begin (txnId 3) 1 .SI 0 (some 0), .begin (txnId 2) 1 .SI 0 (some 0),
    .call (txnId 2) (.get [0x6b] [])]

/-- ... which an older transaction then writes. -/
def writeLater : List Event := [.call (txnId 3) (.put [0x6b] [2]), .call (txnId 3) .commit]

theorem no_retroactive_writes_cached :
    blank.Along (fun s ev ↦ s.Orderly letters ev ∧ s.Strict ev ∧
      s.Covered ev) (readFirst ++ writeLater) ∧
    ∃ s₁ s₂ y raw, blank.run readFirst = some s₁ ∧ s₁.run writeLater = some s₂ ∧
      s₁.senders (txnId 2) = some y ∧ version s₂.engine [0x6b] ⟨10, 0⟩ = some raw ∧
      ((∃ t w, s₁.commits t = some ⟨10, 0⟩ ∧ lastWrite (s₁.ops t) [0x6b] = some w ∧
        encodeWrite w = raw) ∨
      ∃ w, s₂.commits (txnId 2) = some ⟨10, 0⟩ ∧ lastWrite (s₂.ops (txnId 2)) [0x6b] = some w ∧
        encodeWrite w = raw) := by
  have hgood : blank.Along (fun s ev ↦ s.Orderly letters ev ∧ s.Strict ev ∧ s.Covered ev)
      (readFirst ++ writeLater) := by decide +kernel
  have hrun : ∃ s₁ ∈ blank.run readFirst, ∃ s₂ ∈ s₁.run writeLater, ∃ y ∈ s₁.senders (txnId 2),
      ∃ raw ∈ version s₂.engine [0x6b] ⟨10, 0⟩, reads (s₁.ops (txnId 2)) [0x6b] = true ∧
        ⟨10, 0⟩ ≤ y.txn.readTimestamp ∧ intentOf s₂.engine [0x6b] = none := by decide +kernel
  obtain ⟨s₁, hs₁, s₂, hs₂, y, hy, raw, hraw, hr, hle, hno⟩ := hrun
  refine ⟨hgood, s₁, s₂, y, raw, hs₁, hs₂, hy, hraw, ?_⟩
  exact no_retroactive_writes userKeys_letters fresh_blank hgood hs₁ hs₂ hy (by decide) hr
    (by decide) hle hraw fun t ↦ by simp [hno]

/-- A transaction finds no value, and then an older one writes the key and commits. -/
theorem exists_retroactive_write : ∃ s₁ s₂ y c,
    blank.run [.begin (txnId 1) 1 .SSI 0 (some 0), .begin (txnId 2) 1 .SSI 0 (some 0),
      .call (txnId 2) (.get [0x6b] [])] = some s₁ ∧
    s₁.run [.call (txnId 1) (.put [0x6b] [1]), .call (txnId 1) .commit] = some s₂ ∧
    s₁.senders (txnId 2) = some y ∧ s₁.ops (txnId 2) = [.read [0x6b] none] ∧
    s₁.commits (txnId 1) = none ∧ s₂.commits (txnId 1) = some c ∧ c ≤ y.txn.readTimestamp ∧
    version s₂.engine [0x6b] c = some (encodeWrite (some [1])) := by
  have hrun : ∃ s₁ ∈ blank.run [.begin (txnId 1) 1 .SSI 0 (some 0),
        .begin (txnId 2) 1 .SSI 0 (some 0), .call (txnId 2) (.get [0x6b] [])],
      ∃ s₂ ∈ s₁.run [.call (txnId 1) (.put [0x6b] [1]), .call (txnId 1) .commit],
      ∃ y ∈ s₁.senders (txnId 2), ∃ c ∈ s₂.commits (txnId 1),
        s₁.ops (txnId 2) = [.read [0x6b] none] ∧ s₁.commits (txnId 1) = none ∧
        c ≤ y.txn.readTimestamp ∧ version s₂.engine [0x6b] c = some (encodeWrite (some [1])) := by
    decide +kernel
  obtain ⟨s₁, hs₁, s₂, hs₂, y, hy, c, hc, hops, hno, hle, hv⟩ := hrun
  exact ⟨s₁, s₂, y, c, hs₁, hs₂, hy, hops, hno, hc, hle, hv⟩

end DucklingDB.Txn
