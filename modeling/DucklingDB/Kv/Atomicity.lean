import DucklingDB.Kv.Codec
import DucklingDB.Kv.Turn

/-!
# Atomic commitment

After an orderly run in which intents are rewritten in place and no aborted transaction writes, the
engine holds exactly the last writes of the committed transactions, each at its commit timestamp,
and the intents of transactions that have not committed. No read returns the latter.

Otherwise an aborted value may stay behind: `MVCCPut` writes an own intent at the timestamp that a
read of the transaction itself has pushed it to, without removing the version at the old timestamp,
and `resolveAbort` deletes the new one only. And a transaction that was aborted by another one,
which deleted an intent of it, may be pending again after its next write, and commit without that
intent.
-/

namespace DucklingDB.Txn

open Hlc Mvcc DucklingDB.Transaction Option

/-- No write of a transaction that has been aborted succeeds. -/
def System.Alive [MetadataCodec] [RecordCodec] (s : System) : Event → Prop
  | .begin _ _ _ _ _ => True
  | .call id c => c.written.isSome → ∀ r ∈ s.step (.call id c), r.1 = .done (.ok ()) →
    ∀ p ∈ recordOf s.engine id, p.status ≠ .aborted

instance [MetadataCodec] [RecordCodec] {s : System} {ev : Event} : Decidable (s.Alive ev) :=
  match ev with
  | .begin _ _ _ _ _ => inferInstanceAs (Decidable True)
  | .call _ _ => inferInstanceAs (Decidable (_ → _))

section Atomicity

variable [MetadataCodec] [RecordCodec] {U : Set Bytes} {s s' : System} {a : Store} {id : TxnID}
  {k : Bytes} {ts : Timestamp}

section

variable (h : SysRel U s a)
include h

theorem SysRel.ops_eq {x : Transaction.Txn Bytes Timestamp Bytes} (hx : a.txns id = some x) :
    x.ops = s.ops id := by
  obtain ⟨_, _, _, _, htr⟩ := h.rel.of_txns hx
  exact htr.ops_eq

variable {c : Timestamp} {v : Bytes}

theorem SysRel.committed (hc : s.commits id = some c) :
    ∃ x, a.txns id = some x ∧ x.record = ⟨.committed, c⟩ ∧ x.ops = s.ops id := by
  obtain ⟨x, hx, hr⟩ := h.commits.mp hc
  exact ⟨x, hx, hr, h.ops_eq hx⟩

theorem SysRel.alive {c : Call} {value : Option Bytes} {a₁ : Store} (halive : s.Alive (.call id c))
    (hs : s.step (.call id c) = some (.done (.ok ()), s')) (hw : Writes s s' a a₁ id c k value) :
    Transaction.Alive a₁ (.write id k value) := by
  intro x₁ hx₁
  obtain ⟨p, hp, hrec⟩ := h.record_before hw hx₁
  rw [hrec]
  exact halive (by rw [hw.written, isSome_some]) _ hs rfl p hp

/-- There is nothing in the store but committed writes and intents, and none of them is lost. -/
theorem SysRel.clean_complete (hc : Clean a) (hk : Complete a) {ev : Event} {ans : Answer}
    {a' : Store} (hgood : s.Orderly U ev) (hst : s.Strict ev) (halive : s.Alive ev)
    (hs : s.step ev = some (ans, s')) (hturn : Turn s a ev ans s' a') : Clean a' ∧ Complete a' := by
  have hrun : Steps (fun a mv ↦ Transaction.Strict a mv ∧ Transaction.Alive a mv) a a' := by
    refine hturn.steps (fun a mv hno ↦ ⟨strict_of_ne hno, alive_of_ne hno⟩) ?_
    rintro id c k value a₁ rfl rfl hw
    exact ⟨h.strict hgood hst hw, h.alive halive hs hw⟩
  exact ⟨hc.steps h.rel.inv hrun fun _ _ hG ↦ hG.1,
    hk.steps hc h.rel.inv hrun (fun _ _ hG ↦ hG.1) fun _ _ hG ↦ hG.2⟩

/-- The last writes of a committed transaction are stored, at its commit timestamp, and no
intents. -/
theorem SysRel.stored (hkept : Complete a) {w : Option Bytes}
    (hc : s.commits id = some c) (hw : lastWrite (s.ops id) k = some w) :
    version s.engine k c = some (encodeWrite w) ∧ ∀ t, intentOf s.engine k ≠ some (t, c) := by
  obtain ⟨x, hx, hr, hops⟩ := h.committed hc
  obtain ⟨_, _, _, _, htr⟩ := h.rel.of_txns hx
  have hk := htr.keys k (htr.written hw)
  obtain ⟨hver, hno⟩ := (hkept k).committed hx (by rw [hr]) (hops ▸ hw)
  rw [hr] at hver hno
  refine ⟨?_, fun t hi ↦ hno t ((h.rel.rep.intent k hk).symm.trans hi)⟩
  rw [h.rel.rep.version k hk c (h.rel.rep.valid hver), hver, map_some]

/-- A stored version is the last write of a committed transaction at its commit timestamp, or the
intent of a transaction that has not committed. -/
theorem SysRel.origin (hclean : Clean a) (hk : k ∈ U) (hts : Valid ts) {raw : Bytes}
    (hraw : version s.engine k ts = some raw) :
    ∃ t w, lastWrite (s.ops t) k = some w ∧ encodeWrite w = raw ∧
      (s.commits t = some ts ∨ s.commits t = none ∧ intentOf s.engine k = some (t, ts)) := by
  obtain ⟨w, hver, rfl⟩ := h.rel.rep.version_eq_some hk hts hraw
  rcases (hclean k).version hver with ⟨t, hi⟩ | ⟨t, x, hx, hr, hw⟩
  · obtain ⟨-, x, w', hx, hnc, hw, hver', -⟩ := (h.rel.inv.cell k).intent hi
    obtain rfl := mem_unique hver hver'
    refine ⟨t, w, h.ops_eq hx ▸ hw, rfl, Or.inr ⟨?_, (h.rel.rep.intent k hk).trans hi⟩⟩
    refine eq_none_iff_forall_ne_some.mpr fun c hc ↦ hnc ?_
    obtain ⟨x', hx', hr, -⟩ := h.committed hc
    obtain rfl := mem_unique hx hx'
    rw [hr]
  · exact ⟨t, w, h.ops_eq hx ▸ hw, rfl, Or.inl (h.commits.mpr ⟨x, hx, hr⟩)⟩

theorem SysRel.unique (hkept : Complete a) {t t' : TxnID} {w w' : Option Bytes}
    (hc : s.commits t = some c) (hc' : s.commits t' = some c) (hw : lastWrite (s.ops t) k = some w)
    (hw' : lastWrite (s.ops t') k = some w') : t = t' := by
  obtain ⟨x, hx, hr, hops⟩ := h.committed hc
  obtain ⟨x', hx', hr', hops'⟩ := h.committed hc'
  exact (hkept k).unique hx hx' (by rw [hr]) (by rw [hr']) (hops ▸ hw) (hops' ▸ hw')
    (by rw [hr, hr'])

theorem SysRel.shown (hclean : Clean a) {own : Option TxnID}
    (hs : (a.cells k).Shows own ts (some v)) : ∃ t, lastWrite (s.ops t) k = some (some v) ∧
      ((∃ c, s.commits t = some c ∧ c ≤ ts) ∨ own = some t) := by
  obtain ⟨t, x, hx, hw, hor⟩ := hclean.shown h.rel.inv hs
  refine ⟨t, h.ops_eq hx ▸ hw, hor.imp_left ?_⟩
  rintro ⟨hst, hle⟩
  exact ⟨x.record.write, h.commits.mpr ⟨x, hx, by rw [← hst]⟩, hle⟩

/-- A `Get` returns a committed write, or the transaction's own. -/
theorem SysRel.get_value (hclean : Clean a) (hk : k ∈ U) {order : List Bytes}
    (hs : s.step (.call id (.get k order)) = some (.value (.ok v), s')) :
    ∃ t, lastWrite (s.ops t) k = some (some v) ∧ ((∃ c, s.commits t = some c) ∨ t = id) := by
  obtain ⟨_, -, hturn⟩ := h.step (show s.Orderly U (.call id (.get k order)) from hk) hs
  cases hturn with
  | quiet hfail _ => exact absurd hfail (by simp [Answer.failed, readResult])
  | @read _ _ _ _ _ _ a₁ _ hquiet hr hstep =>
    obtain rfl := Option.some.inj hr
    cases hstep with
    | read _ _ hshow =>
      have hclean₁ : Clean a₁ := hclean.steps h.rel.inv hquiet fun a mv hq ↦ strict_of_ne ?_
      · obtain ⟨t, x₁, hx₁, hw, hor⟩ := hclean₁.shown (h.rel.inv.steps hquiet) hshow
        -- the quiet moves before the read have neither written nor committed
        have hhist := hquiet.history t
        rw [hx₁, map_some] at hhist
        obtain ⟨x, hx, hhist⟩ := map_eq_some_iff.mp hhist.symm
        have hops : x₁.ops = s.ops t := (congrArg Prod.snd hhist).symm.trans (h.ops_eq hx)
        refine ⟨t, hops ▸ hw, hor.imp (fun hc ↦ ?_) fun heq ↦ (Option.some.inj heq).symm⟩
        have hcom : a₁.Committed t x₁.record.write := ⟨x₁, hx₁, by rw [← hc.1]⟩
        exact ⟨_, h.commits.mpr ((hquiet.committed_iff h.rel.inv).mp hcom)⟩
      · rintro _ _ _ rfl
        exact hq.elim

/-- A read outside of any transaction returns a committed write. -/
theorem SysRel.mvccGet_value (hclean : Clean a) (hk : k ∈ U) (hts : ts.Nonneg) {limit : Timestamp}
    (hs : mvccGet s.engine k ts { maxTimestamp := limit } = .ok v) :
    ∃ t c, s.commits t = some c ∧ c ≤ ts ∧ lastWrite (s.ops t) k = some (some v) := by
  by_cases hzero : ts = {}
  · subst hzero
    rw [h.rel.rep.get_empty hk] at hs
    cases hs
  · rcases h.rel.rep.get hk ⟨hts, hzero⟩ { maxTimestamp := limit } with
      ⟨_, _, _, _, _, hget⟩ | ⟨_, _, _, _, hget⟩ | ⟨r, hshow, hget⟩
    · rw [hget] at hs
      cases hs
    · rw [hget] at hs
      cases hs
    · rw [hget] at hs
      cases r with
      | none => cases hs
      | some v' =>
        obtain rfl : v' = v := Except.ok.inj hs
        obtain ⟨t, hw, ⟨c, hc, hle⟩ | hown⟩ := h.shown hclean hshow
        · exact ⟨t, c, hc, hle, hw⟩
        · cases hown

end

/-- **Atomicity.** After an orderly run, for every transaction: once its `Commit` has returned no
error, its last write of every key it wrote is stored as a committed version at its commit
timestamp; every stored version is such a write of the one transaction that committed it there, or
the intent of a transaction whose `Commit` has not succeeded; and no `Get` of another transaction
and no read outside of transactions returns a value that is not the last write of a committed
transaction. -/
theorem atomicity {evs : List Event} (hU : UserKeys U) (hs : s.Fresh)
    (hgood : s.Along (fun s ev ↦ s.Orderly U ev ∧ s.Strict ev ∧ s.Alive ev) evs)
    (hrun : s.run evs = some s') :
    (∀ t c k w, s'.commits t = some c → lastWrite (s'.ops t) k = some w →
      version s'.engine k c = some (encodeWrite w) ∧ ∀ t', intentOf s'.engine k ≠ some (t', c)) ∧
    (∀ k ∈ U, ∀ ts, Valid ts → ∀ raw, version s'.engine k ts = some raw →
      ∃ t w, lastWrite (s'.ops t) k = some w ∧ encodeWrite w = raw ∧
        (s'.commits t = some ts ∨ s'.commits t = none ∧ intentOf s'.engine k = some (t, ts))) ∧
    (∀ t t' c k w w', s'.commits t = some c → s'.commits t' = some c →
      lastWrite (s'.ops t) k = some w → lastWrite (s'.ops t') k = some w' → t = t') ∧
    (∀ id, ∀ k ∈ U, ∀ order v s'', s'.step (.call id (.get k order)) = some (.value (.ok v), s'') →
      ∃ t, lastWrite (s'.ops t) k = some (some v) ∧ ((∃ c, s'.commits t = some c) ∨ t = id)) ∧
    ∀ k ∈ U, ∀ ts limit v, ts.Nonneg → mvccGet s'.engine k ts { maxTimestamp := limit } = .ok v →
      ∃ t c, s'.commits t = some c ∧ c ≤ ts ∧ lastWrite (s'.ops t) k = some (some v) := by
  obtain ⟨a, h, hclean, hkept⟩ :=
    SysRel.run (P := fun _ a ↦ Clean a ∧ Complete a) (fun _ _ hg ↦ hg.1)
    (fun h hp hg hs _ hturn ↦ h.clean_complete hp.1 hp.2 hg.1 hg.2.1 hg.2.2 hs hturn)
    (sysRel_fresh hU hs) ⟨clean_init, complete_init⟩ hgood hrun
  exact ⟨fun t c k w hc hw ↦ h.stored hkept hc hw,
    fun k hk ts hts raw hraw ↦ h.origin hclean hk hts hraw,
    fun t t' c k w w' hc hc' hw hw' ↦ h.unique hkept hc hc' hw hw',
    fun id k hk order v s'' hget ↦ h.get_value hclean hk hget,
    fun k hk ts limit v hts hget ↦ h.mvccGet_value hclean hk hts hget⟩

end Atomicity

/-! ## Runs -/

/-- The keys of one byte, without the byte `0x00`. -/
def letters : Set Bytes := {k | k.length = 1 ∧ k ≠ [0]}

instance (k : Bytes) : Decidable (k ∈ letters) := inferInstanceAs (Decidable (_ ∧ _))

theorem userKeys_letters : UserKeys letters := by
  apply Separated.userKeys
  · rintro k ⟨hk, -⟩ k' ⟨hk', -⟩ hpre
    have hle := hpre.length_le
    rw [List.length_append, hk, hk'] at hle
    exact absurd hle (by decide)
  · rintro k ⟨hk, hne⟩
    obtain ⟨b, rfl⟩ := List.length_eq_one_iff.mp hk
    exact ⟨b, [], rfl, fun hb ↦ hne (by rw [hb])⟩

theorem fresh_blank : blank.Fresh := by
  have hroom : Room {} := by decide
  refine ⟨rfl, fun _ ↦ rfl, rfl, fun _ ↦ rfl, fun _ ↦ rfl, fun _ ↦ ⟨hroom, fun h ↦ ?_⟩⟩
  exact absurd h (by simp [blank])

/-- A snapshot transaction writes a key, is pushed by a reader, and commits. -/
def pushed : List Event :=
  [.begin (txnId 1) 1 .SI 0 (some 0), .call (txnId 1) (.put [0x6b] [1]),
    .begin (txnId 2) 1 .SI 0 (some 0), .call (txnId 2) (.get [0x6b] []), .call (txnId 1) .commit]

theorem atomicity_pushed :
    blank.Along (fun s ev ↦ s.Orderly letters ev ∧ s.Strict ev ∧ s.Alive ev) pushed ∧
    ∃ s c, blank.run pushed = some s ∧ s.commits (txnId 1) = some c ∧
      version s.engine [0x6b] c = some (encodeWrite (some [1])) := by
  have hgood : blank.Along (fun s ev ↦ s.Orderly letters ev ∧ s.Strict ev ∧ s.Alive ev) pushed := by
    decide +kernel
  have hrun : ∃ s ∈ blank.run pushed, ∃ c ∈ s.commits (txnId 1),
      lastWrite (s.ops (txnId 1)) [0x6b] = some (some [1]) := by decide +kernel
  obtain ⟨s, hs, c, hc, hw⟩ := hrun
  obtain ⟨hstored, -⟩ := atomicity userKeys_letters fresh_blank hgood hs
  exact ⟨hgood, s, c, hs, hc, (hstored _ c [0x6b] _ hc hw).1⟩

/-- A transaction writes a key, reads it, writes it again, and aborts; then another one reads it. -/
def leftover : List Event :=
  [.begin (txnId 1) 1 .SSI 0 (some 0), .call (txnId 1) (.put [0x6b] [1]),
    .call (txnId 1) (.get [0x6b] []), .call (txnId 1) (.put [0x6b] [2]), .call (txnId 1) .abort,
    .begin (txnId 2) 1 .SSI 0 (some 0)]

/-- The value of an aborted transaction is read by another one. -/
theorem exists_aborted_value : ∃ s s' v, blank.run leftover = some s ∧
    s.step (.call (txnId 2) (.get [0x6b] [])) = some (.value (.ok v), s') ∧
    .write [0x6b] (some v) ∈ s.ops (txnId 1) ∧ s.commits (txnId 1) = none ∧
      s.ops (txnId 2) = [] := by
  have hrun : ∃ s ∈ blank.run leftover, ∃ r ∈ s.step (.call (txnId 2) (.get [0x6b] [])),
      r.1 = .value (.ok [1]) ∧ .write [0x6b] (some [1]) ∈ s.ops (txnId 1) ∧
        s.commits (txnId 1) = none ∧ s.ops (txnId 2) = [] := by decide +kernel
  obtain ⟨s, hs, ⟨ans, s'⟩, hs', rfl, hw, hc, hops⟩ := hrun
  exact ⟨s, s', [1], hs, hs', hw, hc, hops⟩

end DucklingDB.Txn
