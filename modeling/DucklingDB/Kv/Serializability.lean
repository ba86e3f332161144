import DucklingDB.Kv.Frame
import DucklingDB.Kv.OwnWrites
import DucklingDB.Transaction.Serializability

/-!
# Serializability

The committed transactions of a run of serializable (`SSI`) transactions are, in the order in which
they began, a serial execution -- if the run is strict, live and covered, and read timestamps
increase.

Nothing but the last of these follows from sharing a clock and a timestamp cache, and that only as
long as the logical counter of the clock does not overflow. A `Get` that finds nothing leaves no
trace in the cache, and so two transactions that each find nothing where the other one then writes
both commit.
-/

namespace DucklingDB.Txn

open Hlc Mvcc DucklingDB.Transaction List Option

section Serializability

variable [MetadataCodec] [RecordCodec]

/-- A transaction begins above the read timestamps of those begun before. -/
def System.Ahead (s : System) : Event → Prop
  | .begin _ _ _ clock _ => ∀ id ∈ s.begun, ∀ y ∈ s.senders id,
    y.txn.readTimestamp < (s.clocks clock).now.1
  | .call _ _ => True

omit [MetadataCodec] [RecordCodec] in
instance {s : System} {ev : Event} : Decidable (s.Ahead ev) :=
  match ev with
  | .begin _ _ _ _ _ => List.decidableBAll _ s.begun
  | .call _ _ => inferInstanceAs (Decidable True)

/-- The newest committed version of `k` says `v`; if there is none `v` is none. -/
def FinalValue (e : Engine) (k : Bytes) (v : Option Bytes) : Prop :=
  (∃ ts, Valid ts ∧ version e k ts = some (encodeWrite v) ∧ (∀ t, intentOf e k ≠ some (t, ts)) ∧
    ∀ ts' raw, Valid ts' → version e k ts' = some raw → (∀ t, intentOf e k ≠ some (t, ts')) →
      ts' ≤ ts) ∨
  (∀ ts raw, Valid ts → version e k ts = some raw → ∃ t, intentOf e k = some (t, ts)) ∧ v = none

/-- What the serial execution of a run rests on. -/
def System.Serializable (U : Set Bytes) (s : System) (ev : Event) : Prop :=
  s.Orderly U ev ∧ s.Strict ev ∧ s.Alive ev ∧ s.Covered ev ∧ s.Ahead ev

instance {U : Set Bytes} [DecidablePred (· ∈ U)] {s : System} {ev : Event} :
    Decidable (s.Serializable U ev) := inferInstanceAs (Decidable (_ ∧ _))

variable {U : Set Bytes} {s s' : System} {a a' : Store} {k : Bytes} {v : Option Bytes}

section

variable (h : SysRel U s a)
include h

theorem SysRel.ahead {id : TxnID} {priority : Int32} {iso : IsolationLevel}
    {clock : ℕ} {cache : Option ℕ} (ha : s.Ahead (.begin id priority iso clock cache)) :
    Transaction.Ahead a (.start id (s.clocks clock).now.1) := by
  intro t x hx
  obtain ⟨_, m, _, hm, htr⟩ := h.rel.of_txns hx
  obtain ⟨y, hy, rfl⟩ := map_eq_some_iff.mp hm
  rw [← htr.held_read]
  exact ha t (h.mem_begun.mpr (by rw [hy, isSome_some])) y hy

/-- A step of serializable transactions keeps the store serial. -/
theorem SysRel.serial (hserial : Serial a)
    (hssi : ∀ id x, s.senders id = some x → x.txn.isolation = .SSI) {ev : Event} {ans : Answer}
    (hgood : s.Serializable U ev) (hs : s.step ev = some (ans, s'))
    (hturn : Turn s a ev ans s' a') : Serial a' := by
  obtain ⟨hord, hst, ha, hc, hd⟩ := hgood
  have hno : ∀ {mv : Move TxnID Bytes Timestamp Bytes}, mv.IsPlain →
      ∀ t k w, mv ≠ .write t k w := by
    rintro _ hmv t k w rfl
    exact hmv.elim
  refine hserial.steps (G := fun a mv ↦ Transaction.Strict a mv ∧ Transaction.Alive a mv ∧
    Transaction.Covered a mv ∧ Transaction.Ahead a mv ∧ Timely a mv) ?_ fun _ _ hG ↦ hG
  refine hturn.steps_of (fun a mv hmv ↦ ?_) ?_ ?_ ?_
  · refine ⟨strict_of_ne (hno hmv), alive_of_ne (hno hmv), covered_of_ne (hno hmv), ?_⟩
    cases mv with
    | start _ _ | commit _ => exact hmv.elim
    | _ => exact ⟨trivial, trivial⟩
  · rintro id priority iso clock cache rfl
    exact ⟨trivial, trivial, trivial, h.ahead hd, trivial⟩
  · rintro id c k value a₁ rfl rfl hw
    exact ⟨h.strict hord hst hw, h.alive ha hs hw, h.covered hc hw, trivial, trivial⟩
  · intro id x y hx hy htimely
    refine ⟨trivial, trivial, trivial, trivial, fun y' hy' ↦ ?_⟩
    obtain rfl := mem_unique hy hy'
    exact htimely (hssi id x hx)

/-- The newest committed version of a cell is the one of the engine. -/
theorem SysRel.finalValue (hk : k ∈ U)
    (hnew : Newest (a.cells k).settled (fun _ ↦ True) v) : FinalValue s.engine k v := by
  have hfix : ∀ {ts raw}, Valid ts → version s.engine k ts = some raw →
      (∀ t, intentOf s.engine k ≠ some (t, ts)) → ∃ w, (a.cells k).settled ts = some w := by
    intro ts raw hts hraw hno
    obtain ⟨w, -, hw⟩ := h.fixed hk hts hraw hno
    exact ⟨w, settled_eq_some.mpr hw⟩
  rcases hnew with ⟨u, -, hu, hmax⟩ | ⟨hnone, rfl⟩
  · obtain ⟨hver, hno⟩ := settled_eq_some.mp hu
    have hvalid := h.rel.rep.valid hver
    refine Or.inl ⟨u, hvalid, ?_, fun t hi ↦ hno t ((h.rel.rep.intent k hk).symm.trans hi), ?_⟩
    · rw [h.rel.rep.version k hk u hvalid, hver, map_some]
    · intro ts' raw hts' hraw hno'
      obtain ⟨w, hw⟩ := hfix hts' hraw hno'
      exact hmax ts' w trivial hw
  · refine Or.inr ⟨fun ts raw hts hraw ↦ ?_, rfl⟩
    by_contra hno
    obtain ⟨w, hw⟩ := hfix hts hraw (not_exists.mp hno)
    cases (hnone ts trivial).symm.trans hw

theorem SysRel.begun_of_commits {t : TxnID} (hc : (s.commits t).isSome = true) :
    t ∈ s.begun := by
  obtain ⟨c, hc⟩ := isSome_iff_exists.mp hc
  obtain ⟨x, hx, -⟩ := h.committed hc
  obtain ⟨_, m, _, hm, -⟩ := h.rel.of_txns hx
  obtain ⟨y, hy, -⟩ := map_eq_some_iff.mp hm
  exact h.mem_begun.mpr (by rw [hy, isSome_some])

end

/-- **Serializability.** The transactions of a run that have committed have an order in which,
executed one after the other from an empty database, each of them reads what it has read, found or
not found, and which ends with the newest committed versions. -/
theorem serializability {evs : List Event} (hU : UserKeys U) (hs : s.Fresh)
    (hssi : ∀ ev ∈ evs, ev.At .SSI) (hgood : s.Along (System.Serializable U) evs)
    (hrun : s.run evs = some s') :
    ∃ order db, order.Nodup ∧ (∀ t, t ∈ order ↔ (s'.commits t).isSome = true) ∧
      execAll s'.ops order (fun _ ↦ none) = some db ∧ ∀ k ∈ U, FinalValue s'.engine k (db k) := by
  obtain ⟨a, h, hserial, -⟩ := SysRel.run
    (P := fun s a ↦ Serial a ∧ ∀ id x, s.senders id = some x → x.txn.isolation = .SSI)
    (fun _ _ hg ↦ hg.2.1)
    (fun h hp hg hs _ hturn ↦ ⟨h.serial hp.1 hp.2 hg.2 hs hturn,
      fun id x hx ↦ System.isolation_step hg.1 hp.2 hs hx⟩)
    (sysRel_fresh hU hs) ⟨serial_init, fun id x hx ↦ absurd hx (by simp [hs.senders])⟩
    (along_and.mpr ⟨along_of_mem hssi, hgood⟩) hrun
  have hcom : ∀ t x, a.txns t = some x →
      ((s'.commits t).isSome = true ↔ x.record.status = .committed) := by
    intro t x hx
    constructor
    · intro hc
      obtain ⟨c, hc⟩ := isSome_iff_exists.mp hc
      obtain ⟨y, hy, hr, -⟩ := h.committed hc
      obtain rfl := mem_unique hx hy
      rw [hr]
    · intro hst
      rw [h.commits.mpr ⟨x, hx, by rw [← hst]⟩, isSome_some]
  obtain ⟨db, hdb, hnew⟩ := hserial.execAll (fun t x hx ↦ (h.ops_eq hx).symm) hcom
  refine ⟨_, db, hserial.ordered.nodup.filter _, fun t ↦ ?_, hdb,
    fun k hk ↦ h.finalValue hk (hnew k)⟩
  rw [mem_filter, h.begun]
  exact ⟨fun ht ↦ ht.2, fun hc ↦ ⟨h.begun_of_commits hc, hc⟩⟩

end Serializability

/-! ## Runs -/

/-- One transaction reads what another one has committed and a third one writes. -/
def serialRun : List Event :=
  [.begin (txnId 1) 1 .SSI 0 (some 0), .call (txnId 1) (.put [0x6b] [1]), .call (txnId 1) .commit,
    .begin (txnId 2) 1 .SSI 0 (some 0), .begin (txnId 3) 1 .SSI 0 (some 0),
    .call (txnId 2) (.get [0x6b] []), .call (txnId 3) (.put [0x6b] [2]), .call (txnId 3) .commit,
    .call (txnId 2) .commit]

theorem serializability_serialRun :
    (∀ ev ∈ serialRun, ev.At .SSI) ∧ blank.Along (System.Serializable letters) serialRun ∧
    ∃ s order db, blank.run serialRun = some s ∧ order.Nodup ∧
      (∀ t, t ∈ order ↔ (s.commits t).isSome = true) ∧
      execAll s.ops order (fun _ ↦ none) = some db ∧
      ∀ k ∈ letters, FinalValue s.engine k (db k) := by
  have hssi : ∀ ev ∈ serialRun, ev.At .SSI := by decide
  have hgood : blank.Along (System.Serializable letters) serialRun := by decide +kernel
  have hrun : (blank.run serialRun).isSome = true := by decide +kernel
  obtain ⟨s, hs⟩ := isSome_iff_exists.mp hrun
  obtain ⟨order, db, hspec⟩ := serializability userKeys_letters fresh_blank hssi hgood hs
  exact ⟨hssi, hgood, s, order, db, hs, hspec⟩

/-- Two transactions each find nothing where the other one then writes, and both commit. -/
def writeSkew : List Event :=
  [.begin (txnId 1) 1 .SSI 0 (some 0), .begin (txnId 2) 1 .SSI 0 (some 0),
    .call (txnId 1) (.get [0x61] []), .call (txnId 2) (.get [0x62] []),
    .call (txnId 1) (.put [0x62] [1]), .call (txnId 2) (.put [0x61] [1]),
    .call (txnId 1) .commit, .call (txnId 2) .commit]

/-- They have no serial order. -/
theorem exists_write_skew : ∃ s, blank.run writeSkew = some s ∧
    (s.commits (txnId 1)).isSome = true ∧ (s.commits (txnId 2)).isSome = true ∧
    ∀ order, order.Nodup → (∀ t, t ∈ order ↔ (s.commits t).isSome = true) →
      execAll s.ops order (fun _ ↦ none) = none := by
  have hgood : blank.Along (System.Orderly letters) writeSkew := by decide +kernel
  have hrun : ∃ s ∈ blank.run writeSkew,
      (s.commits (txnId 1)).isSome = true ∧ (s.commits (txnId 2)).isSome = true ∧
      s.begun = [txnId 1, txnId 2] ∧
      s.ops (txnId 1) = [.read [0x61] none, .write [0x62] (some [1])] ∧
      s.ops (txnId 2) = [.read [0x62] none, .write [0x61] (some [1])] := by decide +kernel
  obtain ⟨s, hs, hc₁, hc₂, hbegun, hops₁, hops₂⟩ := hrun
  refine ⟨s, hs, hc₁, hc₂, fun order hnodup hmem ↦ ?_⟩
  -- the order is one of the two
  obtain ⟨a, h⟩ := (sysRel_fresh userKeys_letters fresh_blank).exists_run hgood hs
  have hperm : order.Perm [txnId 1, txnId 2] := by
    rw [perm_ext_iff_of_nodup hnodup (by decide)]
    intro t
    rw [hmem]
    refine ⟨fun hc ↦ hbegun ▸ h.begun_of_commits hc, fun ht ↦ ?_⟩
    rcases mem_pair.mp ht with rfl | rfl
    · exact hc₁
    · exact hc₂
  obtain ⟨t, t', rfl⟩ := length_eq_two.mp hperm.length_eq
  have hne : t ≠ t' := fun heq ↦ absurd hnodup (by simp [heq])
  have ht := mem_pair.mp (hperm.mem_iff.mp (mem_cons_self : t ∈ [t, t']))
  have ht' := mem_pair.mp (hperm.mem_iff.mp (show t' ∈ [t, t'] by simp))
  rcases ht with rfl | rfl <;> rcases ht' with rfl | rfl
  · exact absurd rfl hne
  · simp [execAll, exec, hops₁, hops₂, Op.apply]
  · simp [execAll, exec, hops₁, hops₂, Op.apply]
  · exact absurd rfl hne

end DucklingDB.Txn
