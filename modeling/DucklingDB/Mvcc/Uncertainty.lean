import DucklingDB.Mvcc.Summary

/-!
# The uncertainty window

A reader at `R` with maximal timestamp `M` is to be told of every version in `(R, M]` but its own
intent. `MVCCGet` decides this from the metadata, that is from one version. It errs on one side
only: what it reports is there, but a version in the window goes unnoticed if the metadata names
another one, which lies above the window or is the reader's own intent.
-/

namespace DucklingDB.Mvcc

open Hlc Transaction Timestamp Traced Option Bool

section Uncertainty

variable [MetadataCodec]

/-- All timestamps of the operation are ones that a version can have. -/
def KeyOp.Timely : KeyOp → Prop
  | .write ts _ _ => Valid ts
  | .push _ ts => Valid ts
  | .resolve _ .committed ts => Valid ts
  | .resolve _ .aborted _ => True

instance (op : KeyOp) : Decidable op.Timely :=
  match op with
  | .write ts _ _ | .push _ ts | .resolve _ .committed ts => inferInstanceAs (Decidable (Valid ts))
  | .resolve _ .aborted _ => inferInstanceAs (Decidable True)

/-- A version in the window that is not the reader's own intent. -/
def UncertainVersion (e : Engine) (k : Bytes) (R : Timestamp) (opts : ReadOptions) : Prop :=
  ∃ u, Valid u ∧ R < u ∧ u ≤ opts.maxTimestamp ∧ (version e k u).isSome = true ∧
    ∀ t, opts.txn = some t → intentOf e k ≠ some (t, u)

/-- An intent of another transaction at or below the read timestamp. -/
def Blocked (e : Engine) (k : Bytes) (R : Timestamp) (opts : ReadOptions) : Prop :=
  ∃ t u, intentOf e k = some (t, u) ∧ opts.txn ≠ some t ∧ u ≤ R

variable {k : Bytes} {s : Traced} {e : Engine} {R : Timestamp} {opts : ReadOptions} {ts : Timestamp}

/-! ## Histories -/

/-- The metadata names a version, also where a transaction rewrites its intent at another
timestamp. -/
structure Traced.Names (k : Bytes) (s : Traced) : Prop where
  proper : Proper {k} s.engine
  indexed : Indexed s.engine k

theorem Traced.names_init (k : Bytes) : Traced.Names k {} :=
  ⟨proper_empty (separated_singleton k), (summary_empty k).toIndexed⟩

section

variable (h : s.Names k)
include h

theorem Traced.Names.write (hts : Valid ts) (value : Option Bytes)
    (txn : Option TxnID) : (s.step k (.write ts value txn)).Names k := by
  rw [step]
  cases hc : writeConflict ((metaOf s.engine k).getD {}) k ts txn with
  | some err =>
    rw [h.proper.write_error rfl hts hc]
    exact h
  | none =>
    obtain ⟨e', m, hok, hch, hmts, -, htxn, htts, hinl⟩ :=
      h.proper.write_ok h.indexed rfl hts value hc
    rw [hok]
    refine ⟨hch.proper, hch.indexed (hmts ▸ hts) ⟨encodeWrite value, ?_⟩ (fun hne ↦ ?_) hinl⟩
    · rw [hmts, Function.update_self]
    · -- metadata with an intent has a transaction
      rw [hmts]
      refine htts (isSome_iff_ne_none.mpr fun hnone ↦ hne ?_)
      rw [MVCCMetadata.intent, htxn, hnone]
      rfl

theorem Traced.Names.push (t : TxnID) (hts : Valid ts) :
    (s.step k (.push t ts)).Names k := by
  rw [step]
  by_cases hpush : ∃ its, intentOf s.engine k = some (t, its) ∧ its < ts
  · obtain ⟨its, hi, hlt⟩ := hpush
    obtain ⟨e', m, hok, hch, hx, -⟩ := h.proper.push h.indexed rfl hi hts hlt
    rw [hok]
    exact ⟨hch.proper, hx⟩
  · push Not at hpush
    rw [h.proper.push_other rfl hpush]
    exact ⟨h.proper, h.indexed⟩

theorem Traced.Names.resolve (t : TxnID) {status : TxnStatus}
    (hop : KeyOp.Timely (.resolve t status ts)) : (s.step k (.resolve t status ts)).Names k := by
  rw [step]
  by_cases hown : ∃ its, intentOf s.engine k = some (t, its)
  · obtain ⟨its, hi⟩ := hown
    cases status with
    | committed =>
      obtain ⟨e', m, hok, hch, hx, -⟩ := h.proper.resolve_commit h.indexed rfl hi hop
      rw [hok]
      exact ⟨hch.proper, hx⟩
    | aborted =>
      obtain ⟨e', md, hok, hch, hx, -⟩ := h.proper.resolve_abort h.indexed rfl hi ts
      rw [hok]
      exact ⟨hch.proper, hx⟩
  · push Not at hown
    rw [h.proper.resolve_other rfl hown]
    exact ⟨h.proper, h.indexed⟩

/-- **Every operation leaves the metadata naming a version.** -/
theorem Traced.Names.step {op : KeyOp} (hop : op.Timely) :
    (s.step k op).Names k := by
  cases op with
  | write ts value txn => exact h.write hop value txn
  | push t ts => exact h.push t hop
  | resolve t status ts => exact h.resolve t hop

theorem Traced.Names.run {ops : List KeyOp} (hops : ∀ op ∈ ops, op.Timely) :
    (s.run k ops).Names k := by
  induction ops generalizing s with
  | nil => exact h
  | cons op ops ih =>
    exact ih (h.step (hops op (.head _))) fun op' hop' ↦ hops op' (.tail _ hop')

end

/-! ## Reads -/

omit [MetadataCodec] in
/-- Looking for the version is not what reports uncertainty. -/
theorem readVersion_ne_uncertainty {k' : Bytes} {r m x : Timestamp} :
    readVersion e k R ≠ .error (.uncertainty k' r m x) := by
  rw [readVersion]
  split
  · simp
  · split
    · simp
    · split
      · simp
      · split <;> simp

/-- The version that the metadata names is in the window, and is not the reader's own intent. -/
def NewestUncertain (e : Engine) (k : Bytes) (R : Timestamp) (opts : ReadOptions) : Prop :=
  R ≠ {} ∧ ∃ m, metaOf e k = some m ∧ R < m.timestamp ∧ m.timestamp ≤ opts.maxTimestamp ∧
    ∀ t, opts.txn = some t → m.intent ≠ some t

omit [MetadataCodec] in
/-- When the metadata makes a read uncertain. -/
theorem readConflict_uncertainty_iff (m : MVCCMetadata) (hm : Valid m.timestamp) :
    (∃ k' r x y, readConflict m k R opts = some (.uncertainty k' r x y)) ↔
      R < m.timestamp ∧ m.timestamp ≤ opts.maxTimestamp ∧
        ∀ t, m.intent = some t → opts.txn ≠ some t ∧ R < m.txnTimestamp := by
  have huncertain : (∃ k' r x y, readConflict.uncertain m k R opts = some (.uncertainty k' r x y)) ↔
      R < m.timestamp ∧ m.timestamp ≤ opts.maxTimestamp := by
    rw [readConflict.uncertain]
    split <;> rename_i hwin
    · rw [and_eq_true, and_eq_true, less_iff, lessEq_iff] at hwin
      exact ⟨fun _ ↦ ⟨hwin.1.2, hwin.2⟩, fun _ ↦ ⟨_, _, _, _, rfl⟩⟩
    · constructor
      · rintro ⟨_, _, _, _, h⟩
        cases h
      · rintro ⟨hlt, hle⟩
        have hmax : opts.maxTimestamp.isEmpty = false := by
          rw [eq_false_iff, ne_eq, Timestamp.isEmpty_iff]
          intro h0
          exact hm.2 (le_antisymm (h0 ▸ hle) hm.1.empty_le)
        rw [hmax, and_eq_true, and_eq_true, less_iff, lessEq_iff] at hwin
        exact absurd ⟨⟨rfl, hlt⟩, hle⟩ hwin
  rw [readConflict]
  cases m.intent with
  | none => simpa using huncertain
  | some owner =>
    dsimp only
    split <;> rename_i hown
    · simp [hown]
    · split <;> rename_i hle
      · rw [lessEq_iff] at hle
        simp [not_lt.mpr hle]
      · rw [lessEq_iff, not_le] at hle
        rw [huncertain]
        simp [hown, hle]

/-- **What `MVCCGet` reports**: the version that the metadata names. -/
theorem Traced.Names.get_uncertainty_iff (h : s.Names k) :
    (∃ k' r x y, mvccGet s.engine k R opts = .error (.uncertainty k' r x y)) ↔
      NewestUncertain s.engine k R opts ∧ ¬ Blocked s.engine k R opts := by
  rw [NewestUncertain]
  cases hm : metaOf s.engine k with
  | none => simp [h.proper.get_eq_none rfl hm]
  | some m =>
    by_cases hR : R = {}
    · subst hR
      cases hv : m.inlineValue <;>
        simp [mvccGet, h.proper.loadMeta (k := k) rfl, hm, hv, isEmpty]
    · have hconflict : (∃ k' r x y, mvccGet s.engine k R opts = .error (.uncertainty k' r x y)) ↔
          ∃ k' r x y, readConflict m k R opts = some (.uncertainty k' r x y) := by
        rw [h.proper.get_eq_some rfl hR hm]
        cases readConflict m k R opts with
        | none => simp [readVersion_ne_uncertainty]
        | some err => simp
      rw [hconflict, readConflict_uncertainty_iff m (h.indexed.valid hm), Blocked, intentOf_eq hm]
      constructor
      · rintro ⟨hlt, hle, hint⟩
        refine ⟨⟨hR, m, rfl, hlt, hle, fun t ht hmt ↦ (hint t hmt).1 ht⟩, ?_⟩
        rintro ⟨t, u, hi, -, hu⟩
        obtain ⟨t', hmt, heq⟩ := map_eq_some_iff.mp hi
        obtain ⟨rfl, rfl⟩ := Prod.mk.inj heq
        exact absurd hu (not_le.mpr (hint t' hmt).2)
      · rintro ⟨⟨-, m', hm', hlt, hle, hown⟩, hfree⟩
        obtain rfl := Option.some.inj hm'
        refine ⟨hlt, hle, fun t hmt ↦ ⟨fun ht ↦ hown t ht hmt, not_le.mp fun hu ↦ hfree ?_⟩⟩
        exact ⟨t, m.txnTimestamp, by rw [hmt, map_some], fun ht ↦ hown t ht hmt, hu⟩

theorem Traced.Names.uncertainVersion (h : s.Names k) (hn : NewestUncertain s.engine k R opts) :
    UncertainVersion s.engine k R opts := by
  obtain ⟨-, m, hm, hlt, hle, hown⟩ := hn
  obtain ⟨raw, hraw⟩ := h.indexed.stored hm
  refine ⟨m.timestamp, h.indexed.valid hm, hlt, hle, by rw [hraw]; rfl, fun t ht hi ↦ ?_⟩
  obtain ⟨m', hm', hmi, -, -⟩ := h.indexed.of_intentOf hi
  obtain rfl := mem_unique hm hm'
  exact hown t ht hmi

/-- **When the uncertainty check is complete.** After any history of a key, for any read timestamp
and options: an uncertainty error is returned if there is a version in the window that is not the
reader's own intent (and no intent of another transaction comes first), and only then; if and only
if in that case the version that the metadata names is such a version, and the read timestamp is not
zero. -/
theorem uncertainty_complete_iff {ops : List KeyOp} (hops : ∀ op ∈ ops, op.Timely) (R : Timestamp)
    (opts : ReadOptions) :
    ((UncertainVersion (run k {} ops).engine k R opts →
        ¬ Blocked (run k {} ops).engine k R opts →
        ∃ k' r x y, mvccGet (run k {} ops).engine k R opts = .error (.uncertainty k' r x y)) ∧
      ∀ k' r x y, mvccGet (run k {} ops).engine k R opts = .error (.uncertainty k' r x y) →
        UncertainVersion (run k {} ops).engine k R opts) ↔
    (UncertainVersion (run k {} ops).engine k R opts →
      ¬ Blocked (run k {} ops).engine k R opts →
        NewestUncertain (run k {} ops).engine k R opts) := by
  have h := (names_init k).run hops
  constructor
  · rintro ⟨hcomplete, -⟩ hu hfree
    exact (h.get_uncertainty_iff.mp (hcomplete hu hfree)).1
  · intro hcond
    refine ⟨fun hu hfree ↦ h.get_uncertainty_iff.mpr ⟨hcond hu hfree, hfree⟩,
      fun k' r x y hget ↦ ?_⟩
    exact h.uncertainVersion (h.get_uncertainty_iff.mp ⟨k', r, x, y, hget⟩).1

end Uncertainty

/-- Two values. -/
def twoVersions (t u : Timestamp) : List KeyOp :=
  [.write t (some [1]) none, .write u (some [2]) none]

theorem uncertainty_complete_iff_twoVersions :
    (∀ op ∈ twoVersions ⟨10, 0⟩ ⟨20, 0⟩, op.Timely) ∧
    ∃ k' r x y, mvccGet (run [0x6b] {} (twoVersions ⟨10, 0⟩ ⟨20, 0⟩)).engine [0x6b] ⟨15, 0⟩
      { maxTimestamp := ⟨30, 0⟩ } = .error (.uncertainty k' r x y) := by
  have hops : ∀ op ∈ twoVersions ⟨10, 0⟩ ⟨20, 0⟩, op.Timely := by decide
  have hmeta : metaOf (run [0x6b] {} (twoVersions ⟨10, 0⟩ ⟨20, 0⟩)).engine [0x6b] =
      some { timestamp := ⟨20, 0⟩, keyBytes := 1, valBytes := 1 } := by decide +kernel
  have hiff := uncertainty_complete_iff (k := [0x6b]) hops ⟨15, 0⟩ { maxTimestamp := ⟨30, 0⟩ }
  refine ⟨hops, (hiff.mpr fun _ _ ↦ ?_).1 ?_ ?_⟩
  · exact ⟨by decide, _, hmeta, by decide, by decide, by simp⟩
  · exact ⟨⟨20, 0⟩, by decide, by decide, by decide, by decide +kernel, by simp⟩
  · rintro ⟨t, u, hi, -⟩
    rw [intentOf_eq hmeta] at hi
    exact absurd hi (by simp [MVCCMetadata.intent])

/-- The version at 20 is in the window from 10 to 30, and neither a reader below a version at 50 nor
the owner of an intent at 25 is told. -/
theorem exists_unnoticed_version :
    (version (run [0x6b] {} (twoVersions ⟨20, 0⟩ ⟨50, 0⟩)).engine [0x6b] ⟨20, 0⟩).isSome = true ∧
    mvccGet (run [0x6b] {} (twoVersions ⟨20, 0⟩ ⟨50, 0⟩)).engine [0x6b] ⟨10, 0⟩
      { maxTimestamp := ⟨30, 0⟩ } = .error .keyNotFound ∧
    (version (run [0x6b] {} [.write ⟨20, 0⟩ (some [1]) none,
      .write ⟨25, 0⟩ (some [2]) (some (txnId 1))]).engine [0x6b] ⟨20, 0⟩).isSome = true ∧
    mvccGet (run [0x6b] {} [.write ⟨20, 0⟩ (some [1]) none,
      .write ⟨25, 0⟩ (some [2]) (some (txnId 1))]).engine [0x6b] ⟨10, 0⟩
      { txn := some (txnId 1), maxTimestamp := ⟨30, 0⟩ } = .error .keyNotFound := by
  decide +kernel

end DucklingDB.Mvcc
