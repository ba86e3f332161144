import DucklingDB.Mvcc.Cell
import DucklingDB.Transaction.Spec

/-!
# Intents

The operations on a key whose metadata names a version (`Indexed`), and an intent, if there is one,
by that version. Each operation is described by what it does to the timestamp in the metadata, to
the intent and to the versions of the key, and leaves the metadata naming a version.

That the version is the newest one is not part of this. `MVCCPut` on a transaction's own intent
writes at the given timestamp and forgets the version at the old one, so a second write at another
timestamp leaves a version behind, and one at a lower timestamp leaves it above the one that the
metadata names.
-/

namespace DucklingDB.Mvcc

open Hlc Transaction Option Bool MVCCMetadata Mvcc

variable [MetadataCodec]

/-- The metadata of `k` names a version. -/
structure Indexed (e : Engine) (k : Bytes) : Prop where
  valid : ∀ {m}, metaOf e k = some m → Valid m.timestamp
  stored : ∀ {m}, metaOf e k = some m → ∃ raw, version e k m.timestamp = some raw
  intent : ∀ {m}, metaOf e k = some m → m.intent ≠ none → m.txnTimestamp = m.timestamp
  inline : ∀ {m}, metaOf e k = some m → m.inlineValue = none

/-- The transaction that has an intent on `k`, and the timestamp of the intent. -/
def intentOf (e : Engine) (k : Bytes) : Option (TxnID × Timestamp) :=
  (metaOf e k).bind fun m ↦ m.intent.map fun t ↦ (t, m.txnTimestamp)

section Specs

variable {K : Set Bytes} {e e' : Engine} {k k' : Bytes} {t : TxnID} {ts : Timestamp}
  {md : Option MVCCMetadata} {m : MVCCMetadata} {f : Timestamp → Option Bytes}

omit [MetadataCodec] in
theorem omitEmpty_of_inline (h : m.inlineValue = none) : m.omitEmpty = m := by
  rw [omitEmpty, h]
  cases m
  cases h
  rfl

theorem intentOf_eq (h : metaOf e k = some m) :
    intentOf e k = m.intent.map fun t ↦ (t, m.txnTimestamp) := by
  rw [intentOf, h]
  rfl

theorem intentOf_eq_none (h : metaOf e k = some m) (hi : intentOf e k = none) :
    m.intent = none := by
  rwa [intentOf_eq h, map_eq_none_iff] at hi

theorem intentOf_eq_some : intentOf e k = some (t, ts) ↔
    ∃ m, metaOf e k = some m ∧ m.intent = some t ∧ m.txnTimestamp = ts := by
  simp [intentOf, bind_eq_some_iff]

theorem Indexed.of_intentOf (h : Indexed e k) (hi : intentOf e k = some (t, ts)) :
    ∃ m, metaOf e k = some m ∧ m.intent = some t ∧ m.txnTimestamp = ts ∧ m.timestamp = ts := by
  obtain ⟨m, hm, hmi, rfl⟩ := intentOf_eq_some.mp hi
  exact ⟨m, hm, hmi, rfl, (h.intent hm (by rw [hmi]; simp)).symm⟩

theorem Indexed.intent_spec (h : Indexed e k) (hi : intentOf e k = some (t, ts)) :
    Valid ts ∧ ∃ raw, version e k ts = some raw := by
  obtain ⟨m, hm, -, -, rfl⟩ := h.of_intentOf hi
  exact ⟨h.valid hm, h.stored hm⟩

theorem Changed.indexed (h : Changed K e e' k (some m) f) (hv : Valid m.timestamp)
    (hs : ∃ raw, f m.timestamp = some raw) (hi : m.intent ≠ none → m.txnTimestamp = m.timestamp)
    (hl : m.inlineValue = none) : Indexed e' k := by
  have hm : ∀ {m'}, metaOf e' k = some m' → m' = m := fun h' ↦ by
    rw [h.md] at h'
    exact (Option.some.inj h').symm
  refine ⟨fun h' ↦ hm h' ▸ hv, fun h' ↦ ?_, fun h' ↦ hm h' ▸ hi, fun h' ↦ hm h' ▸ hl⟩
  rw [hm h', h.version _ hv]
  exact hs

theorem Changed.indexed_none (h : Changed K e e' k none f) : Indexed e' k := by
  have hm : ∀ {m'}, metaOf e' k ≠ some m' := fun h' ↦ by
    rw [h.md] at h'
    cases h'
  exact ⟨fun h' ↦ absurd h' hm, fun h' ↦ absurd h' hm, fun h' ↦ absurd h' hm, fun h' ↦ absurd h' hm⟩

section

variable (h : Changed K e e' k md f)
include h

theorem Changed.indexed_ne (hk' : k' ∈ K) (hne : k' ≠ k)
    (hx : Indexed e k') : Indexed e' k' := by
  have hm := h.metaOf_ne k' hk' hne
  have hv := h.version_ne k' hk' hne
  refine ⟨fun h' ↦ hx.valid (hm ▸ h'), fun {m'} h' ↦ ?_, fun h' ↦ hx.intent (hm ▸ h'),
    fun h' ↦ hx.inline (hm ▸ h')⟩
  rw [hv _ (hx.valid (hm ▸ h'))]
  exact hx.stored (hm ▸ h')

theorem Changed.intentOf_ne (hk' : k' ∈ K) (hne : k' ≠ k) :
    intentOf e' k' = intentOf e k' := by
  rw [intentOf, h.metaOf_ne k' hk' hne, intentOf]

theorem Changed.putMeta (hk : k ∈ K) (hm : m.inlineValue = none) :
    Changed K e (putMeta e' k m) k (some m) f :=
  (h.trans (h.proper.changed_putMeta hk (omitEmpty_of_inline hm))).congr h.version

end

theorem Changed.intentOf_eq (h : Changed K e e' k (some m) f) :
    intentOf e' k = m.intent.map fun t ↦ (t, m.txnTimestamp) :=
  Mvcc.intentOf_eq h.md

/-! ## Writing -/

/-- What a write stores. -/
def encodeWrite : Option Bytes → Bytes
  | some v => encodeMVCCValue v
  | none => encodeMVCCTombstone

omit [MetadataCodec] in
@[simp] theorem decode_encodeWrite (value : Option Bytes) :
    decodeMVCCValue (encodeWrite value) = value := by
  cases value with
  | none => rfl
  | some v => simp [encodeWrite, encodeMVCCValue, decodeMVCCValue, mvccValueTagLive,
      mvccValueTagTombstone]

theorem metaOf_of_loadMeta {found : Option MVCCMetadata} (h : loadMeta e k = .ok found) :
    metaOf e k = found := by
  rw [loadMeta] at h
  rw [metaOf]
  cases hv : e.get (encodeMeta k) with
  | none =>
    rw [hv] at h
    exact Except.ok.inj h
  | some v =>
    rw [hv] at h
    dsimp only at h
    rw [bind_some]
    cases hm : MetadataCodec.unmarshal v with
    | none =>
      rw [hm] at h
      cases h
    | some m =>
      rw [hm] at h
      exact Except.ok.inj h

/-- What a write comes to: the metadata cannot be read, the value is stored inline, there is a
conflict, or a version and metadata are stored. -/
theorem mvccWrite_cases (e : Engine) (k : Bytes) (ts : Timestamp) (value : Option Bytes)
    (txn : Option TxnID) :
    mvccWrite e k ts value txn = .error .metadata ∨
    (ts = {} ∧ ∃ m, mvccWrite e k ts value txn = .ok (putMeta e k m)) ∨
    ∃ found, loadMeta e k = .ok found ∧
      ((∃ err, writeConflict (found.getD {}) k ts txn = some err ∧
          mvccWrite e k ts value txn = .error err) ∨
        writeConflict (found.getD {}) k ts txn = none ∧ ∃ m : MVCCMetadata,
          mvccWrite e k ts value txn =
            .ok (putMeta (e.insert (encode ⟨k, ts⟩) (encodeWrite value)) k (m.own ts txn))) := by
  cases hload : loadMeta e k with
  | error err =>
    have herr : err = .metadata := by
      rw [loadMeta] at hload
      split at hload
      · cases hload
      · split at hload
        · exact (Except.error.inj hload).symm
        · cases hload
    subst herr
    refine .inl ?_
    cases value with
    | some v => rw [mvccWrite, mvccPut, hload]
    | none => rw [mvccWrite, mvccDelete, hload]
  | ok found =>
    cases value with
    | some v =>
      rw [mvccWrite, mvccPut, hload]
      dsimp only
      split
      · rename_i hts
        exact .inr (.inl ⟨(Timestamp.isEmpty_iff _).mp hts, _, rfl⟩)
      · refine .inr (.inr ⟨found, rfl, ?_⟩)
        cases writeConflict (found.getD {}) k ts txn with
        | some err => exact .inl ⟨err, rfl, rfl⟩
        | none => exact .inr ⟨rfl, _, rfl⟩
    | none =>
      rw [mvccWrite, mvccDelete, hload]
      refine .inr (.inr ⟨found, rfl, ?_⟩)
      dsimp only
      cases writeConflict (found.getD {}) k ts txn with
      | some err => exact .inl ⟨err, rfl, rfl⟩
      | none => exact .inr ⟨rfl, _, rfl⟩

variable {value : Option Bytes} {txn : Option TxnID}

theorem Proper.write_error (h : Proper K e) (hk : k ∈ K) (hts : Valid ts) {err : MVCCError}
    (hc : writeConflict ((metaOf e k).getD {}) k ts txn = some err) :
    mvccWrite e k ts value txn = .error err := by
  cases value with
  | some v =>
    simp only [mvccWrite, mvccPut, h.loadMeta hk, hts.isEmpty, false_eq_true, if_false, hc]
  | none => simp only [mvccWrite, mvccDelete, h.loadMeta hk, hc]

open Function (update update_of_ne update_self)

theorem Proper.write_ok (h : Proper K e) (hx : Indexed e k) (hk : k ∈ K) (hts : Valid ts)
    (value : Option Bytes) (hc : writeConflict ((metaOf e k).getD {}) k ts txn = none) :
    ∃ e' m, mvccWrite e k ts value txn = .ok e' ∧
      Changed K e e' k (some m) (update (version e k) ts (some (encodeWrite value))) ∧
      m.timestamp = ts ∧ m.deleted = value.isNone ∧ m.txn = txn ∧
      (txn.isSome → m.txnTimestamp = ts) ∧ m.inlineValue = none := by
  have hinline : ((metaOf e k).getD {}).inlineValue = none := by
    cases hm : metaOf e k with
    | none => rfl
    | some m => exact hx.inline hm
  have hins := h.changed_insertVersion hk hts (encodeWrite value)
  cases value with
  | some v =>
    refine ⟨_, own { (metaOf e k).getD {} with
        timestamp := ts, deleted := false, inlineValue := none
        keyBytes := k.length, valBytes := v.length } ts txn, ?_, hins.putMeta hk rfl, rfl, rfl, rfl,
      fun htxn ↦ if_pos htxn, rfl⟩
    simp only [mvccWrite, mvccPut, h.loadMeta hk, hts.isEmpty, false_eq_true, if_false, hc]
    rfl
  | none =>
    refine ⟨_, own { (metaOf e k).getD {} with
        timestamp := ts, deleted := true, keyBytes := k.length, valBytes := 0 } ts txn, ?_,
      hins.putMeta hk hinline, rfl, rfl, rfl, fun htxn ↦ if_pos htxn, hinline⟩
    simp only [mvccWrite, mvccDelete, h.loadMeta hk, hc]
    rfl

theorem Proper.write_foreign (h : Proper K e) (hx : Indexed e k) (hk : k ∈ K) (hts : Valid ts)
    {its : Timestamp} (hi : intentOf e k = some (t, its)) (hne : txn ≠ some t) :
    mvccWrite e k ts value txn = .error (.writeIntent k t its) := by
  obtain ⟨m, hm, hmi, rfl, -⟩ := hx.of_intentOf hi
  refine h.write_error hk hts ?_
  rw [hm, getD_some, writeConflict, hmi]
  exact if_neg hne

open Timestamp (lessEq_iff)

theorem Proper.write_tooOld (h : Proper K e) (hx : Indexed e k) (hk : k ∈ K) (hts : Valid ts)
    (hm : metaOf e k = some m) (hi : intentOf e k = none) (hle : ts ≤ m.timestamp) :
    mvccWrite e k ts value txn = .error (.writeTooOld k ts m.timestamp) := by
  refine h.write_error hk hts ?_
  rw [hm, getD_some, writeConflict, intentOf_eq_none hm hi]
  simp only
  rw [if_pos]
  rw [and_eq_true, not_eq_true', (hx.valid hm).isEmpty, lessEq_iff]
  exact ⟨rfl, hle⟩

/-- What stands in the way of a write, in terms of the cell of the key: nothing, if there is no
intent and the metadata lies below. -/
theorem writeConflict_of_lt (hi : intentOf e k = none)
    (hlt : ∀ m, metaOf e k = some m → m.timestamp < ts) :
    writeConflict ((metaOf e k).getD {}) k ts txn = none := by
  cases hm : metaOf e k with
  | none => rfl
  | some m =>
    rw [getD_some, writeConflict, intentOf_eq_none hm hi]
    simp only
    rw [if_neg]
    rw [and_eq_true, lessEq_iff]
    exact fun hle ↦ absurd (hlt m hm) (not_lt.mpr hle.2)

/-- Nothing stands in the way of a second write of an intent, at whatever timestamp. -/
theorem writeConflict_of_own (hi : ∃ its, intentOf e k = some (t, its)) :
    writeConflict ((metaOf e k).getD {}) k ts (some t) = none := by
  obtain ⟨its, hi⟩ := hi
  obtain ⟨m, hm, hmi, -⟩ := intentOf_eq_some.mp hi
  rw [hm, getD_some, writeConflict, hmi]
  exact if_pos rfl

/-- **When nothing stands in the way of a write.** -/
theorem Indexed.writeConflict_eq_none (hx : Indexed e k) :
    writeConflict ((metaOf e k).getD {}) k ts txn = none ↔
      intentOf e k = none ∧ (∀ m, metaOf e k = some m → m.timestamp < ts) ∨
        ∃ t its, txn = some t ∧ intentOf e k = some (t, its) := by
  constructor
  · intro hc
    cases hm : metaOf e k with
    | none => exact .inl ⟨by rw [intentOf, hm, bind_none], by simp⟩
    | some m =>
      rw [hm, getD_some, writeConflict] at hc
      rw [intentOf_eq hm]
      cases hi : m.intent with
      | none =>
        rw [hi] at hc
        simp only [(hx.valid hm).isEmpty, Bool.not_false, Bool.true_and] at hc
        refine .inl ⟨rfl, fun m' hm' ↦ ?_⟩
        obtain rfl := Option.some.inj hm'
        by_contra hle
        rw [if_pos ((lessEq_iff _ _).mpr (not_lt.mp hle))] at hc
        cases hc
      | some owner =>
        rw [hi] at hc
        simp only at hc
        split at hc
        · rename_i hown
          exact .inr ⟨owner, m.txnTimestamp, hown, rfl⟩
        · cases hc
  · rintro (⟨hi, hlt⟩ | ⟨t, its, rfl, hi⟩)
    · exact writeConflict_of_lt hi hlt
    · exact writeConflict_of_own ⟨its, hi⟩

/-- **An intent is laid**: above the timestamp in the metadata if there is no intent, and at
whatever timestamp if the writer has one already. -/
theorem Proper.write_intent (h : Proper K e) (hx : Indexed e k) (hk : k ∈ K) (hts : Valid ts)
    (value : Option Bytes) (ht : t.isZero = false)
    (hadm : intentOf e k = none ∧ (∀ m, metaOf e k = some m → m.timestamp < ts) ∨
      ∃ its, intentOf e k = some (t, its)) :
    ∃ e' m', mvccWrite e k ts value (some t) = .ok e' ∧
      Changed K e e' k (some m') (update (version e k) ts (some (encodeWrite value))) ∧
      Indexed e' k ∧ intentOf e' k = some (t, ts) ∧ m'.timestamp = ts := by
  have hc : writeConflict ((metaOf e k).getD {}) k ts (some t) = none :=
    hadm.elim (fun hnew ↦ writeConflict_of_lt hnew.1 hnew.2) writeConflict_of_own
  obtain ⟨e', m', hok, hch, hmts, -, htxn, htts, hinl⟩ := h.write_ok hx hk hts value hc
  have hint : m'.intent = some t := by
    rw [intent, htxn]
    simp [ht]
  refine ⟨e', m', hok, hch, hch.indexed (hmts ▸ hts) ⟨encodeWrite value, ?_⟩
    (fun _ ↦ (htts rfl).trans hmts.symm) hinl, ?_, hmts⟩
  · rw [hmts, update_self]
  · rw [hch.intentOf_eq, hint, map_some, htts rfl]

/-! ## Resolving and pushing -/

theorem Proper.resolve_other (h : Proper K e) (hk : k ∈ K)
    (hno : ∀ ts, intentOf e k ≠ some (t, ts)) (status : TxnStatus) :
    mvccResolveWriteIntent e k t status ts = .ok e := by
  rw [mvccResolveWriteIntent, h.loadMeta hk]
  cases hm : metaOf e k with
  | none => rfl
  | some m =>
    exact if_pos fun hmi ↦ hno m.txnTimestamp (intentOf_eq_some.mpr ⟨m, hm, hmi, rfl⟩)

/-- Pushing leaves alone an intent of another transaction, and one that lies higher already. -/
theorem Proper.push_other (h : Proper K e) (hk : k ∈ K)
    (hno : ∀ its, intentOf e k = some (t, its) → ts ≤ its) : mvccPushIntent e k t ts = .ok e := by
  rw [mvccPushIntent, h.loadMeta hk]
  cases hm : metaOf e k with
  | none => rfl
  | some m =>
    simp only
    split
    · rfl
    · rename_i hmi
      exact if_pos
        ((lessEq_iff _ _).mpr (hno _ (intentOf_eq_some.mpr ⟨m, hm, not_not.mp hmi, rfl⟩)))

theorem Proper.moveVersion (h : Proper K e) (hk : k ∈ K) {old new : Timestamp} (ho : Valid old)
    (hn : Valid new) (hne : old ≠ new) {raw : Bytes} (hraw : version e k old = some raw) :
    ∃ e', moveVersion e k old new = .ok e' ∧
      Changed K e e' k (metaOf e k) (relocate (version e k) old new) := by
  have hins := h.changed_insertVersion hk hn raw
  have hers := hins.trans (hins.proper.changed_eraseVersion hk ho)
  refine ⟨_, ?_, { hers with md := hers.md.trans hins.md, version := fun u hu ↦ ?_ }⟩
  · rw [Mvcc.moveVersion, ← version, hraw]
  · rw [hers.version u hu, relocate]
    by_cases heq : u = new
    · rw [if_pos heq, heq, update_of_ne hne.symm, hins.version new hn, update_self, hraw]
    · rw [if_neg heq]
      by_cases heq' : u = old
      · rw [if_pos heq', heq', update_self]
      · rw [if_neg heq', update_of_ne heq', hins.version u hu, update_of_ne heq]

omit [MetadataCodec] in
theorem relocate_self {α : Type*} (f : Timestamp → Option α) (u : Timestamp) :
    relocate f u u = f := by
  funext u'
  rw [relocate]
  split
  · rename_i heq
    rw [heq]
  · rfl

section

variable (h : Proper K e) (hx : Indexed e k) (hk : k ∈ K) (hi : intentOf e k = some (t, ts))
include h hx hk hi

/-- **Committing an intent** makes it a version at the commit timestamp. -/
theorem Proper.resolve_commit {c : Timestamp} (hc : Valid c) :
    ∃ e' m', mvccResolveWriteIntent e k t .committed c = .ok e' ∧
      Changed K e e' k (some m') (relocate (version e k) ts c) ∧
      Indexed e' k ∧ intentOf e' k = none ∧ m'.timestamp = c ∧ m'.txn = none ∧
      (metaOf e k).map (·.deleted) = some m'.deleted := by
  obtain ⟨m, hm, hmi, htxt, rfl⟩ := hx.of_intentOf hi
  obtain ⟨raw, hraw⟩ := hx.stored hm
  have hinl := hx.inline hm
  obtain ⟨e₁, he₁, hch⟩ : ∃ e₁,
      (if m.txnTimestamp ≠ c then Mvcc.moveVersion e k m.txnTimestamp c else .ok e) = .ok e₁ ∧
        Changed K e e₁ k (some m) (relocate (version e k) m.timestamp c) := by
    rw [htxt]
    by_cases heq : m.timestamp = c
    · refine ⟨e, if_neg (not_not.mpr heq), h, hm, fun u hu ↦ ?_, fun _ _ _ ↦ rfl,
        fun _ _ _ _ _ ↦ rfl⟩
      rw [heq, relocate_self]
    · rw [if_pos heq, ← hm]
      exact h.moveVersion hk (hx.valid hm) hc heq hraw
  have hput := hch.putMeta (m := { m.own {} none with timestamp := c }) hk hinl
  refine ⟨_, _, ?_, hput, ?_, ?_⟩
  · rw [mvccResolveWriteIntent, h.loadMeta hk, hm]
    simp only
    rw [if_neg (not_not.mpr hmi)]
    simp only [resolveCommit, he₁]
  · refine hput.indexed hc ⟨raw, ?_⟩ (fun hne ↦ absurd rfl hne) hinl
    rw [relocate, if_pos rfl, hraw]
  · rw [intentOf_eq hput.md, hm]
    exact ⟨rfl, rfl, rfl, rfl⟩

/-- **Pushing an intent** moves it up. -/
theorem Proper.push {w : Timestamp} (hw : Valid w) (hlt : ts < w) :
    ∃ e' m', mvccPushIntent e k t w = .ok e' ∧
      Changed K e e' k (some m') (relocate (version e k) ts w) ∧
      Indexed e' k ∧ intentOf e' k = some (t, w) ∧ m'.timestamp = w ∧
      (metaOf e k).map (·.txn) = some m'.txn ∧
      (metaOf e k).map (·.deleted) = some m'.deleted := by
  obtain ⟨m, hm, hmi, htxt, rfl⟩ := hx.of_intentOf hi
  obtain ⟨raw, hraw⟩ := hx.stored hm
  have hinl := hx.inline hm
  obtain ⟨e₁, he₁, hch⟩ := h.moveVersion hk (hx.valid hm) hw hlt.ne hraw
  have hput := hch.putMeta (m := { m with timestamp := w, txnTimestamp := w }) hk hinl
  refine ⟨_, _, ?_, hput, ?_, ?_⟩
  · rw [mvccPushIntent, h.loadMeta hk, hm]
    simp only
    rw [if_neg (not_not.mpr hmi), htxt, if_neg, he₁]
    rw [lessEq_iff, not_le]
    exact hlt
  · refine hput.indexed hw ⟨raw, ?_⟩ (fun _ ↦ rfl) hinl
    rw [relocate, if_pos rfl, hraw]
  · rw [intentOf_eq hput.md, hm]
    refine ⟨?_, rfl, rfl, rfl⟩
    simp only [intent] at hmi ⊢
    rw [hmi]
    rfl

/-- **Aborting an intent** takes it back. -/
theorem Proper.resolve_abort (c : Timestamp) :
    ∃ e' md, mvccResolveWriteIntent e k t .aborted c = .ok e' ∧
      Changed K e e' k md (update (version e k) ts none) ∧
      Indexed e' k ∧ intentOf e' k = none ∧
      ((∃ u raw m', Newest e k (· < ts) u raw ∧ md = some m' ∧ m'.timestamp = u ∧ m'.txn = none ∧
          m'.deleted = (decodeMVCCValue raw).isNone) ∨
        (∀ u, Valid u → u < ts → version e k u = none) ∧ md = none) := by
  obtain ⟨m, hm, hmi, htxt, rfl⟩ := hx.of_intentOf hi
  obtain ⟨raw, hraw⟩ := hx.stored hm
  have hv := hx.valid hm
  have hers := h.changed_eraseVersion hk hv
  have hres : mvccResolveWriteIntent e k t .aborted c = resolveAbort e k m.timestamp := by
    rw [mvccResolveWriteIntent, h.loadMeta hk, hm]
    simp only
    rw [if_neg (not_not.mpr hmi), htxt]
  rcases h.findPreviousVersion hk hv hraw with ⟨u, raw', hnew, hprev⟩ | ⟨hnone, hprev⟩
  · have hch := hers.putMeta (m := {
      timestamp := u, deleted := (decodeMVCCValue raw').isNone, keyBytes := k.length }) hk rfl
    refine ⟨_, _, ?_, hch, hch.indexed hnew.valid ⟨raw', ?_⟩ (fun hne ↦ absurd rfl hne) rfl, ?_,
      .inl ⟨u, raw', _, hnew, rfl, rfl, rfl, rfl⟩⟩
    · simp only [hres, resolveAbort, hprev]
    · rw [update_of_ne hnew.sat.ne, hnew.holds]
    · rw [intentOf_eq hch.md]
      rfl
  · have hput := hers.proper.changed_eraseMeta hk
    have hch := (hers.trans hput).congr fun u hu ↦ hers.version u hu
    refine ⟨_, _, ?_, hch, hch.indexed_none, ?_, .inr ⟨hnone, rfl⟩⟩
    · simp only [hres, resolveAbort, hprev]
    · rw [intentOf, hput.md]
      rfl

end

/-! ## Reading -/

omit [MetadataCodec] in
/-- What may stand in the way of a read: the intent of another transaction, or a version within the
uncertainty window of a reader that has no intent here. -/
theorem readConflict_cases (m : MVCCMetadata) (k : Bytes) (ts : Timestamp) (opts : ReadOptions) :
    (∃ t, m.intent = some t ∧ opts.txn ≠ some t ∧ m.txnTimestamp ≤ ts ∧
      readConflict m k ts opts = some (.writeIntent k t m.txnTimestamp)) ∨
    (∀ t, m.intent = some t → opts.txn = some t ∨ ts < m.txnTimestamp) ∧
      (readConflict m k ts opts = none ∨
        (∀ t, m.intent = some t → opts.txn ≠ some t) ∧
        (ts < m.timestamp ∧ m.timestamp ≤ opts.maxTimestamp) ∧
          readConflict m k ts opts = some (.uncertainty k ts opts.maxTimestamp m.timestamp)) := by
  have huncertain : readConflict.uncertain m k ts opts = none ∨
      (ts < m.timestamp ∧ m.timestamp ≤ opts.maxTimestamp) ∧ readConflict.uncertain m k ts opts =
        some (.uncertainty k ts opts.maxTimestamp m.timestamp) := by
    rw [readConflict.uncertain]
    split
    · rename_i hwin
      rw [and_eq_true, and_eq_true, Timestamp.less_iff, lessEq_iff] at hwin
      exact .inr ⟨⟨hwin.1.2, hwin.2⟩, rfl⟩
    · exact .inl rfl
  rw [readConflict]
  cases m.intent with
  | none =>
    exact .inr ⟨by simp, huncertain.imp_right fun h ↦ ⟨by simp, h⟩⟩
  | some owner =>
    simp only
    split <;> rename_i hown
    · exact .inr ⟨fun t ht ↦ .inl (hown.trans ht), .inl rfl⟩
    · split <;> rename_i hle
      · exact .inl ⟨owner, rfl, hown, (lessEq_iff _ _).mp hle, rfl⟩
      · rw [lessEq_iff, not_le] at hle
        refine .inr ⟨fun _ _ ↦ .inr hle, huncertain.imp_right fun h ↦ ⟨fun t ht ↦ ?_, h⟩⟩
        exact Option.some.inj ht ▸ hown

theorem Proper.get_eq_none (h : Proper K e) (hk : k ∈ K) (hm : metaOf e k = none)
    (opts : ReadOptions) : mvccGet e k ts opts = .error .keyNotFound := by
  simp only [mvccGet, h.loadMeta hk, hm]

theorem Proper.get_eq_some (h : Proper K e) (hk : k ∈ K) (hts : ts ≠ {}) (hm : metaOf e k = some m)
    (opts : ReadOptions) :
    mvccGet e k ts opts = (readConflict m k ts opts).elim (Mvcc.readVersion e k ts) .error := by
  have hne : ts.isEmpty = false := by
    rw [eq_false_iff, ne_eq, Timestamp.isEmpty_iff]
    exact hts
  simp only [mvccGet, h.loadMeta hk, hm, hne, false_eq_true, if_false]
  cases readConflict m k ts opts <;> rfl

/-- **What a read returns.** It meets an intent of another transaction at or below its timestamp, or
there is none and it returns an uncertainty error or what the newest version at or below its
timestamp says; nothing, if there is no metadata. -/
theorem Proper.get_cases (h : Proper K e) (hk : k ∈ K) (hts : Valid ts) (opts : ReadOptions) :
    (∃ t its, intentOf e k = some (t, its) ∧ opts.txn ≠ some t ∧ its ≤ ts ∧
      mvccGet e k ts opts = .error (.writeIntent k t its)) ∨
    (∀ t its, intentOf e k = some (t, its) → opts.txn = some t ∨ ts < its) ∧
      ((∃ m, metaOf e k = some m ∧ (ts < m.timestamp ∧ m.timestamp ≤ opts.maxTimestamp) ∧
          (∀ t its, intentOf e k = some (t, its) → opts.txn ≠ some t) ∧
          mvccGet e k ts opts = .error (.uncertainty k ts opts.maxTimestamp m.timestamp)) ∨
        metaOf e k = none ∧ mvccGet e k ts opts = .error .keyNotFound ∨
        metaOf e k ≠ none ∧ ((∃ u raw, Newest e k (· ≤ ts) u raw ∧
            mvccGet e k ts opts = (decodeMVCCValue raw).elim (.error .keyNotFound) .ok) ∨
          (∀ u, Valid u → u ≤ ts → version e k u = none) ∧
            mvccGet e k ts opts = .error .keyNotFound)) := by
  cases hm : metaOf e k with
  | none =>
    refine .inr ⟨fun t its hi ↦ ?_, .inr (.inl ⟨rfl, ?_⟩)⟩
    · rw [intentOf, hm] at hi
      cases hi
    · exact h.get_eq_none hk hm opts
  | some m =>
    have hget : ∀ c, readConflict m k ts opts = c →
        mvccGet e k ts opts = c.elim (Mvcc.readVersion e k ts) .error := by
      rintro c rfl
      exact h.get_eq_some hk hts.2 hm opts
    -- an intent is read off the metadata
    have hmi : ∀ {t its}, intentOf e k = some (t, its) → m.intent = some t ∧
        m.txnTimestamp = its := by
      intro t its hi
      obtain ⟨m', hm', hmi⟩ := intentOf_eq_some.mp hi
      exact mem_unique hm' hm ▸ hmi
    rcases readConflict_cases m k ts opts with ⟨t, hmt, hne, hle, hc⟩ | ⟨hclear, hc⟩
    · have hi := intentOf_eq_some.mpr ⟨m, hm, hmt, rfl⟩
      exact .inl ⟨t, m.txnTimestamp, hi, hne, hle, hget _ hc⟩
    · refine .inr ⟨fun t its hi ↦ (hmi hi).2 ▸ hclear t (hmi hi).1, ?_⟩
      rcases hc with hc | ⟨hown, hlt, hc⟩
      · rw [hget _ hc]
        exact .inr (.inr ⟨by simp, h.readVersion hk hts⟩)
      · exact .inl ⟨m, rfl, hlt, fun t its hi ↦ hown t (hmi hi).1, hget _ hc⟩

end Specs

end DucklingDB.Mvcc
