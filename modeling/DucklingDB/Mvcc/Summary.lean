import DucklingDB.Mvcc.Codec
import DucklingDB.Mvcc.Intent

/-!
# Metadata as a summary

The metadata of a key says which of its versions is the newest one, whether that is a tombstone, and
whether it is an intent (`Summary`). Every operation keeps it so, if a transaction rewrites its
intent in place and commits above the other versions.

Otherwise `MVCCPut` leaves the version at the old timestamp behind, a version of an unresolved
transaction that the metadata does not know of, and `resolveCommit` moves the version of an intent
to whatever timestamp it is given.
-/

namespace DucklingDB.Mvcc

open Hlc Transaction Function Option MVCCMetadata

section Metadata

variable [MetadataCodec]

/-- The metadata of `k` sums up its versions. -/
structure Summary (e : Engine) (k : Bytes) : Prop extends Indexed e k where
  absent : metaOf e k = none → ∀ ts, Valid ts → version e k ts = none
  newest : ∀ {m ts raw}, metaOf e k = some m → Valid ts → version e k ts = some raw →
    ts ≤ m.timestamp
  deleted : ∀ {m raw}, metaOf e k = some m → version e k m.timestamp = some raw →
    m.deleted = (decodeMVCCValue raw).isNone
  txn : ∀ {m}, metaOf e k = some m → m.txn = m.intent

section Summary

variable {K : Set Bytes} {e e' : Engine} {k : Bytes} {t : TxnID} {ts : Timestamp}
  {m : MVCCMetadata} {f : Timestamp → Option Bytes}

theorem summary_empty (k : Bytes) : Summary (SortedMap.empty : Engine) k where
  valid h := absurd h (by simp [metaOf])
  stored h := absurd h (by simp [metaOf])
  intent h := absurd h (by simp [metaOf])
  inline h := absurd h (by simp [metaOf])
  absent _ _ _ := by simp [version]
  newest h := absurd h (by simp [metaOf])
  deleted h := absurd h (by simp [metaOf])
  txn h := absurd h (by simp [metaOf])

theorem Changed.summary (h : Changed K e e' k (some m) f) (hx : Indexed e' k)
    (hnew : ∀ u raw, Valid u → f u = some raw → u ≤ m.timestamp)
    (hdel : ∀ raw, f m.timestamp = some raw → m.deleted = (decodeMVCCValue raw).isNone)
    (htxn : m.txn = m.intent) : Summary e' k := by
  have hm : ∀ {m'}, metaOf e' k = some m' → m' = m := fun h' ↦ by
    rw [h.md] at h'
    exact (Option.some.inj h').symm
  refine ⟨hx, fun h' ↦ ?_, fun h' hu hraw ↦ ?_, fun h' hraw ↦ ?_, fun h' ↦ ?_⟩
  · cases h.md.symm.trans h'
  · rw [hm h']
    exact hnew _ _ hu ((h.version _ hu).symm.trans hraw)
  · rw [hm h'] at hraw ⊢
    exact hdel _ ((h.version _ (hx.valid h.md)).symm.trans hraw)
  · rw [hm h']
    exact htxn

theorem Changed.summary_ne {md : Option MVCCMetadata} {k' : Bytes} (h : Changed K e e' k md f)
    (hk' : k' ∈ K) (hne : k' ≠ k) (hx : Summary e k') : Summary e' k' := by
  have hm := h.metaOf_ne k' hk' hne
  have hv := h.version_ne k' hk' hne
  refine ⟨h.indexed_ne hk' hne hx.toIndexed, fun h' u hu ↦ ?_, fun h' hu hraw ↦ ?_,
    fun h' hraw ↦ ?_, fun h' ↦ hx.txn (hm ▸ h')⟩
  · exact (hv u hu).trans (hx.absent (hm ▸ h') u hu)
  · exact hx.newest (hm ▸ h') hu ((hv _ hu).symm.trans hraw)
  · have h' := hm ▸ h'
    exact hx.deleted h' ((hv _ (hx.valid h')).symm.trans hraw)

theorem Summary.le_intent (h : Summary e k) (hi : intentOf e k = some (t, ts)) {u : Timestamp}
    {raw : Bytes} (hu : Valid u) (hraw : version e k u = some raw) : u ≤ ts := by
  obtain ⟨m, hm, -, -, rfl⟩ := h.of_intentOf hi
  exact h.newest hm hu hraw

theorem Summary.older (h : Summary e k) (hlt : ∀ m, metaOf e k = some m → m.timestamp < ts)
    (u : Timestamp) (raw : Bytes) (hu : Valid u) (hraw : version e k u = some raw) : u < ts := by
  cases hm : metaOf e k with
  | none => cases (h.absent hm u hu).symm.trans hraw
  | some m => exact (h.newest hm hu hraw).trans_lt (hlt m hm)

/-- **A write** that meets no conflict, at or above all versions. -/
theorem Summary.write (h : Summary e k) (hp : Proper K e) (hk : k ∈ K) (hts : Valid ts)
    (value : Option Bytes) {txn : Option TxnID} (hz : ∀ t, txn = some t → t.isZero = false)
    (hc : writeConflict ((metaOf e k).getD {}) k ts txn = none)
    (htop : ∀ u raw, Valid u → version e k u = some raw → u ≤ ts) :
    ∃ e' m', mvccWrite e k ts value txn = .ok e' ∧
      Changed K e e' k (some m') (update (version e k) ts (some (encodeWrite value))) ∧
      Summary e' k ∧ intentOf e' k = txn.map fun t ↦ (t, ts) := by
  obtain ⟨e', m', hok, hch, hmts, hdel, htxn, htts, hinl⟩ := hp.write_ok h.toIndexed hk hts value hc
  have hint : m'.intent = txn := by
    rw [intent, htxn]
    cases txn with
    | none => rfl
    | some t => simp [hz t rfl]
  have htxts : txn.map (fun t ↦ (t, m'.txnTimestamp)) = txn.map fun t ↦ (t, ts) := by
    cases txn with
    | none => rfl
    | some t => rw [map_some, map_some, htts rfl]
  refine ⟨e', m', hok, hch, hch.summary (hch.indexed (hmts ▸ hts) ⟨encodeWrite value, ?_⟩ ?_ hinl)
    (fun u raw hu hraw ↦ ?_) (fun raw hraw ↦ ?_) (htxn.trans hint.symm), ?_⟩
  · rw [hmts, update_self]
  · intro hne
    rw [hint] at hne
    rw [htts (isSome_iff_ne_none.mpr hne), hmts]
  · rw [hmts]
    by_cases heq : u = ts
    · exact heq.le
    · rw [update_of_ne heq] at hraw
      exact htop u raw hu hraw
  · rw [hmts, update_self] at hraw
    rw [hdel, ← Option.some.inj hraw, decode_encodeWrite]
  · rw [hch.intentOf_eq, hint, htxts]

/-- A read without a transaction meets nothing but the version it looks for. -/
theorem Proper.get_plain (hp : Proper K e) (hk : k ∈ K) (hts : Valid ts) (hm : metaOf e k = some m)
    (hi : intentOf e k = none) : mvccGet e k ts {} = Mvcc.readVersion e k ts := by
  have hclear : readConflict m k ts {} = none := by
    rw [readConflict, intentOf_eq_none hm hi]
    rfl
  rw [hp.get_eq_some hk hts.2 hm, hclear, elim_none]

section

variable (h : Summary e k) (hp : Proper K e) (hk : k ∈ K)
include h hp hk

/-- **A write without a transaction, and the reads after it**: what it wrote from its timestamp on,
and what was there before it below. The versions that were there are older. -/
theorem Summary.get_write (hts : Valid ts) {value : Option Bytes}
    (hw : mvccWrite e k ts value none = .ok e') :
    (∀ u raw, Valid u → version e k u = some raw → u < ts) ∧ Proper K e' ∧ Summary e' k ∧
      version e' k ts = some (encodeWrite value) ∧
      ∀ T, Valid T → mvccGet e' k T {} =
        if ts ≤ T then value.elim (.error .keyNotFound) .ok else mvccGet e k T {} := by
  have hc : writeConflict ((metaOf e k).getD {}) k ts none = none := by
    cases hc : writeConflict ((metaOf e k).getD {}) k ts none with
    | none => rfl
    | some err =>
      have herr : mvccWrite e k ts value none = .error err := hp.write_error hk hts hc
      cases herr.symm.trans hw
  obtain ⟨hi, hlt⟩ : intentOf e k = none ∧ ∀ m, metaOf e k = some m → m.timestamp < ts := by
    rcases h.writeConflict_eq_none.mp hc with hfree | ⟨t, its, ht, -⟩
    · exact hfree
    · cases ht
  have hold := h.older hlt
  obtain ⟨e'', m', hok, hch, hsum, hi'⟩ := h.write hp hk hts value
    (fun t ht ↦ absurd ht (by simp)) hc fun u raw hu hraw ↦ (hold u raw hu hraw).le
  obtain rfl : e'' = e' := Except.ok.inj (hok.symm.trans hw)
  have hver : ∀ u, Valid u → version e'' k u = if u = ts then some (encodeWrite value)
      else version e k u := by
    intro u hu
    rw [hch.version u hu, update_apply]
  refine ⟨hold, hch.proper, hsum, by rw [hver ts hts, if_pos rfl], fun T hT ↦ ?_⟩
  rw [hch.proper.get_plain hk hT hch.md hi']
  by_cases hle : ts ≤ T
  · have hn : Newest e'' k (· ≤ T) ts (encodeWrite value) := by
      refine ⟨hts, by rw [hver ts hts, if_pos rfl], hle, fun {u raw} hu hraw _ ↦ ?_⟩
      rw [hver u hu] at hraw
      split at hraw
      · rename_i hut
        exact hut.le
      · exact (hold u raw hu hraw).le
    rw [if_pos hle, hn.readVersion hch.proper hk hT, decode_encodeWrite]
  · rw [if_neg hle]
    -- below the timestamp nothing changed
    have hsame : ∀ u, Valid u → u ≤ T → version e'' k u = version e k u := by
      intro u hu huT
      have hne : u ≠ ts := fun hut ↦ hle (hut ▸ huT)
      rw [hver u hu, if_neg hne]
    cases hm : metaOf e k with
    | none =>
      rw [hp.get_eq_none hk hm]
      exact hch.proper.readVersion_eq_error hk hT fun u hu huT ↦
        (hsame u hu huT).trans (h.absent hm u hu)
    | some m =>
      rw [hp.get_plain hk hT hm hi]
      exact hp.readVersion_congr hch.proper hk hT hsame

section

variable (hi : intentOf e k = some (t, ts))
include hi

/-- **Pushing** an intent. -/
theorem Summary.push {w : Timestamp} (hw : Valid w)
    (hlt : ts < w) : ∃ e' m', mvccPushIntent e k t w = .ok e' ∧
      Changed K e e' k (some m') (relocate (version e k) ts w) ∧
      Summary e' k ∧ intentOf e' k = some (t, w) := by
  obtain ⟨e', m', hok, hch, hx', hi', hmts, htxn, hdel⟩ := hp.push h.toIndexed hk hi hw hlt
  obtain ⟨m, hm, hmi, -, rfl⟩ := h.of_intentOf hi
  rw [hm] at htxn hdel
  refine ⟨e', m', hok, hch, hch.summary hx' (fun u raw hu hraw ↦ ?_) (fun raw hraw ↦ ?_) ?_, hi'⟩
  · rw [hmts]
    rcases relocate_eq_some.mp hraw with ⟨rfl, -⟩ | ⟨-, -, hraw⟩
    · exact le_rfl
    · exact (h.newest hm hu hraw).trans hlt.le
  · rw [hmts, relocate, if_pos rfl] at hraw
    rw [← Option.some.inj hdel]
    exact h.deleted hm hraw
  · have htxn : m.txn = m'.txn := Option.some.inj htxn
    rw [intent, ← htxn]
    exact h.txn hm

/-- **Committing** an intent above the other versions. -/
theorem Summary.resolve_commit {c : Timestamp} (hc : Valid c)
    (htop : ∀ u raw, Valid u → u ≠ ts → version e k u = some raw → u < c) :
    ∃ e' m', mvccResolveWriteIntent e k t .committed c = .ok e' ∧
      Changed K e e' k (some m') (relocate (version e k) ts c) ∧
      Summary e' k ∧ intentOf e' k = none := by
  obtain ⟨e', m', hok, hch, hx', hi', hmts, htxn, hdel⟩ := hp.resolve_commit h.toIndexed hk hi hc
  obtain ⟨m, hm, -, -, rfl⟩ := h.of_intentOf hi
  rw [hm] at hdel
  refine ⟨e', m', hok, hch, hch.summary hx' (fun u raw hu hraw ↦ ?_) (fun raw hraw ↦ ?_) ?_, hi'⟩
  · rw [hmts]
    rcases relocate_eq_some.mp hraw with ⟨rfl, -⟩ | ⟨-, hne, hraw⟩
    · exact le_rfl
    · exact (htop u raw hu hne hraw).le
  · rw [hmts, relocate, if_pos rfl] at hraw
    rw [← Option.some.inj hdel]
    exact h.deleted hm hraw
  · rw [intent, htxn]
    rfl

/-- **Aborting** an intent. -/
theorem Summary.resolve_abort (c : Timestamp) :
    ∃ e' md, mvccResolveWriteIntent e k t .aborted c = .ok e' ∧
      Changed K e e' k md (update (version e k) ts none) ∧
      Summary e' k ∧ intentOf e' k = none := by
  obtain ⟨e', md, hok, hch, hx', hi', hprev⟩ := hp.resolve_abort h.toIndexed hk hi c
  refine ⟨e', md, hok, hch, ?_, hi'⟩
  -- what is left lies below the intent
  have hleft : ∀ {u raw}, Valid u → update (version e k) ts none u = some raw →
      u < ts ∧ version e k u = some raw := by
    intro u raw hu hraw
    by_cases heq : u = ts
    · rw [heq, update_self] at hraw
      cases hraw
    · rw [update_of_ne heq] at hraw
      exact ⟨lt_of_le_of_ne (h.le_intent hi hu hraw) heq, hraw⟩
  rcases hprev with ⟨u, raw, m', hnew, rfl, rfl, htxn, hdel⟩ | ⟨hnone, rfl⟩
  · refine hch.summary hx' (fun u raw hu hraw ↦ ?_) (fun raw' hraw' ↦ ?_) ?_
    · exact hnew.le hu (hleft hu hraw).2 (hleft hu hraw).1
    · obtain rfl := mem_unique hnew.holds (hleft hnew.valid hraw').2
      exact hdel
    · rw [intent, htxn]
      rfl
  · have hno : ∀ {m'}, metaOf e' k ≠ some m' := fun h' ↦ by cases hch.md.symm.trans h'
    refine ⟨hx', fun _ u hu ↦ ?_, fun h' ↦ absurd h' hno, fun h' ↦ absurd h' hno,
      fun h' ↦ absurd h' hno⟩
    rw [hch.version u hu]
    refine eq_none_iff_forall_ne_some.mpr fun raw hraw ↦ ?_
    exact absurd ((hnone u hu (hleft hu hraw).1).symm.trans (hleft hu hraw).2) (by simp)

end

end

/-- What a put without a transaction leaves to be read, in an engine that may have other keys
below. -/
theorem Summary.get_put {b v : Bytes} (hb : b ≤ k) (h : Summary (e.dropBelow b) k)
    (hp : Proper K (e.dropBelow b)) (hk : k ∈ K) (hts : Valid ts)
    (hput : mvccPut e k ts v none = .ok e') :
    (∀ u raw, Valid u → version e k u = some raw → u < ts) ∧ Proper K (e'.dropBelow b) ∧
      Summary (e'.dropBelow b) k ∧ version e' k ts = some (encodeMVCCValue v) ∧
      ∀ T, Valid T → mvccGet e' k T {} = if ts ≤ T then .ok v else mvccGet e k T {} := by
  have hver : ∀ (e : Engine) u, version (e.dropBelow b) k u = version e k u := fun e u ↦ by
    rw [version, SortedMap.get_dropBelow, if_pos (le_encode hb u).1, version]
  have hw : mvccWrite (e.dropBelow b) k ts (some v) none = .ok (e'.dropBelow b) :=
    mvccPut_dropBelow hb hput
  have hres := h.get_write hp hk hts hw
  simp only [hver, mvccGet_dropBelow hb] at hres
  exact hres

end Summary

/-! ## Histories of one key -/

/-- An operation on a key. -/
inductive KeyOp where
  | write (ts : Timestamp) (value : Option Bytes) (txn : Option TxnID)
  | push (txn : TxnID) (ts : Timestamp)
  | resolve (txn : TxnID) (status : TxnStatus) (ts : Timestamp)

/-- The engine, and who wrote the version at a timestamp, as long as that transaction is
unresolved. -/
structure Traced where
  engine : Engine := SortedMap.empty
  writer : Timestamp → Option TxnID := fun _ ↦ none

variable (k : Bytes)

/-- A pushed version keeps its writer. -/
def Traced.pushed (s : Traced) (t : TxnID) (ts : Timestamp) : Timestamp → Option TxnID :=
  match intentOf s.engine k with
  | some (owner, its) => if owner = t ∧ its < ts then relocate s.writer its ts else s.writer
  | none => s.writer

/-- The versions of a resolved transaction are not those of an unresolved one any more. -/
def Traced.resolved (s : Traced) (t : TxnID) (u : Timestamp) : Option TxnID :=
  if s.writer u = some t then none else s.writer u

/-- An operation that fails changes nothing. -/
def Traced.step (s : Traced) : KeyOp → Traced
  | .write ts value txn =>
    match mvccWrite s.engine k ts value txn with
    | .ok e => ⟨e, update s.writer ts txn⟩
    | .error _ => s
  | .push t ts =>
    match mvccPushIntent s.engine k t ts with
    | .ok e => ⟨e, s.pushed k t ts⟩
    | .error _ => s
  | .resolve t status ts =>
    match mvccResolveWriteIntent s.engine k t status ts with
    | .ok e => ⟨e, s.resolved t⟩
    | .error _ => s

/-- The operations of a history, one after the other. -/
def Traced.run (s : Traced) (ops : List KeyOp) : Traced := ops.foldl (Traced.step k) s

/-- Timestamps are positive and identifiers not zero; a transaction rewrites its intent in place,
and commits it above the version behind it. -/
def Traced.Steady (s : Traced) : KeyOp → Prop
  | .write ts _ txn => Valid ts ∧ ∀ t ∈ txn, t.isZero = false ∧
    ∀ i ∈ intentOf s.engine k, i.1 = t → i.2 = ts
  | .push t ts => ∀ i ∈ intentOf s.engine k, i.1 = t → i.2 < ts → Valid ts
  | .resolve t .committed ts => ∀ i ∈ intentOf s.engine k, i.1 = t → Valid ts ∧
    ∀ prev ∈ (findPreviousVersion s.engine k i.2).toOption.join, prev.1 < ts
  | .resolve _ .aborted _ => True

instance {k : Bytes} {s : Traced} {op : KeyOp} : Decidable (s.Steady k op) :=
  match op with
  | .write _ _ _ => @instDecidableAnd _ _ inferInstance (Option.decidableForallMem _)
  | .push _ _ => inferInstanceAs (Decidable (∀ i ∈ intentOf s.engine k, _))
  | .resolve _ .committed _ => inferInstanceAs (Decidable (∀ i ∈ intentOf s.engine k, _))
  | .resolve _ .aborted _ => inferInstanceAs (Decidable True)

/-- Every step of the history is steady. -/
def Traced.AllSteady (k : Bytes) (s : Traced) : List KeyOp → Prop
  | [] => True
  | op :: ops => s.Steady k op ∧ (s.step k op).AllSteady k ops

instance decidableAllSteady {k : Bytes} :
    ∀ (s : Traced) (ops : List KeyOp), Decidable (s.AllSteady k ops)
  | _, [] => inferInstanceAs (Decidable True)
  | s, op :: ops =>
    have : Decidable ((s.step k op).AllSteady k ops) := decidableAllSteady _ ops
    inferInstanceAs (Decidable (s.Steady k op ∧ (s.step k op).AllSteady k ops))

/-- What the metadata is documented to say. -/
structure Traced.MetaRight (k : Bytes) (s : Traced) : Prop where
  newest : ∀ m, metaOf s.engine k = some m → ∃ raw,
    Newest s.engine k (fun _ ↦ True) m.timestamp raw ∧
    (m.deleted = true ↔ decodeMVCCValue raw = none)
  txn : ∀ m t, metaOf s.engine k = some m → m.txn = some t → m.txnTimestamp = m.timestamp ∧
    ∀ u, Valid u → (version s.engine k u).isSome = true →
    ((s.writer u).isSome = true ↔ u = m.timestamp)
  absent : metaOf s.engine k = none → ∀ u, Valid u → version s.engine k u = none

/-- The invariant: besides the summary, the versions of unresolved transactions are the intents. -/
structure Traced.Inv (k : Bytes) (s : Traced) : Prop where
  proper : Proper {k} s.engine
  summary : Summary s.engine k
  writer : ∀ {u t}, s.writer u = some t ↔ intentOf s.engine k = some (t, u)

section Traced

variable {s : Traced} {k : Bytes} {t : TxnID} {ts : Timestamp}

omit [MetadataCodec] in
theorem separated_singleton (k : Bytes) : Separated {k} := by
  rintro _ rfl _ rfl hpre
  have hle := hpre.length_le
  rw [List.length_append, List.length_singleton] at hle
  exact absurd hle (by simp)

theorem Traced.inv_init (k : Bytes) : Traced.Inv k {} where
  proper := proper_empty (separated_singleton k)
  summary := summary_empty k
  writer := by simp [intentOf, metaOf]

section

variable (h : s.Inv k)
include h

theorem Traced.Inv.metaRight : s.MetaRight k := by
  refine ⟨fun m hm ↦ ?_, fun m t hm ht ↦ ?_, h.summary.absent⟩
  · obtain ⟨raw, hraw⟩ := h.summary.stored hm
    refine ⟨raw, ⟨h.summary.valid hm, hraw, trivial, fun hu hv _ ↦ h.summary.newest hm hu hv⟩, ?_⟩
    rw [h.summary.deleted hm hraw, isNone_iff_eq_none]
  · rw [h.summary.txn hm] at ht
    have htts := h.summary.intent hm (by rw [ht]; simp)
    have hi : intentOf s.engine k = some (t, m.timestamp) := by
      rw [intentOf_eq hm, ht, map_some, htts]
    refine ⟨htts, fun u hu _ ↦ ?_⟩
    rw [isSome_iff_exists]
    constructor
    · rintro ⟨t', ht'⟩
      exact (congrArg Prod.snd (mem_unique hi (h.writer.mp ht'))).symm
    · rintro rfl
      exact ⟨t, h.writer.mpr hi⟩

theorem Traced.Inv.write {value : Option Bytes} {txn : Option TxnID}
    (hst : s.Steady k (.write ts value txn)) : (s.step k (.write ts value txn)).Inv k := by
  obtain ⟨hts, htxn⟩ := hst
  rw [Traced.step]
  cases hc : writeConflict ((metaOf s.engine k).getD {}) k ts txn with
  | some err =>
    rw [h.proper.write_error rfl hts hc]
    exact h
  | none =>
    -- no intent, or an own one at this timestamp
    have hown : ∀ t' u, intentOf s.engine k = some (t', u) → u = ts := by
      intro t' u hi
      rcases (h.summary.writeConflict_eq_none).mp hc with ⟨hno, -⟩ | ⟨t, its, rfl, hi'⟩
      · cases hno.symm.trans hi
      · obtain ⟨rfl, rfl⟩ := Prod.mk.inj (mem_unique hi' hi)
        exact (htxn t rfl).2 _ hi rfl
    have htop : ∀ u raw, Valid u → version s.engine k u = some raw → u ≤ ts := by
      intro u raw hu hraw
      rcases (h.summary.writeConflict_eq_none).mp hc with ⟨-, hlt⟩ | ⟨t, its, -, hi⟩
      · exact (h.summary.older hlt u raw hu hraw).le
      · exact hown t its hi ▸ h.summary.le_intent hi hu hraw
    obtain ⟨e', m', hok, hch, hsum, hi'⟩ :=
      h.summary.write h.proper rfl hts value (fun t ht ↦ (htxn t ht).1) hc htop
    rw [hok]
    refine ⟨hch.proper, hsum, fun {u t'} ↦ ?_⟩
    show update s.writer ts txn u = some t' ↔ intentOf e' k = some (t', u)
    rw [hi', update_apply]
    split
    · rename_i heq
      subst heq
      cases txn <;> simp
    · rename_i hne
      rw [h.writer]
      refine ⟨fun hi ↦ absurd (hown t' u hi) hne, fun hi ↦ ?_⟩
      obtain ⟨t, -, heq⟩ := map_eq_some_iff.mp hi
      exact absurd (congrArg Prod.snd heq).symm hne

theorem Traced.Inv.push (hst : s.Steady k (.push t ts)) : (s.step k (.push t ts)).Inv k := by
  rw [Traced.step, Traced.pushed]
  by_cases hpush : ∃ its, intentOf s.engine k = some (t, its) ∧ its < ts
  · obtain ⟨its, hi, hlt⟩ := hpush
    obtain ⟨e', m', hok, hch, hsum, hi'⟩ :=
      h.summary.push h.proper rfl hi (hst (t, its) hi rfl hlt) hlt
    rw [hok, hi]
    refine ⟨hch.proper, hsum, fun {u t'} ↦ ?_⟩
    show (if t = t ∧ its < ts then relocate s.writer its ts else s.writer) u = some t' ↔ _
    rw [if_pos ⟨rfl, hlt⟩, relocate_eq_some, h.writer, h.writer, hi, hi']
    constructor
    · rintro (⟨rfl, heq⟩ | ⟨-, hne, heq⟩)
      · rw [(Prod.mk.inj (Option.some.inj heq)).1]
      · exact absurd (Prod.mk.inj (Option.some.inj heq)).2.symm hne
    · intro heq
      obtain ⟨rfl, rfl⟩ := Prod.mk.inj (Option.some.inj heq)
      exact Or.inl ⟨rfl, rfl⟩
  · push Not at hpush
    rw [h.proper.push_other rfl hpush]
    -- nothing is moved
    cases hi : intentOf s.engine k with
    | none => exact h
    | some owned =>
      obtain ⟨owner, its⟩ := owned
      dsimp only
      rw [if_neg]
      · exact h
      · rintro ⟨rfl, hlt⟩
        exact absurd hlt (not_lt.mpr (hpush its hi))

theorem Traced.Inv.resolve {status : TxnStatus} (hst : s.Steady k (.resolve t status ts)) :
    (s.step k (.resolve t status ts)).Inv k := by
  rw [Traced.step]
  by_cases hown : ∃ its, intentOf s.engine k = some (t, its)
  · obtain ⟨its, hi⟩ := hown
    -- the transaction has no other version
    have hnone : ∀ u, s.resolved t u = none := by
      intro u
      rw [Traced.resolved]
      split
      · rfl
      · rename_i hne
        refine eq_none_iff_forall_ne_some.mpr fun t' ht' ↦ hne ?_
        have heq := mem_unique hi (h.writer.mp ht')
        rw [ht', (Prod.mk.inj heq).1]
    cases status with
    | committed =>
      obtain ⟨hts, hprev⟩ := hst (t, its) hi rfl
      obtain ⟨hits, raw, hraw⟩ := h.summary.intent_spec hi
      have htop : ∀ u raw, Valid u → u ≠ its → version s.engine k u = some raw → u < ts := by
        intro u raw' hu hne hraw'
        have hlt := lt_of_le_of_ne (h.summary.le_intent hi hu hraw') hne
        rcases h.proper.findPreviousVersion rfl hits hraw with ⟨prev, _, hnew, hfind⟩ | ⟨hno, -⟩
        · exact (hnew.le hu hraw' hlt).trans_lt (hprev (prev, _) (by rw [hfind]; rfl))
        · cases (hno u hu hlt).symm.trans hraw'
      obtain ⟨e', m', hok, hch, hsum, hi'⟩ := h.summary.resolve_commit h.proper rfl hi hts htop
      rw [hok]
      exact ⟨hch.proper, hsum, fun {u t'} ↦ by simp [hnone, hi']⟩
    | aborted =>
      obtain ⟨e', md, hok, hch, hsum, hi'⟩ := h.summary.resolve_abort h.proper rfl hi ts
      rw [hok]
      exact ⟨hch.proper, hsum, fun {u t'} ↦ by simp [hnone, hi']⟩
  · push Not at hown
    rw [h.proper.resolve_other rfl hown]
    have hsame : s.resolved t = s.writer := by
      funext u
      rw [Traced.resolved, if_neg fun ht ↦ hown u (h.writer.mp ht)]
    rw [hsame]
    exact h

/-- **A steady operation keeps the invariant.** -/
theorem Traced.Inv.step {op : KeyOp} (hst : s.Steady k op) : (s.step k op).Inv k := by
  cases op with
  | write ts value txn => exact h.write hst
  | push t ts => exact h.push hst
  | resolve t status ts => exact h.resolve hst

theorem Traced.Inv.run {ops : List KeyOp} (hst : s.AllSteady k ops) : (s.run k ops).Inv k := by
  induction ops generalizing s with
  | nil => exact h
  | cons op ops ih => exact ih (h.step hst.1) hst.2

end

/-- **The metadata of a key is right** after every steady history: its timestamp is that of the
newest stored version, it says whether that is a tombstone, and if it carries a transaction its two
timestamps agree and that version is the only one written by an unresolved transaction; and without
metadata no version is stored. -/
theorem metadata_right {ops : List KeyOp} (hst : Traced.AllSteady k {} ops) :
    (Traced.run k {} ops).MetaRight k :=
  ((Traced.inv_init k).run hst).metaRight

end Traced

end Metadata

/-- Every kind of operation: a value, an intent that is rewritten as a tombstone, pushed and
committed, and one that is aborted. -/
def steadyOps : List KeyOp :=
  [.write ⟨10, 0⟩ (some [1]) none, .write ⟨20, 0⟩ (some [2]) (some (txnId 1)),
    .write ⟨20, 0⟩ none (some (txnId 1)), .push (txnId 1) ⟨30, 0⟩,
    .resolve (txnId 1) .committed ⟨30, 0⟩, .write ⟨40, 0⟩ (some [3]) (some (txnId 2)),
    .resolve (txnId 2) .aborted {}, .write ⟨50, 0⟩ (some [4]) (some (txnId 3))]

theorem metadata_right_steadyOps : Traced.AllSteady [0x6b] {} steadyOps ∧
    (Traced.run [0x6b] {} steadyOps).MetaRight [0x6b] := by
  have hst : Traced.AllSteady [0x6b] {} steadyOps := by decide +kernel
  exact ⟨hst, metadata_right hst⟩

/-- A transaction writes a key twice, at different timestamps, and leaves a version behind. -/
theorem exists_unknown_version :
    ¬ (Traced.run [0x6b] {} [.write ⟨10, 0⟩ (some [1]) (some (txnId 1)),
      .write ⟨20, 0⟩ (some [2]) (some (txnId 1))]).MetaRight [0x6b] := by
  have hleft : ∃ s ∈ some (Traced.run [0x6b] {} [.write ⟨10, 0⟩ (some [1]) (some (txnId 1)),
      .write ⟨20, 0⟩ (some [2]) (some (txnId 1))]), ∃ m ∈ metaOf s.engine [0x6b],
        m.txn = some (txnId 1) ∧ m.timestamp = ⟨20, 0⟩ ∧
        (version s.engine [0x6b] ⟨10, 0⟩).isSome = true ∧ (s.writer ⟨10, 0⟩).isSome = true := by
    decide +kernel
  obtain ⟨s, hs, m, hm, htxn, hts, hver, hwriter⟩ := hleft
  rw [Option.some.inj hs]
  intro h
  have heq := ((h.txn m _ hm htxn).2 ⟨10, 0⟩ (by decide) hver).mp hwriter
  exact absurd (heq.trans hts) (by decide)

end DucklingDB.Mvcc
