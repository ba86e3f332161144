import DucklingDB.Mvcc.Summary

/-!
# The life of an intent

A transaction writes an intent over committed versions, others push it up any number of times, and
it is aborted or committed. `Pending` says what the engine is in between: the one before the intent,
with one more version on top. Aborting takes that version back, committing moves it, and the
metadata is then again what sums up the versions; so reads cannot tell an aborted intent from none,
nor a committed one from a plain write at the commit timestamp (`Summary.get_congr`).
-/

namespace DucklingDB.Mvcc

open Hlc Transaction Function Option Timestamp Mvcc

section Lifecycle

variable [MetadataCodec]

/-- `MVCCPushIntent` calls one after the other, each for a transaction and a timestamp. -/
def pushAll (k : Bytes) (e : Engine) (pushes : List (TxnID × Timestamp)) :
    Except MVCCError Engine :=
  pushes.foldlM (fun e p ↦ mvccPushIntent e k p.1 p.2) e

/-- Where the pushes for `t` bring an intent of `t` that was written at `ts`. -/
def pushedTo (t : TxnID) (ts : Timestamp) (pushes : List (TxnID × Timestamp)) : Timestamp :=
  pushes.foldl (fun u p ↦ if p.1 = t then max u p.2 else u) ts

/-- Engines that hold committed versions only: what plain writes leave, and transactions that have
written an intent and have then been committed, not below their intent, or aborted. -/
inductive Committed (K : Set Bytes) : Engine → Prop
  | empty : Committed K SortedMap.empty
  | write {e e' : Engine} {k : Bytes} {ts : Timestamp} {value : Option Bytes} (h : Committed K e)
      (hk : k ∈ K) (hts : Valid ts) (hw : mvccWrite e k ts value none = .ok e') : Committed K e'
  | txn {e e₀ e₁ e' : Engine} {k : Bytes} {ts c : Timestamp} {value : Option Bytes} {t : TxnID}
      {pushes : List (TxnID × Timestamp)} {status : TxnStatus} (h : Committed K e) (hk : k ∈ K)
      (hts : Valid ts) (ht : t.isZero = false) (hw : mvccWrite e k ts value (some t) = .ok e₀)
      (hpushes : ∀ p ∈ pushes, Valid p.2) (hp : pushAll k e₀ pushes = .ok e₁)
      (hc : status = .committed → c.Nonneg ∧ pushedTo t ts pushes ≤ c)
      (hr : mvccResolveWriteIntent e₁ k t status c = .ok e') : Committed K e'

variable {K : Set Bytes} {e e₁ e' : Engine} {k : Bytes} {t : TxnID} {ts cur T c : Timestamp}
  {value : Option Bytes} {opts : ReadOptions}

/-! ## Engines with the same versions of a key -/

theorem Summary.timestamp_eq (h : Summary e k) (h' : Summary e' k)
    (hver : ∀ u, Valid u → version e' k u = version e k u) :
    (metaOf e' k).map (·.timestamp) = (metaOf e k).map (·.timestamp) := by
  cases hm : metaOf e k with
  | none =>
    cases hm' : metaOf e' k with
    | none => rfl
    | some m' =>
      obtain ⟨raw, hraw⟩ := h'.stored hm'
      rw [hver _ (h'.valid hm'), h.absent hm _ (h'.valid hm')] at hraw
      cases hraw
  | some m =>
    obtain ⟨raw, hraw⟩ := h.stored hm
    rw [← hver _ (h.valid hm)] at hraw
    cases hm' : metaOf e' k with
    | none => exact absurd ((h'.absent hm' _ (h.valid hm)).symm.trans hraw) (by simp)
    | some m' =>
      obtain ⟨raw', hraw'⟩ := h'.stored hm'
      have hle := h'.newest hm' (h.valid hm) hraw
      rw [hver _ (h'.valid hm')] at hraw'
      rw [map_some, map_some, le_antisymm (h.newest hm (h'.valid hm') hraw') hle]

theorem Indexed.get_zero (hx : Indexed e k) (hp : Proper K e) (hk : k ∈ K) (opts : ReadOptions) :
    mvccGet e k {} opts = .error .keyNotFound := by
  cases hm : metaOf e k with
  | none => exact hp.get_eq_none hk hm opts
  | some m =>
    simp only [mvccGet, hp.loadMeta hk, hm, hx.inline hm]
    rfl

omit [MetadataCodec] in
theorem valid_or_zero (hT : T.Nonneg) : T = {} ∨ Valid T :=
  (eq_or_ne T {}).imp_right fun hne ↦ ⟨hT, hne⟩

/-- **Reads depend on the versions**, where there is no intent. -/
theorem Summary.get_congr (h : Summary e k) (h' : Summary e' k) (hp : Proper K e)
    (hp' : Proper K e') (hk : k ∈ K) (hi : intentOf e k = none) (hi' : intentOf e' k = none)
    (hver : ∀ u, Valid u → version e' k u = version e k u) (hT : T.Nonneg) (opts : ReadOptions) :
    mvccGet e' k T opts = mvccGet e k T opts := by
  rcases valid_or_zero hT with rfl | hT
  · rw [h.get_zero hp hk, h'.get_zero hp' hk]
  · have hts := h.timestamp_eq h' hver
    cases hm : metaOf e k with
    | none =>
      rw [hm, map_none, map_eq_none_iff] at hts
      rw [hp.get_eq_none hk hm, hp'.get_eq_none hk hts]
    | some m =>
      rw [hm, map_some, map_eq_some_iff] at hts
      obtain ⟨m', hm', hts⟩ := hts
      have hconflict : readConflict m' k T opts = readConflict m k T opts := by
        simp only [readConflict, intentOf_eq_none hm hi, intentOf_eq_none hm' hi',
          readConflict.uncertain, hts]
      rw [hp.get_eq_some hk hT.2 hm, hp'.get_eq_some hk hT.2 hm', hconflict,
        hp.readVersion_congr hp' hk hT fun u hu _ ↦ hver u hu]

/-! ## While the intent is there -/

/-- The engine `e` with an intent of `t` on `k` at `cur`, on top of the versions. -/
structure Pending (K : Set Bytes) (e : Engine) (k : Bytes) (t : TxnID) (value : Option Bytes)
    (cur : Timestamp) (e₁ : Engine) : Prop where
  valid : Valid cur
  older : ∀ u raw, Valid u → version e k u = some raw → u < cur
  changed : ∃ m, Changed K e e₁ k (some m)
    (update (version e k) cur (some (encodeWrite value)))
  summary : Summary e₁ k
  intent : intentOf e₁ k = some (t, cur)

section

variable (h : Pending K e k t value cur e₁)
include h

theorem Pending.version_eq_none {u : Timestamp} (hu : Valid u) (hle : cur ≤ u) :
    version e k u = none := by
  refine eq_none_iff_forall_ne_some.mpr fun raw hraw ↦ ?_
  exact absurd (h.older u raw hu hraw) (not_lt.mpr hle)

theorem Pending.proper : Proper K e₁ := by
  obtain ⟨m, hch⟩ := h.changed
  exact hch.proper

theorem Pending.version {u : Timestamp} (hu : Valid u) :
    version e₁ k u = if u = cur then some (encodeWrite value) else version e k u := by
  obtain ⟨m, hch⟩ := h.changed
  rw [hch.version u hu, update_apply]

end

theorem Summary.pending_write (h : Summary e k) (hp : Proper K e) (hk : k ∈ K)
    (hi : intentOf e k = none) (hts : Valid ts) (ht : t.isZero = false)
    (hlt : ∀ m, metaOf e k = some m → m.timestamp < ts) (value : Option Bytes) :
    ∃ e₀, mvccWrite e k ts value (some t) = .ok e₀ ∧ Pending K e k t value ts e₀ := by
  have hold := h.older hlt
  obtain ⟨e₀, m, hok, hch, hsum, hi₀⟩ := h.write hp hk hts value
    (fun t' ht' ↦ Option.some.inj ht' ▸ ht) (writeConflict_of_lt hi hlt)
    fun u raw hu hraw ↦ (hold u raw hu hraw).le
  exact ⟨e₀, hok, hts, hold, ⟨m, hch⟩, hsum, hi₀⟩

section

variable (h : Pending K e k t value cur e₁)
include h

/-- One push: to the given timestamp, if it is for this transaction and further up. -/
theorem Pending.push (hk : k ∈ K) {p : TxnID × Timestamp} (hv : Valid p.2) :
    ∃ e₂, mvccPushIntent e₁ k p.1 p.2 = .ok e₂ ∧
      Pending K e k t value (if p.1 = t then max cur p.2 else cur) e₂ := by
  by_cases hpush : p.1 = t ∧ cur < p.2
  · obtain ⟨hpt, hlt⟩ := hpush
    rw [if_pos hpt, max_eq_right hlt.le, hpt]
    obtain ⟨m, hch⟩ := h.changed
    obtain ⟨e₂, m₂, hok, hch₂, hsum, hi⟩ := h.summary.push h.proper hk h.intent hv hlt
    refine ⟨e₂, hok, hv, fun u raw hu hraw ↦ (h.older u raw hu hraw).trans hlt,
      ⟨m₂, (hch.trans hch₂).congr fun u hu ↦ ?_⟩, hsum, hi⟩
    -- the version of the intent has moved
    rw [relocate, h.version hu, h.version h.valid, if_pos rfl, update_apply]
    by_cases huw : u = p.2
    · rw [if_pos huw, if_pos huw]
    · rw [if_neg huw, if_neg huw]
      by_cases huc : u = cur
      · rw [if_pos huc, huc, h.version_eq_none h.valid le_rfl]
      · rw [if_neg huc, if_neg huc]
  · have hstay : (if p.1 = t then max cur p.2 else cur) = cur := by
      split
      · rename_i hpt
        exact max_eq_left (not_lt.mp fun hlt ↦ hpush ⟨hpt, hlt⟩)
      · rfl
    rw [hstay]
    refine ⟨e₁, h.proper.push_other hk fun its hi ↦ ?_, h⟩
    obtain ⟨hpt, rfl⟩ := Prod.mk.inj (mem_unique h.intent hi)
    exact not_lt.mp fun hlt ↦ hpush ⟨hpt.symm, hlt⟩

/-- **Any number of pushes.** -/
theorem Pending.pushAll (hk : k ∈ K) {pushes : List (TxnID × Timestamp)}
    (hv : ∀ p ∈ pushes, Valid p.2) :
    ∃ e₂, pushAll k e₁ pushes = .ok e₂ ∧ Pending K e k t value (pushedTo t cur pushes) e₂ := by
  induction pushes generalizing cur e₁ with
  | nil => exact ⟨e₁, rfl, h⟩
  | cons p pushes ih =>
    obtain ⟨e₂, hok, h₂⟩ := h.push hk (hv p (.head _))
    obtain ⟨e₃, hok₃, h₃⟩ := ih h₂ fun q hq ↦ hv q (.tail _ hq)
    refine ⟨e₃, ?_, h₃⟩
    rw [pushAll, List.foldlM_cons, hok]
    exact hok₃

/-! ## Reading and resolving -/

theorem Pending.abort (hk : k ∈ K) (c : Timestamp) :
    ∃ e', mvccResolveWriteIntent e₁ k t .aborted c = .ok e' ∧ Proper K e' ∧ Summary e' k ∧
      intentOf e' k = none ∧ (∀ u, Valid u → Mvcc.version e' k u = Mvcc.version e k u) ∧
      ∃ md f, Changed K e e' k md f := by
  obtain ⟨m, hch⟩ := h.changed
  obtain ⟨e', md, hok, hch', hsum, hi⟩ := h.summary.resolve_abort h.proper hk h.intent c
  refine ⟨e', hok, hch'.proper, hsum, hi, fun u hu ↦ ?_, md, _, hch.trans hch'⟩
  rw [hch'.version u hu, update_apply]
  split <;> rename_i huc
  · rw [huc, h.version_eq_none h.valid le_rfl]
  · rw [h.version hu, if_neg huc]

theorem Pending.commit (hk : k ∈ K) (hc : Valid c) (hle : cur ≤ c) :
    ∃ e', mvccResolveWriteIntent e₁ k t .committed c = .ok e' ∧ Proper K e' ∧
      Summary e' k ∧ intentOf e' k = none ∧
      (∀ u, Valid u →
      Mvcc.version e' k u = update (Mvcc.version e k) c (some (encodeWrite value)) u) ∧
      ∃ md f, Changed K e e' k md f := by
  obtain ⟨m, hch⟩ := h.changed
  have htop : ∀ u raw, Valid u → u ≠ cur → Mvcc.version e₁ k u = some raw → u < c := by
    intro u raw hu hne hraw
    rw [h.version hu, if_neg hne] at hraw
    exact (h.older u raw hu hraw).trans_le hle
  obtain ⟨e', m', hok, hch', hsum, hi⟩ := h.summary.resolve_commit h.proper hk h.intent hc htop
  refine ⟨e', hok, hch'.proper, hsum, hi, fun u hu ↦ ?_, _, _, hch.trans hch'⟩
  rw [hch'.version u hu, relocate, h.version hu, h.version h.valid, if_pos rfl, update_apply]
  by_cases huc : u = c
  · rw [if_pos huc, if_pos huc]
  · rw [if_neg huc, if_neg huc]
    by_cases hucur : u = cur
    · rw [if_pos hucur, hucur, h.version_eq_none h.valid le_rfl]
    · rw [if_neg hucur, if_neg hucur]

/-- Below the intent, others read what they read before it. -/
theorem Pending.get_below (hs : Summary e k) (hp : Proper K e) (hk : k ∈ K)
    (hi : intentOf e k = none) (hT : T.Nonneg) (hlt : T < cur) {r : Option TxnID}
    (hr : r ≠ some t) : mvccGet e₁ k T { txn := r } = mvccGet e k T { txn := r } := by
  rcases valid_or_zero hT with rfl | hT
  · rw [hs.get_zero hp hk, h.summary.get_zero h.proper hk]
  · have hsame : ∀ u, Valid u → u ≤ T → Mvcc.version e₁ k u = Mvcc.version e k u := by
      intro u hu huT
      rw [h.version hu, if_neg (huT.trans_lt hlt).ne]
    -- the intent is not visible, and there is no uncertainty window
    have hclear : ∀ m : MVCCMetadata,
        (∀ t', m.intent = some t' → r ≠ some t' ∧ T < m.txnTimestamp) →
        readConflict m k T { txn := r } = none := by
      intro m hm
      rw [readConflict]
      cases hmi : m.intent with
      | none => rfl
      | some t' =>
        obtain ⟨hne, hlt'⟩ := hm t' hmi
        dsimp only
        rw [if_neg hne, if_neg]
        · rfl
        · rw [lessEq_iff, not_le]
          exact hlt'
    obtain ⟨m₁, hm₁, hmi₁, hmts₁, -⟩ := h.summary.of_intentOf h.intent
    have hget₁ : mvccGet e₁ k T { txn := r } = readVersion e₁ k T := by
      rw [h.proper.get_eq_some hk hT.2 hm₁, hclear m₁ fun t' ht' ↦ ?_, elim_none]
      obtain rfl := mem_unique hmi₁ ht'
      exact ⟨hr, hmts₁ ▸ hlt⟩
    rw [hget₁, hp.readVersion_congr h.proper hk hT hsame]
    cases hm : metaOf e k with
    | none =>
      rw [hp.get_eq_none hk hm]
      exact hp.readVersion_eq_error hk hT fun u hu _ ↦ hs.absent hm u hu
    | some m =>
      rw [hp.get_eq_some hk hT.2 hm, hclear m fun t' ht' ↦ ?_, elim_none]
      cases (intentOf_eq_none hm hi).symm.trans ht'

/-- At the intent and above it, they are told of it. -/
theorem Pending.get_above (hk : k ∈ K) (hT : T.Nonneg) (hle : cur ≤ T) (hr : opts.txn ≠ some t) :
    mvccGet e₁ k T opts = .error (.writeIntent k t cur) := by
  obtain ⟨m, hm, hmi, hmts, -⟩ := h.summary.of_intentOf h.intent
  have hTne : T ≠ {} := by
    rintro rfl
    exact h.valid.2 (le_antisymm hle h.valid.1.empty_le)
  have hconflict : readConflict m k T opts = some (.writeIntent k t cur) := by
    rw [readConflict, hmi]
    dsimp only
    rw [if_neg hr, hmts, if_pos ((lessEq_iff _ _).mpr hle)]
  rw [h.proper.get_eq_some hk hTne hm, hconflict]
  rfl

end

/-! ## Histories -/

/-- What committed versions look like. -/
structure AllCommitted (K : Set Bytes) (e : Engine) : Prop where
  proper : Proper K e
  summary : ∀ k ∈ K, Summary e k
  free : ∀ k ∈ K, intentOf e k = none

theorem AllCommitted.changed (h : AllCommitted K e) {md : Option MVCCMetadata}
    {f : Timestamp → Option Bytes} (hch : Changed K e e' k md f) (hs : Summary e' k)
    (hi : intentOf e' k = none) : AllCommitted K e' := by
  refine ⟨hch.proper, fun k' hk' ↦ ?_, fun k' hk' ↦ ?_⟩
  · by_cases heq : k' = k
    · exact heq ▸ hs
    · exact hch.summary_ne hk' heq (h.summary k' hk')
  · by_cases heq : k' = k
    · exact heq ▸ hi
    · exact (hch.intentOf_ne hk' heq).trans (h.free k' hk')

theorem AllCommitted.lt_of_write (h : AllCommitted K e) (hk : k ∈ K) (hts : Valid ts)
    {txn : Option TxnID} (hw : mvccWrite e k ts value txn = .ok e') :
    ∀ m, metaOf e k = some m → m.timestamp < ts := by
  have hc : writeConflict ((metaOf e k).getD {}) k ts txn = none := by
    refine eq_none_iff_forall_ne_some.mpr fun err herr ↦ ?_
    cases (h.proper.write_error hk hts herr).symm.trans hw
  rcases (h.summary k hk).writeConflict_eq_none.mp hc with ⟨-, hlt⟩ | ⟨t, its, -, hi⟩
  · exact hlt
  · cases (h.free k hk).symm.trans hi

theorem AllCommitted.write (h : AllCommitted K e) (hk : k ∈ K) (hts : Valid ts)
    (hlt : ∀ m, metaOf e k = some m → m.timestamp < ts) (value : Option Bytes) :
    ∃ e' m, mvccWrite e k ts value none = .ok e' ∧
      Changed K e e' k (some m) (update (version e k) ts (some (encodeWrite value))) ∧
      Summary e' k ∧ intentOf e' k = none :=
  (h.summary k hk).write h.proper hk hts value (by simp) (writeConflict_of_lt (h.free k hk) hlt)
    fun u raw hu hraw ↦ ((h.summary k hk).older hlt u raw hu hraw).le

theorem Committed.allCommitted (hK : Separated K) (h : Committed K e) : AllCommitted K e := by
  induction h with
  | empty =>
    exact ⟨proper_empty hK, fun k _ ↦ summary_empty k, fun k _ ↦ by simp [intentOf, metaOf]⟩
  | @write e e' k ts value _ hk hts hw ih =>
    obtain ⟨e'', m, hok, hch, hs, hi⟩ := ih.write hk hts (ih.lt_of_write hk hts hw) value
    obtain rfl := Except.ok.inj (hok.symm.trans hw)
    exact ih.changed hch hs hi
  | @txn e e₀ e₁ e' k ts c value t pushes status _ hk hts ht hw hpushes hp hc hr ih =>
    obtain ⟨e₀', hok₀, hpend₀⟩ := (ih.summary k hk).pending_write ih.proper hk (ih.free k hk) hts ht
      (ih.lt_of_write hk hts hw) value
    obtain rfl := Except.ok.inj (hok₀.symm.trans hw)
    obtain ⟨e₁', hok₁, hpend⟩ := hpend₀.pushAll hk hpushes
    obtain rfl := Except.ok.inj (hok₁.symm.trans hp)
    cases status with
    | committed =>
      obtain ⟨hcn, hle⟩ := hc rfl
      have hcv : Valid c := ⟨hcn, fun h0 ↦ hpend.valid.2
        (le_antisymm (h0 ▸ hle) hpend.valid.1.empty_le)⟩
      obtain ⟨e'', hok, -, hs, hi, -, md, f, hch⟩ := hpend.commit hk hcv hle
      obtain rfl := Except.ok.inj (hok.symm.trans hr)
      exact ih.changed hch hs hi
    | aborted =>
      obtain ⟨e'', hok, -, hs, hi, -, md, f, hch⟩ := hpend.abort hk c
      obtain rfl := Except.ok.inj (hok.symm.trans hr)
      exact ih.changed hch hs hi

/-- **The life of an intent** over committed versions of separated keys. It is written, above all
versions of the key, and pushed any number of times. If it is aborted, all reads of the key return
what they returned before it; if it is committed, not below where it is, they return what they would
after a plain write at the commit timestamp. In between, readers below it see what was there before,
and at it and above it they meet it; and resolving for another transaction changes nothing. -/
theorem intent_lifecycle (hK : Separated K) (h : Committed K e) (hk : k ∈ K) (hts : Valid ts)
    (htop : ∀ u, Valid u → (version e k u).isSome = true → u < ts) (ht : t.isZero = false)
    (value : Option Bytes) {pushes : List (TxnID × Timestamp)} (hpushes : ∀ p ∈ pushes, Valid p.2) :
    ∃ e₀ e₁, mvccWrite e k ts value (some t) = .ok e₀ ∧ pushAll k e₀ pushes = .ok e₁ ∧
      intentOf e₁ k = some (t, pushedTo t ts pushes) ∧
      (∀ c, ∃ e', mvccResolveWriteIntent e₁ k t .aborted c = .ok e' ∧
        ∀ T opts, T.Nonneg → mvccGet e' k T opts = mvccGet e k T opts) ∧
      (∀ c, c.Nonneg → pushedTo t ts pushes ≤ c → ∃ e' e'',
        mvccResolveWriteIntent e₁ k t .committed c = .ok e' ∧ mvccWrite e k c value none = .ok e'' ∧
        ∀ T opts, T.Nonneg → mvccGet e' k T opts = mvccGet e'' k T opts) ∧
      (∀ T r, T.Nonneg → r ≠ some t → T < pushedTo t ts pushes →
        mvccGet e₁ k T { txn := r } = mvccGet e k T { txn := r }) ∧
      (∀ T opts, T.Nonneg → opts.txn ≠ some t → pushedTo t ts pushes ≤ T →
        mvccGet e₁ k T opts = .error (.writeIntent k t (pushedTo t ts pushes))) ∧
      ∀ t' status c, t' ≠ t → mvccResolveWriteIntent e₁ k t' status c = .ok e₁ := by
  have hall := h.allCommitted hK
  have hs := hall.summary k hk
  have hi := hall.free k hk
  have hlt : ∀ m, metaOf e k = some m → m.timestamp < ts := by
    intro m hm
    obtain ⟨raw, hraw⟩ := hs.stored hm
    exact htop _ (hs.valid hm) (by rw [hraw]; rfl)
  obtain ⟨e₀, hok₀, hpend₀⟩ := hs.pending_write hall.proper hk hi hts ht hlt value
  obtain ⟨e₁, hok₁, hpend⟩ := hpend₀.pushAll hk hpushes
  refine ⟨e₀, e₁, hok₀, hok₁, hpend.intent, fun c ↦ ?_, fun c hc hle ↦ ?_, fun T r hT hr hlt ↦ ?_,
    fun T opts hT hr hle ↦ hpend.get_above hk hT hle hr, fun t' status c hne ↦ ?_⟩
  · obtain ⟨e', hok, hp', hs', hi', hver, -⟩ := hpend.abort hk c
    exact ⟨e', hok, fun T opts hT ↦ hs.get_congr hs' hall.proper hp' hk hi hi' hver hT opts⟩
  · have hcv : Valid c := ⟨hc, fun h0 ↦ hpend.valid.2
      (le_antisymm (h0 ▸ hle) hpend.valid.1.empty_le)⟩
    obtain ⟨e', hok, hp', hs', hi', hver, -⟩ := hpend.commit hk hcv hle
    have hltc : ∀ m, metaOf e k = some m → m.timestamp < c := by
      intro m hm
      obtain ⟨raw, hraw⟩ := hs.stored hm
      exact (hpend.older _ raw (hs.valid hm) hraw).trans_le hle
    obtain ⟨e'', m, hok'', hch, hs'', hi''⟩ := hall.write hk hcv hltc value
    refine ⟨e', e'', hok, hok'', fun T opts hT ↦ ?_⟩
    refine hs''.get_congr hs' hch.proper hp' hk hi'' hi' (fun u hu ↦ ?_) hT opts
    rw [hver u hu, hch.version u hu]
  · exact hpend.get_below hs hall.proper hk hi hT hlt hr
  · refine hpend.proper.resolve_other hk (fun its hi' ↦ ?_) status
    exact hne (Prod.mk.inj (mem_unique hi' hpend.intent)).1

end Lifecycle

/-- A value at 10 and the intent of a deletion at 20, which is pushed to 40; the push for another
transaction has no effect. -/
theorem intent_lifecycle_pushed : ∃ e e₀ e₁, Committed {k : Bytes | k.length = 1} e ∧
    mvccWrite e [0x6b] ⟨20, 0⟩ none (some (txnId 1)) = .ok e₀ ∧
    pushAll [0x6b] e₀ [(txnId 1, ⟨40, 0⟩), (txnId 2, ⟨90, 0⟩)] = .ok e₁ ∧
    intentOf e₁ [0x6b] = some (txnId 1, ⟨40, 0⟩) ∧
    mvccGet e₁ [0x6b] ⟨30, 0⟩ {} = mvccGet e [0x6b] ⟨30, 0⟩ {} ∧
    ∃ e', mvccResolveWriteIntent e₁ [0x6b] (txnId 1) .aborted {} = .ok e' ∧
      ∀ T opts, T.Nonneg → mvccGet e' [0x6b] T opts = mvccGet e [0x6b] T opts := by
  have hK := separated_length 1
  have h10 : Valid ⟨10, 0⟩ := by decide
  obtain ⟨e, m, hok, hch, -⟩ := (Committed.empty.allCommitted hK).write (k := [0x6b]) rfl h10
    (fun m hm ↦ absurd hm (by simp [metaOf])) (some [1])
  have hcom : Committed {k : Bytes | k.length = 1} e := Committed.empty.write rfl h10 hok
  have htop : ∀ u, Valid u → (version e [0x6b] u).isSome = true → u < ⟨20, 0⟩ := by
    intro u hu hsome
    rw [hch.version u hu, update_apply] at hsome
    split at hsome
    · rename_i h10
      rw [h10]
      decide
    · exact absurd hsome (by simp [version])
  have hts : Valid ⟨20, 0⟩ := by decide
  have hpushes : ∀ p ∈ [(txnId 1, (⟨40, 0⟩ : Timestamp)), (txnId 2, ⟨90, 0⟩)], Valid p.2 := by
    decide
  obtain ⟨e₀, e₁, hw, hp, hi, habort, -, hbelow, -⟩ := intent_lifecycle (t := txnId 1)
    hK hcom rfl hts htop (by decide) none hpushes
  have hcur : pushedTo (txnId 1) ⟨20, 0⟩ [(txnId 1, ⟨40, 0⟩), (txnId 2, ⟨90, 0⟩)] = ⟨40, 0⟩ := by
    decide +kernel
  rw [hcur] at hi hbelow
  exact ⟨e, e₀, e₁, hcom, hw, hp, hi, hbelow ⟨30, 0⟩ none (by decide) (by simp) (by decide),
    habort {}⟩

/-- A negative logical component is encoded above all others, so the intent of a pending transaction
at `(20, 0)` is what a reader at `(20, -1)`, below it, is served. -/
theorem exists_pending_read : ∃ e₀,
    mvccWrite SortedMap.empty [0x6b] ⟨20, 0⟩ (some [1]) (some (txnId 1)) = .ok e₀ ∧
    (⟨20, -1⟩ : Timestamp) < ⟨20, 0⟩ ∧
    mvccGet SortedMap.empty [0x6b] ⟨20, -1⟩ {} = .error .keyNotFound ∧
    mvccGet e₀ [0x6b] ⟨20, -1⟩ {} = .ok [1] :=
  ⟨_, rfl, by decide, rfl, by decide +kernel⟩

end DucklingDB.Mvcc
