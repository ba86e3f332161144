import DucklingDB.Kv.Coordinator
import DucklingDB.Mvcc.Intent
import DucklingDB.Transaction.Atomicity

/-!
# The engine as cells and records

An engine whose user keys are kept apart from each other and from the record keys (`UserKeys`) is
read as a family of cells and a family of transaction records (`Represents`). Each operation of the
multi-version store on a user key is then the operation of the same purpose on its cell, and leaves
the other cells and all records alone; writing a record leaves the cells alone.
-/

namespace DucklingDB.Txn

open Hlc Mvcc DucklingDB.Transaction Option List SortedMap
open Function (update update_apply update_of_ne update_self)

/-! ## Keys -/

/-- The user keys and the record keys. -/
def keyspace (U : Set Bytes) : Set Bytes := U ∪ Set.range txnRecordKey

/-- Keys that collide neither with each other nor with the record keys. -/
structure UserKeys (U : Set Bytes) : Prop where
  separated : Separated (keyspace U)
  ne_txnRecordKey : ∀ {k}, k ∈ U → ∀ id, txnRecordKey id ≠ k

section Keys

variable {U : Set Bytes} {k : Bytes}

theorem length_txnRecordKey (id : TxnID) : (txnRecordKey id).length = 21 := by
  simp [txnRecordKey, txnRecordPrefix]

theorem txnRecordKey_injective : Function.Injective txnRecordKey := by
  intro id id' h
  exact Vector.toList_inj.mp (append_cancel_left h)

/-- Separated keys that do not start with `0x00`, as the namespace of the system does. -/
theorem Separated.userKeys (hU : Separated U) (hstart : ∀ k ∈ U, ∃ b rest, k = b :: rest ∧ b ≠ 0) :
    UserKeys U := by
  constructor
  · rintro k (hk | ⟨id, rfl⟩) k' (hk' | ⟨id', rfl⟩) hpre
    · exact hU k hk k' hk' hpre
    · obtain ⟨b, rest, rfl, hb⟩ := hstart k hk
      exact hb (cons_prefix_cons.mp hpre).1
    · obtain ⟨b, rest, rfl, hb⟩ := hstart k' hk'
      exact hb (cons_prefix_cons.mp hpre).1.symm
    · have hle := hpre.length_le
      rw [length_append, length_txnRecordKey, length_txnRecordKey] at hle
      exact absurd hle (by decide)
  · intro k hk id h
    obtain ⟨b, rest, rfl, hb⟩ := hstart k hk
    exact hb (List.cons.inj h).1.symm

theorem mem_keyspace (hk : k ∈ U) : k ∈ keyspace U := .inl hk

theorem txnRecordKey_mem (U : Set Bytes) (id : TxnID) : txnRecordKey id ∈ keyspace U :=
  .inr ⟨id, rfl⟩

end Keys

/-! ## Records -/

variable [MetadataCodec] [RecordCodec]

/-- The stored form of the record of `id`. -/
def recordData (e : Engine) (id : TxnID) : Option Bytes :=
  (metaOf e (txnRecordKey id)).bind (·.inlineValue)

/-- The record of `id`. -/
def recordOf (e : Engine) (id : TxnID) : Option Transaction :=
  (recordData e id).bind RecordCodec.unmarshal

/-- The cells of the store that a user sees. -/
abbrev Cells := Bytes → Cell TxnID Timestamp Bytes

/-- The engine holds these cells, and records that can be decoded. -/
structure Represents (U : Set Bytes) (e : Engine) (cells : Cells) : Prop where
  keys : UserKeys U
  proper : Proper (keyspace U) e
  indexed : ∀ k ∈ U, Indexed e k
  intent : ∀ k ∈ U, intentOf e k = (cells k).intent
  stamp : ∀ k ∈ U, (metaOf e k).map (·.timestamp) = (cells k).stamp
  version : ∀ k ∈ U, ∀ ts, Valid ts → version e k ts = ((cells k).versions ts).map encodeWrite
  valid : ∀ {k ts w}, (cells k).versions ts = some w → Valid ts
  record : ∀ {id data}, recordData e id = some data → ∃ t, RecordCodec.unmarshal data = some t

section Represents

variable {U : Set Bytes} {e e' : Engine} {cells : Cells} {k : Bytes} {t : TxnID} {ts : Timestamp}
  {md : Option MVCCMetadata} {f : Timestamp → Option Bytes} {c : Cell TxnID Timestamp Bytes}

theorem represents_empty (hU : UserKeys U) : Represents U empty fun _ ↦ {} := by
  refine ⟨hU, proper_empty hU.separated, fun k _ ↦ ?_, fun k _ ↦ rfl, fun k _ ↦ rfl,
    fun k _ ts _ ↦ rfl, by simp, fun h ↦ absurd h (by simp [recordData, metaOf])⟩
  have hnone : metaOf (empty : Engine) k = none := rfl
  constructor <;> intro m hm <;> cases hnone.symm.trans hm

omit [RecordCodec] in
theorem recordData_of_changed (hU : UserKeys U) (hk : k ∈ U)
    (hch : Changed (keyspace U) e e' k md f) (id : TxnID) : recordData e' id = recordData e id := by
  rw [recordData, hch.metaOf_ne _ (txnRecordKey_mem U id) (hU.ne_txnRecordKey hk id), recordData]

section

variable (h : Represents U e cells)
include h

section

variable (hk : k ∈ U)
include hk

/-- The cell of a user key is changed. -/
theorem Represents.change (hch : Changed (keyspace U) e e' k md f) (hx : Indexed e' k)
    (hi : intentOf e' k = c.intent) (hst : md.map (·.timestamp) = c.stamp)
    (hf : ∀ ts, Valid ts → f ts = (c.versions ts).map encodeWrite)
    (hv : ∀ {ts w}, c.versions ts = some w → Valid ts) : Represents U e' (update cells k c) := by
  refine ⟨h.keys, hch.proper, fun k' hk' ↦ ?_, fun k' hk' ↦ ?_, fun k' hk' ↦ ?_,
    fun k' hk' ts hts ↦ ?_, fun {k' ts w} hw ↦ ?_, fun {i data} hd ↦ ?_⟩
  · by_cases heq : k' = k
    · exact heq ▸ hx
    · exact hch.indexed_ne (mem_keyspace hk') heq (h.indexed k' hk')
  · by_cases heq : k' = k
    · subst heq
      rw [update_self, hi]
    · rw [update_of_ne heq, hch.intentOf_ne (mem_keyspace hk') heq, h.intent k' hk']
  · by_cases heq : k' = k
    · subst heq
      rw [update_self, hch.md, hst]
    · rw [update_of_ne heq, hch.metaOf_ne k' (mem_keyspace hk') heq, h.stamp k' hk']
  · by_cases heq : k' = k
    · subst heq
      rw [update_self, hch.version ts hts, hf ts hts]
    · rw [update_of_ne heq, hch.version_ne k' (mem_keyspace hk') heq ts hts,
        h.version k' hk' ts hts]
  · by_cases heq : k' = k
    · subst heq
      rw [update_self] at hw
      exact hv hw
    · rw [update_of_ne heq] at hw
      exact h.valid hw
  · rw [recordData_of_changed h.keys hk hch] at hd
    exact h.record hd

/-! ## Cells -/

theorem Represents.valid_intent (hi : (cells k).intent = some (t, ts)) : Valid ts :=
  ((h.indexed k hk).intent_spec ((h.intent k hk).trans hi)).1

theorem Represents.version_eq_some {raw : Bytes} (hts : Valid ts)
    (hraw : Mvcc.version e k ts = some raw) :
    ∃ w, (cells k).versions ts = some w ∧ encodeWrite w = raw := by
  rw [h.version k hk ts hts] at hraw
  exact map_eq_some_iff.mp hraw

theorem Represents.version_of {w : Option Bytes} (hw : (cells k).versions ts = some w) :
    Mvcc.version e k ts = some (encodeWrite w) := by
  rw [h.version k hk ts (h.valid hw), hw, map_some]

theorem Represents.of_stamp (hs : (cells k).stamp = some ts) :
    ∃ m, metaOf e k = some m ∧ m.timestamp = ts :=
  map_eq_some_iff.mp ((h.stamp k hk).trans hs)

theorem Represents.stamp_of_meta {m : MVCCMetadata} (hm : metaOf e k = some m) :
    (cells k).stamp = some m.timestamp := by
  rw [← h.stamp k hk, hm, map_some]

theorem Represents.valid_stamp (hs : (cells k).stamp = some ts) : Valid ts := by
  obtain ⟨m, hm, rfl⟩ := h.of_stamp hk hs
  exact (h.indexed k hk).valid hm

end

end

variable {g' : Timestamp → Option (Option Bytes)} {g : Timestamp → Option Bytes}

section

omit [MetadataCodec] [RecordCodec]

theorem map_update
    (h : ∀ u, Valid u → g u = (g' u).map encodeWrite) (ts : Timestamp) (w : Option (Option Bytes))
    {u : Timestamp} (hu : Valid u) :
    update g ts (w.map encodeWrite) u = (update g' ts w u).map encodeWrite := by
  rw [update_apply, update_apply]
  split
  · rfl
  · exact h u hu

theorem map_relocate
    (h : ∀ u, Valid u → g u = (g' u).map encodeWrite) {old : Timestamp} (ho : Valid old)
    (new : Timestamp) {u : Timestamp} (hu : Valid u) :
    relocate g old new u = (relocate g' old new u).map encodeWrite := by
  rw [relocate, relocate]
  split
  · exact h old ho
  · split
    · rfl
    · exact h u hu

end

section

variable (h : Represents U e cells)
include h

section

variable (hk : k ∈ U)
include hk

/-- When a cell admits a write. -/
theorem Represents.admits_iff : (cells k).Admits t ts ↔
    intentOf e k = none ∧ (∀ m, metaOf e k = some m → m.timestamp < ts) ∨
      ∃ its, intentOf e k = some (t, its) := by
  rw [h.intent k hk, Cell.Admits]
  refine or_congr_left (and_congr_right fun _ ↦ ⟨fun hlt m hm ↦ hlt _ (h.stamp_of_meta hk hm), ?_⟩)
  intro hlt u hu
  obtain ⟨m, hm, rfl⟩ := h.of_stamp hk hu
  exact hlt m hm

/-- **Writing** lays an intent. -/
theorem Represents.write (ht : t.isZero = false) (hts : Valid ts) (value : Option Bytes)
    (hc : (cells k).Admits t ts) :
    ∃ e', mvccWrite e k ts value (some t) = .ok e' ∧
      Represents U e' (update cells k ((cells k).lay t ts value)) ∧
      ∀ id, recordData e' id = recordData e id := by
  obtain ⟨e', m', hok, hch, hx', hi', hst⟩ :=
    h.proper.write_intent (h.indexed k hk) (mem_keyspace hk) hts value ht ((h.admits_iff hk).mp hc)
  refine ⟨e', hok, h.change hk hch hx' hi' (congrArg some hst) (fun u hu ↦ ?_) fun {u w} hw ↦ ?_,
    recordData_of_changed h.keys hk hch⟩
  · exact map_update (h.version k hk) ts (some value) hu
  · by_cases heq : u = ts
    · exact heq ▸ hts
    · rw [lay_of_ne heq] at hw
      exact h.valid hw

theorem Represents.write_foreign (hts : Valid ts) (value : Option Bytes) {owner : TxnID}
    {its : Timestamp} (hi : (cells k).intent = some (owner, its)) (hne : owner ≠ t) :
    mvccWrite e k ts value (some t) = .error (.writeIntent k owner its) :=
  h.proper.write_foreign (h.indexed k hk) (mem_keyspace hk) hts ((h.intent k hk).trans hi)
    fun heq ↦ hne (Option.some.inj heq).symm

theorem Represents.write_tooOld (hts : Valid ts) (value : Option Bytes) (t : TxnID)
    (hi : (cells k).intent = none) {u : Timestamp} (hu : (cells k).stamp = some u) (hle : ts ≤ u) :
    mvccWrite e k ts value (some t) = .error (.writeTooOld k ts u) := by
  obtain ⟨m, hm, rfl⟩ := h.of_stamp hk hu
  exact h.proper.write_tooOld (h.indexed k hk) (mem_keyspace hk) hts hm ((h.intent k hk).trans hi)
    hle

/-- **Aborting** drops an intent. -/
theorem Represents.resolve_abort (hi : (cells k).intent = some (t, ts)) (c : Timestamp) :
    ∃ e' prev, mvccResolveWriteIntent e k t .aborted c = .ok e' ∧
      Previous (cells k).versions ts prev ∧ Represents U e' (update cells k ((cells k).drop prev)) ∧
      ∀ id, recordData e' id = recordData e id := by
  obtain ⟨e', md, hok, hch, hx', hi', hprev⟩ := h.proper.resolve_abort (h.indexed k hk)
    (mem_keyspace hk) ((h.intent k hk).trans hi) c
  refine ⟨e', md.map (·.timestamp), hok, ?_, ?_, recordData_of_changed h.keys hk hch⟩
  · rcases hprev with ⟨u, raw, m', hnew, rfl, rfl, -⟩ | ⟨hnone, rfl⟩
    · obtain ⟨w, hw, -⟩ := h.version_eq_some hk hnew.valid hnew.holds
      exact .inl ⟨_, w, rfl, hnew.sat, hw, fun u' w' hlt hw' ↦
        hnew.le (h.valid hw') (h.version_of hk hw') hlt⟩
    · refine .inr ⟨rfl, fun u hlt ↦ ?_⟩
      by_contra hne
      obtain ⟨w, hw⟩ := ne_none_iff_exists'.mp hne
      exact absurd ((hnone u (h.valid hw) hlt).symm.trans (h.version_of hk hw)) (by simp)
  rw [drop_eq hi]
  refine h.change hk hch hx' hi' rfl (fun u hu ↦ ?_) fun {u w} hw ↦ ?_
  · exact map_update (h.version k hk) ts none hu
  · exact h.valid (update_none_eq_some.mp hw).2

/-- **Committing** settles an intent. -/
theorem Represents.resolve_commit (hi : (cells k).intent = some (t, ts)) {c : Timestamp}
    (hc : Valid c) :
    ∃ e', mvccResolveWriteIntent e k t .committed c = .ok e' ∧
      Represents U e' (update cells k ((cells k).settle c)) ∧
      ∀ id, recordData e' id = recordData e id := by
  obtain ⟨e', m', hok, hch, hx', hi', hst, -⟩ := h.proper.resolve_commit (h.indexed k hk)
    (mem_keyspace hk) ((h.intent k hk).trans hi) hc
  rw [settle_eq hi]
  refine ⟨e', hok, h.change hk hch hx' hi' (congrArg some hst) (fun u hu ↦ ?_) fun {u w} hw ↦ ?_,
    recordData_of_changed h.keys hk hch⟩
  · exact map_relocate (h.version k hk) (h.valid_intent hk hi) c hu
  · obtain ⟨rfl, -⟩ | ⟨-, -, hw⟩ := relocate_eq_some.mp hw
    · exact hc
    · exact h.valid hw

theorem Represents.resolve_other (hno : (cells k).owner ≠ some t) (status : Mvcc.TxnStatus)
    (c : Timestamp) : mvccResolveWriteIntent e k t status c = .ok e := by
  refine h.proper.resolve_other (mem_keyspace hk) (fun ts hi ↦ hno ?_) status
  rw [h.intent k hk] at hi
  exact owner_eq_some.mpr ⟨ts, hi⟩

/-- **Pushing** moves an intent up. -/
theorem Represents.push (hi : (cells k).intent = some (t, ts)) {w : Timestamp} (hw : Valid w)
    (hlt : ts < w) :
    ∃ e', mvccPushIntent e k t w = .ok e' ∧ Represents U e' (update cells k ((cells k).push w)) ∧
      ∀ id, recordData e' id = recordData e id := by
  obtain ⟨e', m', hok, hch, hx', hi', hst, -⟩ := h.proper.push (h.indexed k hk) (mem_keyspace hk)
    ((h.intent k hk).trans hi) hw hlt
  rw [push_eq hi]
  refine ⟨e', hok, h.change hk hch hx' hi' (congrArg some hst) (fun u hu ↦ ?_) fun {u w'} hw' ↦ ?_,
    recordData_of_changed h.keys hk hch⟩
  · exact map_relocate (h.version k hk) (h.valid_intent hk hi) w hu
  · obtain ⟨rfl, -⟩ | ⟨-, -, hw'⟩ := relocate_eq_some.mp hw'
    · exact hw
    · exact h.valid hw'

/-- **Reading** meets an intent of another transaction, or is uncertain because the stamp lies above
and the reader has no intent, or returns what the cell shows. -/
theorem Represents.get (hts : Valid ts) (opts : ReadOptions) :
    (∃ owner its, (cells k).intent = some (owner, its) ∧ opts.txn ≠ some owner ∧ its ≤ ts ∧
      mvccGet e k ts opts = .error (.writeIntent k owner its)) ∨
    (∃ u, (cells k).stamp = some u ∧ ts < u ∧
      (∀ t its, (cells k).intent = some (t, its) → opts.txn ≠ some t) ∧
      mvccGet e k ts opts = .error (.uncertainty k ts opts.maxTimestamp u)) ∨
    ∃ r, (cells k).Shows opts.txn ts r ∧
      mvccGet e k ts opts = r.elim (.error .keyNotFound) .ok := by
  have hcases := h.proper.get_cases (mem_keyspace hk) hts opts
  rw [h.intent k hk] at hcases
  rcases hcases with ⟨t, its, hi, hrest⟩ | ⟨hclear, hres⟩
  · exact .inl ⟨t, its, hi, hrest⟩
  rcases hres with ⟨m, hm, ⟨hlt, -⟩, hown, hget⟩ | ⟨hm, hget⟩ | ⟨hm, hres⟩
  · exact .inr (.inl ⟨_, h.stamp_of_meta hk hm, hlt, hown, hget⟩)
  · have hst : (cells k).stamp = none := by rw [← h.stamp k hk, hm, map_none]
    exact .inr (.inr ⟨none, ⟨hclear, .inl ⟨hst, rfl⟩⟩, hget⟩)
  · have hst : (cells k).stamp ≠ none := by
      rw [← h.stamp k hk, ne_eq, map_eq_none_iff]
      exact hm
    rcases hres with ⟨u, raw, hnew, hget⟩ | ⟨hnone, hget⟩
    · obtain ⟨w, hw, rfl⟩ := h.version_eq_some hk hnew.valid hnew.holds
      rw [decode_encodeWrite] at hget
      refine .inr (.inr ⟨w, ⟨hclear, .inr ⟨hst, .inl ⟨u, hnew.sat, hw, ?_⟩⟩⟩, hget⟩)
      exact fun u' v hle hv ↦ hnew.le (h.valid hv) (h.version_of hk hv) hle
    · refine .inr (.inr ⟨none, ⟨hclear, .inr ⟨hst, .inr ⟨fun u hle ↦ ?_, rfl⟩⟩⟩, hget⟩)
      by_contra hne
      obtain ⟨w, hw⟩ := ne_none_iff_exists'.mp hne
      exact absurd ((hnone u (h.valid hw) hle).symm.trans (h.version_of hk hw)) (by simp)

/-- A read at the zero timestamp is for values that are stored inline. -/
theorem Represents.get_empty (opts : ReadOptions) : mvccGet e k {} opts = .error .keyNotFound := by
  have hempty : (({} : Timestamp)).isEmpty = true := rfl
  rw [mvccGet, h.proper.loadMeta (mem_keyspace hk)]
  cases hm : metaOf e k with
  | none => rfl
  | some m => simp only [hempty, if_true, (h.indexed k hk).inline hm]

end

/-! ## Records -/

theorem Represents.loadTxnRecord (id : TxnID) : Txn.loadTxnRecord e id = .ok (recordOf e id) := by
  have hload := h.proper.loadMeta (txnRecordKey_mem U id)
  have hempty : (({} : Timestamp)).isEmpty = true := rfl
  rw [Txn.loadTxnRecord, mvccGet, hload]
  cases hm : metaOf e (txnRecordKey id) with
  | none =>
    have hd : recordData e id = none := by rw [recordData, hm, bind_none]
    simp only [recordOf, hd, bind_none]
  | some m =>
    simp only [hempty, if_true]
    cases hinl : m.inlineValue with
    | none =>
      have hd : recordData e id = none := by rw [recordData, hm, bind_some, hinl]
      simp only [recordOf, hd, bind_none]
    | some data =>
      have hd : recordData e id = some data := by rw [recordData, hm, bind_some, hinl]
      obtain ⟨t, ht⟩ := h.record hd
      simp only [recordOf, hd, bind_some, ht]

theorem Represents.putTxnRecord (t : Transaction) :
    ∃ e', Txn.putTxnRecord e t = .ok e' ∧ Represents U e' cells ∧
      recordOf e' t.id = some t ∧ ∀ id, id ≠ t.id → recordOf e' id = recordOf e id := by
  have hK := txnRecordKey_mem U t.id
  have hload := h.proper.loadMeta hK
  have hempty : (({} : Timestamp)).isEmpty = true := rfl
  let md : MVCCMetadata := { (metaOf e (txnRecordKey t.id)).getD {} with
    inlineValue := some (RecordCodec.marshal t)
    keyBytes := (txnRecordKey t.id).length, valBytes := (RecordCodec.marshal t).length }
  have hmd : md.omitEmpty = md := by
    have hne : (RecordCodec.marshal t).isEmpty = false := by
      simpa using RecordCodec.marshal_ne_nil t
    simp [md, MVCCMetadata.omitEmpty, hne]
  have hch := h.proper.changed_putMeta hK hmd
  have hself : recordData (putMeta e (txnRecordKey t.id) md) t.id =
      some (RecordCodec.marshal t) := by
    rw [recordData, hch.md]
    rfl
  have hother : ∀ id, id ≠ t.id →
      recordData (putMeta e (txnRecordKey t.id) md) id = recordData e id := by
    intro id hne
    rw [recordData, hch.metaOf_ne _ (txnRecordKey_mem U id) fun heq ↦
      hne (txnRecordKey_injective heq), recordData]
  have hne : ∀ {k}, k ∈ U → k ≠ txnRecordKey t.id := fun hk ↦ (h.keys.ne_txnRecordKey hk t.id).symm
  refine ⟨putMeta e (txnRecordKey t.id) md, ?_, ?_, ?_, fun id hid ↦ ?_⟩
  · simp only [Txn.putTxnRecord, mvccPut, hload, hempty, if_true]
    rfl
  · refine ⟨h.keys, hch.proper,
      fun k hk ↦ hch.indexed_ne (mem_keyspace hk) (hne hk) (h.indexed k hk),
      fun k hk ↦ ?_, fun k hk ↦ ?_, fun k hk ts hts ↦ ?_, h.valid, fun {id data} hd ↦ ?_⟩
    · rw [hch.intentOf_ne (mem_keyspace hk) (hne hk), h.intent k hk]
    · rw [hch.metaOf_ne k (mem_keyspace hk) (hne hk), h.stamp k hk]
    · rw [hch.version_ne k (mem_keyspace hk) (hne hk) ts hts, h.version k hk ts hts]
    · by_cases heq : id = t.id
      · subst heq
        rw [hself] at hd
        cases hd
        exact ⟨t, RecordCodec.unmarshal_marshal t⟩
      · rw [hother id heq] at hd
        exact h.record hd
  · rw [recordOf, hself, bind_some, RecordCodec.unmarshal_marshal]
  · rw [recordOf, hother id hid, recordOf]

end

end Represents

end DucklingDB.Txn
