import DucklingDB.Mvcc.Summary

/-!
# A multi-version map

Without transactions the store is a multi-version map: a write succeeds if its timestamp is above
those of the successful writes of its key before it, and otherwise changes nothing; a read returns
what the newest successful write at or below its timestamp says. The abstract map is the list of the
successful writes (`accept`).
-/

namespace DucklingDB.Mvcc

open Hlc List Function

/-- A write outside of transactions; no value means a deletion. -/
structure Write where
  key : Bytes
  timestamp : Timestamp
  value : Option Bytes
  deriving DecidableEq

variable (done : List Write)

/-- The multi-version map `done` takes the write `w`. -/
def Accepts (w : Write) : Prop :=
  ∀ w' ∈ done, w'.key = w.key → w'.timestamp < w.timestamp

instance (done : List Write) (w : Write) : Decidable (Accepts done w) :=
  List.decidableBAll _ done

/-- A write of the multi-version map. -/
def accept (w : Write) : List Write :=
  if Accepts done w then done ++ [w] else done

/-- What the multi-version map `done` returns for `k` at `ts`. -/
def Returns (k : Bytes) (ts : Timestamp) (r : Except MVCCError Bytes) : Prop :=
  (∃ w ∈ done, w.key = k ∧ w.timestamp ≤ ts ∧
    (∀ w' ∈ done, w'.key = k → w'.timestamp ≤ ts → w'.timestamp ≤ w.timestamp) ∧
    r = w.value.elim (.error .keyNotFound) .ok) ∨
  (∀ w ∈ done, w.key = k → ts < w.timestamp) ∧ r = .error .keyNotFound

section Journal

variable [MetadataCodec]

/-- `MVCCPut` or `MVCCDelete` with no transaction. -/
def Write.apply (w : Write) (e : Engine) : Except MVCCError Engine :=
  mvccWrite e w.key w.timestamp w.value none

/-- The engine, and the writes that have succeeded. -/
structure Journal where
  engine : Engine := SortedMap.empty
  done : List Write := []

def Journal.step (s : Journal) (w : Write) : Journal :=
  match w.apply s.engine with
  | .ok e => ⟨e, s.done ++ [w]⟩
  | .error _ => s

/-- A history of writes. -/
def Journal.run (ws : List Write) : Journal := ws.foldl Journal.step {}

/-- The engine holds the successful writes. -/
structure Journal.Inv (K : Set Bytes) (s : Journal) : Prop where
  proper : Proper K s.engine
  summary : ∀ k ∈ K, Summary s.engine k
  free : ∀ k ∈ K, intentOf s.engine k = none
  done : ∀ w ∈ s.done, w.key ∈ K ∧ Valid w.timestamp
  version : ∀ {k ts raw}, k ∈ K → Valid ts →
    (version s.engine k ts = some raw ↔ ∃ v, ⟨k, ts, v⟩ ∈ s.done ∧ encodeWrite v = raw)

variable {K : Set Bytes} {s : Journal} {w : Write} {k : Bytes} {ts : Timestamp}

theorem Journal.inv_init (hK : Separated K) : Journal.Inv K {} where
  proper := proper_empty hK
  summary k _ := summary_empty k
  free _ _ := by simp [intentOf, metaOf]
  done _ h := by cases h
  version _ _ := by simp [Mvcc.version]

section

variable (h : s.Inv K)
include h

theorem Journal.Inv.stored (hw : w ∈ s.done) :
    Mvcc.version s.engine w.key w.timestamp = some (encodeWrite w.value) :=
  (h.version (h.done w hw).1 (h.done w hw).2).mpr ⟨w.value, hw, rfl⟩

/-- The map takes a write if and only if nothing stands in its way. -/
theorem Journal.Inv.accepts_iff (hk : w.key ∈ K) : Accepts s.done w ↔
    ∀ m, metaOf s.engine w.key = some m → m.timestamp < w.timestamp := by
  constructor
  · intro ha m hm
    obtain ⟨raw, hraw⟩ := (h.summary _ hk).stored hm
    obtain ⟨v, hv, -⟩ := (h.version hk ((h.summary _ hk).valid hm)).mp hraw
    exact ha _ hv rfl
  · intro hlt w' hw' hkey
    have hraw := h.stored hw'
    rw [hkey] at hraw
    exact (h.summary _ hk).older hlt _ _ (h.done w' hw').2 hraw

section

variable (hk : w.key ∈ K) (hts : Valid w.timestamp)
include hk hts

theorem Journal.Inv.apply_ok (ha : Accepts s.done w) :
    ∃ e' m', w.apply s.engine = .ok e' ∧ Changed K s.engine e' w.key (some m')
        (update (Mvcc.version s.engine w.key) w.timestamp (some (encodeWrite w.value))) ∧
      Summary e' w.key ∧ intentOf e' w.key = none := by
  have hlt := (h.accepts_iff hk).mp ha
  refine (h.summary _ hk).write h.proper hk hts w.value (by simp)
    (writeConflict_of_lt (h.free _ hk) hlt) fun u raw hu hraw ↦ ?_
  exact ((h.summary _ hk).older hlt u raw hu hraw).le

theorem Journal.Inv.apply_error (ha : ¬ Accepts s.done w) :
    ∃ u, w.apply s.engine = .error (.writeTooOld w.key w.timestamp u) := by
  rw [h.accepts_iff hk] at ha
  push Not at ha
  obtain ⟨m, hm, hle⟩ := ha
  exact ⟨_, h.proper.write_tooOld (h.summary _ hk).toIndexed hk hts hm (h.free _ hk) hle⟩

/-- **A write of the store is one of the map.** -/
theorem Journal.Inv.step : (s.step w).Inv K ∧ (s.step w).done = accept s.done w := by
  rw [Journal.step, accept]
  by_cases ha : Accepts s.done w
  · obtain ⟨e', m', hok, hch, hsum, hfree⟩ := h.apply_ok hk hts ha
    rw [hok, if_pos ha]
    refine ⟨⟨hch.proper, fun k' hk' ↦ ?_, fun k' hk' ↦ ?_, fun w' hw' ↦ ?_,
      fun {k' ts' raw} hk' hts' ↦ ?_⟩, rfl⟩
    · by_cases heq : k' = w.key
      · exact heq ▸ hsum
      · exact hch.summary_ne hk' heq (h.summary k' hk')
    · by_cases heq : k' = w.key
      · exact heq ▸ hfree
      · exact (hch.intentOf_ne hk' heq).trans (h.free k' hk')
    · rcases mem_append.mp hw' with hw' | hw'
      · exact h.done w' hw'
      · rw [mem_singleton.mp hw']
        exact ⟨hk, hts⟩
    · -- the new version is the write
      have hmem : ∀ v, ⟨k', ts', v⟩ ∈ s.done ++ [w] ↔
          ⟨k', ts', v⟩ ∈ s.done ∨ k' = w.key ∧ ts' = w.timestamp ∧ v = w.value := by
        intro v
        rw [mem_append, mem_singleton, Write.mk.injEq]
      simp only [hmem]
      by_cases heq : k' = w.key
      · subst heq
        rw [hch.version ts' hts', update_apply]
        split
        · rename_i htseq
          subst htseq
          have hno : ∀ v, ⟨w.key, w.timestamp, v⟩ ∉ s.done := by
            intro v hv
            have hlt : w.timestamp < w.timestamp := ha ⟨w.key, w.timestamp, v⟩ hv rfl
            exact lt_irrefl _ hlt
          simp [hno]
        · rename_i htsne
          rw [h.version hk' hts']
          simp [htsne]
      · rw [hch.version_ne k' hk' heq ts' hts', h.version hk' hts']
        simp [heq]
  · obtain ⟨u, herr⟩ := h.apply_error hk hts ha
    rw [herr, if_neg ha]
    exact ⟨h, rfl⟩

end

theorem Journal.Inv.foldl {ws : List Write} (hws : ∀ w ∈ ws, w.key ∈ K ∧ Valid w.timestamp) :
    (ws.foldl Journal.step s).Inv K ∧ (ws.foldl Journal.step s).done = ws.foldl accept s.done := by
  induction ws generalizing s with
  | nil => exact ⟨h, rfl⟩
  | cons w ws ih =>
    obtain ⟨hk, hts⟩ := hws w (.head _)
    obtain ⟨h', hdone⟩ := h.step hk hts
    obtain ⟨h'', hdone'⟩ := ih h' fun w' hw' ↦ hws w' (.tail _ hw')
    exact ⟨h'', by rw [foldl_cons, hdone', hdone, foldl_cons]⟩

/-- **A read of the store is one of the map.** -/
theorem Journal.Inv.returns (hk : k ∈ K) (hts : Valid ts) (txn : Option TxnID) :
    Returns s.done k ts (mvccGet s.engine k ts { txn := txn }) := by
  have hnone : ∀ {t its}, intentOf s.engine k ≠ some (t, its) := by
    intro t its
    rw [h.free k hk]
    simp
  rcases h.proper.get_cases hk hts { txn := txn } with ⟨t, its, hi, -⟩ | ⟨-, hres⟩
  · exact absurd hi hnone
  rcases hres with ⟨m, -, ⟨hlt, hle⟩, -⟩ | ⟨hm, hget⟩ | ⟨-, ⟨u, raw, hnew, hget⟩ | ⟨hno, hget⟩⟩
  · -- there is no uncertainty window
    exact absurd (hts.1.empty_le.trans_lt hlt) (not_lt.mpr hle)
  · refine .inr ⟨fun w hw hkey ↦ ?_, hget⟩
    have hraw := h.stored hw
    rw [hkey, (h.summary k hk).absent hm _ (h.done w hw).2] at hraw
    cases hraw
  · obtain ⟨v, hv, rfl⟩ := (h.version hk hnew.valid).mp hnew.holds
    rw [decode_encodeWrite] at hget
    refine .inl ⟨_, hv, rfl, hnew.sat, fun w' hw' hkey hle ↦ ?_, hget⟩
    exact hnew.le (h.done w' hw').2 (hkey ▸ h.stored hw') hle
  · refine .inr ⟨fun w hw hkey ↦ ?_, hget⟩
    by_contra hle
    have hraw := h.stored hw
    rw [hkey, hno _ (h.done w hw).2 (not_lt.mp hle)] at hraw
    cases hraw

end

/-- **Without transactions the store refines a multi-version map**, over keys none of which starts
with another one followed by the separator. After any history of writes, successful and not, the
successful ones are those that the map takes; a read returns what the map returns; and the next
write succeeds if and only if its timestamp is above those of all earlier successful writes of its
key, and otherwise fails as too old and changes nothing. -/
theorem mvcc_refines_versions (hK : Separated K) {ws : List Write}
    (hws : ∀ w ∈ ws, w.key ∈ K ∧ Valid w.timestamp) :
    (Journal.run ws).done = ws.foldl accept [] ∧
    (∀ k ∈ K, ∀ ts txn, Valid ts →
      Returns (Journal.run ws).done k ts (mvccGet (Journal.run ws).engine k ts { txn := txn })) ∧
    ∀ w : Write, w.key ∈ K → Valid w.timestamp →
      ((∃ e', w.apply (Journal.run ws).engine = .ok e') ↔ Accepts (Journal.run ws).done w) ∧
      ∀ err, w.apply (Journal.run ws).engine = .error err →
        (∃ u, err = .writeTooOld w.key w.timestamp u) ∧
        (Journal.run ws).step w = Journal.run ws := by
  obtain ⟨h, hdone⟩ := (Journal.inv_init hK).foldl hws
  refine ⟨hdone, fun k hk ts txn hts ↦ h.returns hk hts txn, fun w hk hts ↦ ⟨⟨?_, fun ha ↦ ?_⟩, ?_⟩⟩
  · rintro ⟨e', hok⟩
    by_contra ha
    obtain ⟨u, herr⟩ := h.apply_error hk hts ha
    cases hok.symm.trans herr
  · obtain ⟨e', -, hok, -⟩ := h.apply_ok hk hts ha
    exact ⟨e', hok⟩
  · intro err herr
    refine ⟨?_, by rw [Journal.step, herr]⟩
    by_cases ha : Accepts (Journal.run ws).done w
    · obtain ⟨e', -, hok, -⟩ := h.apply_ok hk hts ha
      cases hok.symm.trans herr
    · obtain ⟨u, herr'⟩ := h.apply_error hk hts ha
      exact ⟨u, Except.error.inj (herr.symm.trans herr')⟩

end Journal

/-- A value, a write that is too old, a deletion, and another key. -/
def someWrites : List Write :=
  [⟨[0x61], ⟨10, 0⟩, some [1]⟩, ⟨[0x61], ⟨10, 0⟩, some [2]⟩, ⟨[0x61], ⟨20, 0⟩, none⟩,
    ⟨[0x62], ⟨5, 0⟩, some [3]⟩]

theorem mvcc_refines_versions_someWrites :
    (∀ w ∈ someWrites, w.key ∈ {k : Bytes | k.length = 1} ∧ Valid w.timestamp) ∧
    (Journal.run someWrites).done = someWrites.foldl accept [] ∧
    Returns (Journal.run someWrites).done [0x61] ⟨15, 0⟩
      (mvccGet (Journal.run someWrites).engine [0x61] ⟨15, 0⟩ { txn := none }) := by
  have hws : ∀ w ∈ someWrites, w.key ∈ {k : Bytes | k.length = 1} ∧ Valid w.timestamp := by decide
  obtain ⟨hdone, hget, -⟩ := mvcc_refines_versions (separated_length 1) hws
  exact ⟨hws, hdone, hget [0x61] rfl ⟨15, 0⟩ none (by decide)⟩

end DucklingDB.Mvcc
