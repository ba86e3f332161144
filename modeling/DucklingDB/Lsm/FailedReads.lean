import DucklingDB.Lsm.SkipLevels
import Mathlib.Data.List.GetD

/-!
# Compactions whose reads fail

When `readRecordAt` fails, `Seek` and `loadRecord` leave the iterator of an SSTable as at its end,
and the merge does not move it again. Nothing returns the error: the new file lacks what the
iterator had not shown, and the old files are removed. So the new file is right exactly if what is
missing would not have been written, or is found in another input (`faithful_iff`).
-/

namespace DucklingDB.Lsm

open Overlay SortedMap Compactor Option
open List hiding lookup

/-! ## Records that are lost -/

namespace SSTable

/-- The bisection of `Seek("")`, if the `n`-th read succeeds when `ok n`: where it ends, and after
how many reads. -/
def seekStart (ok : ℕ → Bool) (records : List Record) : ℕ → ℕ → ℕ → ℕ → Option (ℕ × ℕ)
  | 0, left, _, n => some (left, n)
  | fuel + 1, left, right, n =>
    if left < right then
      let mid := left + (right - left) / 2
      if ok n then
        if records[mid]?.any fun r ↦ r.1 < [] then seekStart ok records fuel (mid + 1) right (n + 1)
        else seekStart ok records fuel left mid (n + 1)
      else none
    else some (left, n)

/-- `loadRecord` and each `Next` read one record. -/
def readAhead (ok : ℕ → Bool) : ℕ → List Record → List Record
  | _, [] => []
  | n, r :: rs => if ok n then r :: readAhead ok (n + 1) rs else []

/-- A file with the records that its iterator shows. -/
def readable (ok : ℕ → Bool) (t : SSTable) : SSTable :=
  { t with records := (seekStart ok t.records t.records.length 0 t.records.length 0).elim [] fun x ↦
      readAhead ok x.2 (t.records.drop x.1) }

variable {ok : ℕ → Bool}

theorem readAhead_sublist (n : ℕ) (rs : List Record) : (readAhead ok n rs).Sublist rs := by
  induction rs generalizing n with
  | nil => exact .slnil
  | cons r rs ih =>
    rw [readAhead]
    split
    · exact (ih _).cons_cons r
    · exact nil_sublist _

theorem readable_sublist (t : SSTable) : (t.readable ok).records.Sublist t.records := by
  rw [readable]
  cases seekStart ok t.records t.records.length 0 t.records.length 0 with
  | none => exact nil_sublist _
  | some x => exact (readAhead_sublist _ _).trans (drop_sublist _ _)

theorem exists_seekStart (records : List Record) (fuel left right n : ℕ) :
    ∃ n', seekStart (fun _ ↦ true) records fuel left right n = some (left, n') := by
  induction fuel generalizing right n with
  | zero => exact ⟨n, rfl⟩
  | succ fuel ih =>
    rw [seekStart]
    split
    · -- no key is below the empty one
      simp only [if_true, not_lt_nil, decide_false, any_false, Bool.false_eq_true, if_false]
      exact ih _ _
    · exact ⟨n, rfl⟩

theorem readAhead_true (n : ℕ) (rs : List Record) : readAhead (fun _ ↦ true) n rs = rs := by
  induction rs generalizing n with
  | nil => rfl
  | cons r rs ih => exact congrArg (r :: ·) (ih _)

theorem readable_true (t : SSTable) : t.readable (fun _ ↦ true) = t := by
  obtain ⟨n, hn⟩ := exists_seekStart t.records t.records.length 0 t.records.length 0
  rw [readable, hn, elim_some, readAhead_true, drop_zero]

end SSTable

section Lost

variable (full kept : ℕ → List Record)

/-- A record is lost that no file before it has the key of. -/
def Lost (r : Record) : List ℕ → Prop
  | [] => False
  | id :: ids => r ∈ full id ∧ r ∉ kept id ∨ (∀ r' ∈ full id, r'.1 ≠ r.1) ∧ Lost r ids

variable {full kept} {ids : List ℕ} (hasc : ∀ id ∈ ids, Ascending (full id))
include hasc

theorem Lost.find_eq {r : Record} (h : Lost full kept r ids) :
    find r.1 (ids.map full) = some r.2 := by
  induction ids with
  | nil => exact h.elim
  | cons id ids ih =>
    obtain ⟨hasc, hrest⟩ := forall_mem_cons.mp hasc
    rw [map_cons, find]
    obtain h | h := h
    · rw [lookup_of_mem hasc h.1]
    · rw [lookup_eq_none h.1]
      exact ih hrest h.2

variable (hsub : ∀ id, (kept id).Sublist (full id))
include hsub

theorem exists_lost {k : Bytes} (h : find k (ids.map kept) ≠ find k (ids.map full)) :
    ∃ v, Lost full kept (k, v) ids := by
  induction ids with
  | nil => exact absurd rfl h
  | cons id ids ih =>
    obtain ⟨hasc, hrest⟩ := forall_mem_cons.mp hasc
    by_cases hk : ∃ v, (k, v) ∈ full id
    · obtain ⟨v, hv⟩ := hk
      refine ⟨v, .inl ⟨hv, fun hmem ↦ h ?_⟩⟩
      rw [map_cons, map_cons, find, find, lookup_of_mem hasc hv,
        lookup_of_mem (hasc.sublist (hsub id)) hmem]
    · have hne : ∀ r ∈ full id, r.1 ≠ k := fun r hr heq ↦ hk ⟨r.2, heq ▸ hr⟩
      rw [map_cons, map_cons, find, find, lookup_eq_none hne,
        lookup_eq_none fun r hr ↦ hne r ((hsub id).subset hr)] at h
      obtain ⟨v, hv⟩ := ih hrest h
      exact ⟨v, .inr ⟨hne, hv⟩⟩

/-- What is read for each key is unchanged if it is for the records that are lost. -/
theorem forall_find_iff {α : Type*} (g : Option (Option Bytes) → α) :
    (∀ k, g (find k (ids.map kept)) = g (find k (ids.map full))) ↔
      ∀ r, Lost full kept r ids → g (find r.1 (ids.map kept)) = g (some r.2) := by
  refine ⟨fun h r hr ↦ hr.find_eq hasc ▸ h r.1, fun h k ↦ ?_⟩
  by_contra hne
  obtain ⟨v, hv⟩ := exists_lost hasc hsub fun heq ↦ hne (congrArg g heq)
  exact hne ((hv.find_eq hasc).symm ▸ h _ hv)

end Lost

/-! ## The compaction -/

section

variable [MetaDataCodec] [BloomSizing]

/-- `compactLevelLocked`, if the `n`-th read of file `id` succeeds when `ok id n`. -/
def compactLevelReading (ok : ℕ → ℕ → Bool) (d : Disk) (nextID fromLevel toLevel : ℕ) :
    Option (List Effect × ℕ) :=
  let levels := growLevels d.levels toLevel
  let fromFiles := levels.getD fromLevel []
  let toFiles := levels.getD toLevel []
  if fromFiles = [] then some ([], nextID)
  else
    ((fromFiles ++ toFiles).mapM fun id ↦ (d.openTable id).map (SSTable.readable (ok id))).map
      fun readers ↦
      let records := compactRecords (isBottomLevel levels toLevel) readers
      let levels' := trimTrailingEmptyLevels ((levels.set fromLevel []).set toLevel [nextID])
      (.writeTable nextID (SSTable.ofRecords records) :: d.saveEffect levels' ::
        (fromFiles ++ toFiles).map .removeTable, nextID + 1)

theorem compactLevelReading_true : compactLevelReading (fun _ _ ↦ true) = compactLevel := by
  funext d nextID fromLevel toLevel
  simp only [compactLevelReading, show SSTable.readable (fun _ ↦ true) = id from
    funext SSTable.readable_true, map_id_apply]
  rfl

namespace Disk

variable (d : Disk) (i j : ℕ)

/-- The files of a compaction, the freshest first. -/
def inputs : List ℕ := (growLevels d.levels j).getD i [] ++ (growLevels d.levels j).getD j []

/-- What the new file is to have for a key, given what the inputs have: at the bottom no
tombstone. -/
def written (r : Option (Option Bytes)) : Option (Option Bytes) :=
  if isBottomLevel (growLevels d.levels j) j then r.join.map some else r

/-- The compaction fails, or its new file has what the inputs determine for each key. -/
def Faithful (ok : ℕ → ℕ → Bool) (n : ℕ) : Prop :=
  ∀ es n', compactLevelReading ok d n i j = some (es, n') → ∀ id t, .writeTable id t ∈ es →
    ∀ k, lookup k t.records = d.written j (find k (d.layersOf (d.inputs i j)))

/-- Where a lost record was the freshest of its key, the records that are read give the same. -/
def Covered (ok : ℕ → ℕ → Bool) : Prop :=
  (growLevels d.levels j).getD i [] ≠ [] →
    let kept id := ((d.table id).readable (ok id)).records
    ∀ r, Lost (fun id ↦ (d.table id).records) kept r (d.inputs i j) →
      d.written j (find r.1 ((d.inputs i j).map kept)) = d.written j (some r.2)

variable {d i j}

omit [BloomSizing] in
theorem mem_ids_of_mem_inputs {id : ℕ} (h : id ∈ d.inputs i j) : id ∈ d.ids := by
  have hmem : ∀ m, id ∈ (growLevels d.levels j).getD m [] → id ∈ d.ids := by
    intro m hid
    rw [ids, ← flatten_growLevels d.levels j]
    obtain hm | hm := Nat.lt_or_ge m (growLevels d.levels j).length
    · rw [getD_eq_getElem _ _ hm] at hid
      exact mem_flatten.mpr ⟨_, getElem_mem hm, hid⟩
    · rw [getD_eq_default _ _ hm] at hid
      cases hid
  exact (mem_append.mp h).elim (hmem i) (hmem j)

/-- **Failing reads do no harm exactly if what they lose is covered.** -/
theorem faithful_iff (h : d.Sound) (ok : ℕ → ℕ → Bool) (n : ℕ) :
    d.Faithful i j ok n ↔ d.Covered i j ok := by
  have hpresent := fun id hid ↦ h.present id (mem_ids_of_mem_inputs (i := i) (j := j) hid)
  have hasc : ∀ id ∈ d.inputs i j, Ascending (d.table id).records :=
    fun id hid ↦ (hpresent id hid).wellFormed.ascending
  have hopen : (d.inputs i j).mapM (fun id ↦ (d.openTable id).map (SSTable.readable (ok id))) =
      some ((d.inputs i j).map fun id ↦ (d.table id).readable (ok id)) :=
    mapM_eq_some fun id hid ↦ by
      obtain ⟨t, ht⟩ := (hpresent id hid).complete
      rw [openTable_eq ht, Option.map_some]
  have hlookup : ∀ k, lookup k (compactRecords (isBottomLevel (growLevels d.levels j) j)
      ((d.inputs i j).map fun id ↦ (d.table id).readable (ok id))) =
        d.written j
        (find k ((d.inputs i j).map fun id ↦ ((d.table id).readable (ok id)).records)) := by
    intro k
    rw [lookup_compactRecords_eq, List.map_map, written]
    · rfl
    · exact List.forall_mem_map.mpr fun id hid ↦ (hasc id hid).sublist (SSTable.readable_sublist _)
  by_cases hempty : (growLevels d.levels j).getD i [] = []
  · refine iff_of_true (fun es n' heq id t hmem ↦ ?_) fun hne ↦ absurd hempty hne
    rw [compactLevelReading, if_pos hempty] at heq
    cases heq
    cases hmem
  · have heq : compactLevelReading ok d n i j = some (_, n + 1) :=
      (if_neg hempty).trans (congrArg (Option.map _) hopen)
    refine Iff.trans ⟨fun hf k ↦ ?_, fun hf es n' hes id t hmem k ↦ ?_⟩
      ((forall_find_iff hasc (fun id ↦ SSTable.readable_sublist _) (d.written j)).trans
        ⟨fun h _ ↦ h, fun h ↦ h hempty⟩)
    · exact (hlookup k).symm.trans (hf _ _ heq _ _ (.head _) k)
    · rw [heq] at hes
      cases hes
      obtain hmem | hmem := List.mem_cons.mp hmem
      · cases hmem
        exact (hlookup k).trans (hf k)
      · simp [saveEffect] at hmem

end Disk

end

namespace Disk

/-- All reads fail. -/
theorem faithful_unread : twoLevels.disk.Sound ∧ (twoLevels.disk.Faithful 0 1 (fun _ _ ↦ false) 3 ↔
    twoLevels.disk.Covered 0 1 fun _ _ ↦ false) :=
  ⟨reached_twoLevels.sound.1, faithful_iff reached_twoLevels.sound.1 _ _⟩

/-- The new file is empty, although the inputs have a value for the key. -/
theorem exists_unread : ∃ d : Disk, d.Sound ∧
    d.written 1 (find [1] (d.layersOf (d.inputs 0 1))) = some (some [20]) ∧
    (compactLevelReading (fun _ _ ↦ false) d 3 0 1).map (fun x ↦ x.1.head?) =
      some (some (.writeTable 3 (SSTable.ofRecords []))) :=
  ⟨twoLevels.disk, reached_twoLevels.sound.1, by decide +kernel, by decide +kernel⟩

end Disk

end DucklingDB.Lsm
