import DucklingDB.Lsm.Refinement

/-!
# Compacting past levels

`CompactLevel` merges any level into any deeper one. The records of the upper level are read after
those of the levels between then, although they are newer. So what is read stays the same exactly if
each record that is moved past another one of its key is hidden anyway, or equal to it (`Clear`);
with nothing between, as in `MaybeTriggerCompaction`, that is always so.
-/

namespace DucklingDB.Lsm

open Overlay SortedMap Disk List Nat

theorem join_find_moved_iff (k : Bytes) (above moved passed rest : List (List Record)) :
    (find k (above ++ (passed ++ (moved ++ rest)))).join =
        (find k (above ++ (moved ++ (passed ++ rest)))).join ↔
      ∀ r b, find k above = none → find k moved = some r → find k passed = some b → r = b := by
  simp only [find_append]
  cases find k above <;> cases find k moved <;> cases find k passed <;> simp [eq_comm]

section

variable [MetaDataCodec] [BloomSizing]

/-- What `Get` answers from the files that the metadata lists. -/
def Disk.get (d : Disk) (k : Bytes) : Option Bytes :=
  ((d.reloadLevels.getD []).flatten.findSome? fun t ↦ t.get k).join

/-- A directory and the number of the next file. -/
structure Compactor where
  disk : Disk := {}
  nextID : ℕ := 0

namespace Compactor

def flushMemTable (c : Compactor) (mem : MemTable) : Compactor :=
  ⟨c.disk.applyAll (Lsm.flushMemTable c.disk c.nextID mem), c.nextID + 1⟩

/-- `CompactLevel`; it changes nothing if it fails. -/
def compactLevel (c : Compactor) (fromLevel toLevel : ℕ) : Compactor :=
  match Lsm.compactLevel c.disk c.nextID fromLevel toLevel with
  | none => c
  | some (es, nextID) => ⟨c.disk.applyAll es, nextID⟩

/-- What flushes and compactions make of an empty directory. -/
inductive Reached : Compactor → Prop
  | empty : Reached {}
  | flush {c : Compactor} (h : Reached c) (mem : MemTable) : Reached (c.flushMemTable mem)
  | compact {c : Compactor} (h : Reached c) {i j : ℕ} (hij : i < j) : Reached (c.compactLevel i j)

/-- A record of `fromLevel` that is not hidden by the levels above does not differ from what the
levels before `toLevel` have for its key. -/
def Clear (c : Compactor) (fromLevel toLevel : ℕ) : Prop :=
  let levels := growLevels c.disk.levels toLevel
  ∀ k r b, find k (c.disk.layersOf (levels.take fromLevel).flatten) = none →
    find k (c.disk.layersOf (levels.getD fromLevel [])) = some r →
    find k (c.disk.layersOf ((levels.take toLevel).drop (fromLevel + 1)).flatten) = some b → r = b

end Compactor

namespace Disk

variable {d : Disk} {n : ℕ}

theorem Sound.get_eq (h : d.Sound) (k : Bytes) : d.get k = (find k d.layers).join := by
  have hflat : (d.levels.map (List.map d.table)).flatten = d.ids.map d.table := by
    rw [← map_flatten, ids]
  rw [get, h.reloadLevels, Option.getD_some, hflat, Engine.findSome?_get, map_map]
  · rfl
  · intro t ht
    obtain ⟨id, hid, rfl⟩ := mem_map.mp ht
    exact (h.present id hid).wellFormed

theorem Sound.removeTables (h : d.Sound) {ids : List ℕ} (hids : ∀ i ∈ ids, i ∉ d.ids) :
    (d.applyAll (ids.map .removeTable)).Sound ∧
      (d.applyAll (ids.map .removeTable)).layers = d.layers := by
  induction ids generalizing d with
  | nil => exact ⟨h, rfl⟩
  | cons i ids ih =>
    have hsame := h.same_erase (hids i (.head _))
    obtain ⟨hsound, hlayers⟩ := ih (h.same hsame) fun j hj ↦ by
      rw [hsame.ids]
      exact hids j (.tail _ hj)
    exact ⟨hsound, hlayers.trans hsame.layers⟩

variable {above between below : List (List ℕ)} {fromFiles toFiles : List ℕ}

theorem Sound.replace (h : d.Sound) (hn : d.Fresh n)
    (hids : d.ids = above.flatten ++ (fromFiles ++ (between.flatten ++ (toFiles ++ below.flatten))))
    {rs : List Record} (hrs : Ascending rs) :
    let d' := d.applyAll (.writeTable n (SSTable.ofRecords rs) ::
      d.saveEffect (trimTrailingEmptyLevels (above ++ [] :: (between ++ [n] :: below))) ::
      (fromFiles ++ toFiles).map .removeTable)
    d'.Sound ∧ d'.Fresh (n + 1) ∧ d'.layers = d.layersOf above.flatten ++
      (d.layersOf between.flatten ++ rs :: d.layersOf below.flatten) := by
  have hnot := h.not_mem_ids hn
  have hnodup := h.nodup
  rw [hids] at hnot hnodup
  obtain ⟨hlisted, hgone⟩ := nodup_compacted hnodup hnot
  simp only [mem_append, not_or] at hnot
  have hflat : (trimTrailingEmptyLevels (above ++ [] :: (between ++ [n] :: below))).flatten =
      above.flatten ++ (between.flatten ++ n :: below.flatten) := by
    rw [flatten_trimTrailingEmptyLevels]
    simp
  obtain ⟨hsound, hlayers⟩ := h.switch hn hrs (hflat ▸ hlisted) fun i hi hne ↦ by
    rw [hflat] at hi
    rw [hids]
    simp only [mem_append, mem_cons] at hi ⊢
    tauto
  have hids' : (d.applyAll [.writeTable n (SSTable.ofRecords rs),
      d.saveEffect (trimTrailingEmptyLevels (above ++ [] :: (between ++ [n] :: below)))]).ids =
        above.flatten ++ (between.flatten ++ n :: below.flatten) := by
    rw [← hflat]
    exact congrArg List.flatten (congrArg MetaData.levels (h.metaStore.load_save _))
  obtain ⟨hsound', hlayers'⟩ := hsound.removeTables fun i hi ↦ hids' ▸ hgone i hi
  refine ⟨hsound', ?_, hlayers'.trans (hlayers.trans ?_)⟩
  · refine (hn.mono (le_succ n)).applyAll fun id t hmem ↦ ?_
    simp only [mem_cons, mem_map, Effect.writeTable.injEq, saveEffect, reduceCtorEq, and_false,
      exists_false, or_false] at hmem
    exact hmem.1 ▸ lt_succ_self n
  · rw [hflat, map_append, map_append, map_cons, recordsWith, if_pos rfl,
      map_recordsWith hnot.1, map_recordsWith hnot.2.2.1, map_recordsWith hnot.2.2.2.2]

end Disk

namespace Compactor

variable {c : Compactor} {i j : ℕ}

/-- A compaction leaves a sound directory, and what is read if it is clear. -/
theorem compactLevel_spec (h : c.disk.Sound) (hn : c.disk.Fresh c.nextID) (hij : i < j) :
    (c.compactLevel i j).disk.Sound ∧ (c.compactLevel i j).disk.Fresh (c.compactLevel i j).nextID ∧
      ((∀ k, (c.compactLevel i j).disk.get k = c.disk.get k) ↔ c.Clear i j) := by
  obtain ⟨above, fromFiles, between, toFiles, below, rfl, rfl, hgrow, hids, heq⟩ :=
    compactLevel_split h c.nextID hij
  have hpassed : (above ++ fromFiles :: (between ++ toFiles :: below)).take
      (above.length + between.length + 1) = above ++ fromFiles :: between := by
    simp [take_append, add_assoc]
  have hclear : c.Clear above.length (above.length + between.length + 1) ↔ ∀ k r b,
      find k (c.disk.layersOf above.flatten) = none → find k (c.disk.layersOf fromFiles) = some r →
      find k (c.disk.layersOf between.flatten) = some b → r = b := by
    rw [Clear, hgrow, getD_split, hpassed]
    simp
  rw [hclear]
  by_cases hempty : fromFiles = []
  · have hsame : c.compactLevel above.length (above.length + between.length + 1) = c := by
      rw [compactLevel, heq, if_pos hempty]
      rfl
    rw [hsame, hempty]
    exact ⟨h, hn, fun _ k r b _ hr ↦ (by cases hr), fun _ _ ↦ rfl⟩
  · rw [compactLevel, heq, if_neg hempty]
    have hmerged := h.join_find_compacted fun id (hid : id ∈ fromFiles ++ toFiles) ↦ by
      rw [hids]
      simp only [mem_append] at hid ⊢
      tauto
    obtain ⟨hsound, hfresh, hlayers⟩ := h.replace hn hids (hmerged [] below []).1
    refine ⟨hsound, hfresh, forall_congr' fun k ↦ ?_⟩
    have hold : c.disk.layers = c.disk.layersOf above.flatten ++ (c.disk.layersOf fromFiles ++
        (c.disk.layersOf between.flatten ++
        (c.disk.layersOf toFiles ++ c.disk.layersOf below.flatten))) := by
      rw [layers, hids]
      simp only [layersOf, map_append]
    rw [← join_find_moved_iff k _ _ _ (c.disk.layersOf toFiles ++ c.disk.layersOf below.flatten),
      hsound.get_eq, h.get_eq, hlayers, hold, ← append_assoc, (hmerged _ below k).2]
    simp only [layersOf, map_append, append_assoc]

theorem Reached.sound (h : Reached c) : c.disk.Sound ∧ c.disk.Fresh c.nextID := by
  induction h with
  | empty => exact ⟨⟨MetaStore.sound_empty, nodup_nil, by rintro _ ⟨⟩⟩, by rintro _ _ ⟨⟩⟩
  | @flush c _ mem ih =>
    refine ⟨(ih.1.flushMemTable ih.2 mem).1, (ih.2.mono (le_succ _)).applyAll fun id t hmem ↦ ?_⟩
    simp only [Lsm.flushMemTable, saveEffect, mem_cons, not_mem_nil,
      Effect.writeTable.injEq, reduceCtorEq, or_false] at hmem
    exact hmem.1 ▸ lt_succ_self _
  | compact _ hij ih =>
    obtain ⟨hsound, hfresh, -⟩ := compactLevel_spec ih.1 ih.2 hij
    exact ⟨hsound, hfresh⟩

/-- **What is read stays the same exactly if the compaction is clear**, in every directory that
flushes and compactions lead to. -/
theorem Reached.get_compactLevel_iff (h : Reached c) (hij : i < j) :
    (∀ k, (c.compactLevel i j).disk.get k = c.disk.get k) ↔ c.Clear i j :=
  (compactLevel_spec h.sound.1 h.sound.2 hij).2.2

end Compactor

end

namespace Compactor

/-- A key in level 1 and its newer record in level 0. -/
def twoLevels : Compactor :=
  (({} : Compactor).flushMemTable (({} : MemTable).put [1] [10]) |>.compactLevel 0 1).flushMemTable
    (({} : MemTable).put [1] [20])

theorem reached_twoLevels : Reached twoLevels := .flush (.compact (.flush .empty _) (by decide)) _

theorem get_compactLevel_next : Reached twoLevels ∧
    ((∀ k, (twoLevels.compactLevel 0 1).disk.get k = twoLevels.disk.get k) ↔ twoLevels.Clear 0 1) :=
  ⟨reached_twoLevels, reached_twoLevels.get_compactLevel_iff (by decide)⟩

/-- From level 0 to level 2, below the older record. -/
theorem exists_uncovered : ∃ c, Reached c ∧ c.disk.get [1] = some [20] ∧
    (c.compactLevel 0 2).disk.get [1] = some [10] :=
  ⟨twoLevels, reached_twoLevels, by decide +kernel, by decide +kernel⟩

end Compactor

end DucklingDB.Lsm
