import DucklingDB.Lsm.Layers

/-!
# Compaction

`compactLevelLocked` replaces the files of two adjacent levels by one. The layers above and below it
stay, so what is read is unchanged if reading the new file is reading through the old ones. At the
bottom level the new file has no tombstones; there is nothing below that they could hide, and not
found reads the same as deleted.
-/

namespace DucklingDB.Lsm

open Overlay Nat SSTable
open List hiding lookup

/-! ## Lists of levels -/

section

variable (levels : List (List ℕ))
include levels

theorem exists_trim : ∃ k, trimTrailingEmptyLevels levels ++ List.replicate k [] = levels := by
  cases levels with
  | nil => exact ⟨0, rfl⟩
  | cons level levels =>
    have hempty : levels.rtakeWhile List.isEmpty =
        List.replicate (levels.rtakeWhile List.isEmpty).length [] :=
      eq_replicate_length.mpr fun level h ↦ isEmpty_iff.mp (mem_rtakeWhile_imp h)
    exact ⟨_, congrArg (level :: ·) (hempty ▸ rdropWhile_append_rtakeWhile)⟩

theorem flatten_trimTrailingEmptyLevels :
    (trimTrailingEmptyLevels levels).flatten = levels.flatten := by
  obtain ⟨k, hk⟩ := exists_trim levels
  conv_rhs => rw [← hk, flatten_append, flatten_replicate_nil, append_nil]

theorem flatten_growLevels (toLevel : ℕ) :
    (growLevels levels toLevel).flatten = levels.flatten := by
  rw [growLevels, flatten_append, flatten_replicate_nil, append_nil]

/-- Two levels, with what is above, between and below them. -/
theorem exists_split {i j : ℕ} (hij : i < j) :
    ∃ above fromFiles between toFiles below, above.length = i ∧ i + between.length + 1 = j ∧
      growLevels levels j = above ++ fromFiles :: (between ++ toFiles :: below) := by
  have hlen : j < (growLevels levels j).length := by
    rw [growLevels, length_append, length_replicate]
    omega
  generalize growLevels levels j = grown at hlen
  refine ⟨grown.take i, grown[i], (grown.drop (i + 1)).take (j - (i + 1)), grown[j],
    grown.drop (j + 1), ?_, ?_, ?_⟩
  · rw [length_take]
    omega
  · rw [length_take, length_drop]
    omega
  · have hdrop : (grown.drop (i + 1)).drop (j - (i + 1)) = grown.drop j := by
      rw [drop_drop, Nat.add_sub_cancel' hij]
    rw [← drop_eq_getElem_cons, ← hdrop, take_append_drop, ← drop_eq_getElem_cons, take_append_drop]

end

section Split

variable (above below : List (List ℕ)) (level : List ℕ)

theorem getD_split : (above ++ level :: below).getD above.length [] = level := by
  simp [getD_eq_getElem?_getD]

theorem isBottomLevel_split :
    isBottomLevel (above ++ level :: below) above.length = below.all List.isEmpty := by
  have hdrop : (above ++ level :: below).drop (above.length + 1) = below := by simp
  rw [isBottomLevel, hdrop]

theorem set_split (new : List ℕ) :
    (above ++ level :: below).set above.length new = above ++ new :: below := by
  simp

end Split

theorem nodup_compacted {n : ℕ} {a f b t z : List ℕ} (h : (a ++ (f ++ (b ++ (t ++ z)))).Nodup)
    (hn : n ∉ a ++ (f ++ (b ++ (t ++ z)))) :
    (a ++ (b ++ n :: z)).Nodup ∧ ∀ i ∈ f ++ t, i ∉ a ++ (b ++ n :: z) := by
  simp only [nodup_append, nodup_cons, mem_append, mem_cons] at h hn ⊢
  grind

/-! ## The merged records -/

open SortedMap (lookup)

theorem lookup_live {es : List Record} (h : Ascending es) (k : Bytes) :
    lookup k (es.filter fun r ↦ r.2.isSome) = (lookup k es).join.map some := by
  induction es with
  | nil => rfl
  | cons r es ih =>
    obtain ⟨k', v⟩ := r
    by_cases hk : k' = k
    · subst hk
      cases v with
      | some v => simp [lookup]
      | none =>
        have hnone : lookup k' (es.filter fun r ↦ r.2.isSome) = none :=
          SortedMap.lookup_eq_none fun e he ↦ (h.head_lt (mem_of_mem_filter he)).ne'
        simp [lookup, hnone]
    · cases v with
      | some v => simpa [lookup, hk] using ih h.tail
      | none => simpa [lookup, hk] using ih h.tail

theorem map_filterMap_live (rs : List Record) :
    (rs.filterMap Record.live?).map (fun e ↦ (e.1, some e.2)) = rs.filter fun r ↦ r.2.isSome := by
  induction rs with
  | nil => rfl
  | cons r rs ih =>
    obtain ⟨k, v⟩ := r
    cases v with
    | none =>
      rw [filterMap_cons_none rfl, ih]
      rfl
    | some v =>
      have hlive : Record.live? (k, some v) = some (k, v) := rfl
      rw [filterMap_cons_some hlive, map_cons, ih]
      rfl

theorem compactRecords_true (readers : List SSTable) : compactRecords true readers =
      (compactRecords false readers).filter fun r ↦ r.2.isSome := by
  rw [compactRecords, compactRecords, if_pos rfl, if_neg (by simp), scan_eq, map_filterMap_live]

section Records

variable {readers : List SSTable} (h : ∀ t ∈ readers, Ascending t.records)

include h

theorem ascending_iters : ∀ c ∈ readers.map newIterator, Ascending c.records := by
  intro c hc
  obtain ⟨t, ht, rfl⟩ := mem_map.mp hc
  exact h t ht

theorem lookup_compactRecords (k : Bytes) :
    lookup k (compactRecords false readers) = find k (readers.map records) := by
  rw [compactRecords, if_neg (by simp), lookup_rawScan (ascending_iters h), if_neg (not_lt_nil k),
    map_map]
  rfl

variable (bottom : Bool)

theorem ascending_compactRecords : Ascending (compactRecords bottom readers) := by
  have hraw : Ascending (compactRecords false readers) := by
    rw [compactRecords, if_neg (by simp)]
    exact ascending_rawScan (ascending_iters h) []
  cases bottom with
  | false => exact hraw
  | true =>
    rw [compactRecords_true]
    exact hraw.sublist filter_sublist

theorem lookup_compactRecords_eq (k : Bytes) : lookup k (compactRecords bottom readers) =
      if bottom then (find k (readers.map records)).join.map some
      else find k (readers.map records) := by
  rw [← lookup_compactRecords h]
  cases bottom with
  | false => rfl
  | true => rw [compactRecords_true, lookup_live (ascending_compactRecords h false), if_pos rfl]

theorem join_lookup_compactRecords (k : Bytes) :
    (lookup k (compactRecords bottom readers)).join = (find k (readers.map records)).join := by
  rw [lookup_compactRecords_eq h]
  split
  · cases (find k (readers.map records)).join <;> rfl
  · rfl

end Records

theorem join_or {α : Type} {x y y' : Option (Option α)} (h : y.join = y'.join) :
    (x.or y).join = (x.or y').join := by
  cases x with
  | none => exact h
  | some x => rfl

theorem join_find_compacted {above old below : List (List Record)} {new : List Record}
    (hnew : ∀ k, (lookup k new).join = (find k old).join)
    (hsame : below = [] ∨ ∀ k, lookup k new = find k old) (k : Bytes) :
    (find k (above ++ new :: below)).join = (find k (above ++ (old ++ below))).join := by
  rw [find_append, find_append]
  refine join_or ?_
  obtain rfl | hsame := hsame
  · rw [append_nil, find_singleton, hnew k]
  · rw [← singleton_append, find_append, find_append, find_singleton, hsame k]

/-! ## One round -/

section Round

variable [MetaDataCodec] [BloomSizing] {d : Disk} {mem : List Record} {m : SortedMap Bytes Bytes}
  {wal : Bytes} {n : ℕ}

open Disk

/-- The effects of a compaction that does something. -/
def compactEffects (d : Disk) (n : ℕ) (above below : List (List ℕ)) (fromFiles toFiles : List ℕ) :
    List Effect :=
  .writeTable n (SSTable.ofRecords
      (compactRecords (below.all List.isEmpty) ((fromFiles ++ toFiles).map d.table))) ::
    d.saveEffect (trimTrailingEmptyLevels (above ++ [] :: [n] :: below)) ::
    (fromFiles ++ toFiles).map .removeTable

/-- A compaction of a sound directory: it does nothing if the upper level has no files. -/
theorem compactLevel_split (h : d.Sound) (n : ℕ) {i j : ℕ} (hij : i < j) :
    ∃ above fromFiles between toFiles below, above.length = i ∧ i + between.length + 1 = j ∧
      growLevels d.levels j = above ++ fromFiles :: (between ++ toFiles :: below) ∧
      d.ids = above.flatten ++ (fromFiles ++ (between.flatten ++ (toFiles ++ below.flatten))) ∧
      compactLevel d n i j = some (if fromFiles = [] then ([], n) else
        (.writeTable n (ofRecords
            (compactRecords (below.all List.isEmpty) ((fromFiles ++ toFiles).map d.table))) ::
          d.saveEffect (trimTrailingEmptyLevels (above ++ [] :: (between ++ [n] :: below))) ::
          (fromFiles ++ toFiles).map .removeTable, n + 1)) := by
  obtain ⟨above, fromFiles, between, toFiles, below, rfl, rfl, hgrow⟩ := exists_split d.levels hij
  have hids : d.ids =
      above.flatten ++ (fromFiles ++ (between.flatten ++ (toFiles ++ below.flatten))) := by
    rw [Disk.ids, ← flatten_growLevels d.levels (above.length + between.length + 1), hgrow]
    simp only [flatten_append, flatten_cons]
  have hopen : d.openTables (fromFiles ++ toFiles) = some ((fromFiles ++ toFiles).map d.table) := by
    refine openTables_eq fun id hid ↦ (h.present id ?_).complete
    rw [hids]
    simp only [mem_append] at hid ⊢
    tauto
  refine ⟨above, fromFiles, between, toFiles, below, rfl, rfl, hgrow, hids, ?_⟩
  -- the same levels, seen from the lower one
  have hassoc : ∀ level, above ++ level :: (between ++ toFiles :: below) =
      (above ++ level :: between) ++ toFiles :: below := fun level ↦ by simp
  have hlen : ∀ level, above.length + between.length + 1 = (above ++ level :: between).length :=
    fun level ↦ by simp [add_assoc]
  have hto : (above ++ fromFiles :: (between ++ toFiles :: below)).getD
      (above.length + between.length + 1) [] = toFiles := by
    rw [hassoc, hlen, getD_split]
  have hbottom : isBottomLevel (above ++ fromFiles :: (between ++ toFiles :: below))
      (above.length + between.length + 1) = below.all List.isEmpty := by
    rw [hassoc, hlen, isBottomLevel_split]
  have hset : (above ++ [] :: (between ++ toFiles :: below)).set (above.length + between.length + 1)
      [n] = above ++ [] :: (between ++ [n] :: below) := by
    rw [hassoc, hlen [], set_split]
    simp
  simp only [compactLevel, hgrow, getD_split, hto, hopen, hbottom, set_split, hset, Option.map_some]
  split <;> rfl

/-- A compaction of a sound directory into the next level does nothing or has these effects. -/
theorem compactLevel_eq (h : d.Sound) (n i : ℕ) : compactLevel d n i (i + 1) = some ([], n) ∨
      ∃ above fromFiles toFiles below,
        d.ids = above.flatten ++ (fromFiles ++ (toFiles ++ below.flatten)) ∧
        compactLevel d n i (i + 1) = some (compactEffects d n above below fromFiles toFiles,
        n + 1) := by
  obtain ⟨above, fromFiles, between, toFiles, below, -, hlen, -, hids, heq⟩ :=
    compactLevel_split h n (lt_succ_self i)
  obtain rfl : between = [] := length_eq_zero_iff.mp (by omega)
  split at heq
  · exact .inl heq
  · exact .inr ⟨above, fromFiles, toFiles, below, hids, heq⟩

theorem Disk.Sound.join_find_compacted (h : d.Sound) {ids : List ℕ} (hsub : ∀ id ∈ ids, id ∈ d.ids)
    (above : List (List Record)) (below : List (List ℕ)) (k : Bytes) :
    Ascending (compactRecords (below.all List.isEmpty) (ids.map d.table)) ∧
      (find k (above ++ compactRecords (below.all List.isEmpty) (ids.map d.table) ::
        d.layersOf below.flatten)).join =
      (find k (above ++ (d.layersOf ids ++ d.layersOf below.flatten))).join := by
  have hasc : ∀ t ∈ ids.map d.table, Ascending t.records := by
    intro t ht
    obtain ⟨id, hid, rfl⟩ := mem_map.mp ht
    exact (h.present id (hsub id hid)).wellFormed.ascending
  have hrecords : (ids.map d.table).map records = d.layersOf ids := map_map
  refine ⟨ascending_compactRecords hasc _, Lsm.join_find_compacted (fun k ↦ ?_) ?_ k⟩
  · rw [join_lookup_compactRecords hasc, hrecords]
  · cases hbottom : below.all List.isEmpty with
    | true =>
      have hnil : below.flatten = [] := by
        rw [flatten_eq_nil_iff]
        exact fun level hlevel ↦ isEmpty_iff.mp (all_eq_true.mp hbottom level hlevel)
      exact .inl (by rw [hnil]; rfl)
    | false => exact .inr fun k ↦ by rw [lookup_compactRecords hasc, hrecords]

section Effects

variable {above below : List (List ℕ)} {fromFiles toFiles : List ℕ}
  (hids : d.ids = above.flatten ++ (fromFiles ++ (toFiles ++ below.flatten)))

include hids

section

omit [BloomSizing]

theorem layers_split : d.layers = d.layersOf above.flatten ++
      (d.layersOf (fromFiles ++ toFiles) ++ d.layersOf below.flatten) := by
  rw [layers, hids]
  simp only [layersOf, map_append, append_assoc]

end

theorem keeps_compactEffects (h : d.Intact mem m wal) (hn : d.Fresh n) :
    Disk.Keeps (Intact mem m wal) d (compactEffects d n above below fromFiles toFiles) := by
  have hsound := h.holds.sound
  have hnot := hsound.not_mem_ids hn
  obtain hlisted : (above.flatten ++ n :: below.flatten).Nodup ∧
      ∀ i ∈ fromFiles ++ toFiles, i ∉ above.flatten ++ n :: below.flatten :=
    nodup_compacted (b := []) (hids ▸ hsound.nodup) (hids ▸ hnot)
  have hflat : (trimTrailingEmptyLevels (above ++ [] :: [n] :: below)).flatten =
      above.flatten ++ n :: below.flatten := by
    rw [flatten_trimTrailingEmptyLevels]
    simp
  have hmerged := hsound.join_find_compacted fun id (hid : id ∈ fromFiles ++ toFiles) ↦ by
    rw [hids]
    simp only [mem_append] at hid ⊢
    tauto
  have hnotAbove : n ∉ above.flatten := fun hmem ↦ hnot (by rw [hids]; simp [hmem])
  have hnotBelow : n ∉ below.flatten := fun hmem ↦ hnot (by rw [hids]; simp [hmem])
  have hswitch : Disk.Keeps (Intact mem m wal) d
      [.writeTable n (ofRecords (compactRecords (below.all List.isEmpty)
        ((fromFiles ++ toFiles).map d.table))),
      d.saveEffect (trimTrailingEmptyLevels (above ++ [] :: [n] :: below))] := by
    refine keeps_switch h hn (hmerged [] below []).1 ?_ ?_ fun k ↦ ?_
    · rw [hflat]
      exact hlisted.1
    · rw [hflat, hids]
      intro i hi hne
      simp only [mem_append, mem_cons] at hi ⊢
      tauto
    · -- the layers above and below the new one are the old ones
      rw [hflat, map_append, map_cons, recordsWith, if_pos rfl, map_recordsWith hnotAbove,
        map_recordsWith hnotBelow, layers_split hids, ← cons_append, ← cons_append]
      exact (hmerged _ below k).2
  refine hswitch.append (keeps_removeTables hswitch.last fun i hi ↦ ?_)
  have hids' : (List.foldl Disk.apply d
      [.writeTable n (ofRecords (compactRecords (below.all List.isEmpty)
        ((fromFiles ++ toFiles).map d.table))),
      d.saveEffect (trimTrailingEmptyLevels (above ++ [] :: [n] :: below))]).ids =
        above.flatten ++ n :: below.flatten := by
    rw [← hflat]
    exact congrArg List.flatten (congrArg MetaData.levels (hsound.metaStore.load_save _))
  rw [hids']
  exact hlisted.2 i hi

end Effects

theorem fresh_compactEffects (hn : d.Fresh n) (above below : List (List ℕ))
    (fromFiles toFiles : List ℕ) :
    (d.applyAll (compactEffects d n above below fromFiles toFiles)).Fresh (n + 1) := by
  refine (hn.mono (le_succ n)).applyAll fun id t hmem ↦ ?_
  simp only [compactEffects, mem_cons, mem_map, Effect.writeTable.injEq, saveEffect,
    reduceCtorEq, and_false, exists_false, or_false] at hmem
  exact hmem.1 ▸ lt_succ_self n

theorem exists_compactLevel (h : d.Intact mem m wal) (hn : d.Fresh n) (i : ℕ) :
    ∃ es n', compactLevel d n i (i + 1) = some (es, n') ∧
      Disk.Keeps (Intact mem m wal) d es ∧ (d.applyAll es).Fresh n' := by
  obtain heq | ⟨above, fromFiles, toFiles, below, hids, heq⟩ := compactLevel_eq h.holds.sound n i
  · exact ⟨[], n, heq, keeps_nil h, hn⟩
  · exact ⟨_, _, heq, keeps_compactEffects hids h hn,
      fresh_compactEffects hn above below fromFiles toFiles⟩

theorem keeps_maybeTriggerCompaction (opts : LSMOptions) (fuel : ℕ) (h : d.Intact mem m wal)
    (hn : d.Fresh n) :
    let c := maybeTriggerCompaction opts fuel d n
    Disk.Keeps (Intact mem m wal) d c.effects ∧ (d.applyAll c.effects).Fresh c.nextID ∧
      c.status ≠ .failed := by
  induction fuel generalizing d n with
  | zero => exact ⟨keeps_nil h, hn, by simp [maybeTriggerCompaction]⟩
  | succ fuel ih =>
    cases hlevel : opts.firstOverThreshold d.levels with
    | none =>
      simp only [maybeTriggerCompaction, hlevel]
      exact ⟨keeps_nil h, hn, by simp⟩
    | some level =>
      obtain ⟨es, n', heq, hkeeps, hfresh⟩ := exists_compactLevel h hn level
      obtain ⟨hrest, hfresh', hstatus⟩ := ih hkeeps.last hfresh
      simp only [maybeTriggerCompaction, hlevel, heq]
      refine ⟨hkeeps.append hrest, ?_, hstatus⟩
      rw [applyAll, foldl_append]
      exact hfresh'

end Round

end DucklingDB.Lsm
