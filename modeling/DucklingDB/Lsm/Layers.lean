import DucklingDB.Lsm.Engine
import Mathlib.Data.List.Nodup

/-!
# What the directory holds

The SSTables that the metadata lists are layers of records, the newest first, and a key has the
value that the first layer with a record of it gives. A directory is `Sound` when every listed file
is there, complete and in order, and no file is listed twice.

A flush adds a layer on top that repeats the memtable, and a compaction replaces two adjacent levels
by their merge. Neither changes what is read (`Disk.Holds`), and this is so wherever a crash falls
between or inside their writes, because the metadata is saved after the new file is complete and
before an old one is removed (`keeps_flushMemTable`, `keeps_compactLevel`).
-/

namespace DucklingDB.Lsm

open Overlay SortedMap SSTable
open List hiding lookup

/-! ## Opening files -/

theorem mapM_eq_some {α β : Type} {f : α → Option β} {g : α → β} {as : List α}
    (h : ∀ a ∈ as, f a = some (g a)) : as.mapM f = some (as.map g) := by
  induction as with
  | nil => rfl
  | cons a as ih =>
    rw [mapM_cons, h a (.head _), ih fun b hb ↦ h b (mem_cons_of_mem a hb)]
    rfl

section Layers

variable [MetaDataCodec] [BloomSizing]

/-- The contents of a complete file. -/
structure SSTable.WellFormed (t : SSTable) : Prop where
  eq_ofRecords : t = SSTable.ofRecords t.records
  ascending : Ascending t.records

omit [MetaDataCodec] in
theorem SSTable.WellFormed.get_eq {t : SSTable} (h : t.WellFormed) (k : Bytes) :
    t.get k = lookup k t.records := by
  rw [h.eq_ofRecords, get_ofRecords h.ascending]
  rfl

namespace Disk

variable (d : Disk)

/-- The files that the metadata lists, in the order they are consulted. -/
def ids : List ℕ := d.levels.flatten

def table (id : ℕ) : SSTable := (d.openTable id).getD ⟨[], ⟨[], 0, 0⟩⟩

def layersOf (ids : List ℕ) : List (List Record) := ids.map fun id ↦ (d.table id).records

def layers : List (List Record) := d.layersOf d.ids

/-- A listed file is there. -/
def Present (id : ℕ) : Prop := ∃ t, d.files.get id = some (some t) ∧ t.WellFormed

structure Sound (d : Disk) : Prop where
  metaStore : d.metaStore.Sound
  nodup : d.ids.Nodup
  present : ∀ id ∈ d.ids, d.Present id

/-- Every file has a number below `n`. -/
def Fresh (n : ℕ) : Prop := ∀ id f, d.files.get id = some f → id < n

variable {d : Disk} {id : ℕ}

omit [MetaDataCodec] [BloomSizing] in
theorem openTable_eq {t : SSTable} (h : d.files.get id = some (some t)) :
    d.openTable id = some (d.table id) := by
  rw [table, openTable, h]
  rfl

omit [MetaDataCodec] in
theorem Present.wellFormed (h : d.Present id) : (d.table id).WellFormed := by
  obtain ⟨t, ht, hwf⟩ := h
  rw [table, Disk.openTable, ht]
  exact hwf

/-- Some complete file has this number. -/
def Complete (d : Disk) (id : ℕ) : Prop := ∃ t, d.files.get id = some (some t)

omit [MetaDataCodec] in
theorem Present.complete (h : d.Present id) : d.Complete id := by
  obtain ⟨t, ht, -⟩ := h
  exact ⟨t, ht⟩

omit [MetaDataCodec] [BloomSizing] in
theorem openTables_eq {ids : List ℕ} (h : ∀ id ∈ ids, d.Complete id) :
    d.openTables ids = some (ids.map d.table) :=
  mapM_eq_some fun id hid ↦ openTable_eq (h id hid).choose_spec

omit [BloomSizing] in
theorem reloadLevels_eq (h : ∀ id ∈ d.ids, d.Complete id) :
    d.reloadLevels = some (d.levels.map (List.map d.table)) :=
  mapM_eq_some fun level hlevel ↦ openTables_eq fun id hid ↦
    h id (mem_flatten.mpr ⟨level, hlevel, hid⟩)

theorem Sound.reloadLevels (h : d.Sound) :
    d.reloadLevels = some (d.levels.map (List.map d.table)) :=
  reloadLevels_eq fun id hid ↦ (h.present id hid).complete

/-! ## What a change leaves alone -/

variable {d' : Disk}

omit [MetaDataCodec] in
theorem Present.congr (h : d.Present id) (hf : d'.files.get id = d.files.get id) :
    d'.Present id := by
  obtain ⟨t, ht, hwf⟩ := h
  exact ⟨t, hf.trans ht, hwf⟩

/-- A change that the listed files do not notice. -/
structure Same (d d' : Disk) : Prop where
  metaStore : d'.metaStore.Sound
  levels : d'.levels = d.levels
  files : ∀ id ∈ d.ids, d'.files.get id = d.files.get id

omit [BloomSizing] in
theorem Same.ids (h : Same d d') : d'.ids = d.ids := congrArg List.flatten h.levels

omit [BloomSizing] in
theorem Same.layers (h : Same d d') : d'.layers = d.layers := by
  rw [Disk.layers, h.ids]
  exact map_congr_left fun id hid ↦ by rw [table, table, openTable, openTable, h.files id hid]

theorem Sound.same (hd : d.Sound) (h : Same d d') : d'.Sound where
  metaStore := h.metaStore
  nodup := h.ids ▸ hd.nodup
  present id hid := by
    rw [h.ids] at hid
    exact (hd.present id hid).congr (h.files id hid)

/-- What the directory holds under the records of a memtable. -/
structure Holds (d : Disk) (mem : List Record) (m : SortedMap Bytes Bytes) : Prop where
  sound : d.Sound
  get_eq : ∀ k, m.get k = (find k (mem :: d.layers)).join

theorem Holds.same {mem : List Record} {m : SortedMap Bytes Bytes} (hd : d.Holds mem m)
    (h : Same d d') : d'.Holds mem m where
  sound := hd.sound.same h
  get_eq k := by rw [hd.get_eq k, h.layers]

section

variable (h : d.Sound)
include h

theorem Sound.same_wal (wal : Bytes) : Same d { d with wal := wal } :=
  ⟨h.metaStore, rfl, fun _ _ ↦ rfl⟩

theorem Sound.same_insert (hid : id ∉ d.ids) (f : Option SSTable) :
    Same d { d with files := d.files.insert id f } := by
  refine ⟨h.metaStore, rfl, fun i hi ↦ get_insert_of_ne _ ?_ f⟩
  rintro rfl
  exact hid hi

theorem Sound.same_erase (hid : id ∉ d.ids) :
    Same d { d with files := d.files.erase id } := by
  refine ⟨h.metaStore, rfl, fun i hi ↦ get_erase_of_ne _ ?_⟩
  rintro rfl
  exact hid hi

theorem Sound.same_torn {left : Bytes} (hl : verify left = none) :
    Same d { d with metaStore := d.metaStore.write d.metaStore.target left } :=
  ⟨h.metaStore.torn hl, congrArg MetaData.levels (h.metaStore.load_torn hl), fun _ _ ↦ rfl⟩

theorem Sound.not_mem_ids {n : ℕ} (hn : d.Fresh n) : n ∉ d.ids :=
  fun hid ↦ (h.present n hid).elim fun _ ht ↦ Nat.lt_irrefl n (hn n _ ht.1)

end

/-! ## New metadata -/

omit [BloomSizing] in
theorem levels_save (h : d.metaStore.Sound) (levels : List (List ℕ)) :
    (d.apply (d.saveEffect levels)).levels = levels :=
  congrArg MetaData.levels (h.load_save levels)

theorem Sound.save (h : d.Sound) {levels : List (List ℕ)} (hn : levels.flatten.Nodup)
    (hp : ∀ id ∈ levels.flatten, d.Present id) : (d.apply (d.saveEffect levels)).Sound where
  metaStore := h.metaStore.save levels
  nodup := by rwa [ids, levels_save h.metaStore]
  present id hid := by
    rw [ids, levels_save h.metaStore] at hid
    exact hp id hid

/-! ## Wherever a crash falls -/

/-- A property holds wherever a crash falls during these effects. -/
abbrev Keeps (P : Disk → Prop) (d : Disk) (es : List Effect) : Prop :=
  DucklingDB.Keeps Disk.apply Effect.Torn P d es

/-- What is held, and the log. -/
structure Intact (mem : List Record) (m : SortedMap Bytes Bytes) (wal : Bytes) (d : Disk) :
    Prop where
  holds : d.Holds mem m
  wal_eq : d.wal = wal

section Changes

variable {d : Disk} {mem : List Record} {m : SortedMap Bytes Bytes} {wal : Bytes} {n : ℕ}
  {rs : List Record}

theorem Intact.same {d' : Disk} (h : d.Intact mem m wal) (hs : Same d d') (hw : d'.wal = d.wal) :
    d'.Intact mem m wal := ⟨h.holds.same hs, hw.trans h.wal_eq⟩

theorem Intact.insert (h : d.Intact mem m wal) (hn : d.Fresh n) (f : Option SSTable) :
    { d with files := d.files.insert n f }.Intact mem m wal :=
  h.same (h.holds.sound.same_insert (h.holds.sound.not_mem_ids hn) f) rfl

/-- The records of a file once the file with number `n` has been written. -/
def recordsWith (d : Disk) (n : ℕ) (rs : List Record) (i : ℕ) : List Record :=
  if i = n then rs else (d.table i).records

omit [MetaDataCodec] in
theorem layersOf_writeTable (d : Disk) (n : ℕ) (rs : List Record) (ids : List ℕ) :
    (d.apply (.writeTable n (ofRecords rs))).layersOf ids = ids.map (d.recordsWith n rs) := by
  refine map_congr_left fun i _ ↦ ?_
  rw [recordsWith, table, openTable, Disk.apply, get_insert]
  split
  · rfl
  · rfl

omit [MetaDataCodec] in
theorem present_writeTable (hrs : Ascending rs) {i : ℕ}
    (h : i ≠ n → d.Present i) : (d.apply (.writeTable n (ofRecords rs))).Present i := by
  by_cases hi : i = n
  · subst hi
    exact ⟨_, get_insert_self .., rfl, hrs⟩
  · exact (h hi).congr (get_insert_of_ne _ hi _)

variable {levels : List (List ℕ)}

/-- A complete file is written and then listed. -/
theorem Sound.switch (h : d.Sound) (hn : d.Fresh n) (hrs : Ascending rs)
    (hnodup : levels.flatten.Nodup) (hsub : ∀ i ∈ levels.flatten, i ≠ n → i ∈ d.ids) :
    (d.applyAll [.writeTable n (ofRecords rs), d.saveEffect levels]).Sound ∧
      (d.applyAll [.writeTable n (ofRecords rs), d.saveEffect levels]).layers =
        levels.flatten.map (d.recordsWith n rs) := by
  have hwrite := h.same (h.same_insert (h.not_mem_ids hn) (some (ofRecords rs)))
  rw [← layersOf_writeTable]
  exact ⟨hwrite.save hnodup fun i hi ↦ present_writeTable hrs fun hne ↦ h.present i (hsub i hi hne),
    congrArg ((d.apply (.writeTable n _)).layersOf ∘ List.flatten)
    (levels_save hwrite.metaStore levels)⟩

theorem keeps_switch (h : d.Intact mem m wal)
    (hn : d.Fresh n) (hrs : Ascending rs) (hnodup : levels.flatten.Nodup)
    (hsub : ∀ i ∈ levels.flatten, i ≠ n → i ∈ d.ids)
    (hget : ∀ k, (find k (mem :: levels.flatten.map (d.recordsWith n rs))).join =
      (find k (mem :: d.layers)).join) :
    Keeps (Intact mem m wal) d [.writeTable n (ofRecords rs), d.saveEffect levels] := by
  have hwrite := h.insert hn (some (ofRecords rs))
  refine keeps_cons h ?_ (keeps_cons hwrite ?_ (keeps_nil ?_))
  · intro d' hd'
    cases hd' with
    | writeTable => exact h.insert hn none
  · intro d' hd'
    cases hd' with
    | writeSlot _ _ hl => exact hwrite.same (hwrite.holds.sound.same_torn hl) rfl
  · obtain ⟨hsound, hlayers⟩ := h.holds.sound.switch hn hrs hnodup hsub
    refine ⟨⟨hsound, fun k ↦ ?_⟩, h.wal_eq⟩
    rw [h.holds.get_eq k, ← hget k]
    exact congrArg (fun ls ↦ (find k (mem :: ls)).join) hlayers.symm

theorem keeps_removeTables {ids : List ℕ} (h : d.Intact mem m wal) (hids : ∀ i ∈ ids, i ∉ d.ids) :
    Keeps (Intact mem m wal) d (ids.map .removeTable) := by
  induction ids generalizing d with
  | nil => exact keeps_nil h
  | cons i ids ih =>
    have hsame := h.holds.sound.same_erase (hids i (.head _))
    refine keeps_cons h (by rintro _ ⟨⟩) (ih (h.same hsame rfl) fun j hj ↦ ?_)
    have hnot := hids j (mem_cons_of_mem i hj)
    rwa [← hsame.ids] at hnot

/-! ### Numbers of files -/

section

omit [BloomSizing] [MetaDataCodec]

theorem Fresh.apply (h : d.Fresh n) {e : Effect} (he : ∀ id t, e = .writeTable id t → id < n) :
    (d.apply e).Fresh n := by
  intro id f hf
  cases e with
  | append e => exact h id f hf
  | truncateWal => exact h id f hf
  | writeSlot slot buf => exact h id f hf
  | writeTable i t =>
    rw [Disk.apply, get_insert] at hf
    split at hf
    · rename_i heq
      exact heq ▸ he i t rfl
    · exact h id f hf
  | removeTable i =>
    by_cases heq : id = i
    · rw [heq, Disk.apply, get_erase_self] at hf
      cases hf
    · rw [Disk.apply, get_erase_of_ne _ heq] at hf
      exact h id f hf

theorem Fresh.applyAll (h : d.Fresh n) {es : List Effect}
    (hes : ∀ id t, .writeTable id t ∈ es → id < n) : (d.applyAll es).Fresh n := by
  induction es generalizing d with
  | nil => exact h
  | cons e es ih =>
    refine ih (h.apply fun id t heq ↦ hes id t (heq ▸ mem_cons_self)) fun id t hmem ↦ ?_
    exact hes id t (mem_cons_of_mem e hmem)

theorem Fresh.mono {n' : ℕ} (h : d.Fresh n) (hn : n ≤ n') : d.Fresh n' :=
  fun id f hf ↦ (h id f hf).trans_le hn

end

/-! ### Flushes -/

section

omit [MetaDataCodec] [BloomSizing]

theorem flatten_prependLevel0 (id : ℕ) (levels : List (List ℕ)) :
    (prependLevel0 id levels).flatten = id :: levels.flatten := by
  cases levels <;> rfl

theorem map_recordsWith {ids : List ℕ} (hn : n ∉ ids) (rs : List Record) :
    ids.map (d.recordsWith n rs) = d.layersOf ids := by
  refine map_congr_left fun i hi ↦ if_neg ?_
  rintro rfl
  exact hn hi

theorem find_self_cons (k : Bytes) (es : List Record) (ls : List (List Record)) :
    find k (es :: es :: ls) = find k (es :: ls) := by
  rw [find, find]
  cases lookup k es <;> rfl

end

theorem flush_records_with (h : d.Sound) (hn : d.Fresh n) (rs : List Record) :
    (prependLevel0 n d.levels).flatten.map (d.recordsWith n rs) = rs :: d.layers := by
  rw [flatten_prependLevel0, map_cons, recordsWith, if_pos rfl, ← ids,
    map_recordsWith (h.not_mem_ids hn), layers]

theorem Sound.prependLevel0 (h : d.Sound) (hn : d.Fresh n) :
    (prependLevel0 n d.levels).flatten.Nodup ∧
      ∀ i ∈ (Lsm.prependLevel0 n d.levels).flatten, i ≠ n → i ∈ d.ids := by
  rw [flatten_prependLevel0]
  exact ⟨nodup_cons.mpr ⟨h.not_mem_ids hn, h.nodup⟩,
    fun i hi hne ↦ (mem_cons.mp hi).resolve_left hne⟩

theorem keeps_flushMemTable {mt : MemTable} (h : d.Intact mt.records m wal) (hn : d.Fresh n) :
    Keeps (Intact mt.records m wal) d (flushMemTable d n mt) := by
  obtain ⟨hnodup, hsub⟩ := h.holds.sound.prependLevel0 hn
  refine keeps_switch h hn mt.entries.sorted hnodup hsub fun k ↦ ?_
  rw [flush_records_with h.holds.sound hn, find_self_cons]

theorem Sound.flushMemTable (h : d.Sound) (hn : d.Fresh n) (mt : MemTable) :
    (d.applyAll (flushMemTable d n mt)).Sound ∧
      (d.applyAll (Lsm.flushMemTable d n mt)).layers = mt.records :: d.layers := by
  obtain ⟨hnodup, hsub⟩ := h.prependLevel0 hn
  rw [← flush_records_with h hn]
  exact h.switch hn mt.entries.sorted hnodup hsub

end Changes

end Disk

end Layers

end DucklingDB.Lsm
