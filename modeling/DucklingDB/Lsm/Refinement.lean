import DucklingDB.Lsm.Compaction

/-!
# The engine as a sorted map

The engine refines a sorted map when the memtable over the layers of the directory reads as the map
(`Engine.Refines`). Then `Get` and a scan answer as the map does. Writes carry the map along, and
flushes and compactions leave it as it is.

`Disk.Shows` is what survives a crash: a directory whose log, replayed as far as it can be read,
lies over the layers. `OpenLSM` turns it back into an engine for the same map.
-/

namespace DucklingDB.Lsm

open Overlay SortedMap Disk Nat SSTable
open List hiding lookup
open MemTable hiding records

/-! ## Writes to the map -/

/-- What an entry does to the map. -/
def Entry.update (m : SortedMap Bytes Bytes) (e : Entry) : SortedMap Bytes Bytes :=
  if e.op = opPut then m.insert e.key e.value else if e.op = opDelete then m.erase e.key else m

def updates (m : SortedMap Bytes Bytes) (es : List Entry) : SortedMap Bytes Bytes :=
  es.foldl Entry.update m

namespace MemTable

theorem lookup_insert (es : SortedMap Bytes (Option Bytes)) (key k : Bytes) (v : Option Bytes) :
    lookup k (es.insert key v).entries = if k = key then some v else lookup k es.entries := by
  by_cases hk : k = key
  · rw [if_pos hk, hk]
    exact es.get_insert_self key v
  · rw [if_neg hk]
    exact es.get_insert_of_ne hk v

theorem lookup_delete (mt : MemTable) (key k : Bytes) : lookup k (mt.delete key).records =
      if k = key then some none else lookup k mt.records := by
  rw [delete]
  split
  · rename_i hget
    split
    · rename_i hk
      rw [hk]
      exact hget
    · rfl
  · exact lookup_insert ..
  · exact lookup_insert ..

variable {m : SortedMap Bytes Bytes} {ls : List (List Record)}

theorem get_update {mt : MemTable}
    (h : ∀ k, m.get k = (find k (mt.records :: ls)).join) (e : Entry) (k : Bytes) :
    (e.update m).get k = (find k ((mt.applyEntry e).records :: ls)).join := by
  rw [Entry.update, applyEntry]
  split
  · rw [find, show lookup k (mt.put e.key e.value).records = _ from lookup_insert ..]
    by_cases hk : k = e.key
    · rw [if_pos hk, hk, get_insert_self]
      rfl
    · rw [if_neg hk, get_insert_of_ne _ hk]
      exact h k
  · split
    · rw [find, lookup_delete]
      by_cases hk : k = e.key
      · rw [if_pos hk, hk, get_erase_self]
        rfl
      · rw [if_neg hk, get_erase_of_ne _ hk]
        exact h k
    · exact h k

theorem get_updates {mt : MemTable}
    (h : ∀ k, m.get k = (find k (mt.records :: ls)).join) (es : List Entry) (k : Bytes) :
    (updates m es).get k = (find k ((mt.applyEntries es).records :: ls)).join := by
  induction es generalizing m mt with
  | nil => exact h k
  | cons e es ih => exact ih (get_update h e)

end MemTable

section Refinement

variable [MetaDataCodec] [BloomSizing] {m : SortedMap Bytes Bytes} {d : Disk} {e : Engine}

/-! ## Directories -/

section

omit [MetaDataCodec] [BloomSizing]

theorem Disk.applyAll_nil (d : Disk) : d.applyAll [] = d := rfl

theorem Disk.applyAll_append_entries (d : Disk) (es : List Entry) :
    d.applyAll (es.map .append) = { d with wal := d.wal ++ encodeAll es } := by
  induction es generalizing d with
  | nil => simp [applyAll, encodeAll]
  | cons e es ih =>
    rw [map_cons, applyAll, foldl_cons, ← applyAll, ih]
    simp [apply, encodeAll]

end

/-- The map that `OpenLSM` finds. -/
def Disk.Shows (m : SortedMap Bytes Bytes) (d : Disk) : Prop :=
  ∃ es, readAll d.wal = some es ∧ d.Holds (MemTable.applyEntries {} es).records m

/-! ## The engine -/

namespace Engine

/-- The engine reads as the map. -/
structure Shows (e : Engine) (m : SortedMap Bytes Bytes) : Prop where
  holds : e.disk.Holds e.mem.records m
  levels : e.disk.reloadLevels = some e.levels

/-- The engine stands for the map: it also writes no file that exists. -/
structure Refines (e : Engine) (m : SortedMap Bytes Bytes) : Prop extends Shows e m where
  fresh : e.disk.Fresh e.nextID

/-- The log holds what the memtable holds. -/
def Logged (e : Engine) : Prop :=
  ∃ es, e.disk.wal = encodeAll es ∧ e.mem = MemTable.applyEntries {} es

/-! ### Reads -/

theorem Shows.levels_eq (h : e.Shows m) : e.levels.flatten = e.disk.ids.map e.disk.table := by
  have hlevels := h.levels
  rw [h.holds.sound.reloadLevels, Option.some.injEq] at hlevels
  rw [← hlevels, ← map_flatten, ids]

omit [MetaDataCodec] in
theorem findSome?_get {ts : List SSTable} (h : ∀ t ∈ ts, t.WellFormed) (k : Bytes) :
    ts.findSome? (fun t ↦ t.get k) = find k (ts.map records) := by
  induction ts with
  | nil => rfl
  | cons t ts ih =>
    rw [findSome?_cons, map_cons, find, (h t (.head _)).get_eq,
      ih fun s hs ↦ h s (mem_cons_of_mem t hs)]
    cases lookup k t.records <;> rfl

theorem Shows.wellFormed (h : e.Shows m) : ∀ t ∈ e.levels.flatten, t.WellFormed := by
  rw [h.levels_eq]
  intro t ht
  obtain ⟨id, hid, rfl⟩ := mem_map.mp ht
  exact (h.holds.sound.present id hid).wellFormed

theorem Shows.records_levels (h : e.Shows m) : e.levels.flatten.map records = e.disk.layers := by
  rw [h.levels_eq, map_map]
  rfl

omit [MetaDataCodec] in
/-- `Get` consults the memtable and then the open files in order. -/
theorem get_eq_find (h : ∀ t ∈ e.levels.flatten, t.WellFormed) (k : Bytes) :
    e.get k = (find k (e.mem.records :: e.levels.flatten.map records)).join := by
  have hmem : e.mem.get k = lookup k e.mem.records := rfl
  rw [get, findSome?_get h k, find, hmem]
  cases lookup k e.mem.records <;> rfl

theorem Shows.get_eq (h : e.Shows m) (k : Bytes) : e.get k = m.get k := by
  rw [get_eq_find h.wellFormed, h.records_levels, h.holds.get_eq k]

theorem Shows.scan_eq (h : e.Shows m) (s : Bytes) : e.scan s = m.seek s := by
  have hlayers : e.iters.map Cursor.records = e.mem.records :: e.disk.layers := by
    rw [iters, map_cons, map_map, ← h.records_levels]
    rfl
  refine scan_eq_seek (fun c hc ↦ ?_) (fun k ↦ ?_) s
  · obtain rfl | hc := mem_cons.mp hc
    · exact e.mem.entries.sorted
    · obtain ⟨t, ht, rfl⟩ := mem_map.mp hc
      exact (h.wellFormed t ht).ascending
  · rw [hlayers, h.holds.get_eq k]

/-! ### Flushes -/

/-- The effects of a flush before the compaction. -/
def flushEffects (e : Engine) : List Effect :=
  flushMemTable e.disk e.nextID e.mem ++ [.truncateWal]

/-- The directory then. -/
def flushed (e : Engine) : Disk := e.disk.applyAll e.flushEffects

/-- The compaction that follows. -/
def flushCompaction (fuel : ℕ) (e : Engine) : Compaction :=
  maybeTriggerCompaction e.opts fuel e.flushed (e.nextID + 1)

section

variable (h : e.Refines m)
include h

theorem Refines.intact_flushed : e.flushed.Intact [] m [] := by
  have hkeeps := keeps_flushMemTable ⟨h.holds, rfl⟩ h.fresh
  have hlast := hkeeps.last.holds
  have hsame := hlast.sound.same_wal []
  have hdisk : e.flushed = { e.disk.applyAll (flushMemTable e.disk e.nextID e.mem) with
      wal := [] } := by
    rw [flushed, flushEffects, applyAll, foldl_append]
    rfl
  rw [hdisk]
  refine ⟨⟨hlast.sound.same hsame, fun k ↦ ?_⟩, rfl⟩
  have hlayers := hsame.layers.trans (h.holds.sound.flushMemTable h.fresh e.mem).2
  rw [h.holds.get_eq k]
  exact (congrArg (fun ls ↦ (find k ls).join) hlayers.symm :)

theorem Refines.fresh_flushed : e.flushed.Fresh (e.nextID + 1) := by
  refine (h.fresh.mono (le_succ _)).applyAll fun id t hmem ↦ ?_
  simp only [flushEffects, flushMemTable, saveEffect, mem_append, mem_cons,
    not_mem_nil, Effect.writeTable.injEq, reduceCtorEq, or_false] at hmem
  exact hmem.1 ▸ lt_succ_self _

theorem Refines.flush_eq (fuel : ℕ) (hlen : e.mem.len ≠ 0) : ∃ levels, e.flush fuel =
        { engine :=
            { opts := e.opts
              nextID := (e.flushCompaction fuel).nextID
              mem := {}
              levels := levels
              disk := e.flushed.applyAll (e.flushCompaction fuel).effects }
          effects := e.flushEffects ++ (e.flushCompaction fuel).effects
          status := (e.flushCompaction fuel).status } ∧
      ((e.flushCompaction fuel).status = .done →
        (e.flushed.applyAll (e.flushCompaction fuel).effects).reloadLevels = some levels) := by
  have hflushed := h.intact_flushed
  obtain ⟨hkeeps, -, -⟩ := keeps_maybeTriggerCompaction e.opts fuel hflushed h.fresh_flushed
  have hreload := hflushed.holds.sound.reloadLevels
  have hreload' := hkeeps.last.holds.sound.reloadLevels
  change (applyAll _ _).reloadLevels = _ at hreload'
  simp only [flushCompaction, flushed, flushEffects] at hreload hreload' ⊢
  simp only [flush, if_neg hlen, reload, hreload]
  split <;> rename_i hdone
  · exact ⟨_, by simp only [hreload', hdone], fun _ ↦ hreload'⟩
  · exact ⟨_, rfl, fun hstatus ↦ absurd hstatus hdone⟩

theorem Refines.flush {fuel : ℕ} (hdone : (e.flush fuel).status = .done) :
    (e.flush fuel).engine.Refines m := by
  by_cases hlen : e.mem.len = 0
  · rwa [Engine.flush, if_pos hlen]
  · obtain ⟨levels, heq, hlevels⟩ := h.flush_eq fuel hlen
    obtain ⟨hkeeps, hfresh, -⟩ :=
      keeps_maybeTriggerCompaction e.opts fuel h.intact_flushed h.fresh_flushed
    rw [heq] at hdone ⊢
    exact ⟨⟨hkeeps.last.holds, hlevels hdone⟩, hfresh⟩

theorem Refines.wal_flush (fuel : ℕ) (hlen : e.mem.len ≠ 0) :
    (e.flush fuel).engine.disk.wal = [] := by
  obtain ⟨levels, heq, -⟩ := h.flush_eq fuel hlen
  rw [heq]
  exact (keeps_maybeTriggerCompaction e.opts fuel h.intact_flushed h.fresh_flushed).1.last.wal_eq

/-! ### Writes -/

/-- The engine after its log and its memtable took the entries. -/
def logged (e : Engine) (entries : List Entry) : Engine :=
  { e with
    disk := e.disk.applyAll (entries.map .append)
    mem := e.mem.applyEntries entries }

theorem Refines.logged (entries : List Entry) : (e.logged entries).Refines (updates m entries) := by
  have hdisk : (e.logged entries).disk = { e.disk with wal := e.disk.wal ++ encodeAll entries } :=
    e.disk.applyAll_append_entries entries
  have hsame := h.holds.sound.same_wal (e.disk.wal ++ encodeAll entries)
  refine ⟨⟨⟨?_, fun k ↦ ?_⟩, ?_⟩, ?_⟩
  · rw [hdisk]
    exact h.holds.sound.same hsame
  · rw [hdisk, hsame.layers]
    exact get_updates h.holds.get_eq entries k
  · rw [hdisk]
    exact h.levels
  · rw [hdisk]
    exact h.fresh

end

theorem write_eq (fuel : ℕ) (e : Engine) (entries : List Entry) : e.write fuel entries =
      if (e.logged entries).mem.size < e.opts.memThreshold then
        ⟨e.logged entries, entries.map .append, .done⟩
      else
        { (e.logged entries).flush fuel with
          effects := entries.map .append ++ ((e.logged entries).flush fuel).effects } := rfl

theorem Refines.write (h : e.Refines m) {fuel : ℕ} {entries : List Entry}
    (hdone : (e.write fuel entries).status = .done) :
    (e.write fuel entries).engine.Refines (updates m entries) := by
  rw [write_eq] at hdone ⊢
  split at hdone <;> rename_i hsize
  · rw [if_pos hsize]
    exact h.logged entries
  · rw [if_neg hsize]
    exact (h.logged entries).flush hdone

/-! ### The log -/

omit [MetaDataCodec] [BloomSizing] in
theorem Logged.logged (h : e.Logged) (entries : List Entry) : (e.logged entries).Logged := by
  obtain ⟨es, hwal, hmem⟩ := h
  refine ⟨es ++ entries, ?_, ?_⟩
  · rw [Engine.logged, applyAll_append_entries, hwal, encodeAll_append]
  · rw [Engine.logged, hmem, applyEntries, applyEntries, applyEntries, foldl_append]

theorem Refines.logged_flush_of_len (h : e.Refines m) (fuel : ℕ) (hlen : e.mem.len ≠ 0) :
    (e.flush fuel).engine.Logged := by
  refine ⟨[], h.wal_flush fuel hlen, ?_⟩
  obtain ⟨levels, heq, -⟩ := h.flush_eq fuel hlen
  rw [heq]
  rfl

theorem Refines.logged_flush (h : e.Refines m) (hl : e.Logged) (fuel : ℕ) :
    (e.flush fuel).engine.Logged := by
  by_cases hlen : e.mem.len = 0
  · rwa [Engine.flush, if_pos hlen]
  · exact h.logged_flush_of_len fuel hlen

theorem Refines.logged_write (h : e.Refines m) (hl : e.Logged) (fuel : ℕ) (entries : List Entry) :
    (e.write fuel entries).engine.Logged := by
  rw [write_eq]
  split
  · exact hl.logged entries
  · exact (h.logged entries).logged_flush (hl.logged entries) fuel

end Engine

/-! ## Opening -/

/-- The engine that `OpenLSM` makes of a sound directory. -/
def Disk.opened (d : Disk) (opts : LSMOptions) (es : List Entry) : Engine where
  opts := opts
  nextID := d.scanDirForNextID opts.dir
  mem := MemTable.applyEntries {} es
  levels := d.levels.map (List.map d.table)
  disk := d

variable {es : List Entry}

omit [BloomSizing] in
theorem Disk.openLSM_eq (h : ∀ id ∈ d.ids, d.Complete id)
    (hread : readAll d.wal = some es) (opts : LSMOptions) :
    openLSM opts d = some (d.opened opts es) := by
  rw [openLSM, reloadLevels_eq h, hread]
  rfl

theorem Disk.Sound.openLSM_eq (h : d.Sound) (hread : readAll d.wal = some es)
    (opts : LSMOptions) : openLSM opts d = some (d.opened opts es) :=
  Disk.openLSM_eq (fun id hid ↦ (h.present id hid).complete) hread opts

theorem Disk.Holds.shows_opened (h : d.Holds (applyEntries {} es).records m) (opts : LSMOptions) :
    (d.opened opts es).Shows m := ⟨h, h.sound.reloadLevels⟩

/-- `OpenLSM` finds the map that the directory shows. -/
theorem Disk.Shows.exists_openLSM (h : d.Shows m) (opts : LSMOptions) :
    ∃ e, openLSM opts d = some e ∧ e.Shows m := by
  obtain ⟨es, hread, hholds⟩ := h
  exact ⟨_, hholds.sound.openLSM_eq hread opts, hholds.shows_opened opts⟩

end Refinement

/-! ## Numbers of files -/

/-- No file has a number above the numbers of at most six digits that the pattern finds. If the
pattern matches the directory itself, this says that all its numbers have six digits. -/
def Disk.Found (d : Disk) (dir : GlobPath) : Prop :=
  ∀ id f, d.files.get id = some f → ∃ n ∈ d.globbed dir, id ≤ n ∧ n < 1000000

/-- One round of `scanDirForNextID`. -/
def scanStep (nextID id : ℕ) : ℕ :=
  if id < 1000000 then if id + 1 > nextID then id + 1 else nextID else nextID

theorem lt_foldl_scanStep_iff (ids : List ℕ) (i n : ℕ) :
    i < ids.foldl scanStep n ↔ i < n ∨ ∃ k ∈ ids, i ≤ k ∧ k < 1000000 := by
  induction ids generalizing n with
  | nil => simp
  | cons id ids ih =>
    rw [foldl_cons, ih, scanStep, exists_mem_cons_iff, ← or_assoc]
    refine or_congr_left ?_
    split_ifs <;> omega

theorem Disk.lt_scanDirForNextID_iff {d : Disk} {dir : GlobPath} {i : ℕ} :
    i < d.scanDirForNextID dir ↔ ∃ k ∈ d.globbed dir, i ≤ k ∧ k < 1000000 :=
  (lt_foldl_scanStep_iff (d.globbed dir) i 0).trans (or_iff_right (Nat.not_lt_zero i))

theorem Disk.fresh_scanDirForNextID_iff {d : Disk} {dir : GlobPath} :
    d.Fresh (d.scanDirForNextID dir) ↔ d.Found dir :=
  forall₃_congr fun _ _ _ ↦ lt_scanDirForNextID_iff

theorem Disk.Found.fresh {d : Disk} {dir : GlobPath} (h : d.Found dir) :
    d.Fresh (d.scanDirForNextID dir) := fresh_scanDirForNextID_iff.mpr h

theorem Disk.found_of_lt {d : Disk} {dir : GlobPath} (hdir : dir.matchesItself = true)
    (h : ∀ id f, d.files.get id = some f → id < 1000000) : d.Found dir := by
  intro id f hf
  refine ⟨id, mem_append_left _ ?_, le_rfl, h id f hf⟩
  rw [if_pos hdir]
  exact mem_map_of_mem (mem_entries.mpr hf)

end DucklingDB.Lsm
