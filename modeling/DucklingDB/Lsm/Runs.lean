import DucklingDB.Lsm.Refinement

/-!
# Runs of the engine

A run starts with `OpenLSM` in an empty directory and goes on with writes, batches, and `Close`
followed by `OpenLSM`. An operation is part of a run when it returns, that is, when the compaction
it triggers ends.

In every state the engine answers as the sorted map of the writes so far, provided that every
`OpenLSM` finds the numbers of the files that are there (`Disk.Found`). There are two ways for
`scanDirForNextID` to miss a file: its number has seven digits, or the path of the directory is a
pattern that does not match itself. The next flush after reopening then overwrites an SSTable, and
what was in it is gone: with a million files before it (`exists_overwritten`), or right away
(`exists_emptied`).
-/

namespace DucklingDB.Lsm

open Overlay Disk List MemTable

/-- A single write. -/
inductive Write where
  | put (key value : Bytes) (h : key.length + value.length < 256 ^ 4)
  | delete (key : Bytes) (h : key.length < 256 ^ 4)

/-- The log entry of a write. -/
def Write.entry : Write → Entry
  | .put key value h => ⟨key, value, opPut, h⟩
  | .delete key h => ⟨key, [], opDelete, h⟩

variable (m : SortedMap Bytes Bytes)

/-- What the write means. -/
def Write.spec : Write → SortedMap Bytes Bytes
  | .put key value _ => m.insert key value
  | .delete key _ => m.erase key

theorem Write.update_entry (w : Write) : w.entry.update m = w.spec m := by
  cases w with
  | put key value h => exact if_pos rfl
  | delete key h => rfl

theorem updates_entries (ws : List Write) :
    updates m (ws.map Write.entry) = ws.foldl Write.spec m := by
  induction ws generalizing m with
  | nil => rfl
  | cons w ws ih =>
    rw [map_cons, updates, foldl_cons, ← updates, ih, Write.update_entry, foldl_cons]

/-- A call of the engine. -/
inductive Call where
  | write (w : Write)
  | commit (ws : List Write)
  /-- `Close` and `OpenLSM`. -/
  | reopen (opts : LSMOptions)

/-- What the call means. -/
def Call.spec : Call → SortedMap Bytes Bytes
  | .write w => w.spec m
  | .commit ws => ws.foldl Write.spec m
  | .reopen _ => m

open SortedMap (empty get_insert_of_ne get_insert_self)

/-- The map after these calls. -/
def specAll (cs : List Call) : SortedMap Bytes Bytes := cs.foldl Call.spec empty

section Runs

variable [MetaDataCodec] [BloomSizing]

/-- The engine after an operation that returned. -/
def Outcome.returned (o : Outcome) : Option Engine :=
  if o.status = .done then some o.engine else none

namespace Engine

/-- A call that returns within this many rounds of compaction. -/
def call (fuel : ℕ) (e : Engine) : Call → Option Engine
  | .write w => (e.write fuel [w.entry]).returned
  | .commit ws => (e.write fuel (ws.map Write.entry)).returned
  | .reopen opts => (e.close fuel).returned.bind fun e ↦ openLSM opts e.disk

/-- Runs from an empty directory, with a condition on each call. -/
inductive Run (P : ℕ → Engine → Call → Prop) : List Call → Engine → Prop
  | start {opts : LSMOptions} {e : Engine} (h : openLSM opts {} = some e) : Run P [] e
  | call {cs : List Call} {e e' : Engine} {c : Call} {fuel : ℕ} (h : Run P cs e) (hP : P fuel e c)
    (hc : e.call fuel c = some e') : Run P (cs ++ [c]) e'

/-- `OpenLSM` finds the numbers of the files. -/
def FoundAtOpen (fuel : ℕ) (e : Engine) : Call → Prop
  | .reopen opts => (e.close fuel).engine.disk.Found opts.dir
  | _ => True

omit [MetaDataCodec] [BloomSizing] in
theorem returned_eq_some {o : Outcome} {e : Engine} (h : o.returned = some e) :
    o.status = .done ∧ o.engine = e := by
  rw [Outcome.returned] at h
  split at h
  · rename_i hdone
    exact ⟨hdone, by simpa using h⟩
  · cases h

variable {e e' : Engine} {m : SortedMap Bytes Bytes} {levels : List (List ℕ)}

theorem Refines.call (h : e.Refines m) (hl : e.Logged) {fuel : ℕ} {c : Call}
    (hP : FoundAtOpen fuel e c) (hc : e.call fuel c = some e') :
    e'.Refines (c.spec m) ∧ e'.Logged := by
  cases c with
  | write w =>
    obtain ⟨hdone, rfl⟩ := returned_eq_some hc
    refine ⟨?_, h.logged_write hl fuel [w.entry]⟩
    have hspec : updates m [w.entry] = Call.spec m (.write w) := updates_entries m [w]
    rw [← hspec]
    exact h.write hdone
  | commit ws =>
    obtain ⟨hdone, rfl⟩ := returned_eq_some hc
    refine ⟨?_, h.logged_write hl fuel _⟩
    have hspec : updates m (ws.map Write.entry) = Call.spec m (.commit ws) := updates_entries m ws
    rw [← hspec]
    exact h.write hdone
  | reopen opts =>
    obtain ⟨e₁, hclose, hopen⟩ := Option.bind_eq_some_iff.mp hc
    obtain ⟨hdone, rfl⟩ := returned_eq_some hclose
    have hrefines : (e.close fuel).engine.Refines m := h.flush hdone
    obtain ⟨es, hwal, hmem⟩ : (e.close fuel).engine.Logged := h.logged_flush hl fuel
    have hholds := hrefines.holds
    rw [hmem] at hholds
    rw [hholds.sound.openLSM_eq (by rw [hwal, readAll_encodeAll]) opts, Option.some.injEq] at hopen
    subst hopen
    exact ⟨⟨hholds.shows_opened opts, Disk.Found.fresh hP⟩, es, hwal, rfl⟩

theorem sound_empty : ({} : Disk).Sound where
  metaStore := MetaStore.sound_empty
  nodup := nodup_nil
  present _ hid := by cases hid

theorem refines_start {opts : LSMOptions} (h : openLSM opts {} = some e) :
    e.Refines empty ∧ e.Logged := by
  rw [sound_empty.openLSM_eq (readAll_encodeAll []) opts, Option.some.injEq] at h
  subst h
  have hholds : ({} : Disk).Holds (applyEntries {} []).records empty := ⟨sound_empty, fun _ ↦ rfl⟩
  refine ⟨⟨hholds.shows_opened opts, fun id f hf ↦ ?_⟩, [], rfl, rfl⟩
  cases show none = some f from hf

theorem Run.refines {cs : List Call} (h : Run FoundAtOpen cs e) :
    e.Refines (specAll cs) ∧ e.Logged := by
  induction h with
  | start hopen => exact refines_start hopen
  | call _ hP hc ih =>
    rw [specAll, foldl_append]
    exact ih.1.call ih.2 hP hc

/-- **The engine is a sorted map.** -/
theorem run_reads_map {cs : List Call} (h : Run FoundAtOpen cs e) :
    (∀ k, e.get k = (specAll cs).get k) ∧ ∀ s, e.scan s = (specAll cs).seek s :=
  ⟨h.refines.1.get_eq, h.refines.1.scan_eq⟩

/-! ## A million files -/

theorem flush_of_not_over {levels : List (List SSTable)} (hlen : e.mem.len ≠ 0)
    (hreload : e.flushed.reloadLevels = some levels)
    (hover : e.opts.firstOverThreshold e.flushed.levels = none) :
    e.flush 1 =
      { engine :=
          { opts := e.opts
            nextID := e.nextID + 1
            mem := {}
            levels := levels
            disk := e.flushed }
        effects := e.flushEffects
        status := .done } := by
  have hcompact : maybeTriggerCompaction e.opts 1 e.flushed (e.nextID + 1) =
      ⟨[], e.nextID + 1, .done⟩ := by
    simp only [maybeTriggerCompaction, hover]
  simp only [flushed, flushEffects] at hreload hcompact ⊢
  simp only [Engine.flush, if_neg hlen, reload, hreload, hcompact, applyAll_nil, append_nil]

/-- Every write is flushed, and level 0 takes two million files. -/
def manyOpts (dir : GlobPath) : LSMOptions := ⟨dir, 1, 2000000, fun t ↦ t * 10⟩

def onePut (k : UInt8) : Write := .put [k] [1] (by simp)

/-- The SSTable of writes that are flushed together. -/
def tableOfWrites (ws : List Write) : SSTable :=
  SSTable.ofRecords (applyEntries {} (ws.map Write.entry)).records

/-- An engine with these options whose writes have all been flushed to level 0. -/
structure Piled (e : Engine) : Prop where
  opts : e.opts = manyOpts e.opts.dir
  mem : e.mem = {}
  wal : readAll e.disk.wal = some []
  metaStore : e.disk.metaStore.Sound
  levels : e.disk.levels.length ≤ 1
  complete : ∀ i ∈ e.disk.ids, e.disk.Complete i

section

omit [MetaDataCodec] [BloomSizing]

theorem firstOverThreshold_prepend (dir : GlobPath) (hl : levels.length ≤ 1)
    (hn : levels.flatten.length < 1999999) (id : ℕ) :
    (manyOpts dir).firstOverThreshold (prependLevel0 id levels) = none := by
  have hone : ∀ level : List ℕ, level.length < 1999999 →
      (manyOpts dir).firstOverThreshold [id :: level] = none := by
    intro level hlevel
    have hthreshold : (manyOpts dir).levelThreshold 0 = 2000000 := rfl
    simp [LSMOptions.firstOverThreshold, range_succ, hthreshold]
    omega
  obtain _ | ⟨level, _ | ⟨level', levels⟩⟩ := levels
  · exact hone [] (by simp)
  · exact hone level (by simpa using hn)
  · simp at hl

theorem length_prependLevel0 (hl : levels.length ≤ 1) (id : ℕ) :
    (prependLevel0 id levels).length ≤ 1 := by
  obtain _ | ⟨level, levels⟩ := levels
  · exact le_rfl
  · exact hl

end

section

variable (hs : e.disk.metaStore.Sound)
include hs

theorem flushed_levels : e.flushed.levels = prependLevel0 e.nextID e.disk.levels :=
  levels_save hs _

theorem flushed_ids : e.flushed.ids = e.nextID :: e.disk.ids := by
  rw [ids, flushed_levels hs, flatten_prependLevel0, ids]

theorem flushed_complete (h : ∀ i ∈ e.disk.ids, e.disk.Complete i) :
    ∀ i ∈ e.flushed.ids, e.flushed.Complete i := by
  have hfiles : e.flushed.files = e.disk.files.insert e.nextID (some (.ofRecords e.mem.records)) :=
    rfl
  intro i hi
  rw [Disk.Complete, hfiles]
  by_cases heq : i = e.nextID
  · exact ⟨_, by rw [heq, get_insert_self]⟩
  · rw [flushed_ids hs] at hi
    rw [get_insert_of_ne _ heq]
    exact h i ((mem_cons.mp hi).resolve_left heq)

end

/-- Writes to such an engine add a file, or replace it if the number is taken. -/
theorem Piled.write (h : e.Piled) (hn : e.disk.ids.length < 1999999) (ws : List Write)
    (hrecords : (applyEntries {} (ws.map Write.entry)).records ≠ [])
    (hsize : 1 ≤ (applyEntries {} (ws.map Write.entry)).size) :
    ∃ e', (e.write 1 (ws.map Write.entry)).returned = some e' ∧ e'.Piled ∧
      e'.nextID = e.nextID + 1 ∧ e'.disk.ids = e.nextID :: e.disk.ids ∧
      e'.disk.files = e.disk.files.insert e.nextID (some (tableOfWrites ws)) ∧
      e'.disk.reloadLevels = some e'.levels ∧ e'.disk.wal = [] ∧
      ∃ slot buf, (e.write 1 (ws.map Write.entry)).effects = (ws.map Write.entry).map .append ++
          [.writeTable e.nextID (tableOfWrites ws), .writeSlot slot buf, .truncateWal] := by
  let e₁ : Engine :=
    { e with
      disk := { e.disk with wal := e.disk.wal ++ encodeAll (ws.map Write.entry) }
      mem := applyEntries {} (ws.map Write.entry) }
  have hlogged : e.logged (ws.map Write.entry) = e₁ := by
    rw [logged, applyAll_append_entries, h.mem]
  have hfull : ¬e₁.mem.size < e.opts.memThreshold := by
    rw [h.opts]
    exact not_lt.mpr hsize
  have hlen : e₁.mem.len ≠ 0 := length_eq_zero_iff.not.mpr hrecords
  have hlevels : e₁.flushed.levels = prependLevel0 e.nextID e.disk.levels :=
    flushed_levels h.metaStore
  have hcomplete := flushed_complete (e := e₁) h.metaStore h.complete
  have hreload := reloadLevels_eq hcomplete
  have hover : e₁.opts.firstOverThreshold e₁.flushed.levels = none := by
    rw [hlevels]
    rw [h.opts]
    exact firstOverThreshold_prepend _ h.levels hn _
  have hflush := flush_of_not_over hlen hreload hover
  refine ⟨(e₁.flush 1).engine, ?_, ?_⟩
  · rw [write_eq, hlogged, if_neg hfull, Outcome.returned]
    exact if_pos (by rw [hflush])
  · rw [hflush]
    refine ⟨⟨h.opts, rfl, rfl, h.metaStore.save _, ?_, hcomplete⟩, rfl,
      flushed_ids h.metaStore, rfl, hreload, rfl, ?_⟩
    · rw [hlevels]
      exact length_prependLevel0 h.levels _
    · rw [write_eq, hlogged, if_neg hfull, hflush]
      exact ⟨_, _, rfl⟩

theorem Piled.put (h : e.Piled) (hn : e.disk.ids.length < 1999999) (k : UInt8) :
    ∃ e', e.call 1 (.write (onePut k)) = some e' ∧ e'.Piled ∧ e'.nextID = e.nextID + 1 ∧
      e'.disk.ids = e.nextID :: e.disk.ids ∧
      e'.disk.files = e.disk.files.insert e.nextID (some (tableOfWrites [onePut k])) ∧
      e'.disk.reloadLevels = some e'.levels ∧ e'.disk.wal = [] ∧
      ∃ slot buf, (e.write 1 [(onePut k).entry]).effects =
        [.append (onePut k).entry, .writeTable e.nextID (tableOfWrites [onePut k]),
          .writeSlot slot buf, .truncateWal] :=
  h.write hn [onePut k] (cons_ne_nil _ _) (by decide : (1 : ℤ) ≤ 0 + (1 + 1))

theorem Piled.reopen (h : e.Piled) (dir : GlobPath) :
    e.call 0 (.reopen (manyOpts dir)) = some (e.disk.opened (manyOpts dir) []) ∧
      (e.disk.opened (manyOpts dir) []).Piled := by
  have hflush : e.close 0 = ⟨e, [], .done⟩ := by
    rw [close, Engine.flush]
    exact if_pos (by rw [h.mem]; rfl)
  refine ⟨?_, ⟨rfl, rfl, h.wal, h.metaStore, h.levels, h.complete⟩⟩
  rw [call, hflush]
  exact openLSM_eq h.complete h.wal (manyOpts dir)

omit [BloomSizing] in
theorem piled_start (dir : GlobPath) : (({} : Disk).opened (manyOpts dir) []).Piled :=
  ⟨rfl, rfl, rfl, MetaStore.sound_empty, Nat.zero_le _, by rintro _ ⟨⟩⟩

theorem openLSM_start (dir : GlobPath) :
    openLSM (manyOpts dir) {} = some (({} : Disk).opened (manyOpts dir) []) :=
  sound_empty.openLSM_eq (readAll_encodeAll []) (manyOpts dir)

theorem exists_piled {n : ℕ} (hn : n ≤ 1000000) :
    ∃ e, Run (fun _ _ _ ↦ True) (List.replicate n (.write (onePut 97))) e ∧ e.Piled ∧ e.nextID = n ∧
      e.disk.ids = (List.range n).reverse ∧
      ∀ i f, e.disk.files.get i = some f → f = some (tableOfWrites [onePut 97]) := by
  induction n with
  | zero =>
    refine ⟨_, Run.start (openLSM_start {}), piled_start {}, rfl, rfl, fun i f hf ↦ ?_⟩
    cases show none = some f from hf
  | succ n ih =>
    obtain ⟨e, hrun, hpiled, hnext, hids, hfiles⟩ := ih (Nat.le_of_succ_le hn)
    have hlen : e.disk.ids.length < 1999999 := by
      rw [hids, length_reverse, length_range]
      omega
    obtain ⟨e', hcall, hpiled', hnext', hids', hfiles', -⟩ := hpiled.put hlen 97
    refine ⟨e', ?_, hpiled', by rw [hnext', hnext], ?_, fun i f hf ↦ ?_⟩
    · rw [replicate_succ']
      exact hrun.call trivial hcall
    · rw [hids', hids, hnext, range_succ, reverse_append, reverse_singleton, singleton_append]
    · rw [hfiles'] at hf
      by_cases heq : i = e.nextID
      · rw [heq, get_insert_self, Option.some.injEq] at hf
        exact hf.symm
      · rw [get_insert_of_ne _ heq] at hf
        exact hfiles i f hf

/-- A key is not found if no file is the table of a put of it. -/
theorem Piled.get_eq_none (h : e.Piled) (hreload : e.disk.reloadLevels = some e.levels)
    (hfiles : ∀ i f, e.disk.files.get i = some f → ∃ k ≠ 98, f = some (tableOfWrites [onePut k])) :
    e.get [98] = none := by
  rw [reloadLevels_eq h.complete, Option.some.injEq] at hreload
  have hnone : e.levels.flatten.findSome? (fun t ↦ t.get [98]) = none := by
    rw [findSome?_eq_none_iff, ← hreload, ← map_flatten]
    intro t ht
    obtain ⟨i, hi, rfl⟩ := mem_map.mp ht
    obtain ⟨t, ht⟩ := h.complete i hi
    have htable : e.disk.table i = t := by
      rw [table, openTable, ht]
      rfl
    obtain ⟨k, hk, heq⟩ := hfiles i _ ht
    rw [htable, Option.some.inj heq, tableOfWrites]
    change (SSTable.ofRecords [([k], some [1])]).get [98] = none
    rw [SSTable.get_ofRecords (pairwise_singleton _ _)]
    exact SortedMap.lookup_eq_none fun r hr ↦ by
      rw [mem_singleton.mp hr]
      simpa using hk
  rw [Engine.get, h.mem, hnone]
  rfl

end Engine

end Runs

namespace Engine

/-- A write and a batch, each flushed to a file of its own, and the directory reopened. -/
def busyCalls : List Call :=
  [.write (onePut 97), .commit [onePut 98, onePut 99], .reopen (manyOpts {})]

theorem exists_busy : ∃ e, Run FoundAtOpen busyCalls e ∧ e.Piled ∧ e.disk.ids.length < 1999999 ∧
    e.nextID < 1000000 ∧ ∀ id f, e.disk.files.get id = some f → id < 1000000 := by
  obtain ⟨e₁, hput, hpiled₁, hnext₁, hids₁, hfiles₁, -⟩ := (piled_start {}).put (by decide) 97
  obtain ⟨e₂, hcommit, hpiled₂, -, hids₂, hfiles₂, -⟩ := hpiled₁.write
    (by rw [hids₁]; decide) [onePut 98, onePut 99] (by decide) (by decide)
  have hlt : ∀ id f, e₂.disk.files.get id = some f → id < 2 := by
    intro id f hf
    rw [hfiles₂, hfiles₁, hnext₁] at hf
    by_contra hge
    have hne (n : ℕ) (hn : n < 2) : id ≠ n := by omega
    rw [get_insert_of_ne _ (hne _ (by decide)), get_insert_of_ne _ (hne _ (by decide))] at hf
    cases show none = some f from hf
  have hnext : e₂.disk.scanDirForNextID {} < 1000000 := by
    by_contra hge
    obtain ⟨k, hk, hle, -⟩ :=
      lt_scanDirForNextID_iff.mp (show 999999 < e₂.disk.scanDirForNextID {} by omega)
    obtain ⟨⟨id, f⟩, hf, rfl⟩ := mem_map.mp ((mem_append.mp hk).resolve_right not_mem_nil)
    have := hlt id f (SortedMap.mem_entries.mp hf)
    omega
  obtain ⟨hreopen, hpiled₃⟩ := hpiled₂.reopen {}
  have hclose : (e₂.close 0).engine.disk = e₂.disk := by
    rw [close, Engine.flush, if_pos (by rw [hpiled₂.mem]; rfl)]
  have hsix : ∀ id f, e₂.disk.files.get id = some f → id < 1000000 := fun id f hf ↦
    (hlt id f hf).trans (by decide)
  have hfound : FoundAtOpen 0 e₂ (.reopen (manyOpts {})) := by
    rw [FoundAtOpen, hclose]
    exact found_of_lt rfl hsix
  refine ⟨_, (((Run.start (openLSM_start {})).call trivial hput).call (c := .commit _) trivial
    hcommit).call hfound hreopen, hpiled₃, ?_, hnext, hsix⟩
  change e₂.disk.ids.length < 1999999
  rw [hids₂, hids₁]
  exact (by decide : 2 < 1999999)

/-- What was written before the directory was reopened, alone and in a batch, is read behind it. -/
theorem run_reads_map_reopened : ∃ e, Run FoundAtOpen (busyCalls ++ [.write (onePut 100)]) e ∧
    e.get [97] = some [1] ∧ e.get [99] = some [1] := by
  obtain ⟨e, hrun, hpiled, hlen, -⟩ := exists_busy
  obtain ⟨e', hput, -⟩ := hpiled.put hlen 100
  have hrun' : Run FoundAtOpen (busyCalls ++ [.write (onePut 100)]) e' := hrun.call trivial hput
  exact ⟨e', hrun', (run_reads_map hrun').1 [97], (run_reads_map hrun').1 [99]⟩

/-- A million files and one more: the scan finds 999999 and goes on from there. -/
theorem exists_taken : ∃ e, Run (fun _ _ _ ↦ True) (List.replicate 1000000 (.write (onePut 97)) ++
        [.write (onePut 98)] ++ [.reopen (manyOpts {})]) e ∧
      e.Piled ∧ e.disk.ids.length < 1999999 ∧
      e.disk.files.get e.nextID = some (some (tableOfWrites [onePut 98])) ∧
      ∀ i f, i ≠ e.nextID → e.disk.files.get i = some f → f = some (tableOfWrites [onePut 97]) := by
  obtain ⟨e₀, hrun₀, hpiled₀, hnext₀, hids₀, hfiles₀⟩ := exists_piled le_rfl
  have hlen₀ : e₀.disk.ids.length = 1000000 := by
    rw [hids₀, length_reverse, length_range]
  obtain ⟨e₁, hcall₁, hpiled₁, hnext₁, hids₁, hfiles₁, -⟩ := hpiled₀.put (by omega) 98
  obtain ⟨hcall₂, hpiled₂⟩ := hpiled₁.reopen {}
  have hscan : (e₁.disk.opened (manyOpts {}) []).nextID = e₀.nextID := by
    change e₁.disk.scanDirForNextID {} = e₀.nextID
    have hmem : 999999 ∈ e₀.disk.ids := by
      rw [hids₀, mem_reverse, mem_range]
      omega
    obtain ⟨t, ht⟩ := hpiled₀.complete 999999 hmem
    have hget : e₁.disk.files.get 999999 = some (some t) := by
      rw [hfiles₁, hnext₀, get_insert_of_ne _ (by decide), ht]
    have hlt : 999999 < e₁.disk.scanDirForNextID {} := lt_scanDirForNextID_iff.mpr
      ⟨999999, mem_append_left _ (mem_map_of_mem (f := Prod.fst) (SortedMap.mem_entries.mpr hget)),
        le_rfl, by decide⟩
    have hle : ¬1000000 < e₁.disk.scanDirForNextID {} := fun h ↦ by
      obtain ⟨k, -, hk⟩ := lt_scanDirForNextID_iff.mp h
      omega
    omega
  refine ⟨_, (hrun₀.call trivial hcall₁).call trivial hcall₂, hpiled₂, ?_, ?_, fun i f hne hf ↦ ?_⟩
  · change e₁.disk.ids.length < 1999999
    rw [hids₁, length_cons, hlen₀]
    omega
  · rw [hscan]
    exact (congrArg (SortedMap.get · e₀.nextID) hfiles₁).trans (get_insert_self ..)
  · change e₁.disk.files.get i = some f at hf
    rw [hfiles₁, get_insert_of_ne _ (hscan ▸ hne)] at hf
    exact hfiles₀ i f hf

/-- With a million files before it, an SSTable is overwritten after the directory is reopened. -/
theorem exists_overwritten :
    ∃ cs e, Run (fun _ _ _ ↦ True) cs e ∧ (specAll cs).get [98] = some [1] ∧ e.get [98] = none := by
  obtain ⟨e₂, hrun₂, hpiled₂, hlen₂, -, hfiles₂⟩ := exists_taken
  obtain ⟨e₃, hcall₃, hpiled₃, -, -, hfiles₃, hreload₃, -⟩ := hpiled₂.put hlen₂ 99
  refine ⟨_, e₃, hrun₂.call trivial hcall₃, ?_, hpiled₃.get_eq_none hreload₃ fun i f hf ↦ ?_⟩
  · simp only [specAll, foldl_append]
    change SortedMap.get (SortedMap.insert (SortedMap.insert _ [98] [1]) [99] [1]) [98] = some [1]
    rw [get_insert_of_ne _ (by decide), get_insert_self]
  · rw [hfiles₃] at hf
    by_cases heq : i = e₂.nextID
    · rw [heq, get_insert_self, Option.some.injEq] at hf
      exact ⟨99, by decide, hf.symm⟩
    · rw [get_insert_of_ne _ heq] at hf
      exact ⟨97, by decide, hfiles₂ i f heq hf⟩

/-- A directory whose path is a pattern that finds nothing: the numbers start at zero once more, and
the only file is overwritten. -/
theorem exists_emptied : ∃ e, Run (fun _ _ _ ↦ True)
      [.write (onePut 98), .reopen (manyOpts ⟨false, []⟩), .write (onePut 97)] e ∧ e.Piled ∧
      e.disk.files = SortedMap.empty.insert 0 (some (tableOfWrites [onePut 97])) ∧
      e.disk.ids.length < 1999999 := by
  obtain ⟨e₁, hcall₁, hpiled₁, -, hids₁, hfiles₁, -⟩ := (piled_start {}).put (by decide) 98
  obtain ⟨hcall₂, hpiled₂⟩ := hpiled₁.reopen ⟨false, []⟩
  have hlen₂ : (e₁.disk.opened (manyOpts ⟨false, []⟩) []).disk.ids.length < 1999999 := by
    change e₁.disk.ids.length < 1999999
    rw [hids₁]
    decide
  obtain ⟨e₃, hcall₃, hpiled₃, -, hids₃, hfiles₃, -⟩ := hpiled₂.put hlen₂ 97
  refine ⟨e₃,
    (((Run.start (openLSM_start {})).call trivial hcall₁).call trivial hcall₂).call trivial
    hcall₃, hpiled₃, ?_, ?_⟩
  · rw [hfiles₃]
    change e₁.disk.files.insert 0 _ = _
    rw [hfiles₁]
    exact SortedMap.ext_get fun i ↦ by
      by_cases hi : i = 0
      · rw [hi, get_insert_self, get_insert_self]
      · rw [get_insert_of_ne _ hi, get_insert_of_ne _ hi]
        exact get_insert_of_ne _ hi _
  · rw [hids₃]
    change e₁.disk.ids.length + 1 < 1999999
    rw [hids₁]
    decide

end Engine

end DucklingDB.Lsm
