import DucklingDB.Lsm.Readers

/-!
# What an iterator observes

In every state the level set and the open iterators account for all references: a reader has one for
the level set and one for each iterator that pinned it, and its file is closed exactly if it has
none. So no release panics, whether or not every file could be opened on the way.

An iterator goes through the pairs that `Get` answered when it was created, whatever is written,
flushed, compacted or removed afterwards. As long as every reload succeeded, that is the map of the
writes.

This rests on files not being written a second time. If `OpenLSM` misses a file, because its path is
a pattern that does not match itself, a flush truncates the file under an iterator
(`exists_truncated`).
-/

namespace DucklingDB.Lsm

open Overlay SortedMap MergeIterator List Nat MemTable

/-! ## Changes of the directory -/

/-- The readers are held and show what they did before. -/
structure Kept (p p' : Pool Handle) : Prop where
  counted : ∀ {own}, p.Counted own → p'.Counted own
  tableOf_eq : ∀ i, tableOf p' i = tableOf p i

theorem Kept.trans {p₁ p₂ p₃ : Pool Handle} (h : Kept p₁ p₂) (h' : Kept p₂ p₃) : Kept p₁ p₃ :=
  ⟨fun hc ↦ h'.counted (h.counted hc), fun i ↦ (h'.tableOf_eq i).trans (h.tableOf_eq i)⟩

theorem Handle.table_after {d : Disk} {e : Effect}
    (h : ∀ id t, e = .writeTable id t → d.files.get id = none) (f : Handle) :
    (f.after d e).table = f.table := by
  cases e with
  | writeTable id t => simp [Handle.after, h id t rfl]
  | removeTable id =>
    rw [Handle.after]
    split <;> rfl
  | append _ => rfl
  | truncateWal => rfl
  | writeSlot _ _ => rfl

theorem kept_after {d : Disk} {e : Effect}
    (h : ∀ id t, e = .writeTable id t → d.files.get id = none)
    (p : Pool Handle) : Kept p (p.map (Handle.after d e)) where
  counted hc := hc.map _
  tableOf_eq i := by
    have htable : Handle.table ∘ Handle.after d e = Handle.table := funext (Handle.table_after h)
    rw [tableOf, tableOf, Pool.map, Option.map_map, htable]

theorem System.exists_applyAll (s : System) {es : List Effect} (h : SafeAll s.disk es) :
    ∃ pool, s.applyAll es = { s with disk := s.disk.applyAll es, pool := pool } ∧
      Kept s.pool pool := by
  induction es generalizing s with
  | nil => exact ⟨s.pool, rfl, id, fun _ ↦ rfl⟩
  | cons e es ih =>
    obtain ⟨pool, heq, hkept⟩ := ih (s.apply e) h.2
    exact ⟨pool, heq, (kept_after h.1 s.pool).trans hkept⟩

/-! ## One iterator -/

namespace PinnedIterator

/-- The iterator goes through the pairs of `view`, and its files are those of its readers. -/
structure Valid (p : Pool Handle) (view : SortedMap Bytes Bytes) (it : PinnedIterator) : Prop where
  nodup : it.pinned.Nodup
  created : ∀ k, view.get k = it.created k
  sources : ∃ mem, it.inner.iters.map Cursor.records =
    mem :: it.pinned.map fun i ↦ (tableOf p i).records
  ascending : ∀ rs ∈ it.inner.iters.map Cursor.records, Ascending rs
  get_eq : ∀ k, view.get k = (find k (it.inner.iters.map Cursor.records)).join
  position : ∀ key n, it.moves = some (key, n) →
    DeletedFilterIterator.Positioned it.inner ((view.seek key).drop n)

variable {p p' : Pool Handle} {view : SortedMap Bytes Bytes} {it : PinnedIterator}

theorem Valid.congr (h : it.Valid p view) (hp : ∀ i ∈ it.pinned, tableOf p' i = tableOf p i) :
    it.Valid p' view := by
  obtain ⟨mem, hmem⟩ := h.sources
  refine { h with sources := ⟨mem, hmem.trans (congrArg (mem :: ·) ?_)⟩ }
  exact map_congr_left fun i hi ↦ by rw [hp i hi]

theorem zipWith_visible {cs : List Cursor} {is : List ℕ} (hopen : ∀ i ∈ is, p.closed i = false)
    (h : cs.map Cursor.records = is.map fun i ↦ (tableOf p i).records) :
    List.zipWith (fun c i ↦ { c with records := visible p i }) cs is = cs := by
  induction cs generalizing is with
  | nil => rfl
  | cons c cs ih =>
    obtain _ | ⟨i, is⟩ := is
    · cases h
    · obtain ⟨hc, hcs⟩ := List.cons.inj h
      have hvisible : visible p i = c.records := by
        rw [visible, hopen i (.head _), hc]
        rfl
      rw [zipWith_cons_cons, ih (fun j hj ↦ hopen j (mem_cons_of_mem i hj)) hcs, hvisible]

section

variable (h : it.Valid p view)
include h

theorem Valid.refresh_eq (hopen : ∀ i ∈ it.pinned, p.closed i = false) :
    it.refresh p = it.inner := by
  obtain ⟨mem, hmem⟩ := h.sources
  rw [refresh]
  split
  · rename_i hnil
    rw [hnil] at hmem
    cases hmem
  · rename_i c cs hcons
    rw [hcons, map_cons] at hmem
    rw [zipWith_visible hopen (List.cons.inj hmem).2, ← hcons]

theorem Valid.moved {inner : MergeIterator} {moves : Option (Bytes × ℕ)}
    (hrecords : inner.iters.map Cursor.records = it.inner.iters.map Cursor.records)
    (hpos : ∀ key n, moves = some (key, n) →
      DeletedFilterIterator.Positioned inner ((view.seek key).drop n)) :
    { it with inner := inner, moves := moves : PinnedIterator }.Valid p view where
  nodup := h.nodup
  created := h.created
  sources := hrecords ▸ h.sources
  ascending := hrecords ▸ h.ascending
  get_eq := hrecords ▸ h.get_eq
  position := hpos

theorem Valid.seek (hopen : ∀ i ∈ it.pinned, p.closed i = false) (key : Bytes) :
    (it.seek p key).Valid p view := by
  rw [PinnedIterator.seek, h.refresh_eq hopen]
  refine h.moved ?_ fun key' n hmoves ↦ ?_
  · rw [DeletedFilterIterator.seek, DeletedFilterIterator.map_records_skip, map_records_seek]
  · obtain ⟨rfl, rfl⟩ : key = key' ∧ 0 = n := by simpa using hmoves
    exact positioned_seek (fun c hc ↦ h.ascending _ (mem_map_of_mem hc)) h.get_eq key

theorem Valid.next (hopen : ∀ i ∈ it.pinned, p.closed i = false) : (it.next p).Valid p view := by
  rw [PinnedIterator.next, h.refresh_eq hopen]
  refine h.moved ?_ fun key n hmoves ↦ ?_
  · rw [DeletedFilterIterator.next, DeletedFilterIterator.map_records_skip, map_records_next]
  · obtain ⟨⟨key', n'⟩, hmoved, heq⟩ := Option.map_eq_some_iff.mp hmoves
    obtain ⟨rfl, rfl⟩ := Prod.mk.inj heq
    have hpos := (h.position key' n' hmoved).next
    rwa [tail_drop] at hpos

end

end PinnedIterator

/-! ## The references -/

namespace System

open PinnedIterator (pinned)

/-- Who holds a reference to the reader. -/
def own (s : System) (i : ℕ) : ℕ :=
  (s.levels.flatten ++ s.iters.flatMap pinned).count i

section Invariant

variable [MetaDataCodec] [BloomSizing]

/-- The references are accounted for, and the open iterators are as they should be. -/
structure Readers (s : System) : Prop where
  nodup : s.levels.flatten.Nodup
  wellFormed : ∀ i ∈ s.levels.flatten, (tableOf s.pool i).WellFormed
  counted : s.pool.Counted s.own
  valid : ∀ it ∈ s.iters, ∃ view, it.Valid s.pool view

variable {s : System}

omit [MetaDataCodec] [BloomSizing] in
theorem own_ne_zero {i : ℕ} :
    s.own i ≠ 0 ↔ i ∈ s.levels.flatten ∨ ∃ it ∈ s.iters, i ∈ it.pinned := by
  rw [own, Ne, count_eq_zero, not_not, mem_append, mem_flatMap]

omit [MetaDataCodec] in
theorem Readers.open_pinned (h : s.Readers) {it : PinnedIterator} (hit : it ∈ s.iters) :
    ∀ i ∈ it.pinned, s.pool.closed i = false := by
  intro i hi
  rw [← Bool.not_eq_true, h.counted.closed_iff]
  exact own_ne_zero.mpr (.inr ⟨it, hit, hi⟩)

omit [MetaDataCodec] in
theorem Readers.kept (h : s.Readers) {pool : Pool Handle} (hk : Kept s.pool pool) (d : Disk) (n : ℕ)
    (mem : MemTable) :
    Readers { s with disk := d, pool := pool, nextID := n, mem := mem } where
  nodup := h.nodup
  wellFormed i hi := by
    rw [hk.tableOf_eq i]
    exact h.wellFormed i hi
  counted := hk.counted h.counted
  valid it hit := by
    obtain ⟨view, hview⟩ := h.valid it hit
    exact ⟨view, hview.congr fun i _ ↦ hk.tableOf_eq i⟩

/-! ### Reloading the levels -/

section

omit [MetaDataCodec] [BloomSizing]

theorem openFiles_eq {d : Disk} {ids : List ℕ} (h : ∀ id ∈ ids, d.Complete id) (fail : Option ℕ) :
    ∃ j ≤ ids.length, openFiles d fail ids =
        ((ids.take j).map fun id ↦ ⟨id, d.table id, true⟩, decide (j = ids.length)) ∧
      (fail = none → j = ids.length) := by
  induction ids generalizing fail with
  | nil => exact ⟨0, le_rfl, rfl, fun _ ↦ rfl⟩
  | cons id ids ih =>
    obtain ⟨j, hj, heq, hnone⟩ := ih (fun i hi ↦ h i (mem_cons_of_mem id hi)) (fail.map (· - 1))
    have htable := Disk.openTable_eq (h id (.head _)).choose_spec
    obtain _ | _ | n := fail
    · refine ⟨j + 1, succ_le_succ hj, ?_, fun _ ↦ congrArg _ (hnone rfl)⟩
      simp only [openFiles, htable, heq]
      simp
    · exact ⟨0, zero_le _, rfl, by simp⟩
    · refine ⟨j + 1, succ_le_succ hj, ?_, by simp⟩
      simp only [openFiles, htable, heq]
      simp

theorem flatten_numbered (n : ℕ) (levels : List (List ℕ)) :
    (numbered n levels).flatten = List.range' n levels.flatten.length := by
  induction levels generalizing n with
  | nil => rfl
  | cons level levels ih =>
    rw [numbered, flatten_cons, ih, flatten_cons, length_append, List.range'_append_1]

theorem tableOf_allocAll (p : Pool Handle) (handles : List Handle) :
    (List.range' p.next handles.length).map (tableOf (p.allocAll handles)) =
      handles.map Handle.table := by
  have hcontent := congrArg
    (List.map fun o : Option Handle ↦ (o.map Handle.table).getD ⟨[], ⟨[], 0, 0⟩⟩)
    (p.content_allocAll handles)
  rw [map_map, map_map] at hcontent
  exact hcontent

end

/-- The level set is replaced by one that shows the listed files, or by none. -/
theorem Readers.reload (h : s.Readers) (hd : s.disk.Sound) (fail : Option ℕ) :
    ∃ pool levels ok, s.reload fail = some ({ s with pool := pool, levels := levels }, ok) ∧
      Readers { s with pool := pool, levels := levels } ∧
      (ok = true → levels.flatten.map (tableOf pool) = s.disk.ids.map s.disk.table) ∧
      (fail = none → ok = true) := by
  obtain ⟨p₁, hp₁, hcontent₁, hnext₁, hcounted⟩ := h.counted.exists_unrefAll s.levels.flatten
    fun i ↦ by rw [own, count_append]; exact le_add_right _ _
  have hcounted₁ : p₁.Counted fun i ↦ (s.iters.flatMap pinned).count i :=
    hcounted.congr fun i ↦ by rw [own, count_append, Nat.add_sub_cancel_left]
  obtain ⟨j, hj, hopen, hnone⟩ := openFiles_eq (fun id hid ↦ (hd.present id hid).complete) fail
  let handles : List Handle := (s.disk.ids.take j).map fun id ↦ ⟨id, s.disk.table id, true⟩
  have hcounted₂ := hcounted₁.allocAll handles
  -- the readers of the open iterators are older
  have hold {p : Pool Handle} (hp : p.content = (p₁.allocAll handles).content) :
      ∀ it ∈ s.iters, ∃ view, it.Valid p view := by
    intro it hit
    obtain ⟨view, hview⟩ := h.valid it hit
    refine ⟨view, hview.congr fun i hi ↦ ?_⟩
    have hlt := h.counted.lt_next i (own_ne_zero.mpr (.inr ⟨it, hit, hi⟩))
    rw [tableOf, tableOf, hp, Pool.content_allocAll_of_lt _ _ (hnext₁ ▸ hlt), hcontent₁]
  have htables : (List.range' p₁.next handles.length).map (tableOf (p₁.allocAll handles)) =
      (s.disk.ids.take j).map s.disk.table := by
    rw [tableOf_allocAll, map_map]
    rfl
  have hlen : handles.length = j := by simp [handles, hj]
  by_cases hall : j = s.disk.ids.length
  · have hflat : (numbered p₁.next s.disk.levels).flatten = List.range' p₁.next handles.length := by
      rw [flatten_numbered, hlen, hall, Disk.ids]
    rw [hall, take_length] at htables
    refine ⟨p₁.allocAll handles, numbered p₁.next s.disk.levels, true, ?_, ?_, fun _ ↦ ?_,
      fun _ ↦ rfl⟩
    · simp only [System.reload, hp₁, hopen, Option.bind_some, decide_eq_true hall, if_true]
      rfl
    · refine ⟨hflat ▸ nodup_range', fun i hi ↦ ?_, hcounted₂.congr fun i ↦ ?_, hold rfl⟩
      · have hmem := mem_map_of_mem (f := tableOf (p₁.allocAll handles)) (hflat ▸ hi)
        rw [htables] at hmem
        obtain ⟨id, hid, heq⟩ := mem_map.mp hmem
        exact heq ▸ (hd.present id hid).wellFormed
      · rw [own, count_append, hflat, add_comm]
    · rw [hflat, htables]
  · obtain ⟨p₃, hp₃, hcontent₃, -, hcounted₃⟩ := hcounted₂.exists_unrefAll
      (List.range' p₁.next handles.length) fun i ↦ le_add_left _ _
    refine ⟨p₃, [], false, ?_, ?_, by simp, fun hf ↦ absurd (hnone hf) hall⟩
    · simp only [System.reload, hp₁, hopen, Option.bind_some, decide_eq_false hall,
        Bool.false_eq_true, if_false]
      exact congrArg (Option.map _) hp₃
    · refine ⟨nodup_nil, by simp, hcounted₃.congr fun i ↦ ?_, hold hcontent₃⟩
      rw [own, Nat.add_sub_cancel]
      rfl

/-! ### The directory and the level set -/

/-- The state stands for the map: the memtable over the directory reads as it. -/
structure Inv (s : System) (m : SortedMap Bytes Bytes) : Prop extends Readers s where
  holds : s.disk.Holds s.mem.records m
  fresh : s.disk.Fresh s.nextID

/-- The memtable over the level set reads as the map. -/
def Loaded (s : System) (m : SortedMap Bytes Bytes) : Prop :=
  ∀ k, m.get k =
    (find k (s.mem.records :: (s.levels.flatten.map (tableOf s.pool)).map SSTable.records)).join

variable {m : SortedMap Bytes Bytes} {f : PinnedIterator → PinnedIterator}

omit [MetaDataCodec] [BloomSizing] in
theorem flatten_engine_levels (s : System) :
    s.engine.levels.flatten = s.levels.flatten.map (tableOf s.pool) := by
  rw [engine, map_flatten]

omit [MetaDataCodec] in
theorem Readers.wellFormed_engine (h : s.Readers) :
    ∀ t ∈ s.engine.levels.flatten, t.WellFormed := by
  rw [flatten_engine_levels]
  intro t ht
  obtain ⟨i, hi, rfl⟩ := mem_map.mp ht
  exact h.wellFormed i hi

omit [MetaDataCodec] in
theorem Loaded.get_eq (h : s.Loaded m) (hr : s.Readers) (k : Bytes) : s.engine.get k = m.get k := by
  rw [Engine.get_eq_find hr.wellFormed_engine, flatten_engine_levels, h k]
  rfl

/-- The engine whose level set is that of the directory. -/
def synced (s : System) : Engine :=
  { s.engine with levels := s.disk.levels.map (List.map s.disk.table) }

theorem Inv.refines_synced (h : s.Inv m) : s.synced.Refines m :=
  ⟨⟨h.holds, h.holds.sound.reloadLevels⟩, h.fresh⟩

theorem Inv.reload (h : s.Inv m) (fail : Option ℕ) :
    ∃ s' ok, s.reload fail = some (s', ok) ∧ s'.Inv m ∧ (ok = true → s'.Loaded m) ∧
      (fail = none → ok = true) := by
  obtain ⟨pool, levels, ok, heq, hreaders, hlevels, hok⟩ := h.toReaders.reload h.holds.sound fail
  refine ⟨_, ok, heq, ⟨hreaders, h.holds, h.fresh⟩, fun htrue k ↦ ?_, hok⟩
  rw [hlevels htrue, map_map]
  exact h.holds.get_eq k

omit [MetaDataCodec] [BloomSizing] in
theorem Loaded.congr {s' : System} (h : s.Loaded m)
    (htable : ∀ i, tableOf s'.pool i = tableOf s.pool i) (hlevels : s'.levels = s.levels)
    (hmem : s'.mem = s.mem) : s'.Loaded m := by
  rw [Loaded, hlevels, hmem, funext htable]
  exact h

/-! ### Writes and flushes -/

section

variable (h : s.Inv m)
include h

theorem Inv.writeOut : s.writeOut.Inv m := by
  obtain ⟨pool, heq, hkept⟩ := s.exists_applyAll (safe_flushEffects (e := s.engine) h.fresh)
  rw [System.writeOut, heq]
  exact ⟨h.toReaders.kept hkept _ _ _, h.refines_synced.intact_flushed.holds,
    h.refines_synced.fresh_flushed⟩

theorem Inv.compact (rounds : ℕ) :
    (s.compact rounds).1.Inv m ∧ (s.Loaded m → (s.compact rounds).1.Loaded m) := by
  have hintact : s.disk.Intact s.mem.records m s.disk.wal := ⟨h.holds, rfl⟩
  obtain ⟨hkeeps, hfresh, -⟩ := keeps_maybeTriggerCompaction s.opts rounds hintact h.fresh
  obtain ⟨pool, heq, hkept⟩ :=
    s.exists_applyAll (safe_maybeTriggerCompaction s.opts rounds hintact h.fresh)
  rw [System.compact, heq]
  exact ⟨⟨h.toReaders.kept hkept _ _ _, hkeeps.last.holds, hfresh⟩,
    fun hl ↦ hl.congr hkept.tableOf_eq rfl rfl⟩

/-- A flush keeps the map, and with every file opened the level set reads as it. -/
theorem Inv.flush (rounds : ℕ) (fail₁ fail₂ : Option ℕ) :
    ∃ s' status, s.flush rounds fail₁ fail₂ = some (s', status) ∧ s'.Inv m ∧
      (fail₁ = none → fail₂ = none → s.Loaded m → s'.Loaded m) := by
  rw [System.flush]
  split
  · exact ⟨s, .done, rfl, h, fun _ _ hl ↦ hl⟩
  obtain ⟨s₁, ok₁, hreload₁, hinv₁, hloaded₁, hok₁⟩ := h.writeOut.reload fail₁
  rw [hreload₁, Option.bind_some]
  cases ok₁ with
  | false => exact ⟨s₁, .failed, rfl, hinv₁, fun hf ↦ by cases hok₁ hf⟩
  | true =>
    obtain ⟨hinv₂, hloaded₂⟩ := hinv₁.compact rounds
    simp only [if_true]
    split
    · obtain ⟨s₃, ok₃, hreload₃, hinv₃, hloaded₃, hok₃⟩ := hinv₂.reload fail₂
      exact ⟨s₃, _, by rw [hreload₃]; rfl, hinv₃, fun _ hf _ ↦ hloaded₃ (hok₃ hf)⟩
    · exact ⟨_, _, rfl, hinv₂, fun _ _ _ ↦ hloaded₂ (hloaded₁ rfl)⟩

theorem Inv.logged (entries : List Entry) :
    (s.logged entries).Inv (updates m entries) ∧
      (s.Loaded m → (s.logged entries).Loaded (updates m entries)) := by
  have hsafe : SafeAll s.disk (entries.map .append) :=
    safeAll_of_not_mem fun id t hmem ↦ by simp at hmem
  obtain ⟨pool, heq, hkept⟩ := s.exists_applyAll hsafe
  have hrefines := h.refines_synced.logged entries
  rw [System.logged, heq]
  refine ⟨⟨h.toReaders.kept hkept _ _ _, hrefines.holds, hrefines.fresh⟩, fun hl k ↦ ?_⟩
  have hl' : { s with pool := pool : System }.Loaded m := hl.congr hkept.tableOf_eq rfl rfl
  exact get_updates hl' entries k

theorem Inv.write (rounds : ℕ) (fail₁ fail₂ : Option ℕ) (entries : List Entry) :
    ∃ s' status, s.write rounds fail₁ fail₂ entries = some (s', status) ∧
      s'.Inv (updates m entries) ∧
      (fail₁ = none → fail₂ = none → s.Loaded m → s'.Loaded (updates m entries)) := by
  obtain ⟨hinv, hloaded⟩ := h.logged entries
  rw [System.write]
  split
  · exact ⟨_, .done, rfl, hinv, fun _ _ ↦ hloaded⟩
  · obtain ⟨s', status, heq, hinv', hloaded'⟩ := hinv.flush rounds fail₁ fail₂
    exact ⟨s', status, heq, hinv', fun hf₁ hf₂ hl ↦ hloaded' hf₁ hf₂ (hloaded hl)⟩

end

/-! ### Iterators -/

omit [MetaDataCodec] [BloomSizing] in
theorem records_newMergedIterator (s : System) :
    s.newMergedIterator.inner.iters.map Cursor.records =
      s.mem.records :: s.levels.flatten.map fun i ↦ (tableOf s.pool i).records := by
  rw [newMergedIterator, new, pickWinner, map_cons, map_map]
  rfl

section

omit [MetaDataCodec]

theorem Readers.valid_newMergedIterator (h : s.Readers) :
    ∃ view, s.newMergedIterator.Valid s.pool view := by
  have hrecords := s.records_newMergedIterator
  have hasc : ∀ rs ∈ s.newMergedIterator.inner.iters.map Cursor.records, Ascending rs := by
    rw [hrecords]
    intro rs hrs
    obtain rfl | hrs := mem_cons.mp hrs
    · exact s.mem.entries.sorted
    · obtain ⟨i, hi, rfl⟩ := mem_map.mp hrs
      exact (h.wellFormed i hi).ascending
  obtain ⟨view, hview⟩ := exists_map fun c hc ↦ hasc _ (mem_map_of_mem hc)
  refine ⟨view, h.nodup, fun k ↦ ?_, ⟨s.mem.records, hrecords⟩, hasc, hview,
    fun key n hmoves ↦ absurd hmoves (by simp [newMergedIterator])⟩
  change _ = s.engine.get k
  rw [hview k, hrecords, Engine.get_eq_find h.wellFormed_engine, flatten_engine_levels, map_map]
  rfl

theorem Readers.own_eq (h : s.Readers) (i : ℕ) : s.own i =
      (if i ∈ s.levels.flatten then 1 else 0) +
      s.iters.countP (fun it ↦ decide (i ∈ it.pinned)) := by
  have hlevels : s.levels.flatten.count i = if i ∈ s.levels.flatten then 1 else 0 := by
    split
    · exact count_eq_one_of_mem h.nodup ‹_›
    · exact count_eq_zero_of_not_mem ‹_›
  have hiters (its : List PinnedIterator) (hits : ∀ it ∈ its, it.pinned.Nodup) :
      (its.flatMap pinned).count i = its.countP (fun it ↦ decide (i ∈ it.pinned)) := by
    induction its with
    | nil => rfl
    | cons it its ih =>
      rw [flatMap_cons, count_append, ih fun j hj ↦ hits j (mem_cons_of_mem it hj),
        countP_cons, add_comm]
      congr 1
      by_cases hi : i ∈ it.pinned
      · simp [hi, count_eq_one_of_mem (hits it (.head _)) hi]
      · simp [hi, count_eq_zero_of_not_mem hi]
  have hnodup : ∀ it ∈ s.iters, it.pinned.Nodup := fun it hit ↦ (h.valid it hit).choose_spec.nodup
  rw [own, count_append, hlevels, hiters s.iters hnodup]

theorem Readers.newIterator (h : s.Readers) (hfew : s.iters.length + 2 < 2 ^ 31) :
    s.newIterator.Readers := by
  have hheld : ∀ i ∈ s.levels.flatten, s.own i ≠ 0 := fun i hi ↦ own_ne_zero.mpr (.inl hi)
  have hlt (i : ℕ) : s.own i + s.levels.flatten.count i < 2 ^ 31 := by
    have hone : s.levels.flatten.count i ≤ 1 := nodup_iff_count_le_one.mp h.nodup i
    have hle : s.iters.countP (fun it ↦ decide (i ∈ it.pinned)) ≤ s.iters.length := countP_le_length
    have hown := h.own_eq i
    split at hown <;> omega
  have htable (i : ℕ) : tableOf (s.pool.refAll s.levels.flatten) i = tableOf s.pool i := by
    rw [tableOf, tableOf, Pool.content_refAll]
  refine ⟨h.nodup, fun i hi ↦ ?_, (h.counted.refAll hheld hlt).congr fun i ↦ ?_, fun it hit ↦ ?_⟩
  · change (tableOf (s.pool.refAll _) i).WellFormed
    rw [htable]
    exact h.wellFormed i hi
  · rw [own, own, System.newIterator, flatMap_append, flatMap_singleton, ← append_assoc,
      count_append]
    rfl
  · obtain ⟨view, hview⟩ : ∃ view, it.Valid s.pool view := by
      obtain hit | hit := mem_append.mp hit
      · exact h.valid it hit
      · exact mem_singleton.mp hit ▸ h.valid_newMergedIterator
    exact ⟨view, hview.congr fun i _ ↦ htable i⟩

end

section

omit [MetaDataCodec] [BloomSizing]

theorem mem_modify {j : ℕ} {its : List PinnedIterator}
    {it : PinnedIterator} (h : it ∈ its.modify j f) : it ∈ its ∨ ∃ it' ∈ its, it = f it' := by
  induction its generalizing j with
  | nil => exact absurd h (by simp)
  | cons a its ih =>
    obtain _ | j := j
    · rw [modify_zero_cons] at h
      obtain rfl | h := mem_cons.mp h
      · exact .inr ⟨a, mem_cons_self, rfl⟩
      · exact .inl (mem_cons_of_mem a h)
    · rw [modify_succ_cons] at h
      obtain rfl | h := mem_cons.mp h
      · exact .inl (.head _)
      · obtain h | ⟨it', h', rfl⟩ := ih h
        · exact .inl (mem_cons_of_mem a h)
        · exact .inr ⟨it', mem_cons_of_mem a h', rfl⟩

theorem flatMap_modify (hf : ∀ it, (f it).pinned = it.pinned) (j : ℕ) (its : List PinnedIterator) :
    (its.modify j f).flatMap pinned = its.flatMap pinned := by
  induction its generalizing j with
  | nil => simp
  | cons a its ih =>
    obtain _ | j := j
    · rw [modify_zero_cons, flatMap_cons, flatMap_cons, hf]
    · rw [modify_succ_cons, flatMap_cons, flatMap_cons, ih]

end

section

omit [MetaDataCodec]

section

variable (h : s.Readers)
include h

theorem Readers.modify (f : PinnedIterator → PinnedIterator)
    (hf : ∀ it, (f it).pinned = it.pinned) (j : ℕ)
    (hv : ∀ it ∈ s.iters, ∀ view, it.Valid s.pool view → (f it).Valid s.pool view) :
    Readers { s with iters := s.iters.modify j f } where
  nodup := h.nodup
  wellFormed := h.wellFormed
  counted := h.counted.congr fun i ↦ by rw [own, own, flatMap_modify hf]
  valid it hit := by
    obtain hit | ⟨it', hit', rfl⟩ := mem_modify hit
    · exact h.valid it hit
    · obtain ⟨view, hview⟩ := h.valid it' hit'
      exact ⟨view, hv it' hit' view hview⟩

theorem Readers.seek (j : ℕ) (key : Bytes) : (s.seek j key).Readers :=
  h.modify (PinnedIterator.seek s.pool key) (fun _ ↦ rfl) j
    fun _ hit _ hview ↦ hview.seek (h.open_pinned hit) key

theorem Readers.next (j : ℕ) : (s.next j).Readers :=
  h.modify (PinnedIterator.next s.pool) (fun _ ↦ rfl) j
    fun _ hit _ hview ↦ hview.next (h.open_pinned hit)

theorem Readers.closeIterator (j : ℕ) :
    ∃ pool iters, s.closeIterator j = some { s with pool := pool, iters := iters } ∧
      tableOf pool = tableOf s.pool ∧ Readers { s with pool := pool, iters := iters } := by
  rw [System.closeIterator]
  cases hj : s.iters[j]? with
  | none => exact ⟨s.pool, s.iters, rfl, rfl, h⟩
  | some it =>
    obtain ⟨hlt, rfl⟩ := List.getElem?_eq_some_iff.mp hj
    have hperm := (getElem_cons_eraseIdx_perm hlt).flatMap_right pinned
    have hcount (i : ℕ) : s.own i = (s.levels.flatten ++
        (s.iters.eraseIdx j).flatMap pinned).count i + (s.iters[j]).pinned.count i := by
      rw [own, count_append, ← hperm.count_eq i, flatMap_cons, count_append, count_append]
      omega
    obtain ⟨p, hp, hcontent, -, hcounted⟩ := h.counted.exists_unrefAll
      (s.iters[j]).pinned fun i ↦ by rw [hcount]; exact le_add_left _ _
    have htable : tableOf p = tableOf s.pool := by
      funext i
      rw [tableOf, tableOf, hcontent]
    refine ⟨p, s.iters.eraseIdx j, congrArg (Option.map _) hp, htable, h.nodup, fun i hi ↦ ?_,
      hcounted.congr fun i ↦ ?_, fun it hit ↦ ?_⟩
    · rw [htable]
      exact h.wellFormed i hi
    · rw [hcount, Nat.add_sub_cancel]
      rfl
    · obtain ⟨view, hview⟩ := h.valid it (mem_of_mem_eraseIdx hit)
      exact ⟨view, hview.congr fun i _ ↦ congrFun htable i⟩

end

end

/-! ## Runs -/

/-- One action does not panic and carries the map along. -/
theorem Inv.act (h : s.Inv m) (l : Luck) (a : Action)
    (hfew : a = .newIterator → s.iters.length + 2 < 2 ^ 31) :
    ∃ s', s.act l a = some s' ∧ s'.Inv (a.spec m) ∧
      (l.good = true → s.Loaded m → s'.Loaded (a.spec m)) := by
  have hwrite (ws : List Write) :
      ∃ s', (s.write l.rounds l.fail₁ l.fail₂ (ws.map Write.entry)).map Prod.fst = some s' ∧
        s'.Inv (ws.foldl Write.spec m) ∧
        (l.good = true → s.Loaded m → s'.Loaded (ws.foldl Write.spec m)) := by
    obtain ⟨s', status, heq, hinv, hloaded⟩ := h.write l.rounds l.fail₁ l.fail₂ (ws.map Write.entry)
    rw [updates_entries] at hinv hloaded
    refine ⟨s', by rw [heq]; rfl, hinv, fun hgood ↦ ?_⟩
    rw [Luck.good, Bool.and_eq_true, Option.isNone_iff_eq_none, Option.isNone_iff_eq_none] at hgood
    exact hloaded hgood.1 hgood.2
  cases a with
  | write w => exact hwrite [w]
  | commit ws => exact hwrite ws
  | newIterator =>
    refine ⟨_, rfl, ⟨h.toReaders.newIterator (hfew rfl), h.holds, h.fresh⟩,
      fun _ hl ↦ hl.congr (fun i ↦ ?_) rfl rfl⟩
    change tableOf (s.pool.refAll _) i = _
    rw [tableOf, tableOf, Pool.content_refAll]
  | seek j key => exact ⟨_, rfl, ⟨h.toReaders.seek j key, h.holds, h.fresh⟩, fun _ hl ↦ hl⟩
  | next j => exact ⟨_, rfl, ⟨h.toReaders.next j, h.holds, h.fresh⟩, fun _ hl ↦ hl⟩
  | close j =>
    obtain ⟨pool, iters, heq, htable, hreaders⟩ := h.toReaders.closeIterator j
    exact ⟨_, heq, ⟨hreaders, h.holds, h.fresh⟩, fun _ hl ↦ hl.congr (congrFun htable) rfl rfl⟩

/-- Runs from `OpenLSM` on, with the map of the writes and whether every file could be opened. `P`
is a condition on the directory, and less than `2 ^ 31 - 1` iterators are open at a time. -/
inductive Run (P : GlobPath → Disk → Prop) : SortedMap Bytes Bytes → Bool → System → Prop
  | start {opts : LSMOptions} {d : Disk} {m : SortedMap Bytes Bytes} {s : System} (hm : d.Shows m)
    (hP : P opts.dir d) (hs : System.openLSM opts d = some s) : Run P m true s
  | act {m : SortedMap Bytes Bytes} {clean : Bool} {s s' : System} {l : Luck} {a : Action}
    (h : Run P m clean s) (hfew : a = .newIterator → s.iters.length + 2 < 2 ^ 31)
    (ha : s.act l a = some s') : Run P (a.spec m) (clean && l.good) s'

/-- `OpenLSM` opens every file that the directory lists. -/
theorem inv_openLSM (opts : LSMOptions) {d : Disk} (hm : d.Shows m) (hfound : d.Found opts.dir) :
    ∃ s, System.openLSM opts d = some s ∧ s.Inv m ∧ s.Loaded m := by
  obtain ⟨es, hread, hholds⟩ := hm
  let s₀ : System :=
    { opts := opts
      nextID := d.scanDirForNextID opts.dir
      mem := applyEntries {} es
      disk := d }
  have hreaders : s₀.Readers := ⟨nodup_nil, (by rintro _ ⟨⟩), Pool.counted_empty, by rintro _ ⟨⟩⟩
  have hinv₀ : s₀.Inv m := ⟨hreaders, hholds, hfound.fresh⟩
  obtain ⟨s, ok, heq, hinv, hloaded, hok⟩ := hinv₀.reload none
  obtain rfl : ok = true := hok rfl
  refine ⟨s, ?_, hinv, hloaded rfl⟩
  rw [System.openLSM, hread, Option.bind_some]
  change (s₀.reload none).bind _ = _
  rw [heq]
  rfl

theorem Run.inv {clean : Bool} (h : Run (fun dir d ↦ d.Found dir) m clean s) :
    s.Inv m ∧ (clean = true → s.Loaded m) := by
  induction h with
  | start hm hfound hs =>
    obtain ⟨s', heq, hinv, hloaded⟩ := inv_openLSM _ hm hfound
    obtain rfl : s' = _ := Option.mem_unique heq hs
    exact ⟨hinv, fun _ ↦ hloaded⟩
  | act _ hfew ha ih =>
    obtain ⟨s', heq, hinv, hloaded⟩ := ih.1.act _ _ hfew
    obtain rfl : s' = _ := Option.mem_unique heq ha
    refine ⟨hinv, fun hclean ↦ ?_⟩
    rw [Bool.and_eq_true] at hclean
    exact hloaded hclean.2 (ih.2 hclean.1)

/-- **An iterator observes the moment of its creation**, and the references are right. -/
theorem iterators_observe_creation {clean : Bool} (h : Run (fun dir d ↦ d.Found dir) m clean s) :
    (∀ it ∈ s.iters, ∃ view : SortedMap Bytes Bytes, (∀ k, view.get k = it.created k) ∧
      ∀ key n, it.moves = some (key, n) →
        DeletedFilterIterator.shown it.inner = (view.seek key)[n]?) ∧
    (clean = true → ∀ k, s.engine.get k = m.get k) ∧
    (∀ i, (s.pool.refs i).toInt =
      (if i ∈ s.levels.flatten then 1 else 0) + s.iters.countP (fun it ↦ decide (i ∈ it.pinned))) ∧
    (∀ i, s.pool.closed i = true ↔ s.pool.refs i = 0) ∧
    ∀ l a, s.act l a ≠ none := by
  obtain ⟨hinv, hloaded⟩ := h.inv
  refine ⟨fun it hit ↦ ?_, fun hclean ↦ (hloaded hclean).get_eq hinv.toReaders,
    fun i ↦ ?_, fun i ↦ ?_, fun l a hnone ↦ ?_⟩
  · obtain ⟨view, hview⟩ := hinv.valid it hit
    exact ⟨view, hview.created, fun key n hmoves ↦ by
      rw [(hview.position key n hmoves).shown_eq, head?_drop]⟩
  · rw [hinv.counted.refs_eq, hinv.toReaders.own_eq]
    split <;> simp
  · rw [hinv.counted.closed_iff, ← Int32.toInt_inj, hinv.counted.refs_eq, Int32.toInt_zero,
      Int.natCast_eq_zero]
  · by_cases ha : a = .newIterator
    · rw [ha] at hnone
      cases hnone
    · obtain ⟨s', heq, -⟩ := hinv.act l a fun h ↦ absurd h ha
      cases heq.symm.trans hnone

end Invariant

/-- A directory with one file, to which one write has been flushed. -/
def oneFile : Disk :=
  ((({} : Disk).opened (Engine.manyOpts {}) []).logged [(Engine.onePut 98).entry]).flushed

theorem shows_oneFile : oneFile.Shows ((Engine.onePut 98).spec empty) := by
  have hrefines :=
    (Engine.refines_start (Engine.openLSM_start {})).1.logged [(Engine.onePut 98).entry]
  exact ⟨[], rfl, hrefines.intact_flushed.holds⟩

theorem oneFile_lt {i : ℕ} {f : Option SSTable} (hf : oneFile.files.get i = some f) :
    i < 1000000 := by
  change (empty.insert 0 (some (Engine.tableOfWrites [Engine.onePut 98]))).get i = some f at hf
  by_cases hi : i = 0
  · rw [hi]
    decide
  · rw [get_insert_of_ne _ hi] at hf
    cases show none = some f from hf

theorem iters_openLSM {opts : LSMOptions} {d : Disk} {s : System}
    (h : System.openLSM opts d = some s) : s.iters = [] := by
  obtain ⟨es, -, h⟩ := Option.bind_eq_some_iff.mp h
  obtain ⟨r, hr, h⟩ := Option.bind_eq_some_iff.mp h
  obtain ⟨pool, -, hr⟩ := Option.bind_eq_some_iff.mp hr
  split at h
  · rw [← Option.some.inj h]
    dsimp only at hr
    split at hr
    · rw [← Option.some.inj hr]
    · obtain ⟨_, -, rfl⟩ := Option.map_eq_some_iff.mp hr
      rfl
  · cases h

/-- The iterator is created over a file of an earlier lifetime, and a write is flushed before it
moves. -/
def pinThenWrite (dir : GlobPath) : Option System :=
  (((System.openLSM (Engine.manyOpts dir) oneFile).bind (act ⟨0, none, none⟩ · .newIterator)).bind
    (act ⟨1, none, none⟩ · (.write (Engine.onePut 97)))).bind (act ⟨0, none, none⟩ · (.seek 0 []))

theorem run_pinThenWrite {P : GlobPath → Disk → Prop} {dir : GlobPath} (hP : P dir oneFile)
    {s : System} (hs : pinThenWrite dir = some s) :
    Run P ((Engine.onePut 97).spec ((Engine.onePut 98).spec empty)) true s := by
  obtain ⟨s₂, h₂, h₃⟩ := Option.bind_eq_some_iff.mp hs
  obtain ⟨s₁, h₁, h₂⟩ := Option.bind_eq_some_iff.mp h₂
  obtain ⟨s₀, h₀, h₁⟩ := Option.bind_eq_some_iff.mp h₁
  exact (((Run.start shows_oneFile hP h₀).act (fun _ ↦ by rw [iters_openLSM h₀]; decide) h₁).act
    (by simp) h₂).act (by simp) h₃

/-- A write is flushed behind an iterator, which shows what was there before. -/
theorem iterators_observe_creation_pinned : ∃ s, Run (fun dir d ↦ d.Found dir)
      ((Engine.onePut 97).spec ((Engine.onePut 98).spec empty)) true s ∧ s.disk.ids = [1, 0] ∧
    ∃ it ∈ s.iters, it.created [97] = none ∧
      DeletedFilterIterator.shown it.inner = some ([98], [1]) ∧
      ∃ view : SortedMap Bytes Bytes, (∀ k, view.get k = it.created k) ∧
        (view.seek [])[0]? = some ([98], [1]) := by
  have hs : ∃ s ∈ pinThenWrite {}, s.disk.ids = [1, 0] ∧ ∃ it ∈ s.iters, it.created [97] = none ∧
      it.moves = some ([], 0) ∧ DeletedFilterIterator.shown it.inner = some ([98], [1]) := by
    decide +kernel
  obtain ⟨s, hs, hids, it, hit, hcreated, hmoves, hshown⟩ := hs
  have hrun := run_pinThenWrite (P := fun dir d ↦ d.Found dir)
    (Disk.found_of_lt rfl fun _ _ hf ↦ oneFile_lt hf) hs
  obtain ⟨view, hview, hseek⟩ := (iterators_observe_creation hrun).1 it hit
  exact ⟨s, hrun, hids, it, hit, hcreated, hshown, view, hview,
    (hseek [] 0 hmoves).symm.trans hshown⟩

/-- A path that is a pattern for other directories: the flush of a write truncates the file under
the iterator, which then shows that write. -/
theorem exists_truncated : ∃ s, Run (fun _ d ↦ ∀ i f, d.files.get i = some f → i < 1000000)
      ((Engine.onePut 97).spec ((Engine.onePut 98).spec empty)) true s ∧
    ∃ it ∈ s.iters, it.created [97] = none ∧ it.moves = some ([], 0) ∧
      DeletedFilterIterator.shown it.inner = some ([97], [1]) := by
  have hs : ∃ s ∈ pinThenWrite ⟨false, []⟩, ∃ it ∈ s.iters, it.created [97] = none ∧
      it.moves = some ([], 0) ∧ DeletedFilterIterator.shown it.inner = some ([97], [1]) := by
    decide +kernel
  obtain ⟨s, hs, hit⟩ := hs
  exact ⟨s, run_pinThenWrite (fun _ _ hf ↦ oneFile_lt hf) hs, hit⟩

end System

end DucklingDB.Lsm
