import DucklingDB.Util.Overlay
import DucklingDB.Util.Bytes

/-!
# Iterators

The iterators of `iterator.go` over memtable snapshots and SSTables. A `Cursor` is an index into the
records of one source; `MergeIterator` holds one cursor per source, the freshest first, and stands
at the smallest key that any of them is at; `DeletedFilterIterator` passes over tombstones. A record
without a value is a tombstone.

What a cursor still has ahead of it is a suffix of its source (`Cursor.rest`), and in terms of those
suffixes the merge iterator is the merge of layers: reading it to the end gives `Overlay.merge`
(`MergeIterator.collect_eq`). So a scan through the filter shows the live pairs from the sought key
on, each once and in order (`scan_eq`).
-/

namespace DucklingDB.Lsm

open Overlay SortedMap

/-- A key with its value, or with a tombstone. -/
abbrev Record := Bytes × Option Bytes

/-! ## Binary search -/

/-- The loop of `sort.Search` and of `SSTableIterator.Seek`, between `left` and `right`. -/
def searchLoop (p : ℕ → Bool) : ℕ → ℕ → ℕ → ℕ
  | 0, left, _ => left
  | fuel + 1, left, right =>
    if left < right then
      let mid := left + (right - left) / 2
      if p mid then searchLoop p fuel left mid else searchLoop p fuel (mid + 1) right
    else left

/-- The index of the first record whose key is not below `s`. -/
def lowerBound (s : Bytes) (records : List Record) : ℕ :=
  searchLoop (fun i ↦ records[i]?.all fun r ↦ !decide (r.1 < s)) records.length 0 records.length

/-- The search ends at the boundary of a monotone predicate. -/
theorem searchLoop_eq {p : ℕ → Bool} {b : ℕ} (hlt : ∀ i < b, p i = false)
    (hge : ∀ i ≥ b, p i = true) {fuel left right : ℕ} (hfuel : right ≤ left + fuel)
    (hleft : left ≤ b) (hright : b ≤ right) :
    searchLoop p fuel left right = b := by
  induction fuel generalizing left right with
  | zero => rw [searchLoop]; omega
  | succ fuel ih =>
    rw [searchLoop]
    split
    · rename_i hlr
      simp only
      by_cases hmid : left + (right - left) / 2 < b
      · rw [hlt _ hmid, if_neg (by simp)]
        exact ih (by omega) (by omega) hright
      · rw [hge _ (not_lt.mp hmid), if_pos rfl]
        exact ih (by omega) hleft (not_lt.mp hmid)
    · omega

theorem drop_lowerBound {records : List Record} (h : Ascending records) (s : Bytes) :
    records.drop (lowerBound s records) = above s records := by
  have hbound : lowerBound s records = records.findIdx fun r ↦ !decide (r.1 < s) := by
    refine searchLoop_eq (fun i hi ↦ ?_) (fun i hi ↦ ?_) (by omega) (Nat.zero_le _)
      List.findIdx_le_length
    · have hlen : i < records.length := hi.trans_le List.findIdx_le_length
      rw [List.getElem?_eq_getElem hlen]
      simpa using List.not_of_lt_findIdx hi
    · by_cases hlen : i < records.length
      · -- from the boundary on the keys only grow
        have hb : (records.findIdx fun r ↦ !decide (r.1 < s)) < records.length := hi.trans_lt hlen
        have hkey : s ≤ (records[records.findIdx fun r ↦ !decide (r.1 < s)]).1 := by
          simpa using List.findIdx_getElem (w := hb)
        have hle : s ≤ (records[i]).1 := by
          obtain heq | hlt := hi.eq_or_lt
          · simpa only [← heq] using hkey
          · exact hkey.trans (List.pairwise_iff_getElem.mp h _ _ hb hlen hlt).le
        rw [List.getElem?_eq_getElem hlen]
        simpa using hle
      · rw [List.getElem?_eq_none (not_lt.mp hlen)]
        rfl
  rw [hbound, above, List.dropWhile_eq_drop_findIdx_not]
  congr!

/-! ## Cursors -/

/-- Which iterator a cursor is: `MemTableSnapshotIterator` or `SSTableIterator`. -/
inductive SourceKind where
  | memTable
  | sstable
  deriving DecidableEq, Repr

/-- A position in the records of a source; a new one stands before the first record. -/
structure Cursor where
  kind : SourceKind
  records : List Record
  idx : ℤ := -1

namespace Cursor

variable (c : Cursor)

/-- The record at the position; the iterator is valid if there is one. -/
def current : Option Record := if c.idx < 0 then none else c.records[c.idx.toNat]?

def seek (s : Bytes) (c : Cursor) : Cursor := { c with idx := lowerBound s c.records }

/-- `Next`; behind the last record only the iterator of a snapshot stands still. -/
def next : Cursor :=
  match c.kind with
  | .memTable => if c.idx < c.records.length then { c with idx := c.idx + 1 } else c
  | .sstable => { c with idx := if c.idx < 0 then 0 else c.idx + 1 }

/-- The records from the position on. -/
def rest : List Record := if c.idx < 0 then [] else c.records.drop c.idx.toNat

theorem current_eq : c.current = c.rest.head? := by
  rw [current, rest]
  split
  · rfl
  · rw [List.head?_drop]

theorem rest_seek {c : Cursor} (h : Ascending c.records) (s : Bytes) :
    (c.seek s).rest = above s c.records := by
  rw [rest, seek, if_neg (by simp), ← drop_lowerBound h s]
  rfl

theorem rest_next {c : Cursor} {r : Record} (h : c.current = some r) :
    c.next.rest = c.rest.tail := by
  have hidx : ¬c.idx < 0 := fun hneg ↦ by
    rw [current, if_pos hneg] at h
    cases h
  have hlen : c.idx.toNat < c.records.length := by
    rw [current, if_neg hidx] at h
    exact (List.getElem?_eq_some_iff.mp h).1
  have hnext : c.next = { c with idx := c.idx + 1 } := by
    rw [next]
    cases c.kind with
    | memTable => exact if_pos (by omega)
    | sstable => simp only [if_neg hidx]
  rw [hnext, rest, rest, if_neg hidx, if_neg (by simp only; omega), List.tail_drop]
  congr 1
  simp only
  omega

theorem records_next : c.next.records = c.records := by
  rw [next]
  split
  · split <;> rfl
  · rfl

end Cursor

/-! ## The merge iterator -/

/-- `MergeIterator`, with the record that the winning source stands at. -/
structure MergeIterator where
  iters : List Cursor
  winner : Option (ℕ × Record)

namespace MergeIterator

/-- One round of the loop of `pickWinner`. -/
def better (idx : ℕ) (c : Cursor) (winner : Option (ℕ × Record)) : Option (ℕ × Record) :=
  match c.current, winner with
  | none, winner => winner
  | some r, none => some (idx, r)
  | some r, some (j, b) => if r.1 < b.1 ∨ r.1 = b.1 ∧ idx < j then some (idx, r) else some (j, b)

/-- The loop of `pickWinner`, from source `idx` on. -/
def pick (idx : ℕ) (winner : Option (ℕ × Record)) : List Cursor → Option (ℕ × Record)
  | [] => winner
  | c :: cs => pick (idx + 1) (better idx c winner) cs

def pickWinner (iters : List Cursor) : MergeIterator := ⟨iters, pick 0 none iters⟩

/-- `NewMergeIterator`. -/
def new (iters : List Cursor) : MergeIterator := pickWinner iters

variable (it : MergeIterator)

/-- The record at the position. -/
def current : Option Record := it.winner.map Prod.snd

def seek (s : Bytes) (it : MergeIterator) : MergeIterator :=
  pickWinner (it.iters.map (Cursor.seek s))

/-- `Next`: every source at the current key moves on. -/
def next : MergeIterator :=
  match it.current with
  | none => it
  | some r =>
    pickWinner (it.iters.map fun c ↦ if c.current.any (·.1 = r.1) then c.next else c)

/-- The records from the position on, at most `n` of them. -/
def collect : ℕ → MergeIterator → List Record
  | 0, _ => []
  | n + 1, it =>
    match it.current with
    | none => []
    | some r => r :: collect n it.next

/-- The number of records of the sources: no loop takes more rounds. -/
def records : ℕ := size (it.iters.map Cursor.records)

/-- What the sources have ahead of them. -/
def rests : List (List Record) := it.iters.map Cursor.rest

variable (cs : List Cursor)

/-- A later source wins only with a smaller key. -/
theorem pick_some {idx j : ℕ} (hj : j < idx) (b : Record) :
    (pick idx (some (j, b)) cs).map Prod.snd = some (smaller b (least (cs.map Cursor.rest))) := by
  induction cs generalizing idx j b with
  | nil => rfl
  | cons c cs ih =>
    have hcur := c.current_eq
    rw [List.map_cons]
    cases hrest : c.rest with
    | nil =>
      rw [hrest, List.head?_nil] at hcur
      simp only [pick, better, hcur]
      exact ih (hj.trans (Nat.lt_succ_self _)) b
    | cons r es =>
      rw [hrest, List.head?_cons] at hcur
      simp only [pick, better, hcur, not_lt.mpr hj.le, and_false, or_false]
      rw [least, smaller_smaller]
      by_cases hlt : r.1 < b.1
      · rw [if_pos hlt, if_pos hlt, ih (Nat.lt_succ_self _) r]
      · rw [if_neg hlt, if_neg hlt, ih (hj.trans (Nat.lt_succ_self _)) b]

theorem pick_none (idx : ℕ) : (pick idx none cs).map Prod.snd = least (cs.map Cursor.rest) := by
  induction cs generalizing idx with
  | nil => rfl
  | cons c cs ih =>
    have hcur := c.current_eq
    rw [List.map_cons]
    cases hrest : c.rest with
    | nil =>
      rw [hrest, List.head?_nil] at hcur
      simp only [pick, better, hcur]
      exact ih _
    | cons r es =>
      rw [hrest, List.head?_cons] at hcur
      simp only [pick, better, hcur]
      rw [pick_some cs (Nat.lt_succ_self _), least]

theorem rests_next {it : MergeIterator} {r : Record} (h : it.current = some r) :
    it.next.rests = it.rests.map (dropHead r.1) := by
  simp only [next, h, rests, pickWinner, List.map_map]
  refine List.map_congr_left fun c _ ↦ ?_
  simp only [Function.comp]
  cases hc : c.rest with
  | nil =>
    have hnone : c.current = none := by rw [c.current_eq, hc]; rfl
    rw [hnone, if_neg (by simp), hc, dropHead]
  | cons a es =>
    have hsome : c.current = some a := by rw [c.current_eq, hc]; rfl
    rw [hsome, dropHead]
    by_cases ha : a.1 = r.1
    · rw [if_pos (by simpa using ha), if_pos ha, Cursor.rest_next hsome, hc, List.tail_cons]
    · rw [if_neg (by simpa using ha), if_neg ha, hc]

theorem rests_seek {it : MergeIterator} (h : ∀ c ∈ it.iters, Ascending c.records) (s : Bytes) :
    (it.seek s).rests = it.iters.map fun c ↦ above s c.records := by
  simp only [seek, rests, pickWinner, List.map_map]
  exact List.map_congr_left fun c hc ↦ Cursor.rest_seek (h c hc) s

/-- The winner is up to date. -/
def Picked : Prop := it.current = least it.rests

theorem picked_pickWinner : (pickWinner cs).Picked := pick_none cs 0

theorem Picked.next {it : MergeIterator} (h : it.Picked) : it.next.Picked := by
  rw [MergeIterator.next]
  split
  · exact h
  · exact picked_pickWinner _

theorem size_rests_le : size it.rests ≤ it.records := by
  refine size_map_le fun c _ ↦ ?_
  rw [Cursor.rest]
  split
  · exact Nat.zero_le _
  · exact (List.drop_sublist _ _).length_le

theorem map_records_next : it.next.iters.map Cursor.records = it.iters.map Cursor.records := by
  rw [next]
  split
  · rfl
  · rw [pickWinner, List.map_map]
    refine List.map_congr_left fun c _ ↦ ?_
    simp only [Function.comp]
    split
    · rw [Cursor.records_next]
    · rfl

theorem map_records_seek (s : Bytes) (it : MergeIterator) :
    (it.seek s).iters.map Cursor.records = it.iters.map Cursor.records := by
  rw [seek, pickWinner, List.map_map]
  rfl

theorem records_next : it.next.records = it.records := congrArg size it.map_records_next

/-- Reading the iterator to its end is merging what the sources have ahead. -/
theorem collect_eq {it : MergeIterator} (h : it.Picked) (n : ℕ) :
    collect n it = merge n it.rests := by
  induction n generalizing it with
  | zero => rfl
  | succ n ih =>
    rw [collect, merge, ← h]
    cases hc : it.current with
    | none => rfl
    | some r => simp only [ih h.next, rests_next hc]

end MergeIterator

/-! ## The filter -/

/-- A record as a pair, if it is not a tombstone. -/
def Record.live? (r : Record) : Option (Bytes × Bytes) := r.2.map (Prod.mk r.1)

namespace DeletedFilterIterator

/-- The loops of `Seek` and `Next`: move on while at a tombstone. -/
def skip : ℕ → MergeIterator → MergeIterator
  | 0, it => it
  | n + 1, it =>
    match it.current with
    | some (_, none) => skip n it.next
    | _ => it

def seek (s : Bytes) (it : MergeIterator) : MergeIterator := skip it.records (it.seek s)

def next (it : MergeIterator) : MergeIterator := skip it.records it.next

/-- The pairs from the position on, at most `n` of them. -/
def collect : ℕ → MergeIterator → List (Bytes × Bytes)
  | 0, _ => []
  | n + 1, it =>
    match it.current with
    | some (k, some v) => (k, v) :: collect n (next it)
    | _ => []

variable {it : MergeIterator}

/-- Reading the filter to its end gives the live records of the merged list. -/
theorem collect_skip (h : it.Picked) {m n N : ℕ} (hm : size it.rests ≤ m)
    (hn : size it.rests ≤ n) (hN : size it.rests ≤ N) :
    collect n (skip m it) = (merge N it.rests).filterMap Record.live? := by
  induction hsize : size it.rests using Nat.strong_induction_on generalizing it m n N with
  | _ size ih =>
    cases hc : it.current with
    | none =>
      have hnone : least it.rests = none := h ▸ hc
      have hskip : skip m it = it := by cases m <;> simp [skip, hc]
      have hcollect : collect n it = [] := by cases n <;> simp [collect, hc]
      have hmerge : merge N it.rests = [] := by cases N <;> simp [merge, hnone]
      rw [hskip, hcollect, hmerge, List.filterMap_nil]
    | some r =>
      have hleast : least it.rests = some r := h ▸ hc
      have hlt := size_dropHead_lt hleast
      have hnext : it.next.rests = it.rests.map (dropHead r.1) := MergeIterator.rests_next hc
      obtain ⟨N, rfl⟩ : ∃ N', N = N' + 1 := ⟨N - 1, by omega⟩
      have hmerge : merge (N + 1) it.rests = r :: merge N it.next.rests := by
        rw [merge, hleast, hnext]
      rw [← hnext] at hlt
      rw [hmerge]
      obtain ⟨k, o⟩ := r
      cases o with
      | none =>
        obtain ⟨m, rfl⟩ : ∃ m', m = m' + 1 := ⟨m - 1, by omega⟩
        have hskip : skip (m + 1) it = skip m it.next := by rw [skip, hc]
        rw [hskip, List.filterMap_cons_none rfl]
        exact ih _ (hsize ▸ hlt) h.next (by omega) (by omega) (by omega) rfl
      | some v =>
        obtain ⟨n, rfl⟩ : ∃ n', n = n' + 1 := ⟨n - 1, by omega⟩
        have hskip : skip m it = it := by cases m <;> simp [skip, hc]
        have hcollect : collect (n + 1) it = (k, v) :: collect n (skip it.records it.next) := by
          simp only [collect, hc, next]
        rw [hskip, hcollect, List.filterMap_cons]
        refine congrArg ((k, v) :: ·) (ih _ (hsize ▸ hlt) h.next ?_ (by omega) (by omega) rfl)
        exact (it.next.size_rests_le).trans it.records_next.le

/-- What the filtered iterator shows. -/
def shown (it : MergeIterator) : Option (Bytes × Bytes) := it.current.bind Record.live?

theorem map_records_skip (m : ℕ) (it : MergeIterator) :
    (skip m it).iters.map Cursor.records = it.iters.map Cursor.records := by
  induction m generalizing it with
  | zero => rfl
  | succ m ih =>
    rw [skip]
    split
    · rw [ih, it.map_records_next]
    · rfl

theorem records_skip (m : ℕ) (it : MergeIterator) : (skip m it).records = it.records :=
  congrArg size (map_records_skip m it)

/-- With enough rounds the loop leaves the tombstones behind. -/
theorem picked_skip (h : it.Picked) {m : ℕ} (hm : size it.rests ≤ m) :
    (skip m it).Picked ∧ ∀ k, (skip m it).current ≠ some (k, none) := by
  induction m generalizing it with
  | zero =>
    refine ⟨h, fun k hk ↦ ?_⟩
    have hlt := size_dropHead_lt (h ▸ hk : least it.rests = some (k, none))
    omega
  | succ m ih =>
    rw [skip]
    split <;> rename_i hc
    · have hlt := size_dropHead_lt (h ▸ hc)
      rw [← MergeIterator.rests_next hc] at hlt
      exact ih h.next (by omega)
    · exact ⟨h, fun k hk ↦ hc k hk⟩

/-- The iterator stands at the head of these pairs. -/
structure Positioned (it : MergeIterator) (pairs : List (Bytes × Bytes)) : Prop where
  picked : it.Picked
  live : ∀ k, it.current ≠ some (k, none)
  collect_eq : ∀ n, it.records ≤ n → collect n it = pairs

section Positioned

variable {it : MergeIterator} {pairs : List (Bytes × Bytes)}

section

variable (h : Positioned it pairs)
include h

theorem Positioned.cases : it.current = none ∧ pairs = [] ∨
      ∃ k v, it.current = some (k, some v) ∧
        ∀ n, it.records ≤ n → pairs = (k, v) :: collect n (next it) := by
  cases hc : it.current with
  | none =>
    refine Or.inl ⟨rfl, ?_⟩
    rw [← h.collect_eq (it.records + 1) (Nat.le_succ _), collect, hc]
  | some r =>
    obtain ⟨k, _ | v⟩ := r
    · exact absurd hc (h.live k)
    · refine Or.inr ⟨k, v, rfl, fun n hn ↦ ?_⟩
      rw [← h.collect_eq (n + 1) (hn.trans (Nat.le_succ n)), collect, hc]

theorem Positioned.shown_eq : shown it = pairs.head? := by
  obtain ⟨hc, rfl⟩ | ⟨k, v, hc, hpairs⟩ := h.cases
  · rw [shown, hc]
    rfl
  · rw [shown, hc, hpairs _ le_rfl]
    rfl

theorem Positioned.next : Positioned (next it) pairs.tail := by
  have hsize : size it.next.rests ≤ it.records := it.next.size_rests_le.trans it.records_next.le
  obtain ⟨hpicked, hlive⟩ := picked_skip h.picked.next hsize
  refine ⟨hpicked, hlive, fun n hn ↦ ?_⟩
  rw [DeletedFilterIterator.next, records_skip, it.records_next] at hn
  obtain ⟨hc, rfl⟩ | ⟨k, v, hc, hpairs⟩ := h.cases
  · have hstay : DeletedFilterIterator.next it = it := by
      rw [DeletedFilterIterator.next, MergeIterator.next, hc]
      cases it.records <;> simp [skip, hc]
    rw [hstay, h.collect_eq n hn]
    rfl
  · rw [hpairs n hn]
    rfl

end

end Positioned

end DeletedFilterIterator

/-! ## Scans -/

/-- The pairs that `Seek(s)` and repeated `Next` show through the filter. -/
def scan (s : Bytes) (iters : List Cursor) : List (Bytes × Bytes) :=
  let it := MergeIterator.new iters
  DeletedFilterIterator.collect it.records (DeletedFilterIterator.seek s it)

/-- The records that `Seek(s)` and repeated `Next` show without it. -/
def rawScan (s : Bytes) (iters : List Cursor) : List Record :=
  let it := MergeIterator.new iters
  it.seek s |>.collect it.records

section Scan

variable {iters : List Cursor}

variable (s : Bytes)

theorem records_seek (it : MergeIterator) : (it.seek s).records = it.records :=
  congrArg size (it.map_records_seek s)

theorem rests_seek_new (h : ∀ c ∈ iters, Ascending c.records) (s : Bytes) :
    ((MergeIterator.new iters).seek s).rests = (iters.map Cursor.records).map (above s) := by
  rw [MergeIterator.rests_seek h, List.map_map]
  rfl

theorem picked_seek (it : MergeIterator) : (it.seek s).Picked := MergeIterator.picked_pickWinner _

theorem scan_eq (iters : List Cursor) :
    scan s iters = (rawScan s iters).filterMap Record.live? := by
  have hpicked := picked_seek s (MergeIterator.new iters)
  have hsize := ((MergeIterator.new iters).seek s).size_rests_le
  rw [records_seek] at hsize
  rw [scan, rawScan, DeletedFilterIterator.seek, MergeIterator.collect_eq hpicked]
  exact DeletedFilterIterator.collect_skip hpicked hsize hsize hsize

section

variable (h : ∀ c ∈ iters, Ascending c.records)
include h

/-- A raw scan shows what the layers show, in order. -/
theorem ascending_rawScan (s : Bytes) : Ascending (rawScan s iters) := by
  rw [rawScan, MergeIterator.collect_eq (picked_seek _ _), rests_seek_new h]
  refine sorted_merge (fun es hes ↦ ?_) _
  obtain ⟨es', hes', rfl⟩ := List.mem_map.mp hes
  obtain ⟨c, hc, rfl⟩ := List.mem_map.mp hes'
  exact (h c hc).above s

theorem lookup_rawScan (s k : Bytes) :
    lookup k (rawScan s iters) = if k < s then none else find k (iters.map Cursor.records) := by
  have hasc : ∀ es ∈ iters.map Cursor.records, Ascending es := fun es hes ↦ by
    obtain ⟨c, hc, rfl⟩ := List.mem_map.mp hes
    exact h c hc
  have hsize := ((MergeIterator.new iters).seek s).size_rests_le
  rw [records_seek, rests_seek_new h] at hsize
  rw [rawScan, MergeIterator.collect_eq (picked_seek _ _), rests_seek_new h,
    lookup_merge _ hsize, find_above hasc]
  · congr!
  · intro es hes
    obtain ⟨es', hes', rfl⟩ := List.mem_map.mp hes
    exact (hasc es' hes').above s

theorem sorted_scan (s : Bytes) : (scan s iters).Pairwise fun a b ↦ a.1 < b.1 := by
  rw [scan_eq, List.pairwise_filterMap]
  refine (ascending_rawScan h s).imp fun {a b} hab x hx y hy ↦ ?_
  obtain ⟨v, -, rfl⟩ := Option.map_eq_some_iff.mp hx
  obtain ⟨w, -, rfl⟩ := Option.map_eq_some_iff.mp hy
  exact hab

theorem mem_scan {s k v : Bytes} :
    (k, v) ∈ scan s iters ↔ s ≤ k ∧ (find k (iters.map Cursor.records)).join = some v := by
  have hmem : (k, v) ∈ scan s iters ↔ (k, some v) ∈ rawScan s iters := by
    rw [scan_eq, List.mem_filterMap]
    constructor
    · rintro ⟨⟨k', o⟩, hr, hlive⟩
      obtain ⟨w, rfl, heq⟩ := Option.map_eq_some_iff.mp hlive
      obtain ⟨rfl, rfl⟩ := Prod.mk.inj heq
      exact hr
    · exact fun hr ↦ ⟨(k, some v), hr, rfl⟩
  have hlook : (k, some v) ∈ rawScan s iters ↔ lookup k (rawScan s iters) = some (some v) :=
    ⟨lookup_of_mem (ascending_rawScan h s), mem_of_lookup⟩
  rw [hmem, hlook, lookup_rawScan h, Option.join_eq_some_iff]
  by_cases hk : k < s
  · simp [hk]
  · simp [hk, not_lt.mp hk]

/-- **A scan shows the map that the sources hold**, from the sought key on. -/
theorem scan_eq_seek {m : SortedMap Bytes Bytes}
    (hm : ∀ k, m.get k = (find k (iters.map Cursor.records)).join) (s : Bytes) :
    scan s iters = m.seek s := by
  refine entries_ext (sorted_scan h s) (m.sorted_seek s) ?_
  rintro ⟨k, v⟩
  rw [mem_scan h, mem_seek, mem_entries, hm, and_comm]

theorem exists_map :
    ∃ m : SortedMap Bytes Bytes, ∀ k, m.get k = (find k (iters.map Cursor.records)).join := by
  refine ⟨⟨scan [] iters, sorted_scan h []⟩, fun k ↦ Option.ext fun v ↦ ?_⟩
  rw [← mem_entries, mem_scan h]
  exact and_iff_right (not_lt.mp (List.not_lt_nil k))

end

/-- `Seek` stands at the first pair of the map from the sought key on. -/
theorem positioned_seek {it : MergeIterator} (h : ∀ c ∈ it.iters, Ascending c.records)
    {m : SortedMap Bytes Bytes} (hm : ∀ k, m.get k = (find k (it.iters.map Cursor.records)).join)
    (s : Bytes) :
    DeletedFilterIterator.Positioned (DeletedFilterIterator.seek s it) (m.seek s) := by
  have hsize := (it.seek s).size_rests_le
  rw [records_seek] at hsize
  obtain ⟨hpicked, hlive⟩ := DeletedFilterIterator.picked_skip (picked_seek s it) hsize
  refine ⟨hpicked, hlive, fun n hn ↦ ?_⟩
  rw [DeletedFilterIterator.seek, DeletedFilterIterator.records_skip, records_seek] at hn
  rw [← scan_eq_seek h hm s]
  exact (DeletedFilterIterator.collect_skip (picked_seek s it) hsize (hsize.trans hn) hsize).trans
    (DeletedFilterIterator.collect_skip (picked_seek s it) hsize hsize hsize).symm

end Scan

end DucklingDB.Lsm
