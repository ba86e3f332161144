import Mathlib.Algebra.GroupWithZero.Nat
import Mathlib.Data.List.Sort

/-!
# Sorted maps

A finite map with linearly ordered keys, kept as the list of its entries in ascending key order:
what a storage engine shows to its clients. `get`, `insert` and `erase` are the point operations.
`seek k` is the view of an iterator after `Seek(k)`: the entries with a key at or above `k`, in
order, the current one first.

Two sorted maps with the same `get` are equal (`SortedMap.ext_get`), so a refinement proof may
compare point reads and conclude that scans agree.
-/

namespace DucklingDB

open List

/-- A finite map from `κ` to `ν` with its entries in ascending key order. -/
structure SortedMap (κ ν : Type) [LinearOrder κ] where
  entries : List (κ × ν)
  sorted : entries.Pairwise fun a b ↦ a.1 < b.1

namespace SortedMap

variable {κ ν : Type} [LinearOrder κ]

/-! ## Lists of entries -/

/-- The value at `k` in a list of entries. -/
def lookup (k : κ) : List (κ × ν) → Option ν
  | [] => none
  | e :: es => if e.1 = k then some e.2 else lookup k es

/-- Put an entry in its place, replacing one with the same key. -/
def insertEntry (k : κ) (v : ν) : List (κ × ν) → List (κ × ν)
  | [] => [(k, v)]
  | e :: es =>
    if k < e.1 then (k, v) :: e :: es
    else if e.1 < k then e :: insertEntry k v es
    else (k, v) :: es

variable {k : κ} {es : List (κ × ν)}

theorem lookup_eq_none (h : ∀ e ∈ es, e.1 ≠ k) : lookup k es = none := by
  induction es with
  | nil => rfl
  | cons e es ih =>
    rw [lookup, if_neg (h e (.head _))]
    exact ih fun x hx ↦ h x (mem_cons_of_mem e hx)

theorem mem_of_lookup {v : ν} (h : lookup k es = some v) : (k, v) ∈ es := by
  induction es with
  | nil => cases h
  | cons e es ih =>
    rw [lookup] at h
    split at h
    · rename_i he
      cases h
      rw [← he]
      exact (.head _)
    · exact mem_cons_of_mem e (ih h)

theorem lookup_of_mem {v : ν} (hs : es.Pairwise fun a b ↦ a.1 < b.1) (h : (k, v) ∈ es) :
    lookup k es = some v := by
  induction es with
  | nil => cases h
  | cons e es ih =>
    obtain ⟨he, hs⟩ := pairwise_cons.mp hs
    rcases mem_cons.mp h with rfl | h
    · rw [lookup, if_pos rfl]
    · rw [lookup, if_neg (he _ h).ne, ih hs h]

variable {e : κ × ν}

theorem mem_insertEntry {v : ν} (h : e ∈ insertEntry k v es) : e = (k, v) ∨ e ∈ es := by
  induction es with
  | nil => exact Or.inl (mem_singleton.mp h)
  | cons x es ih =>
    rw [insertEntry] at h
    split at h
    · exact mem_cons.mp h
    · split at h
      · rcases mem_cons.mp h with rfl | h
        · exact Or.inr (.head _)
        · exact (ih h).imp (fun h ↦ h) (mem_cons_of_mem x)
      · exact (mem_cons.mp h).imp (fun h ↦ h) (mem_cons_of_mem x)

theorem sorted_insertEntry {v : ν} (hs : es.Pairwise fun a b ↦ a.1 < b.1) :
    (insertEntry k v es).Pairwise fun a b ↦ a.1 < b.1 := by
  induction es with
  | nil => exact pairwise_singleton _ _
  | cons x es ih =>
    obtain ⟨hx, hs'⟩ := pairwise_cons.mp hs
    rw [insertEntry]
    split
    · rename_i hlt
      refine pairwise_cons.mpr ⟨fun y hy ↦ ?_, hs⟩
      rcases mem_cons.mp hy with rfl | hy
      · exact hlt
      · exact hlt.trans (hx y hy)
    · rename_i hge
      split
      · rename_i hlt
        refine pairwise_cons.mpr ⟨fun y hy ↦ ?_, ih hs'⟩
        rcases mem_insertEntry hy with rfl | hy
        · exact hlt
        · exact hx y hy
      · rename_i hle
        have heq : x.1 = k := le_antisymm (not_lt.mp hge) (not_lt.mp hle)
        exact pairwise_cons.mpr ⟨fun y hy ↦ heq ▸ hx y hy, hs'⟩

theorem lookup_insertEntry (k k' : κ) (v : ν) (es : List (κ × ν)) :
    lookup k' (insertEntry k v es) = if k' = k then some v else lookup k' es := by
  induction es with
  | nil => simp only [insertEntry, lookup, eq_comm]
  | cons x es ih =>
    rw [insertEntry]
    split
    · simp only [lookup, eq_comm]
    · rename_i hge
      split
      · rename_i hlt
        rw [lookup, ih, lookup]
        split
        · rename_i hxk
          rw [if_neg (hxk ▸ hlt.ne)]
        · rfl
      · rename_i hle
        have heq : x.1 = k := le_antisymm (not_lt.mp hge) (not_lt.mp hle)
        rw [lookup, lookup, heq]
        by_cases h : k' = k
        · rw [if_pos h, if_pos h.symm]
        · rw [if_neg h, if_neg (Ne.symm h), if_neg (Ne.symm h)]

/-- A sum over the entries after one is put: what it replaces is taken out. -/
theorem sum_insertEntry (hs : es.Pairwise fun a b ↦ a.1 < b.1) (f : κ × ν → ℕ) (v : ν) :
    ((insertEntry k v es).map f).sum + (lookup k es).elim 0 (fun w ↦ f (k, w)) = (es.map f).sum +
      f (k, v) := by
  induction es with
  | nil => simp [insertEntry, lookup]
  | cons x es ih =>
    obtain ⟨hx, hs'⟩ := pairwise_cons.mp hs
    rw [insertEntry, lookup]
    rcases lt_trichotomy k x.1 with hlt | rfl | hlt
    · rw [if_pos hlt, if_neg hlt.ne', lookup_eq_none fun y hy ↦ (hlt.trans (hx y hy)).ne']
      simp only [map_cons, sum_cons, Option.elim_none]
      omega
    · simp only [lt_irrefl, if_false, if_true, map_cons, sum_cons, Option.elim_some, Prod.mk.eta]
      omega
    · rw [if_neg hlt.asymm, if_pos hlt, if_neg hlt.ne]
      have := ih hs'
      simp only [map_cons, sum_cons]
      omega

/-! ## The operations -/

/-- The empty map. -/
def empty : SortedMap κ ν := ⟨[], List.Pairwise.nil⟩

instance : Inhabited (SortedMap κ ν) := ⟨empty⟩

variable (m : SortedMap κ ν)

def get (k : κ) : Option ν := lookup k m.entries

/-- `Put`. -/
def insert (k : κ) (v : ν) : SortedMap κ ν :=
  ⟨insertEntry k v m.entries, sorted_insertEntry m.sorted⟩

/-- `Delete`. -/
def erase (k : κ) : SortedMap κ ν :=
  ⟨m.entries.filter fun e ↦ decide (e.1 ≠ k), m.sorted.filter _⟩

/-- The entries from `k` on. -/
def seek (k : κ) : List (κ × ν) := m.entries.dropWhile fun e ↦ decide (e.1 < k)

@[simp] theorem get_empty (k : κ) : (empty : SortedMap κ ν).get k = none := rfl

variable {m : SortedMap κ ν}

theorem mem_entries {v : ν} : (k, v) ∈ m.entries ↔ m.get k = some v :=
  ⟨lookup_of_mem m.sorted, mem_of_lookup⟩

theorem get_insert (m : SortedMap κ ν) (k k' : κ) (v : ν) :
    (m.insert k v).get k' = if k' = k then some v else m.get k' :=
  lookup_insertEntry k k' v m.entries

@[simp] theorem get_insert_self (m : SortedMap κ ν) (k : κ) (v : ν) :
    (m.insert k v).get k = some v := by
  rw [get_insert, if_pos rfl]

theorem get_insert_of_ne (m : SortedMap κ ν) {k' : κ} (h : k' ≠ k) (v : ν) :
    (m.insert k v).get k' = m.get k' := by
  rw [get_insert, if_neg h]

theorem get_erase (m : SortedMap κ ν) (k k' : κ) :
    (m.erase k).get k' = if k' = k then none else m.get k' := by
  split <;> rename_i h
  · refine lookup_eq_none fun e he ↦ ?_
    rw [h]
    simpa using (mem_filter.mp he).2
  · cases hv : m.get k' with
    | some v =>
      refine mem_entries.mp (mem_filter.mpr ⟨mem_entries.mpr hv, ?_⟩)
      simpa using h
    | none =>
      refine lookup_eq_none fun e he heq ↦ ?_
      have hmem : (k', e.2) ∈ m.entries := heq ▸ (mem_filter.mp he).1
      rw [mem_entries.mp hmem] at hv
      cases hv

theorem get_erase_of_ne (m : SortedMap κ ν) {k' : κ} (h : k' ≠ k) :
    (m.erase k).get k' = m.get k' := by
  rw [get_erase, if_neg h]

@[simp] theorem get_erase_self (m : SortedMap κ ν) (k : κ) : (m.erase k).get k = none := by
  rw [get_erase, if_pos rfl]

theorem get_foldl_erase (ks : List κ) (m : SortedMap κ ν) (k : κ) :
    (ks.foldl erase m).get k = if k ∈ ks then none else m.get k := by
  induction ks generalizing m with
  | nil => simp
  | cons k' ks ih =>
    rw [foldl_cons, ih, get_erase]
    by_cases hk : k = k'
    · simp [hk]
    · simp [hk]

/-! ## Extensionality -/

/-- Ascending lists with the same members are equal. -/
theorem entries_ext {fs : List (κ × ν)} (hes : es.Pairwise fun a b ↦ a.1 < b.1)
    (hfs : fs.Pairwise fun a b ↦ a.1 < b.1) (h : ∀ e, e ∈ es ↔ e ∈ fs) : es = fs := by
  have : Std.Irrefl fun a b : κ × ν ↦ a.1 < b.1 := ⟨fun a ↦ lt_irrefl a.1⟩
  have : Std.Antisymm fun a b : κ × ν ↦ a.1 < b.1 := ⟨fun _ _ hab hba ↦ absurd hab hba.not_gt⟩
  exact hes.eq_of_mem_iff hfs h

/-- **Maps with the same point reads are equal.** -/
theorem ext_get {m' : SortedMap κ ν} (h : ∀ k, m.get k = m'.get k) : m = m' := by
  have hentries : m.entries = m'.entries := by
    refine entries_ext m.sorted m'.sorted ?_
    rintro ⟨k, v⟩
    rw [mem_entries, mem_entries, h]
  cases m
  cases m'
  cases hentries
  rfl

/-! ## Scanning -/

theorem mem_seek : e ∈ m.seek k ↔ e ∈ m.entries ∧ k ≤ e.1 := by
  have key : ∀ es : List (κ × ν), (es.Pairwise fun a b ↦ a.1 < b.1) →
      (e ∈ es.dropWhile (fun e ↦ decide (e.1 < k)) ↔ e ∈ es ∧ k ≤ e.1) := by
    intro es hs
    induction es with
    | nil => simp
    | cons x es ih =>
      obtain ⟨hx, hs'⟩ := pairwise_cons.mp hs
      rw [dropWhile_cons]
      split
      · rename_i hlt
        rw [ih hs', mem_cons]
        refine and_congr_left fun hk ↦ ⟨Or.inr, fun h ↦ h.resolve_left ?_⟩
        rintro rfl
        exact absurd hk (not_le.mpr (of_decide_eq_true hlt))
      · rename_i hge
        have hkx : k ≤ x.1 := not_lt.mp (by simpa using hge)
        refine ⟨fun h ↦ ⟨h, ?_⟩, fun h ↦ h.1⟩
        rcases mem_cons.mp h with rfl | h
        · exact hkx
        · exact hkx.trans (hx e h).le
  exact key m.entries m.sorted

theorem sorted_seek (m : SortedMap κ ν) (k : κ) : (m.seek k).Pairwise fun a b ↦ a.1 < b.1 :=
  m.sorted.sublist (dropWhile_sublist _)

/-- The map without the keys below the given one. -/
def dropBelow (m : SortedMap κ ν) (k : κ) : SortedMap κ ν := ⟨m.seek k, m.sorted_seek k⟩

theorem get_dropBelow (m : SortedMap κ ν) (b k : κ) :
    (m.dropBelow b).get k = if b ≤ k then m.get k else none := by
  have hmem : ∀ v, (m.dropBelow b).get k = some v ↔ m.get k = some v ∧ b ≤ k := fun v ↦ by
    rw [← mem_entries, ← mem_entries]
    exact mem_seek
  refine Option.ext fun v ↦ (hmem v).trans ?_
  by_cases h : b ≤ k
  · simp [h]
  · simp [h]

theorem seek_dropBelow (m : SortedMap κ ν) {b : κ} (h : b ≤ k) :
    (m.dropBelow b).seek k = m.seek k := by
  refine entries_ext (sorted_seek _ k) (m.sorted_seek k) fun e ↦ ?_
  rw [mem_seek, mem_seek]
  exact and_congr_left fun hk ↦ mem_seek.trans (and_iff_left (h.trans hk))

theorem insert_dropBelow (m : SortedMap κ ν) {b : κ} (h : b ≤ k) (v : ν) :
    (m.insert k v).dropBelow b = (m.dropBelow b).insert k v := by
  refine ext_get fun k' ↦ ?_
  rw [get_dropBelow, get_insert, get_insert, get_dropBelow]
  by_cases hk : k' = k
  · rw [if_pos hk, if_pos hk, if_pos (hk ▸ h)]
  · rw [if_neg hk, if_neg hk]

/-- An iterator that has been positioned stands at the least key at or above the one sought. -/
theorem seek_eq_cons (h : m.seek k = e :: es) :
    m.get e.1 = some e.2 ∧ k ≤ e.1 ∧ ∀ k' v, m.get k' = some v → k ≤ k' → e.1 ≤ k' := by
  obtain ⟨hmem, hk⟩ := mem_seek.mp (h ▸ mem_cons_self : e ∈ m.seek k)
  refine ⟨mem_entries.mp hmem, hk, fun k' v hv hk' ↦ ?_⟩
  have hmem' : (k', v) ∈ e :: es := h ▸ mem_seek.mpr ⟨mem_entries.mpr hv, hk'⟩
  have hs := m.sorted_seek k
  rw [h] at hs
  rcases mem_cons.mp hmem' with heq | hmem'
  · rw [← heq]
  · exact ((pairwise_cons.mp hs).1 _ hmem').le

/-- What follows the position is what lies above it. -/
theorem mem_tail_seek (h : m.seek k = e :: es) {x : κ × ν} :
    x ∈ es ↔ x ∈ m.entries ∧ e.1 < x.1 := by
  have hs := m.sorted_seek k
  rw [h] at hs
  obtain ⟨hlt, -⟩ := pairwise_cons.mp hs
  have hk : k ≤ e.1 := (mem_seek.mp (h ▸ mem_cons_self : e ∈ m.seek k)).2
  constructor
  · intro hx
    exact ⟨(mem_seek.mp (h ▸ mem_cons_of_mem e hx : x ∈ m.seek k)).1, hlt x hx⟩
  · rintro ⟨hx, hex⟩
    have hmem : x ∈ e :: es := h ▸ mem_seek.mpr ⟨hx, hk.trans hex.le⟩
    rcases mem_cons.mp hmem with rfl | hmem
    · exact absurd hex (lt_irrefl _)
    · exact hmem

/-- An iterator that is sent forward. -/
theorem seek_of_suffix (h : e :: es <:+ m.entries) (hk : e.1 < k) :
    m.seek k = es.dropWhile fun x ↦ decide (x.1 < k) := by
  obtain ⟨pre, hpre⟩ := h
  have hs := m.sorted
  rw [← hpre] at hs
  have hlt : ∀ x ∈ pre, x.1 < k :=
    fun x hx ↦ ((pairwise_append.mp hs).2.2 x hx e (.head _)).trans hk
  rw [seek, ← hpre, dropWhile_append_of_pos fun x hx ↦ decide_eq_true (hlt x hx),
    dropWhile_cons, if_pos (decide_eq_true hk)]

/-- A loop over ascending entries that stops where `p` fails for good sees all the entries with
`p`. -/
theorem takeWhile_eq_filter {p : κ × ν → Bool} (hs : es.Pairwise fun a b ↦ a.1 < b.1)
    (hp : ∀ a ∈ es, ∀ b ∈ es, a.1 < b.1 → p b = true → p a = true) :
    es.takeWhile p = es.filter p := by
  induction es with
  | nil => rfl
  | cons a es ih =>
    obtain ⟨ha, hs⟩ := pairwise_cons.mp hs
    have htail := ih hs fun b hb c hc ↦ hp b (mem_cons_of_mem a hb) c (mem_cons_of_mem a hc)
    rw [takeWhile_cons, filter_cons]
    split
    · rw [htail]
    · rename_i hpa
      refine (filter_eq_nil_iff.mpr fun b hb hpb ↦ hpa ?_).symm
      exact hp a (.head _) b (mem_cons_of_mem a hb) (ha b hb) hpb

end SortedMap

end DucklingDB
