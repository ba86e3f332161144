import DucklingDB.Util.Along
import DucklingDB.Util.Bytes
import DucklingDB.Util.GoMap
import DucklingDB.Util.Hlc

/-!
# The timestamp cache

`internal/kv/tscache`: the latest timestamp at which each key was read, in bounded memory. A full
cache forgets its oldest entry and raises the low-water mark, which stands for the keys that have no
entry.

A Go map is ranged over in any order, and among entries with the same timestamp the order decides
which one is evicted. The order is an argument of the operations; one that is no order of the keys
stands for the order in which the model keeps them.
-/

namespace DucklingDB.Tscache

open Hlc Timestamp List Option AList

/-- `Cache`. A `maxSize` that is not positive bounds nothing. -/
structure Cache where
  reads : GoMap Bytes Timestamp := ∅
  lowWater : Timestamp := {}
  maxSize : ℤ := 0

namespace Cache

variable (c : Cache)

def getMax (key : Bytes) : Timestamp := GoMap.get c.reads key c.lowWater

/-- The keys in the order of a `range` loop. -/
def range (order : List Bytes) : List Bytes :=
  if order.Perm c.reads.keys then order else c.reads.keys

/-- One iteration of the scan for the oldest entry. -/
def older (oldest : Option (Bytes × Timestamp)) (k : Bytes) :
    Option (Bytes × Timestamp) :=
  let ts := GoMap.get c.reads k {}
  match oldest with
  | none => some (k, ts)
  | some (_, oldestTS) => if ts.less oldestTS then some (k, ts) else oldest

def evictOldestLocked (order : List Bytes) : Cache :=
  match (c.range order).foldl c.older none with
  | none => c
  | some (oldestKey, oldestTS) =>
    { c with
      reads := c.reads.erase oldestKey
      lowWater := if c.lowWater.less oldestTS then oldestTS else c.lowWater }

open AList (insert lookup lookup_erase_ne lookup_isSome mem_keys)

def add (c : Cache) (key : Bytes) (timestamp : Timestamp) (order : List Bytes) : Cache :=
  if timestamp.lessEq c.lowWater then c
  else
    match lookup key c.reads with
    | some existing =>
      if existing.less timestamp then { c with reads := insert key timestamp c.reads } else c
    | none =>
      let c := if c.maxSize > 0 && c.maxSize ≤ c.reads.entries.length then c.evictOldestLocked order
        else c
      { c with reads := insert key timestamp c.reads }

def setLowWater (c : Cache) (timestamp : Timestamp) : Cache :=
  if timestamp.lessEq c.lowWater then c
  else
    { c with
      lowWater := timestamp
      reads := c.reads.keys.foldl
        (fun reads k ↦ if (GoMap.get reads k {}).lessEq timestamp then reads.erase k else reads)
        c.reads }

/-! ## The scan for the oldest entry -/

variable {c : Cache}

theorem mem_range {order : List Bytes} {k : Bytes} : k ∈ c.range order ↔ k ∈ c.reads.keys := by
  rw [range]
  split
  · rename_i hperm
    exact hperm.mem_iff
  · rfl

theorem lookup_of_mem_keys {k : Bytes} (h : k ∈ c.reads.keys) :
    lookup k c.reads = some (GoMap.get c.reads k {}) := by
  have hsome : (lookup k c.reads).isSome := lookup_isSome.mpr (mem_keys.mpr h)
  obtain ⟨ts, hts⟩ := isSome_iff_exists.mp hsome
  rw [GoMap.get, hts, getD_some]

/-- The scan ends with what it has found or with a key it has seen, and nothing it has seen is
older. -/
theorem foldl_older (c : Cache) (ks : List Bytes) (found : Bytes × Timestamp) :
    ∃ oldest, ks.foldl c.older (some found) = some oldest ∧
      (oldest = found ∨ ∃ k ∈ ks, oldest = (k, GoMap.get c.reads k {})) ∧
      oldest.2 ≤ found.2 ∧ ∀ k ∈ ks, oldest.2 ≤ GoMap.get c.reads k {} := by
  induction ks generalizing found with
  | nil => exact ⟨found, rfl, .inl rfl, le_refl _, by simp⟩
  | cons k ks ih =>
    obtain ⟨next, hnext, hfrom, hlf, hlk⟩ : ∃ next, c.older (some found) k = some next ∧
        (next = found ∨ next = (k, GoMap.get c.reads k {})) ∧ next.2 ≤ found.2 ∧
        next.2 ≤ GoMap.get c.reads k {} := by
      simp only [older]
      split <;> rename_i hless
      · exact ⟨_, rfl, .inr rfl, ((less_iff _ _).mp hless).le, le_refl _⟩
      · exact ⟨_, rfl, .inl rfl, le_refl _, not_lt.mp (fun hlt ↦ hless ((less_iff _ _).mpr hlt))⟩
    obtain ⟨oldest, hfold, hsrc, hle, hall⟩ := ih next
    refine ⟨oldest, ?_, ?_, hle.trans hlf, ?_⟩
    · rw [foldl_cons, hnext, hfold]
    · obtain rfl | ⟨k', hk', rfl⟩ := hsrc
      · exact hfrom.imp_right fun h ↦ ⟨k, mem_cons_self, h⟩
      · exact .inr ⟨k', mem_cons_of_mem _ hk', rfl⟩
    · intro k' hk'
      obtain rfl | hk' := mem_cons.mp hk'
      · exact hle.trans hlk
      · exact hall k' hk'

theorem evictOldestLocked_of_ne_nil (h : c.reads.keys ≠ []) (order : List Bytes) :
    ∃ oldestKey oldestTS, lookup oldestKey c.reads = some oldestTS ∧
      (∀ {k ts}, lookup k c.reads = some ts → oldestTS ≤ ts) ∧
      c.evictOldestLocked order =
        { c with reads := c.reads.erase oldestKey, lowWater := max c.lowWater oldestTS } := by
  obtain ⟨k, ks, hrange⟩ : ∃ k ks, c.range order = k :: ks := by
    apply exists_cons_of_ne_nil
    obtain ⟨k, hk⟩ := exists_mem_of_ne_nil _ h
    exact ne_nil_of_mem (mem_range.mpr hk)
  obtain ⟨oldest, hfold, hsrc, hle, hall⟩ := c.foldl_older ks (k, GoMap.get c.reads k {})
  obtain ⟨k', hk', rfl⟩ : ∃ k' ∈ k :: ks, oldest = (k', GoMap.get c.reads k' {}) := by
    obtain rfl | ⟨k', hk', rfl⟩ := hsrc
    · exact ⟨k, mem_cons_self, rfl⟩
    · exact ⟨k', mem_cons_of_mem _ hk', rfl⟩
  refine ⟨k', GoMap.get c.reads k' {}, lookup_of_mem_keys (mem_range.mp (hrange ▸ hk')), ?_, ?_⟩
  · intro k₂ ts hts
    have hget : GoMap.get c.reads k₂ {} = ts := by rw [GoMap.get, hts, getD_some]
    have hmem : k₂ ∈ c.range order :=
      mem_range.mpr (mem_keys.mp (lookup_isSome.mp (by rw [hts]; rfl)))
    rw [hrange] at hmem
    obtain rfl | hmem := mem_cons.mp hmem
    · exact hget ▸ hle
    · exact hget ▸ hall k₂ hmem
  · have hscan : (c.range order).foldl c.older none = some (k', GoMap.get c.reads k' {}) := by
      rw [hrange]
      exact hfold
    have hmax : (if c.lowWater.less (GoMap.get c.reads k' {}) then GoMap.get c.reads k' {}
        else c.lowWater) = max c.lowWater (GoMap.get c.reads k' {}) := by
      split <;> rename_i hless
      · exact (max_eq_right ((less_iff _ _).mp hless).le).symm
      · exact (max_eq_left (not_lt.mp fun hlt ↦ hless ((less_iff _ _).mpr hlt))).symm
    rw [evictOldestLocked, hscan, ← hmax]

theorem evictOldestLocked_of_nil (h : c.reads.keys = []) (order : List Bytes) :
    c.evictOldestLocked order = c := by
  have hrange : c.range order = [] := by
    apply eq_nil_iff_forall_not_mem.mpr
    intro k hk
    exact absurd (mem_range.mp hk) (by simp [h])
  rw [evictOldestLocked, hrange]
  rfl

/-! ## The timestamps of a cache -/

/-- The low-water mark and every entry satisfy `P`. -/
structure All (P : Timestamp → Prop) (c : Cache) : Prop where
  lowWater : P c.lowWater
  reads : ∀ {k ts}, lookup k c.reads = some ts → P ts

variable {P : Timestamp → Prop} {c : Cache}

theorem All.getMax (h : All P c) (key : Bytes) : P (c.getMax key) := by
  rw [Cache.getMax, GoMap.get]
  cases hk : lookup key c.reads with
  | none => exact h.lowWater
  | some ts => exact h.reads hk

variable {ts : Timestamp}

theorem All.insert (h : All P c) (key : Bytes) (hts : P ts) :
    All P { c with reads := insert key ts c.reads } := by
  refine ⟨h.lowWater, fun {k ts'} hk ↦ ?_⟩
  by_cases heq : k = key
  · subst heq
    rw [lookup_insert] at hk
    cases hk
    exact hts
  · rw [lookup_insert_ne heq] at hk
    exact h.reads hk

theorem All.evictOldestLocked (h : All P c) (order : List Bytes) :
    All P (c.evictOldestLocked order) := by
  by_cases hnil : c.reads.keys = []
  · rw [evictOldestLocked_of_nil hnil]
    exact h
  · obtain ⟨oldestKey, oldestTS, hold, -, heq⟩ := evictOldestLocked_of_ne_nil hnil order
    rw [heq]
    refine ⟨?_, fun {k ts} hk ↦ ?_⟩
    · obtain hmax | hmax := max_choice c.lowWater oldestTS
      · simpa only [hmax] using h.lowWater
      · simpa only [hmax] using h.reads hold
    · by_cases hkey : k = oldestKey
      · rw [hkey, lookup_erase] at hk
        cases hk
      · rw [lookup_erase_ne hkey] at hk
        exact h.reads hk

/-- A cache holds no timestamp that was not added. -/
theorem All.add (h : All P c) (key : Bytes) (hts : P ts) (order : List Bytes) :
    All P (c.add key ts order) := by
  rw [Cache.add]
  split
  · exact h
  · split
    · split
      · exact h.insert key hts
      · exact h
    · simp only
      split
      · exact (h.evictOldestLocked order).insert key hts
      · exact h.insert key hts

/-! ## What the cache covers -/

/-- The low-water mark is a floor: no key is reported below it. -/
def Floor (c : Cache) : Prop := ∀ key, c.lowWater ≤ c.getMax key

variable {key : Bytes}

theorem getMax_of_lookup (h : lookup key c.reads = some ts) : c.getMax key = ts := by
  rw [getMax, GoMap.get, h, getD_some]

theorem getMax_of_lookup_none (h : lookup key c.reads = none) : c.getMax key = c.lowWater := by
  rw [getMax, GoMap.get, h, getD_none]

@[simp] theorem getMax_insert (key k : Bytes) (ts : Timestamp) :
    getMax { c with reads := insert key ts c.reads } k = if k = key then ts else c.getMax k :=
  GoMap.get_insert _ _ _ _ _

/-- `c'` has its floor and reports no key lower than `c`. -/
structure Raises (c c' : Cache) : Prop where
  floor : Floor c'
  le : ∀ key, c.getMax key ≤ c'.getMax key

theorem Floor.refl (h : Floor c) : Raises c c := ⟨h, fun _ ↦ le_refl _⟩

theorem Raises.trans {c' c'' : Cache} (h : Raises c c') (h' : Raises c' c'') : Raises c c'' :=
  ⟨h'.floor, fun key ↦ (h.le key).trans (h'.le key)⟩

theorem Floor.insert (h : Floor c) (hlow : c.lowWater ≤ ts) (hts : c.getMax key ≤ ts) :
    Raises c { c with reads := insert key ts c.reads } := by
  constructor
  · intro k
    rw [getMax_insert]
    split
    · exact hlow
    · exact h k
  · intro k
    rw [getMax_insert]
    split
    · rename_i hk
      exact hk ▸ hts
    · exact le_refl _

/-- An eviction moves the low-water mark to the oldest entry, below which no entry is. -/
theorem Floor.evictOldestLocked (h : Floor c) (order : List Bytes) :
    Raises c (c.evictOldestLocked order) := by
  by_cases hnil : c.reads.keys = []
  · rw [evictOldestLocked_of_nil hnil]
    exact h.refl
  obtain ⟨oldestKey, oldestTS, hold, hmin, heq⟩ := evictOldestLocked_of_ne_nil hnil order
  have hmax : max c.lowWater oldestTS = oldestTS :=
    max_eq_right (getMax_of_lookup hold ▸ h oldestKey)
  rw [hmax] at heq
  have hget : ∀ key, (c.evictOldestLocked order).getMax key =
      (lookup key (c.reads.erase oldestKey)).getD oldestTS := fun key ↦ by
    rw [heq, getMax, GoMap.get]
  have hlookup : ∀ {key ts}, lookup key (c.reads.erase oldestKey) = some ts →
      lookup key c.reads = some ts := fun {key ts} hk ↦ by
    by_cases hkey : key = oldestKey
    · rw [hkey, lookup_erase] at hk
      cases hk
    · rwa [lookup_erase_ne hkey] at hk
  constructor
  · intro key
    rw [hget, heq]
    cases hk : lookup key (c.reads.erase oldestKey) with
    | none => exact le_refl _
    | some ts => exact hmin (hlookup hk)
  · intro key
    rw [hget]
    cases hk : lookup key (c.reads.erase oldestKey) with
    | some ts => exact (getMax_of_lookup (hlookup hk)).le
    | none =>
      by_cases hkey : key = oldestKey
      · rw [hkey, getMax_of_lookup hold]
        exact le_refl _
      · rw [lookup_erase_ne hkey] at hk
        rw [getMax_of_lookup_none hk]
        exact getMax_of_lookup hold ▸ h oldestKey

/-- `Add` takes the branch that evicts. -/
def Evicts (c : Cache) (key : Bytes) (timestamp : Timestamp) : Prop :=
  ¬timestamp ≤ c.lowWater ∧ lookup key c.reads = none ∧
    0 < c.maxSize ∧ c.maxSize ≤ c.reads.entries.length

instance (c : Cache) (key : Bytes) (timestamp : Timestamp) : Decidable (c.Evicts key timestamp) :=
  inferInstanceAs (Decidable (_ ∧ _))

variable {timestamp : Timestamp}

theorem Evicts.keys_ne_nil (h : c.Evicts key timestamp) : c.reads.keys ≠ [] := by
  obtain ⟨-, -, hpos, hfull⟩ := h
  intro hnil
  have hlen : c.reads.entries.length = c.reads.keys.length := by
    rw [AList.keys, List.keys, length_map]
  rw [hlen, hnil, length_nil] at hfull
  omega

theorem Evicts.add_eq (h : c.Evicts key timestamp) (order : List Bytes) :
    c.add key timestamp order =
      { c.evictOldestLocked order with
        reads := insert key timestamp (c.evictOldestLocked order).reads } := by
  obtain ⟨hlow, hkey, hpos, hfull⟩ := h
  rw [add, if_neg (by simpa using hlow), hkey]
  simp only
  rw [if_pos (by simp [hpos, hfull])]

/-- Some entry is not newer than `timestamp`. An eviction then moves the low-water mark no further
than `timestamp`. -/
def Reaches (c : Cache) (timestamp : Timestamp) : Prop :=
  ∃ k ∈ c.reads.keys, GoMap.get c.reads k {} ≤ timestamp

instance (c : Cache) (timestamp : Timestamp) : Decidable (c.Reaches timestamp) :=
  List.decidableBEx _ _

/-- **The entry an `Add` makes room for is covered exactly when it reaches the evicted one.** -/
theorem Evicts.reaches_iff (h : c.Evicts key timestamp) (order : List Bytes) :
    c.Reaches timestamp ↔ (c.evictOldestLocked order).lowWater ≤ timestamp := by
  obtain ⟨oldestKey, oldestTS, hold, hmin, heq⟩ := evictOldestLocked_of_ne_nil h.keys_ne_nil order
  rw [heq]
  constructor
  · rintro ⟨k, hk, hle⟩
    exact max_le (not_le.mp h.1).le ((hmin (lookup_of_mem_keys hk)).trans hle)
  · intro hle
    have hmem : oldestKey ∈ c.reads.keys := mem_keys.mp (lookup_isSome.mp (by rw [hold]; rfl))
    refine ⟨oldestKey, hmem, ?_⟩
    rw [GoMap.get, hold, getD_some]
    exact (le_max_right _ _).trans hle

theorem Floor.add_of_evicts (h : Floor c) (hev : c.Evicts key timestamp)
    (hreach : c.Reaches timestamp) (order : List Bytes) :
    Raises c (c.add key timestamp order) ∧ timestamp ≤ (c.add key timestamp order).getMax key := by
  have hraise := h.evictOldestLocked order
  have hlow := (hev.reaches_iff order).mp hreach
  have hkey : lookup key (c.evictOldestLocked order).reads = none := by
    obtain ⟨oldestKey, oldestTS, hold, -, heq⟩ := evictOldestLocked_of_ne_nil hev.keys_ne_nil order
    rw [heq]
    have hne : key ≠ oldestKey := by
      rintro rfl
      cases hev.2.1.symm.trans hold
    rw [lookup_erase_ne hne]
    exact hev.2.1
  rw [hev.add_eq]
  refine ⟨hraise.trans (hraise.floor.insert hlow ?_), ?_⟩
  · rwa [getMax_of_lookup_none hkey]
  · rw [getMax_insert, if_pos rfl]

theorem Floor.add_of_not_evicts (h : Floor c) (hev : ¬c.Evicts key timestamp) (order : List Bytes) :
    Raises c (c.add key timestamp order) ∧ timestamp ≤ (c.add key timestamp order).getMax key := by
  by_cases hlow : timestamp ≤ c.lowWater
  · rw [Cache.add, if_pos (by simpa using hlow)]
    exact ⟨h.refl, hlow.trans (h key)⟩
  have hlow' : c.lowWater ≤ timestamp := (not_le.mp hlow).le
  rw [Cache.add, if_neg (by simpa using hlow)]
  cases hkey : lookup key c.reads with
  | some existing =>
    simp only [less_iff]
    split <;> rename_i hlt
    · refine ⟨h.insert hlow' ?_, ?_⟩
      · rw [getMax_of_lookup hkey]
        exact hlt.le
      · rw [getMax_insert, if_pos rfl]
    · exact ⟨h.refl, (getMax_of_lookup hkey).symm ▸ not_lt.mp hlt⟩
  | none =>
    have hroom : ¬(c.maxSize > 0 && c.maxSize ≤ c.reads.entries.length) = true := by
      simp only [Bool.and_eq_true, decide_eq_true_eq]
      rintro ⟨hpos, hfull⟩
      exact hev ⟨hlow, hkey, hpos, hfull⟩
    simp only [if_neg hroom]
    refine ⟨h.insert hlow' ?_, ?_⟩
    · rwa [getMax_of_lookup_none hkey]
    · rw [getMax_insert, if_pos rfl]

theorem lookup_prune (ks : List Bytes) (reads : GoMap Bytes Timestamp) (mark : Timestamp)
    (key : Bytes) :
    lookup key (ks.foldl
      (fun reads k ↦ if (GoMap.get reads k {}).lessEq mark then reads.erase k else reads) reads) =
      if key ∈ ks then (lookup key reads).filter (fun ts ↦ mark < ts)
      else lookup key reads := by
  induction ks generalizing reads with
  | nil => simp
  | cons k ks ih =>
    rw [foldl_cons, ih]
    by_cases hk : key = k
    · subst hk
      cases hl : lookup key reads with
      | none =>
        by_cases hle : (GoMap.get reads key {}).lessEq mark <;> simp [hle, hl]
      | some ts =>
        have hget : GoMap.get reads key {} = ts := by rw [GoMap.get, hl, getD_some]
        rw [hget]
        by_cases hle : ts ≤ mark
        · simp [hle, filter_some, not_lt.mpr hle]
        · simp [hle, hl, filter_some, not_le.mp hle]
    · have hsame : lookup key (if (GoMap.get reads k {}).lessEq mark then reads.erase k
          else reads) = lookup key reads := by
        split
        · exact lookup_erase_ne hk
        · rfl
      rw [hsame]
      simp [hk]

theorem Floor.setLowWater (h : Floor c) (mark : Timestamp) : Raises c (c.setLowWater mark) := by
  by_cases hle : mark ≤ c.lowWater
  · rw [Cache.setLowWater, if_pos (by simpa using hle)]
    exact h.refl
  have hget : ∀ key, (c.setLowWater mark).getMax key = max (c.getMax key) mark := by
    intro key
    rw [Cache.setLowWater, if_neg (by simpa using hle), getMax, GoMap.get, lookup_prune]
    cases hk : lookup key c.reads with
    | none =>
      rw [getMax_of_lookup_none hk, max_eq_right (not_le.mp hle).le]
      split <;> rfl
    | some ts =>
      have hmem : key ∈ c.reads.keys := mem_keys.mp (lookup_isSome.mp (by rw [hk]; rfl))
      rw [if_pos hmem, getMax_of_lookup hk]
      by_cases hlt : mark < ts
      · simp [filter_some, hlt, hlt.le]
      · simp [filter_some, hlt, not_lt.mp hlt]
  have hlow : (c.setLowWater mark).lowWater = mark := by
    rw [Cache.setLowWater, if_neg (by simpa using hle)]
  constructor
  · intro key
    rw [hlow, hget]
    exact le_max_right _ _
  · intro key
    rw [hget]
    exact le_max_left _ _

/-! ## Runs -/

/-- A call that changes the cache. -/
inductive Call where
  | add (key : Bytes) (timestamp : Timestamp) (order : List Bytes)
  | setLowWater (timestamp : Timestamp)

/-- The cache after a call. -/
def apply (c : Cache) : Call → Cache
  | .add key timestamp order => c.add key timestamp order
  | .setLowWater timestamp => c.setLowWater timestamp

/-- The cache after a sequence of calls. -/
def run (c : Cache) (calls : List Call) : Cache := calls.foldl apply c

/-- After `calls` no key is reported below the low-water mark or below a timestamp at which it was
added. -/
structure Covers (c : Cache) (calls : List Call) : Prop where
  floor : Floor c
  added : ∀ {key timestamp order}, Call.add key timestamp order ∈ calls → timestamp ≤ c.getMax key

/-- An `Add` that evicts is not older than every entry. -/
def Room (c : Cache) : Call → Prop
  | .add key timestamp _ => c.Evicts key timestamp → c.Reaches timestamp
  | .setLowWater _ => True

instance (c : Cache) : (call : Call) → Decidable (c.Room call)
  | .add key timestamp _ =>
    inferInstanceAs (Decidable (c.Evicts key timestamp → c.Reaches timestamp))
  | .setLowWater _ => inferInstanceAs (Decidable True)

@[simp] theorem run_append (c : Cache) (calls : List Call) (call : Call) :
    c.run (calls ++ [call]) = (c.run calls).apply call := by
  rw [run, foldl_append]
  rfl

theorem Covers.apply {calls : List Call} (h : Covers c calls) {call : Call} (hroom : c.Room call) :
    Covers (c.apply call) (calls ++ [call]) := by
  cases call with
  | add key timestamp order =>
    obtain ⟨hraise, hts⟩ : Raises c (c.add key timestamp order) ∧
        timestamp ≤ (c.add key timestamp order).getMax key := by
      by_cases hev : c.Evicts key timestamp
      · exact h.floor.add_of_evicts hev (hroom hev) order
      · exact h.floor.add_of_not_evicts hev order
    refine ⟨hraise.floor, fun {k ts o} hmem ↦ ?_⟩
    obtain hmem | hmem := mem_append.mp hmem
    · exact (h.added hmem).trans (hraise.le k)
    · obtain ⟨rfl, rfl, rfl⟩ : k = key ∧ ts = timestamp ∧ o = order := by simpa using hmem
      exact hts
  | setLowWater mark =>
    have hraise := h.floor.setLowWater mark
    refine ⟨hraise.floor, fun {k ts o} hmem ↦ ?_⟩
    have hmem : Call.add k ts o ∈ calls := by simpa using hmem
    exact (h.added hmem).trans (hraise.le k)

/-- An `Add` that evicts and is older than every entry puts its own entry below the low-water
mark. -/
theorem Floor.room {call : Call} (h : Floor (c.apply call)) : c.Room call := by
  cases call with
  | setLowWater mark => trivial
  | add key timestamp order =>
    intro hev
    have hfloor := h key
    rw [Cache.apply, hev.add_eq, getMax_insert, if_pos rfl] at hfloor
    exact (hev.reaches_iff order).mpr hfloor

/-- **The cache never under-reports**, in the runs in which no `Add` evicts entries that are all
newer than its own, and in no others: such an `Add` raises the low-water mark over the entry it then
inserts, and later reads of that key below the mark are dropped as if the mark covered them. -/
theorem covers_iff_room (maxSize : ℤ) (calls : List Call) :
    (∀ past, past <+: calls → Covers (run { maxSize } past) past) ↔
      Along apply Room { maxSize } calls := by
  refine forall_prefix_iff_along (W := fun _ _ ↦ True) (I := fun past ↦ Covers (run _ past) past)
    ⟨fun key ↦ le_refl _, by simp⟩ (fun _ h ↦ h) ?_ ?_ ?_
  · intro past call h _ hroom
    rw [run_append]
    exact h.apply hroom
  · intro past call _ _ h
    rw [run_append] at h
    exact h.floor.room
  · induction calls using List.reverseRecOn with
    | nil => trivial
    | append_singleton calls call ih => exact (along_concat _ _ _).mpr ⟨ih, trivial⟩

/-- A cache of one entry in which a newer entry makes room for an older one: the low-water mark is
10, key `1` is reported at 5, and a read of it at 7 is dropped. -/
theorem exists_under_report :
    let a := Call.add [0] { wallTime := 10 } []
    let b := Call.add [1] { wallTime := 5 } []
    let b' := Call.add [1] { wallTime := 7 } []
    (run { maxSize := 1 } [a, b]).getMax [1] < (run { maxSize := 1 } [a, b]).lowWater ∧
      (run { maxSize := 1 } [a, b, b']).getMax [1] < { wallTime := 7 } := by
  decide +kernel

end Cache

end DucklingDB.Tscache
