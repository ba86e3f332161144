import DucklingDB.Lsm.SkipLevels
import Mathlib.Data.List.GetD

/-!
# Compaction cascades

`MaybeTriggerCompaction` goes on as long as a listed level reaches its threshold. A round empties
the first such level and leaves a single file in the next. So a level that is full is compacted
unless the level before it is (`Due`). The next level then needs two files, or the file goes on: the
thresholds from there on are at most one, and a file moves down for ever, or a level whose threshold
has come down to zero is compacted again and again, although it is empty (`Stuck`).

If no level is stuck, there are fewer files after a round, those of the first level counted twice.
-/

namespace DucklingDB.Lsm

open List Nat Disk

/-! ## Thresholds and sizes -/

/-- What the thresholds of a growth factor have in common. -/
structure Steady (t : ℕ → ℤ) : Prop where
  pos : ∀ {i}, 2 ≤ t (i + 1) → 1 ≤ t i
  low : ∀ {i}, i ≠ 0 → t i ≤ 1 → t (i + 1) ≤ 1

/-- Level `i` reaches its threshold, and the level before it is not compacted into it first. -/
def Due (t : ℕ → ℤ) (n : ℕ → ℕ) : ℕ → Prop
  | 0 => t 0 ≤ n 0
  | i + 1 => t (i + 1) ≤ n (i + 1) ∧ ¬Due t n i

/-- Level `i` is due, what is left in the next level reaches its threshold there, and level `i`
remains listed until it is its turn. -/
structure Stuck (t : ℕ → ℤ) (n : ℕ → ℕ) (listed i : ℕ) : Prop where
  due : Due t n i
  low : t (i + 1) ≤ 1
  live : (∃ k ≥ i, n k ≠ 0) ∨ i < listed ∧ ∀ j < i, ¬Due t n j

/-- Level `i` is the first that reaches its threshold. -/
structure FirstOver (t : ℕ → ℤ) (n : ℕ → ℕ) (i : ℕ) : Prop where
  reached : t i ≤ n i
  below : ∀ j < i, n j < t j

/-- The sizes after a round at level `i`. -/
def rounded (n : ℕ → ℕ) (i j : ℕ) : ℕ := if j = i then 0 else if j = i + 1 then 1 else n j

section

variable {t : ℕ → ℤ} {n : ℕ → ℕ} {i : ℕ}

theorem Due.le (h : Due t n i) : t i ≤ n i := by
  cases i with
  | zero => exact h
  | succ i => exact h.1

theorem FirstOver.not_due (h : FirstOver t n i) {j : ℕ} (hj : j < i) : ¬Due t n j :=
  fun hdue ↦ (h.below j hj).not_ge hdue.le

theorem FirstOver.due (h : FirstOver t n i) : Due t n i := by
  cases i with
  | zero => exact h.reached
  | succ i => exact ⟨h.reached, h.not_due (lt_succ_self i)⟩

/-- If the next level needs two files, a round changes nothing for the others. -/
theorem due_rounded (hdue : Due t n i) (hpos : 1 ≤ t i) (htwo : 2 ≤ t (i + 1)) (k : ℕ) :
    Due t (rounded n i) k ↔ k ≠ i ∧ Due t n k := by
  induction k with
  | zero =>
    rw [Due, Due, rounded, if_neg (succ_ne_zero i).symm]
    split_ifs with hi
    · exact iff_of_false (by rw [hi]; omega) fun h ↦ h.1 hi
    · exact (and_iff_right hi).symm
  | succ k ih =>
    rw [Due, Due, ih, rounded]
    split_ifs with hi hk
    · exact iff_of_false (by rw [hi]; omega) fun h ↦ h.1 hi
    · obtain rfl := succ_inj.mp hk
      exact iff_of_false (by omega) fun h ↦ h.2.2 hdue
    · simp [hi, show k ≠ i by omega]

section

variable {listed listed' k : ℕ} (hi : FirstOver t n i) (hpos : 1 ≤ t i) (htwo : 2 ≤ t (i + 1))
include hi hpos htwo

/-- Another stuck level remains stuck. -/
theorem Stuck.round (h : Stuck t n listed k) : Stuck t (rounded n i) listed' k := by
  obtain ⟨hdue, hlow, hlive⟩ := h
  have hik : i + 1 < k := by
    by_contra hk
    obtain hk | rfl | rfl : k < i ∨ k = i ∨ k = i + 1 := by omega
    · exact hi.not_due hk hdue
    · omega
    · exact hdue.2 hi.due
  obtain ⟨j, hj, hne⟩ := hlive.resolve_right fun hlive ↦ hlive.2 i (by omega) hi.due
  refine ⟨(due_rounded hi.due hpos htwo k).mpr ⟨by omega, hdue⟩, hlow, .inl ⟨j, hj, ?_⟩⟩
  rwa [rounded, if_neg (by omega), if_neg (by omega)]

/-- No level gets stuck by a round. -/
theorem Stuck.of_rounded (hlast : ∀ k, k + 1 < listed' → ∃ j ≥ k + 1, rounded n i j ≠ 0)
    (h : Stuck t (rounded n i) listed' k) : Stuck t n listed k := by
  obtain ⟨hdue, hlow, hlive⟩ := h
  obtain ⟨hki, hdue⟩ := (due_rounded hi.due hpos htwo k).mp hdue
  have hik : i + 1 < k := by
    by_contra hk
    obtain hk | rfl : k < i ∨ k = i + 1 := by omega
    · exact hi.not_due hk hdue
    · exact hdue.2 hi.due
  obtain ⟨j, hj, hne⟩ : ∃ j ≥ k, rounded n i j ≠ 0 := by
    obtain ⟨k, rfl⟩ := exists_eq_add_one_of_ne_zero (show k ≠ 0 by omega)
    exact hlive.elim id fun hlive ↦ hlast k hlive.1
  rw [rounded, if_neg (by omega), if_neg (by omega)] at hne
  exact ⟨hdue, hlow, .inl ⟨j, hj, hne⟩⟩

end

/-- A threshold that falls below two stays there: the factor is less than two then. -/
theorem steady_of_succ {p q : ℤ} (hp : 0 < p) (hq : 0 < q) (hzero : 1 ≤ t 0)
    (hsucc : ∀ k, t (k + 1) = (t k * p).tdiv q) : Steady t := by
  have hnonneg : ∀ k, 0 ≤ t k := by
    intro k
    induction k with
    | zero => omega
    | succ k ih => exact hsucc k ▸ Int.tdiv_nonneg (mul_nonneg ih hp.le) hq.le
  have hstop : ∀ k, t k = 0 → t (k + 1) = 0 := fun k hk ↦ by rw [hsucc, hk, zero_mul, Int.zero_tdiv]
  have hlow : ∀ k, t (k + 1) ≤ 1 ↔ t k * p < 2 * q := fun k ↦ by
    rw [hsucc, Int.tdiv_eq_ediv_of_nonneg (mul_nonneg (hnonneg k) hp.le), ← Int.lt_add_one_iff,
      Int.ediv_lt_iff_lt_mul hq]
    rfl
  refine ⟨fun {i} h ↦ ?_, fun {i} hi h ↦ ?_⟩
  · by_contra hlt
    have := hnonneg i
    have := hstop i (by omega)
    omega
  · obtain ⟨i, rfl⟩ := exists_eq_add_one_of_ne_zero hi
    obtain hi | hi := (hnonneg i).eq_or_lt
    · rw [hstop _ (hstop i hi.symm)]
      decide
    · refine (hlow (i + 1)).mpr ?_
      calc t (i + 1) * p ≤ 1 * p := mul_le_mul_of_nonneg_right h hp.le
        _ ≤ t i * p := mul_le_mul_of_nonneg_right hi hp.le
        _ < 2 * q := (hlow i).mp h

end

namespace LSMOptions

/-- Options with the growth factor `p / q`; without a positive one it is 10. -/
def ofRatio (memTableThreshold l0Threshold p q : ℤ) : LSMOptions where
  memTableThreshold := memTableThreshold
  l0Threshold := l0Threshold
  grow t := if p ≤ 0 then t * 10 else (t * p).tdiv q

theorem steady_ofRatio {M T p q : ℤ} (hT : 1 ≤ T) (hp : 0 < p) (hq : 0 < q) :
    Steady (ofRatio M T p q).levelThreshold :=
  steady_of_succ hp hq (hT.trans_eq (if_neg (show ¬T ≤ 0 by omega)).symm) fun _ ↦
    (Function.iterate_succ_apply' ..).trans (if_neg hp.not_ge)

end LSMOptions

/-! ## Rounds -/

namespace Compactor

theorem getD_append_replicate (levels : List (List ℕ)) (k j : ℕ) :
    (levels ++ List.replicate k []).getD j [] = levels.getD j [] := by
  obtain hj | hj := lt_or_ge j levels.length
  · rw [getD_append _ _ _ _ hj]
  · rw [getD_append_right _ _ _ _ hj, getD_eq_default _ _ hj, getD_eq_getElem?_getD,
      getElem?_replicate]
    split <;> rfl

/-- Below the first level, the last one that is listed has files. -/
theorem exists_getD_trim {levels : List (List ℕ)} {k : ℕ}
    (hk : k + 1 < (trimTrailingEmptyLevels levels).length) :
    ∃ j ≥ k + 1, (trimTrailingEmptyLevels levels).getD j [] ≠ [] := by
  obtain _ | ⟨level, levels⟩ := levels
  · cases hk
  · have hlt : k < (levels.rdropWhile List.isEmpty).length := lt_of_succ_lt_succ hk
    have hne := ne_nil_of_length_pos (zero_lt_of_lt hlt)
    refine ⟨(levels.rdropWhile List.isEmpty).length - 1 + 1, by omega, ?_⟩
    have hlast := rdropWhile_last_not _ _ hne
    rw [trimTrailingEmptyLevels, getD_cons_succ, getD_eq_getElem _ _ (by omega),
      ← getLast_eq_getElem hne]
    exact fun heq ↦ hlast (heq ▸ rfl)

section

variable [MetaDataCodec] [BloomSizing] {c : Compactor} {opts : LSMOptions}

/-- How the loop has ended after a number of rounds. -/
def status (opts : LSMOptions) (fuel : ℕ) (c : Compactor) : Status :=
  (maybeTriggerCompaction opts fuel c.disk c.nextID).status

/-- The number of files in a level. -/
def sizes (c : Compactor) (i : ℕ) : ℕ := (c.disk.levels.getD i []).length

omit [BloomSizing] in
theorem levels_removeTables (d : Disk) (ids : List ℕ) :
    (d.applyAll (ids.map .removeTable)).levels = d.levels := by
  induction ids generalizing d with
  | nil => rfl
  | cons id ids ih => exact ih _

/-- What a round does: nothing if the level has no files. -/
theorem exists_round (h : c.disk.Sound) (i : ℕ) :
    if c.sizes i = 0 then c.compactLevel i (i + 1) = c else
    (c.compactLevel i (i + 1)).sizes = rounded c.sizes i ∧
      (c.compactLevel i (i + 1)).disk.ids.length + c.sizes i + c.sizes (i + 1) = c.disk.ids.length +
      1 ∧ ∃ levels, (c.compactLevel i (i + 1)).disk.levels = trimTrailingEmptyLevels levels := by
  obtain ⟨above, fromFiles, between, toFiles, below, rfl, hlen, hgrow, hids, heq⟩ :=
    compactLevel_split h c.nextID (lt_succ_self i)
  obtain rfl : between = [] := length_eq_zero_iff.mp (by omega)
  have hsize : ∀ j, c.sizes j = ((above ++ fromFiles :: toFiles :: below).getD j []).length :=
    fun j ↦ by
    rw [sizes, ← getD_append_replicate]
    exact congrArg (fun ls ↦ (ls.getD j []).length) hgrow
  have hfrom : c.sizes above.length = fromFiles.length := by rw [hsize, getD_split]
  have hto : c.sizes (above.length + 1) = toFiles.length := by
    rw [hsize, getD_append_right _ _ _ _ (by omega), Nat.add_sub_cancel_left]
    rfl
  by_cases hempty : fromFiles = []
  · rw [if_pos (by rw [hfrom, hempty]; rfl), compactLevel, heq, if_pos hempty]
    rfl
  · have hlevels : (c.compactLevel above.length (above.length + 1)).disk.levels =
        trimTrailingEmptyLevels (above ++ [] :: [c.nextID] :: below) := by
      rw [compactLevel, heq, if_neg hempty]
      exact (levels_removeTables _ _).trans (levels_save h.metaStore _)
    rw [if_neg (by rw [hfrom]; exact length_eq_zero_iff.not.mpr hempty), ids, hlevels,
      flatten_trimTrailingEmptyLevels, hfrom, hto, hids]
    refine ⟨funext fun j ↦ ?_, by simp; omega, _, rfl⟩
    obtain ⟨k, hk⟩ := exists_trim (above ++ [] :: [c.nextID] :: below)
    rw [sizes, hlevels, ← getD_append_replicate _ k, hk, rounded, hsize]
    obtain hj | hj := lt_or_ge j above.length
    · rw [if_neg hj.ne, if_neg (by omega), getD_append _ _ _ _ hj, getD_append _ _ _ _ hj]
    · obtain ⟨m, rfl⟩ := Nat.exists_eq_add_of_le hj
      rw [getD_append_right _ _ _ _ hj, getD_append_right _ _ _ _ hj, Nat.add_sub_cancel_left]
      obtain _ | _ | m := m
      · simp
      · simp
      · simp

theorem status_succ (h : c.disk.Sound) (fuel : ℕ) : status opts (fuel + 1) c =
    (opts.firstOverThreshold c.disk.levels).elim .done fun i ↦
      status opts fuel (c.compactLevel i (i + 1)) := by
  rw [status, maybeTriggerCompaction]
  cases hlevel : opts.firstOverThreshold c.disk.levels with
  | none => rfl
  | some i =>
    obtain ⟨above, fromFiles, between, toFiles, below, -, -, -, -, heq⟩ :=
      compactLevel_split h c.nextID (lt_succ_self i)
    simp only [Option.elim_some, compactLevel, heq]
    rfl

omit [BloomSizing] in
/-- The level that `firstOverThreshold` finds. -/
theorem firstOverThreshold_eq_some {i : ℕ} (h : opts.firstOverThreshold c.disk.levels = some i) :
    i < c.disk.levels.length ∧ FirstOver opts.levelThreshold c.sizes i := by
  obtain ⟨hi, hlt, hfirst⟩ := find?_range_eq_some.mp h
  rw [decide_eq_true_iff] at hi
  refine ⟨mem_range.mp hlt, hi, fun j hj ↦ not_le.mp fun hle ↦ ?_⟩
  have := hfirst j hj
  rw [Bool.not_eq_true', decide_eq_false_iff_not] at this
  exact this hle

/-- The number of files, with those of the first level counted twice. -/
def weight (c : Compactor) : ℕ := c.disk.ids.length + c.sizes 0

/-- **The loop ends if no level is stuck.** -/
theorem exists_done (ht : Steady opts.levelThreshold) (h : c.disk.Sound)
    (hn : c.disk.Fresh c.nextID)
    (hstuck : ∀ i, ¬Stuck opts.levelThreshold c.sizes c.disk.levels.length i) :
    ∃ fuel, status opts fuel c = .done := by
  induction hw : c.weight using Nat.strong_induction_on generalizing c with
  | _ w ih =>
    cases hlevel : opts.firstOverThreshold c.disk.levels with
    | none => exact ⟨1, by rw [status_succ h, hlevel]; rfl⟩
    | some i =>
      obtain ⟨hlt, hfirst⟩ := firstOverThreshold_eq_some hlevel
      have hover := hfirst.reached
      have htwo : 2 ≤ opts.levelThreshold (i + 1) := by
        by_contra hlow
        exact hstuck i ⟨hfirst.due, by omega, .inr ⟨hlt, fun _ hj ↦ hfirst.not_due hj⟩⟩
      have hpos := ht.pos htwo
      have hround := exists_round h i
      rw [if_neg (by omega)] at hround
      obtain ⟨hsizes, hids, levels, hlevels⟩ := hround
      have hlt' : (c.compactLevel i (i + 1)).weight < w := by
        rw [← hw, weight, weight, hsizes, rounded]
        obtain rfl | hi := eq_or_ne i 0
        · simp only [if_true]
          omega
        · have hmany : ¬opts.levelThreshold i ≤ 1 := fun hlow ↦ by
            have := ht.low hi hlow
            omega
          rw [if_neg hi.symm, if_neg (by omega)]
          omega
      obtain ⟨hsound, hfresh, -⟩ := compactLevel_spec h hn (lt_succ_self i)
      refine Exists.elim (ih _ hlt' hsound hfresh (fun k hk ↦ hstuck k ?_) rfl) fun fuel hfuel ↦ ?_
      · rw [hsizes, hlevels] at hk
        refine hk.of_rounded hfirst hpos htwo fun k hk ↦ ?_
        obtain ⟨j, hj, hne⟩ := exists_getD_trim hk
        rw [← hlevels] at hne
        exact ⟨j, hj, hsizes ▸ length_eq_zero_iff.not.mpr hne⟩
      · exact ⟨fuel + 1, by rw [status_succ h, hlevel]; exact hfuel⟩

/-- **The loop does not end if a level is stuck.** -/
theorem ne_done_of_stuck (ht : Steady opts.levelThreshold) (h : c.disk.Sound)
    (hn : c.disk.Fresh c.nextID) {i : ℕ}
    (hstuck : Stuck opts.levelThreshold c.sizes c.disk.levels.length i) (fuel : ℕ) :
    status opts fuel c ≠ .done := by
  induction fuel generalizing c i with
  | zero => simp [status, maybeTriggerCompaction]
  | succ fuel ih =>
    obtain ⟨hdue, hlow, hlive⟩ := hstuck
    have hlisted : i < c.disk.levels.length := by
      obtain ⟨k, hk, hne⟩ | hlive := hlive
      · by_contra hle
        exact hne (by rw [sizes, getD_eq_default _ _ (by omega)]; rfl)
      · exact hlive.1
    rw [status_succ h]
    cases hover : opts.firstOverThreshold c.disk.levels with
    | none =>
      have hlt := find?_eq_none.mp hover i (mem_range.mpr hlisted)
      rw [decide_eq_true_iff] at hlt
      exact absurd hdue.le hlt
    | some j =>
      obtain ⟨-, hfirst⟩ := firstOverThreshold_eq_some hover
      obtain ⟨hsound, hfresh, -⟩ := compactLevel_spec h hn (lt_succ_self j)
      have hround := exists_round h j
      split at hround
      · rw [Option.elim_some, hround]
        exact ih h hn ⟨hdue, hlow, hlive⟩
      · rename_i hne
        have hnext : rounded c.sizes j (j + 1) = 1 := by simp [rounded]
        have hzero : rounded c.sizes j j = 0 := if_pos rfl
        by_cases htwo : 2 ≤ opts.levelThreshold (j + 1)
        · exact ih hsound hfresh (hround.1 ▸ Stuck.round hfirst (ht.pos htwo) htwo
            ⟨hdue, hlow, hlive⟩)
        · by_cases hpos : 1 ≤ opts.levelThreshold j
          · refine ih hsound hfresh (i := j + 1) (hround.1 ▸ ⟨⟨?_, fun hdue ↦ ?_⟩,
              ht.low j.succ_ne_zero (by omega), .inl ⟨j + 1, le_rfl, by omega⟩⟩)
            · omega
            · have := hdue.le
              omega
          · refine ih hsound hfresh (i := j) (hround.1 ▸ ⟨FirstOver.due ⟨by omega, fun m hm ↦ ?_⟩,
              by omega, .inl ⟨j + 1, le_succ j, by omega⟩⟩)
            rw [rounded, if_neg hm.ne, if_neg (by omega)]
            exact hfirst.below m hm

/-- **The compaction loop ends exactly if no level is stuck.** -/
theorem exists_done_iff {M T p q : ℤ} (hT : 1 ≤ T) (hp : 0 < p) (hq : 0 < q) (h : c.disk.Sound)
    (hn : c.disk.Fresh c.nextID) : (∃ fuel, status (.ofRatio M T p q) fuel c = .done) ↔
      ∀ i, ¬Stuck (LSMOptions.ofRatio M T p q).levelThreshold c.sizes c.disk.levels.length i :=
  have ht := LSMOptions.steady_ofRatio hT hp hq
  ⟨fun ⟨fuel, hdone⟩ _ hstuck ↦ ne_done_of_stuck ht h hn hstuck fuel hdone, exists_done ht h hn⟩

/-- A directory with one file, in level 0. -/
def oneFile : Compactor where
  disk := ({} : Disk).applyAll [.writeTable 0 (SSTable.ofRecords []),
    ({} : Disk).saveEffect [[0]]]
  nextID := 1

theorem oneFile_sound :
    oneFile.disk.Sound ∧ oneFile.disk.Fresh 1 ∧ oneFile.disk.levels = [[0]] := by
  obtain ⟨hempty, hfresh⟩ := Reached.empty.sound
  refine ⟨(hempty.switch hfresh List.Pairwise.nil (by simp) (by simp)).1, ?_,
    levels_save MetaStore.sound_empty _⟩
  refine (hfresh.mono (zero_le 1)).applyAll fun id t hmem ↦ ?_
  simp [saveEffect] at hmem
  omega

end

open LSMOptions

/-- The file is merged into level 1, which takes two, and the loop ends after that round. -/
theorem exists_done_merged : status (ofRatio 0 1 2 1) 1 oneFile = .running ∧
    status (ofRatio 0 1 2 1) 2 oneFile = .done ∧
    ∀ i, ¬Stuck (ofRatio 0 1 2 1).levelThreshold oneFile.sizes oneFile.disk.levels.length i := by
  have hdone : status (ofRatio 0 1 2 1) 2 oneFile = .done := by decide +kernel
  exact ⟨by decide +kernel, hdone,
    (exists_done_iff (by decide) (by decide) (by decide) oneFile_sound.1
    oneFile_sound.2.1).mp ⟨2, hdone⟩⟩

/-- Where every threshold is one. -/
theorem oneFile_not_done : oneFile.disk.Sound ∧ oneFile.disk.Fresh 1 ∧
    ¬∃ fuel, status (ofRatio 0 1 1 1) fuel oneFile = .done := by
  obtain ⟨hsound, hfresh, hlevels⟩ := oneFile_sound
  have hsize : oneFile.sizes 0 = 1 := by rw [sizes, hlevels]; rfl
  refine ⟨hsound, hfresh, fun ⟨fuel, hdone⟩ ↦ ?_⟩
  refine ne_done_of_stuck (steady_ofRatio (by decide) (by decide) (by decide)) hsound
    hfresh (i := 0) ⟨?_, by decide, ?_⟩ fuel hdone
  · exact (show (1 : ℤ) = oneFile.sizes 0 by rw [hsize]; rfl).le
  · exact .inl ⟨0, le_rfl, by omega⟩

end Compactor

end DucklingDB.Lsm
