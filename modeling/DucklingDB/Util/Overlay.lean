import DucklingDB.Util.SortedMap

/-!
# Layers of sorted lists

Several lists of entries, each in ascending key order, of which an earlier one hides the later ones
where they have the same key. `find` reads a key through the layers. `merge` walks all of them at
once: it takes the smallest head, from the first layer that has it, and drops that key everywhere.

The merged list is ascending (`sorted_merge`), and reading a key in it is reading it through the
layers (`lookup_merge`). The number of steps is bounded by the number of entries, which is the fuel.
-/

namespace DucklingDB.Overlay

open List hiding lookup

variable {κ ν : Type} [LinearOrder κ]

/-- The keys ascend. -/
def Ascending (es : List (κ × ν)) : Prop := es.Pairwise fun a b ↦ a.1 < b.1

open SortedMap (lookup)

/-- The value of a key in the first layer that has it. -/
def find (k : κ) : List (List (κ × ν)) → Option ν
  | [] => none
  | es :: ls =>
    match lookup k es with
    | some v => some v
    | none => find k ls

/-- An entry, unless another one has a smaller key. -/
def smaller (a : κ × ν) : Option (κ × ν) → κ × ν
  | none => a
  | some b => if b.1 < a.1 then b else a

/-- The head with the smallest key, of the first layer that has it. -/
def least : List (List (κ × ν)) → Option (κ × ν)
  | [] => none
  | [] :: ls => least ls
  | (a :: _) :: ls => some (smaller a (least ls))

/-- Drop a head with key `k`. -/
def dropHead (k : κ) : List (κ × ν) → List (κ × ν)
  | [] => []
  | a :: es => if a.1 = k then es else a :: es

/-- The number of entries. -/
def size : List (List (κ × ν)) → ℕ
  | [] => 0
  | es :: ls => es.length + size ls

/-- The merged list, after at most `n` steps. -/
def merge : ℕ → List (List (κ × ν)) → List (κ × ν)
  | 0, _ => []
  | n + 1, ls =>
    match least ls with
    | none => []
    | some a => a :: merge n (ls.map (dropHead a.1))

/-! ## One layer -/

section Layer

variable {es : List (κ × ν)} {k s : κ}

theorem Ascending.tail {a : κ × ν} (h : Ascending (a :: es)) : Ascending es :=
  (pairwise_cons.mp h).2

theorem Ascending.head_lt {a b : κ × ν} (h : Ascending (a :: es)) (hb : b ∈ es) : a.1 < b.1 :=
  (pairwise_cons.mp h).1 b hb

theorem Ascending.lookup_of_lt {a : κ × ν} (h : Ascending (a :: es)) (hk : k < a.1) :
    lookup k (a :: es) = none := by
  refine SortedMap.lookup_eq_none fun b hb ↦ ?_
  obtain rfl | hb := mem_cons.mp hb
  · exact hk.ne'
  · exact (hk.trans (h.head_lt hb)).ne'

theorem Ascending.dropHead (h : Ascending es) (k : κ) : Ascending (dropHead k es) := by
  cases es with
  | nil => exact h
  | cons a es =>
    rw [Overlay.dropHead]
    split
    · exact h.tail
    · exact h

theorem length_dropHead_le (k : κ) (es : List (κ × ν)) : (dropHead k es).length ≤ es.length := by
  cases es with
  | nil => exact le_rfl
  | cons a es =>
    rw [dropHead]
    split
    · exact Nat.le_succ _
    · exact le_rfl

/-- Dropping a key that is not above the head removes it, and nothing else. -/
theorem Ascending.lookup_dropHead (h : Ascending es) {m : κ} (hm : ∀ a ∈ es.head?, m ≤ a.1) :
    lookup k (Overlay.dropHead m es) = if k = m then none else lookup k es := by
  cases es with
  | nil => simp [Overlay.dropHead, lookup]
  | cons a es =>
    rw [Overlay.dropHead]
    by_cases ham : a.1 = m
    · rw [if_pos ham]
      by_cases hk : k = m
      · rw [if_pos hk]
        exact SortedMap.lookup_eq_none fun b hb ↦ hk ▸ ham ▸ (h.head_lt hb).ne'
      · rw [if_neg hk, lookup, if_neg fun hak ↦ hk (hak.symm.trans ham)]
    · rw [if_neg ham]
      have hlt : m < a.1 := lt_of_le_of_ne (hm a rfl) (Ne.symm ham)
      by_cases hk : k = m
      · rw [if_pos hk, hk, h.lookup_of_lt hlt]
      · rw [if_neg hk]

/-- The entries from `s` on. -/
def above (s : κ) (es : List (κ × ν)) : List (κ × ν) := es.dropWhile fun e ↦ decide (e.1 < s)

theorem Ascending.above (h : Ascending es) (s : κ) : Ascending (above s es) :=
  h.sublist (dropWhile_sublist _)

theorem Ascending.lookup_above (h : Ascending es) (s k : κ) :
    lookup k (Overlay.above s es) = if k < s then none else lookup k es := by
  induction es with
  | nil => simp [Overlay.above, lookup]
  | cons a es ih =>
    rw [Overlay.above, dropWhile_cons]
    by_cases has : a.1 < s
    · rw [if_pos (decide_eq_true has)]
      refine (ih h.tail).trans ?_
      by_cases hk : k < s
      · rw [if_pos hk, if_pos hk]
      · rw [if_neg hk, if_neg hk, lookup, if_neg fun hak : a.1 = k ↦ hk (hak ▸ has)]
    · rw [if_neg (by simpa using has)]
      by_cases hk : k < s
      · rw [if_pos hk, h.lookup_of_lt (hk.trans_le (not_lt.mp has))]
      · rw [if_neg hk]

end Layer

/-! ## All layers -/

section Layers

variable {ls : List (List (κ × ν))} {k : κ} {a : κ × ν} {es : List (κ × ν)} {b : κ × ν}

theorem find_of_forall_nil (h : ∀ es ∈ ls, es = []) (k : κ) : find k ls = none := by
  induction ls with
  | nil => rfl
  | cons es ls ih =>
    rw [find, h es mem_cons_self]
    exact ih fun es' hes' ↦ h es' (.tail _ hes')

theorem find_append (k : κ) (ls ls' : List (List (κ × ν))) :
    find k (ls ++ ls') = (find k ls).or (find k ls') := by
  induction ls with
  | nil => rfl
  | cons es ls ih =>
    rw [cons_append, find, find]
    cases lookup k es with
    | some v => rfl
    | none => exact ih

theorem find_singleton (k : κ) (es : List (κ × ν)) : find k [es] = lookup k es := by
  rw [find]
  cases lookup k es with
  | some v => rfl
  | none => rfl

theorem find_map {f : List (κ × ν) → List (κ × ν)} {p : Prop} [Decidable p]
    (h : ∀ es ∈ ls, lookup k (f es) = if p then none else lookup k es) :
    find k (ls.map f) = if p then none else find k ls := by
  induction ls with
  | nil => simp [find]
  | cons es ls ih =>
    have hes := h es (.head _)
    have hls := ih fun es' hes' ↦ h es' (.tail _ hes')
    rw [map_cons, find, find, hes, hls]
    by_cases hp : p
    · simp only [if_pos hp]
    · simp only [if_neg hp]

theorem smaller_smaller (a b : κ × ν) (o : Option (κ × ν)) :
    smaller a (some (smaller b o)) = if b.1 < a.1 then smaller b o else smaller a o := by
  cases o with
  | none => rfl
  | some c =>
    simp only [smaller]
    by_cases hcb : c.1 < b.1
    · by_cases hba : b.1 < a.1
      · simp only [hcb, hba, hcb.trans hba, if_true]
      · simp only [hcb, hba, if_true, if_false]
    · by_cases hba : b.1 < a.1
      · simp only [hcb, hba, if_true, if_false]
      · have hca : ¬c.1 < a.1 := fun hca ↦ hcb (hca.trans_le (not_lt.mp hba))
        simp only [hcb, hba, hca, if_false]

theorem least_eq_none (h : least ls = none) : ∀ es ∈ ls, es = [] := by
  induction ls with
  | nil => simp
  | cons es ls ih =>
    cases es with
    | nil => exact forall_mem_cons.mpr ⟨rfl, ih h⟩
    | cons b es => exact absurd h (by simp [least])

/-- The smallest head is that of the first layer, or that of the rest if it is smaller. -/
theorem least_cons (h : least ((b :: es) :: ls) = some a) :
    (b = a ∧ ∀ c, least ls = some c → b.1 ≤ c.1) ∨ least ls = some a ∧ a.1 < b.1 := by
  have ha : smaller b (least ls) = a := Option.some.inj h
  cases hl : least ls with
  | none =>
    rw [hl] at ha
    exact .inl ⟨ha, by simp⟩
  | some c =>
    rw [hl, smaller] at ha
    split at ha
    · rename_i hlt
      exact .inr ⟨congrArg some ha, ha ▸ hlt⟩
    · rename_i hge
      exact .inl ⟨ha, fun d hd ↦ Option.some.inj hd ▸ not_lt.mp hge⟩

theorem least_le (h : least ls = some a) : ∀ es ∈ ls, ∀ b ∈ es.head?, a.1 ≤ b.1 := by
  induction ls generalizing a with
  | nil => exact absurd h (by simp [least])
  | cons es ls ih =>
    cases es with
    | nil => exact forall_mem_cons.mpr ⟨by simp, ih h⟩
    | cons b es =>
      have hhead : ∀ c ∈ (b :: es).head?, c = b := fun c hc ↦ by simpa using hc.symm
      obtain ⟨rfl, hle⟩ | ⟨hl, hlt⟩ := least_cons h
      · refine forall_mem_cons.mpr ⟨fun c hc ↦ (hhead c hc).symm ▸ le_rfl, fun es' hes' d hd ↦ ?_⟩
        cases hl : least ls with
        | none => exact absurd hd (by simp [least_eq_none hl es' hes'])
        | some c => exact (hle c hl).trans (ih hl es' hes' d hd)
      · exact forall_mem_cons.mpr ⟨fun c hc ↦ (hhead c hc).symm ▸ hlt.le, ih hl⟩

/-- The smallest head is what the layers show for its key. -/
theorem find_least (hls : ∀ es ∈ ls, Ascending es) (h : least ls = some a) :
    find a.1 ls = some a.2 := by
  induction ls generalizing a with
  | nil => exact absurd h (by simp [least])
  | cons es ls ih =>
    obtain ⟨hes, hls'⟩ := forall_mem_cons.mp hls
    cases es with
    | nil => exact ih hls' h
    | cons b es =>
      obtain ⟨rfl, -⟩ | ⟨hl, hlt⟩ := least_cons h
      · have hself : lookup b.1 (b :: es) = some b.2 := if_pos rfl
        rw [find, hself]
      · rw [find, hes.lookup_of_lt hlt]
        exact ih hls' hl

theorem mem_least (h : least ls = some a) : ∃ es ∈ ls, a ∈ es := by
  induction ls generalizing a with
  | nil => exact absurd h (by simp [least])
  | cons es ls ih =>
    have hrest : least ls = some a → ∃ es' ∈ es :: ls, a ∈ es' := fun hl ↦ by
      obtain ⟨es', hes', ha⟩ := ih hl
      exact ⟨es', mem_cons_of_mem _ hes', ha⟩
    cases es with
    | nil => exact hrest h
    | cons b es =>
      obtain ⟨rfl, -⟩ | ⟨hl, -⟩ := least_cons h
      · exact ⟨_, mem_cons_self, mem_cons_self⟩
      · exact hrest hl

omit [LinearOrder κ] in
theorem length_le_size (h : es ∈ ls) : es.length ≤ size ls := by
  induction ls with
  | nil => cases h
  | cons es' ls ih =>
    rw [size]
    obtain rfl | h := mem_cons.mp h
    · exact Nat.le_add_right _ _
    · exact (ih h).trans (Nat.le_add_left _ _)

omit [LinearOrder κ] in
theorem size_map_le {α : Type} {f g : α → List (κ × ν)} {as : List α}
    (h : ∀ a ∈ as, (f a).length ≤ (g a).length) : size (as.map f) ≤ size (as.map g) := by
  induction as with
  | nil => exact le_rfl
  | cons a as ih =>
    exact Nat.add_le_add (h a (.head _)) (ih fun b hb ↦ h b (mem_cons_of_mem a hb))

theorem size_dropHead_le (k : κ) (ls : List (List (κ × ν))) :
    size (ls.map (dropHead k)) ≤ size ls := by
  have h := size_map_le (g := fun es ↦ es) fun es (_ : es ∈ ls) ↦ length_dropHead_le k es
  rwa [map_id'] at h

theorem size_dropHead_lt (h : least ls = some a) : size (ls.map (dropHead a.1)) < size ls := by
  induction ls generalizing a with
  | nil => exact absurd h (by simp [least])
  | cons es ls ih =>
    have hrest := size_dropHead_le a.1 ls
    simp only [size, map_cons] at ih hrest ⊢
    cases es with
    | nil => exact Nat.add_lt_add_left (ih h) _
    | cons b es =>
      obtain ⟨rfl, -⟩ | ⟨hl, -⟩ := least_cons h
      · refine Nat.add_lt_add_of_lt_of_le ?_ hrest
        rw [dropHead, if_pos rfl]
        exact Nat.lt_succ_self _
      · exact Nat.add_lt_add_of_le_of_lt (length_dropHead_le _ _) (ih hl)

theorem forall_dropHead (hls : ∀ es ∈ ls, Ascending es) (k : κ) :
    ∀ es ∈ ls.map (dropHead k), Ascending es := by
  intro es hes
  obtain ⟨es', hes', rfl⟩ := mem_map.mp hes
  exact (hls es' hes').dropHead k

/-- **Reading a key in the merged list is reading it through the layers.** -/
theorem lookup_merge (hls : ∀ es ∈ ls, Ascending es) {n : ℕ} (hn : size ls ≤ n) (k : κ) :
    lookup k (merge n ls) = find k ls := by
  induction n generalizing ls with
  | zero =>
    rw [find_of_forall_nil fun es hes ↦ ?_]
    · rfl
    · have hle := length_le_size hes
      exact length_eq_zero_iff.mp (by omega)
  | succ n ih =>
    rw [merge]
    cases hl : least ls with
    | none => rw [find_of_forall_nil (least_eq_none hl)]; rfl
    | some a =>
      have hdrop : find k (ls.map (dropHead a.1)) = if k = a.1 then none else find k ls :=
        find_map fun es hes ↦ (hls es hes).lookup_dropHead (least_le hl es hes)
      have hsize := size_dropHead_lt hl
      simp only
      rw [lookup, ih (forall_dropHead hls a.1) (by omega), hdrop]
      by_cases hk : k = a.1
      · rw [if_pos hk.symm, hk, find_least hls hl]
      · rw [if_neg (Ne.symm hk), if_neg hk]

theorem mem_of_mem_dropHead (hb : b ∈ dropHead k es) : b ∈ es := by
  cases es with
  | nil => exact hb
  | cons c es =>
    rw [dropHead] at hb
    split at hb
    · exact mem_cons_of_mem _ hb
    · exact hb

theorem mem_merge {n : ℕ} (hb : b ∈ merge n ls) : ∃ es ∈ ls, b ∈ es := by
  induction n generalizing ls with
  | zero => cases hb
  | succ n ih =>
    rw [merge] at hb
    cases hl : least ls with
    | none => exact absurd hb (by simp [hl])
    | some a =>
      simp only [hl] at hb
      obtain rfl | hb := mem_cons.mp hb
      · exact mem_least hl
      · obtain ⟨es, hes, hbes⟩ := ih hb
        obtain ⟨es', hes', rfl⟩ := mem_map.mp hes
        exact ⟨es', hes', mem_of_mem_dropHead hbes⟩

theorem sorted_merge (hls : ∀ es ∈ ls, Ascending es) (n : ℕ) : Ascending (merge n ls) := by
  induction n generalizing ls with
  | zero => exact List.Pairwise.nil
  | succ n ih =>
    rw [merge]
    cases hl : least ls with
    | none => exact List.Pairwise.nil
    | some a =>
      refine pairwise_cons.mpr ⟨fun b hb ↦ ?_, ih (forall_dropHead hls a.1)⟩
      obtain ⟨es, hes, hbes⟩ := mem_merge hb
      obtain ⟨es', hes', rfl⟩ := mem_map.mp hes
      have hasc := hls es' hes'
      -- what is left of a layer lies above the key that was dropped
      cases es' with
      | nil => cases hbes
      | cons c es' =>
        have hac : a.1 ≤ c.1 := least_le hl _ hes' c rfl
        rw [dropHead] at hbes
        split at hbes <;> rename_i hca
        · exact hca ▸ hasc.head_lt hbes
        · obtain rfl | hbes := mem_cons.mp hbes
          · exact lt_of_le_of_ne hac (Ne.symm hca)
          · exact hac.trans_lt (hasc.head_lt hbes)

theorem find_above (hls : ∀ es ∈ ls, Ascending es) (s k : κ) :
    find k (ls.map (above s)) = if k < s then none else find k ls :=
  find_map fun es hes ↦ (hls es hes).lookup_above s k

end Layers

end DucklingDB.Overlay
