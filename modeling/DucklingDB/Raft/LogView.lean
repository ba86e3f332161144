import DucklingDB.Raft.Log

/-!
# The log behind a storage

What the persisted keys and the unstable entries of a node stand for is one list of entries, the
`i`-th of which has index `i`. `LSMLogStorage.Holds` relates a storage to such a list: every key
holds the list's entry, every index above the snapshot has a key, and the snapshot's term is the
term of the list at the snapshot's index. `RaftLog.Live` extends this to the entries not persisted
yet.

Each accessor of the source then reads the list, and each write changes it in the expected way. The
lists are what the safety arguments talk about; compaction does not appear in them.
-/

namespace DucklingDB.Raft

open List Nat AList

/-- Entries are numbered consecutively from `1`. -/
def Indexed (L : List Entry) : Prop := ∀ i e, L[i]? = some e → e.index = i + 1

variable {L : List Entry}

theorem Indexed.take (h : Indexed L) (n : ℕ) : Indexed (L.take n) := by
  intro i e he
  rw [getElem?_take] at he
  split at he
  · exact h i e he
  · cases he

theorem Indexed.getElem_index (h : Indexed L) {e : Entry} (he : e ∈ L) :
    1 ≤ e.index ∧ L[e.index - 1]? = some e := by
  obtain ⟨i, hi⟩ := getElem?_of_mem he
  rw [h i e hi]
  exact ⟨le_add_left 1 i, hi⟩

namespace LSMLogStorage

/-- The storage stands for the list `L`. Nothing ever reads the log keys up to the snapshot; if
`clean` holds, then these too have the entries of the list. -/
structure Holds (s : LSMLogStorage) (L : List Entry) (clean : Prop := True) : Prop where
  lookup : ∀ {i e}, clean ∨ s.loadSnapshotMeta.index < i → s.log.lookup i = some e →
    1 ≤ i ∧ L[i - 1]? = some e
  present : ∀ {i}, s.loadSnapshotMeta.index < i → i ≤ L.length → ∃ e, s.log.lookup i = some e
  snap_le : s.loadSnapshotMeta.index ≤ L.length
  snap_term : ∀ {e}, 0 < s.loadSnapshotMeta.index → L[s.loadSnapshotMeta.index - 1]? = some e →
    s.loadSnapshotMeta.term = e.term

theorem holds_empty {clean : Prop} : Holds {} [] clean where
  lookup _ h := by cases h
  present h h' := absurd (h.trans_le h') (lt_irrefl _)
  snap_le := le_rfl
  snap_term h := absurd h (lt_irrefl _)

variable {clean : Prop} {s : LSMLogStorage} {L M : List Entry} {e : Entry} {snap : Snapshot}

theorem Holds.lookup_eq (h : s.Holds L clean) {i : ℕ} (hi : s.loadSnapshotMeta.index < i) :
    s.log.lookup i = L[i - 1]? := by
  by_cases hL : i ≤ L.length
  · obtain ⟨e, he⟩ := h.present hi hL
    rw [he, (h.lookup (.inr hi) he).2]
  · cases hlk : s.log.lookup i with
    | none => rw [getElem?_eq_none (by omega)]
    | some e => rw [(h.lookup (.inr hi) hlk).2]

theorem le_foldl_max (ks : List ℕ) (a : ℕ) : a ≤ ks.foldl max a ∧ ∀ k ∈ ks, k ≤ ks.foldl max a := by
  induction ks generalizing a with
  | nil => exact ⟨le_rfl, by simp⟩
  | cons k ks ih =>
    obtain ⟨h₁, h₂⟩ := ih (max a k)
    refine ⟨(le_max_left a k).trans h₁, fun k' hk' ↦ ?_⟩
    rcases mem_cons.mp hk' with rfl | hk'
    · exact (le_max_right a k').trans h₁
    · exact h₂ k' hk'

theorem foldl_max_le {ks : List ℕ} {a n : ℕ} (ha : a ≤ n) (h : ∀ k ∈ ks, k ≤ n) :
    ks.foldl max a ≤ n := by
  induction ks generalizing a with
  | nil => exact ha
  | cons k ks ih =>
    exact ih (max_le ha (h k (.head _))) fun k' hk' ↦ h k' (.tail _ hk')

theorem le_lastIndex {k : ℕ} (h : s.log.lookup k = some e) : k ≤ s.lastIndex := by
  have hmem : k ∈ s.log.keys := mem_keys.mp (lookup_isSome.mp (by rw [h]; rfl))
  have := (le_foldl_max s.log.keys 0).2 k hmem
  simp only [lastIndex]
  split <;> omega

theorem snap_le_lastIndex (s : LSMLogStorage) : s.loadSnapshotMeta.index ≤ s.lastIndex := by
  simp only [lastIndex]
  split <;> omega

theorem lastIndex_le {n : ℕ} (hkeys : ∀ {k e}, s.log.lookup k = some e → k ≤ n)
    (hsnap : s.loadSnapshotMeta.index ≤ n) : s.lastIndex ≤ n := by
  have hle : s.log.keys.foldl max 0 ≤ n := by
    refine foldl_max_le (zero_le _) fun k hk ↦ ?_
    obtain ⟨e, he⟩ := Option.isSome_iff_exists.mp (lookup_isSome.mpr (mem_keys.mpr hk))
    exact hkeys he
  simp only [lastIndex]
  split
  · exact hsnap
  · exact hle

theorem Holds.lastIndex_eq (h : s.Holds L clean) : s.lastIndex = L.length := by
  refine le_antisymm (lastIndex_le (fun {k e} he ↦ ?_) h.snap_le) ?_
  · by_cases hkm : k ≤ s.loadSnapshotMeta.index
    · exact hkm.trans h.snap_le
    · obtain ⟨h1, he'⟩ := h.lookup (.inr (not_le.mp hkm)) he
      have := (List.getElem?_eq_some_iff.mp he').1
      omega
  · by_cases hlt : s.loadSnapshotMeta.index < L.length
    · obtain ⟨e, he⟩ := h.present hlt le_rfl
      exact le_lastIndex he
    · exact (not_lt.mp hlt).trans s.snap_le_lastIndex

theorem Holds.firstIndex_eq (s : LSMLogStorage) : s.firstIndex = s.loadSnapshotMeta.index + 1 := by
  rw [firstIndex]
  split <;> omega

theorem Holds.term_eq (h : s.Holds L clean) {i : ℕ} (h1 : 1 ≤ i) (hi : s.loadSnapshotMeta.index ≤ i)
    (he : L[i - 1]? = some e) : s.term i = .ok e.term := by
  rw [term]
  split <;> rename_i hc
  · rw [h.snap_term hc.1 (by rw [← hc.2]; exact he)]
  · rw [if_neg (by omega), h.lookup_eq (by omega), he]

theorem Holds.of_term (h : s.Holds L clean) {i t : ℕ} (ht : s.term i = .ok t) (h1 : 1 ≤ i) :
    ∃ e, L[i - 1]? = some e ∧ e.term = t := by
  rw [term] at ht
  split at ht
  · rename_i hc
    have hlen := h.snap_le
    obtain ⟨e, he⟩ : ∃ e, L[i - 1]? = some e := ⟨_, getElem?_eq_getElem (by omega)⟩
    have := h.snap_term hc.1 (by rw [← hc.2]; exact he)
    cases ht
    exact ⟨e, he, this.symm⟩
  · rename_i hne
    split at ht
    · cases ht
    · rename_i hlt
      split at ht
      · rename_i e he
        cases ht
        exact ⟨e, (h.lookup (.inr (by omega)) he).2, rfl⟩
      · cases ht

theorem Holds.entriesFrom_eq (h : s.Holds L clean) : ∀ (n lo : ℕ), s.loadSnapshotMeta.index < lo →
    lo + n ≤ L.length + 1 → s.entriesFrom lo n = .ok ((L.drop (lo - 1)).take n)
  | 0, lo, _, _ => by rw [entriesFrom, take_zero]
  | n + 1, lo, hlo, hn => by
    obtain ⟨e, he⟩ := h.present hlo (by omega)
    have hlt : lo - 1 < L.length := by omega
    have hcons : L.drop (lo - 1) = e :: L.drop lo := by
      rw [drop_eq_getElem_cons hlt, Nat.sub_add_cancel (by omega)]
      rw [(List.getElem?_eq_some_iff.mp (h.lookup (.inr hlo) he).2).2]
    rw [entriesFrom, he, h.entriesFrom_eq n (lo + 1) (by omega) (by omega), hcons,
      take_succ_cons, Nat.add_sub_cancel]

/-! ## Writes -/

/-- A written key holds the entry written last, every other key is unchanged. -/
theorem lookup_appendEntries (s : LSMLogStorage) (es : List Entry) (i : ℕ) :
    (∃ x ∈ es, x.index = i ∧ (s.appendEntries es).log.lookup i = some x) ∨ (∀ x ∈ es, x.index ≠ i) ∧
        (s.appendEntries es).log.lookup i = s.log.lookup i := by
  have key : ∀ (es : List Entry) (log : GoMap ℕ Entry), (∃ x ∈ es, x.index = i ∧
        (es.foldl (fun log e ↦ log.insert e.index e) log).lookup i = some x) ∨
      (∀ x ∈ es, x.index ≠ i) ∧ (es.foldl (fun log e ↦ log.insert e.index e) log).lookup i =
          log.lookup i := by
    intro es
    induction es with
    | nil => exact fun log ↦ .inr ⟨by simp, rfl⟩
    | cons e es ih =>
      intro log
      rw [foldl_cons]
      rcases ih (log.insert e.index e) with ⟨x, hx, hxi, hlk⟩ | ⟨hno, hlk⟩
      · exact .inl ⟨x, mem_cons_of_mem _ hx, hxi, hlk⟩
      · by_cases hei : e.index = i
        · refine .inl ⟨e, mem_cons_self, hei, ?_⟩
          rw [hlk, ← hei, lookup_insert]
        · refine .inr ⟨fun x hx ↦ ?_, ?_⟩
          · rcases mem_cons.mp hx with rfl | hx
            · exact hei
            · exact hno x hx
          · rw [hlk, lookup_insert_ne (Ne.symm hei)]
  exact key es s.log

/-- Persisting entries of `M` over a storage for `L` gives a storage for `M`, if every index at
which the two lists differ is written and the snapshot is not affected. -/
theorem Holds.appendEntries (h : s.Holds L clean) {es : List Entry}
    (hes : ∀ x ∈ es, 1 ≤ x.index ∧ M[x.index - 1]? = some x)
    (hold : ∀ i < L.length, L[i]? = M[i]? ∨ ∃ x ∈ es, x.index = i + 1)
    (hnew : ∀ i < M.length, L.length ≤ i → ∃ x ∈ es, x.index = i + 1)
    (hlen : L.length ≤ M.length)
    (hsnap : 0 < s.loadSnapshotMeta.index →
      M[s.loadSnapshotMeta.index - 1]? = L[s.loadSnapshotMeta.index - 1]?) :
    (s.appendEntries es).Holds M clean := by
  have hmeta : (s.appendEntries es).loadSnapshotMeta = s.loadSnapshotMeta := rfl
  refine ⟨?_, ?_, h.snap_le.trans hlen, ?_⟩
  · intro i e hi he
    rcases lookup_appendEntries s es i with ⟨x, hx, rfl, hlk⟩ | ⟨hno, hlk⟩
    · rw [hlk] at he
      cases he
      exact hes _ hx
    · rw [hlk] at he
      obtain ⟨h1, he'⟩ := h.lookup hi he
      refine ⟨h1, ?_⟩
      have hlt := (List.getElem?_eq_some_iff.mp he').1
      rcases hold (i - 1) hlt with heq | ⟨x, hx, hxi⟩
      · rw [← heq, he']
      · exact absurd (hxi.trans (Nat.sub_add_cancel h1)) (hno x hx)
  · intro i hi hiM
    rcases lookup_appendEntries s es i with ⟨x, hx, rfl, hlk⟩ | ⟨hno, hlk⟩
    · exact ⟨x, hlk⟩
    · rw [hlk]
      by_cases hiL : i ≤ L.length
      · exact h.present hi hiL
      · obtain ⟨x, hx, hxi⟩ := hnew (i - 1) (by omega) (by omega)
        exact absurd (by omega) (hno x hx)
  · intro e h0 he
    rw [hmeta] at h0 he ⊢
    exact h.snap_term h0 ((hsnap h0).symm.trans he)

theorem lookup_compact (s : LSMLogStorage) (n i : ℕ) : (s.compact n).log.lookup i =
      if i ≤ n ∧ n ≠ 0 then none else s.log.lookup i := by
  have key : ∀ (ks : List ℕ) (log : GoMap ℕ Entry),
      (ks.foldl (fun log k ↦ AList.erase k log) log).lookup i =
        if i ∈ ks then none else log.lookup i := by
    intro ks
    induction ks with
    | nil => exact fun log ↦ by simp
    | cons k ks ih =>
      intro log
      rw [foldl_cons, ih]
      by_cases hik : i = k
      · subst hik
        simp
      · rw [lookup_erase_ne hik]
        simp [hik]
  rw [compact]
  split <;> rename_i h0
  · simp [h0]
  · simp only [key, mem_filter, decide_eq_true_eq, h0, ne_eq, not_false_eq_true, and_true]
    by_cases hmem : i ∈ s.log.keys
    · simp [hmem]
    · rw [if_neg (fun h ↦ hmem h.1), lookup_eq_none.mpr (fun h ↦ hmem (mem_keys.mp h))]
      simp

theorem compact_meta (s : LSMLogStorage) (n : ℕ) :
    (s.compact n).loadSnapshotMeta = s.loadSnapshotMeta := by
  rw [compact]
  split <;> rfl

/-- Truncating below the snapshot loses nothing. -/
theorem Holds.compact (h : s.Holds L clean) {n : ℕ} (hn : n ≤ s.loadSnapshotMeta.index) :
    (s.compact n).Holds L clean := by
  have hmeta := compact_meta s n
  refine ⟨?_, ?_, ?_, ?_⟩
  · intro i e hi he
    rw [hmeta] at hi
    rw [lookup_compact] at he
    split at he
    · cases he
    · exact h.lookup hi he
  · intro i hi hiL
    rw [hmeta] at hi
    rw [lookup_compact, if_neg (by omega)]
    exact h.present hi hiL
  · rw [hmeta]
    exact h.snap_le
  · simp only [hmeta]
    exact h.snap_term

theorem saveSnapshot_meta (h : 0 < snap.metadata.index) :
    (s.saveSnapshot snap).loadSnapshotMeta = snap.metadata := by
  rw [saveSnapshot, Snapshot.isEmpty_eq_false.mpr h]
  rfl

theorem saveSnapshot_log (s : LSMLogStorage) (snap : Snapshot) :
    (s.saveSnapshot snap).log = s.log := by
  rw [saveSnapshot]
  split <;> rfl

/-- A snapshot of the list may be stored at any later index. -/
theorem Holds.saveSnapshot (h : s.Holds L clean)
    (h0 : 0 < snap.metadata.index) (hle : s.loadSnapshotMeta.index ≤ snap.metadata.index)
    (he : L[snap.metadata.index - 1]? = some e) (ht : snap.metadata.term = e.term) :
    (s.saveSnapshot snap).Holds L clean := by
  have hmeta : (s.saveSnapshot snap).loadSnapshotMeta = snap.metadata := saveSnapshot_meta h0
  refine ⟨?_, ?_, ?_, ?_⟩
  · rw [saveSnapshot_log, hmeta]
    exact fun hi ↦ h.lookup (hi.imp_right hle.trans_lt)
  · rw [saveSnapshot_log, hmeta]
    exact fun hi ↦ h.present (hle.trans_lt hi)
  · rw [hmeta]
    have := (List.getElem?_eq_some_iff.mp he).1
    omega
  · simp only [hmeta]
    intro e' _ he'
    rw [he] at he'
    cases he'
    exact ht

end LSMLogStorage

/-! ## The unstable entries -/

namespace RaftLog

/-- The part of `M` from index `lo` up to, and without, index `hi`. -/
def slice (M : List Entry) (lo hi : ℕ) : List Entry := (M.drop (lo - 1)).take (hi - lo)

variable {M : List Entry} {lo hi : ℕ}

theorem getElem?_slice {i : ℕ} (h1 : 1 ≤ lo) :
    (slice M lo hi)[i]? = if lo + i < hi then M[lo + i - 1]? else none := by
  rw [slice, getElem?_take, getElem?_drop]
  by_cases h : lo + i < hi
  · rw [if_pos (by omega), if_pos h, show lo - 1 + i = lo + i - 1 by omega]
  · rw [if_neg (by omega), if_neg h]

theorem slice_congr {M' : List Entry} (h1 : 1 ≤ lo)
    (h : ∀ i, lo ≤ i → i < hi → M[i - 1]? = M'[i - 1]?) : slice M lo hi = slice M' lo hi := by
  refine ext_getElem? fun i ↦ ?_
  rw [getElem?_slice h1, getElem?_slice h1]
  split
  · exact h _ (by omega) (by assumption)
  · rfl

theorem slice_of_le (h : hi ≤ lo) : slice M lo hi = [] := by
  rw [slice, Nat.sub_eq_zero_of_le h, take_zero]

variable {e : Entry}

theorem mem_slice (h1 : 1 ≤ lo) (he : e ∈ slice M lo hi) :
    ∃ i, lo ≤ i ∧ i < hi ∧ M[i - 1]? = some e := by
  obtain ⟨i, hi⟩ := getElem?_of_mem he
  rw [getElem?_slice h1] at hi
  split at hi
  · exact ⟨lo + i, by omega, by omega, hi⟩
  · cases hi

theorem mem_slice_of_getElem? {i : ℕ} (h1 : 1 ≤ lo) (hlo : lo ≤ i + 1) (hhi : i + 1 < hi)
    (he : M[i]? = some e) : e ∈ slice M lo hi := by
  refine mem_of_getElem? (i := i + 1 - lo) ?_
  rw [getElem?_slice h1, if_pos (by omega), ← he]
  congr 1
  omega

theorem slice_append {mid : ℕ} (h1 : 1 ≤ lo) (h₁ : lo ≤ mid) (h₂ : mid ≤ hi)
    (hM : mid ≤ M.length + 1) : slice M lo mid ++ slice M mid hi = slice M lo hi := by
  have hlen : (slice M lo mid).length = mid - lo := by
    rw [slice, length_take, length_drop]
    omega
  refine ext_getElem? fun i ↦ ?_
  rw [getElem?_append, hlen, getElem?_slice h1, getElem?_slice h1, getElem?_slice (by omega)]
  by_cases hi : i < mid - lo
  · rw [if_pos hi, if_pos (by omega), if_pos (by omega)]
  · rw [if_neg hi, show mid + (i - (mid - lo)) = lo + i by omega]

/-- The unstable entries hold the end of `M`, from index `k` on. -/
def UnstableFrom (l : RaftLog) (M : List Entry) (k : ℕ) : Prop :=
  1 ≤ k ∧ k ≤ M.length + 1 ∧ l.unstable = M.drop (k - 1)

variable {l : RaftLog} {k : ℕ}

section

variable (h : l.UnstableFrom M k)
include h

theorem UnstableFrom.head (hM : Indexed M) (he : l.unstable.head? = some e) : e.index = k := by
  obtain ⟨h1, -, hU⟩ := h
  rw [hU, head?_eq_getElem?, getElem?_drop, add_zero] at he
  rw [hM _ e he]
  omega

theorem UnstableFrom.last (hM : Indexed M) (he : l.unstable.getLast? = some e) :
    e.index = M.length := by
  obtain ⟨h1, hk, hU⟩ := h
  rw [hU, List.getLast?_eq_getElem?, List.getElem?_drop, List.length_drop] at he
  have := (List.getElem?_eq_some_iff.mp he).1
  rw [hM _ e he]
  omega

theorem UnstableFrom.ne_nil (hk : k ≤ M.length) : l.unstable ≠ [] := by
  rw [h.2.2, Ne, drop_eq_nil_iff]
  have := h.1
  omega

theorem UnstableFrom.slice_eq (hM : Indexed M) (hlo : k ≤ lo) (hlt : lo < hi)
    (hhi : hi ≤ M.length + 1) : l.unstableSlice lo hi = slice M lo hi := by
  have hne := h.ne_nil (by omega)
  have hfirst := h.head hM (head?_eq_some_head hne)
  have hlast := h.last hM (getLast?_eq_some_getLast hne)
  rw [unstableSlice, head?_eq_some_head hne, getLast?_eq_some_getLast hne]
  simp only [hfirst, hlast]
  rw [if_pos ⟨hlt, by omega, by omega⟩, h.2.2, drop_take, drop_drop, slice]
  have := h.1
  congr 1
  · omega
  · congr 1
    omega

end

section

variable (h : l.UnstableFrom M k) (hM : Indexed M)
include h hM

theorem UnstableFrom.term_eq {i : ℕ} (hi : k ≤ i) (he : M[i - 1]? = some e) :
    l.term i = .ok e.term := by
  have hlen := (List.getElem?_eq_some_iff.mp he).1
  have hk := h.1
  have hne := h.ne_nil (by omega)
  rw [term, if_neg (by omega), List.head?_eq_some_head hne, List.getLast?_eq_some_getLast hne]
  simp only [h.head hM (List.head?_eq_some_head hne), h.last hM (List.getLast?_eq_some_getLast hne)]
  have hget : l.unstable[i - k]? = some e := by
    rw [← he, h.2.2, List.getElem?_drop]
    congr 1
    omega
  rw [if_pos ⟨by omega, by omega⟩, hget]

variable (hp : l.pendingSnapshot = {})
include hp

theorem UnstableFrom.term_storage {i : ℕ} (h1 : 1 ≤ i) (hi : i < k ∨ M.length < i) :
    l.term i = l.storage.term i := by
  have hstable : l.stableTerm i = l.storage.term i := by
    rw [stableTerm, hp, if_neg]
    exact fun hc ↦ hc.1 rfl
  rw [term, if_neg (by omega)]
  split
  · rename_i first last hf hl
    rw [if_neg, hstable]
    rw [h.head hM hf, h.last hM hl]
    omega
  · exact hstable

theorem UnstableFrom.lastIndex_eq {clean : Prop} {L : List Entry} (hs : l.storage.Holds L clean)
    (hk : k ≤ L.length + 1) (hL : L.length ≤ M.length) : l.lastIndex = M.length := by
  rw [lastIndex]
  cases hU : l.unstable.getLast? with
  | some e => exact h.last hM hU
  | none =>
    have hnil := h.2.2.symm.trans (getLast?_eq_none_iff.mp hU)
    have hend := drop_eq_nil_iff.mp hnil
    simp only [hp, hs.lastIndex_eq]
    rw [if_neg (not_lt_zero _)]
    omega

end

theorem unstableSlice_of_le (l : RaftLog) (h : hi ≤ lo) : l.unstableSlice lo hi = [] := by
  rw [unstableSlice]
  split
  · rw [if_neg (by omega)]
  · rfl

section

variable {clean : Prop} {L : List Entry} (hs : l.storage.Holds L clean) (hM : Indexed M)
  (hlo : l.storage.loadSnapshotMeta.index < lo)
include hs hM hlo

/-- Reading a range takes what the storage has and completes it from the unstable entries. -/
theorem entries_eq_append (hL : lo ≤ L.length + 1) (hhi : hi ≤ M.length + 1)
    (hun : L.length + 1 < hi → ∃ k ≤ L.length + 1, l.UnstableFrom M k) :
    l.entries lo hi = slice L lo hi ++ slice M (L.length + 1) hi := by
  have hunst : l.unstableSlice (L.length + 1) hi = slice M (L.length + 1) hi := by
    by_cases h : L.length + 1 < hi
    · obtain ⟨k, hk, hU⟩ := hun h
      exact hU.slice_eq hM hk h hhi
    · rw [l.unstableSlice_of_le (by omega), slice_of_le (by omega)]
  rw [entries]
  split
  · rw [slice_of_le (by assumption), slice_of_le (by omega), append_nil]
  · rename_i hlt
    simp only [hs.lastIndex_eq]
    split
    · rw [LSMLogStorage.entries_eq _ (by omega), hs.entriesFrom_eq _ _ hlo (by omega)]
      simp only [hunst]
      congr 1
      rw [slice]
      by_cases h : hi ≤ L.length + 1
      · rw [min_eq_left h]
      · rw [min_eq_right (by omega), take_of_length_le, take_of_length_le] <;>
          rw [length_drop] <;> omega
    · have : lo = L.length + 1 := by omega
      subst this
      have hend : slice L (L.length + 1) hi = [] := by
        rw [slice, drop_eq_nil_of_le (le_sub_of_add_le le_rfl), take_nil]
      rw [hunst, hend, nil_append]

/-- Reading a range of `M` when the storage agrees with `M` on it. -/
theorem entries_eq_slice (hhi : hi ≤ M.length + 1)
    (hun : L.length + 1 < hi → ∃ k ≤ L.length + 1, l.UnstableFrom M k)
    (hag : ∀ i, lo ≤ i → i < hi → i ≤ L.length → L[i - 1]? = M[i - 1]?) :
    l.entries lo hi = slice M lo hi := by
  by_cases hlt : hi ≤ lo
  · rw [entries, if_pos hlt, slice_of_le hlt]
  by_cases hL : lo ≤ L.length + 1
  swap
  · obtain ⟨k, hk, hU⟩ := hun (by omega)
    rw [entries, if_neg hlt]
    simp only [hs.lastIndex_eq]
    rw [if_neg (by omega)]
    exact hU.slice_eq hM (by omega) (by omega) hhi
  rw [entries_eq_append hs hM hlo hL hhi hun]
  have h1 : 1 ≤ lo := by omega
  by_cases h : L.length + 1 < hi
  · have : slice L lo hi = slice M lo (L.length + 1) := by
      have : slice L lo hi = slice L lo (L.length + 1) := by
        rw [slice, slice, take_of_length_le, take_of_length_le] <;>
          rw [length_drop] <;> omega
      rw [this]
      exact slice_congr h1 fun i hi₁ hi₂ ↦ hag i hi₁ (by omega) (by omega)
    rw [this, slice_append h1 hL h.le (by omega)]
  · rw [slice_congr h1 fun i hi₁ hi₂ ↦ hag i hi₁ hi₂ (by omega)]
    rw [show slice M (L.length + 1) hi = [] from slice_of_le (by omega), append_nil]

end

/-! ## Logs between two `Ready` cycles -/

/-- The log stands for the list `L`: the storage for its beginning, the unstable entries for the
rest. -/
structure Live (l : RaftLog) (L : List Entry) (clean : Prop := True) : Prop where
  pending : l.pendingSnapshot = {}
  stable : ∃ L₀, l.storage.Holds L₀ clean ∧ L = L₀ ++ l.unstable ∧ l.applied ≤ L₀.length
  indexed : Indexed L
  snap_le : l.storage.loadSnapshotMeta.index ≤ l.applied
  applied_le : l.applied ≤ l.committed
  committed_le : l.committed ≤ L.length

namespace Live

variable {clean : Prop} {l : RaftLog} {L : List Entry}

variable {L₀ : List Entry}

theorem unstableFrom (hL : L = L₀ ++ l.unstable) : l.UnstableFrom L (L₀.length + 1) := by
  refine ⟨le_add_left 1 _, ?_, ?_⟩
  · rw [hL, length_append]
    omega
  · rw [hL, Nat.add_sub_cancel, drop_left]

section

variable (h : l.Live L clean)
include h

theorem lastIndex_eq : l.lastIndex = L.length := by
  obtain ⟨L₀, hs, hL, -⟩ := h.stable
  refine (unstableFrom hL).lastIndex_eq h.indexed h.pending hs le_rfl ?_
  rw [hL, length_append]
  exact le_add_right _ _

theorem snap_le_length : l.storage.loadSnapshotMeta.index ≤ L.length :=
  h.snap_le.trans (h.applied_le.trans h.committed_le)

theorem term_eq {i : ℕ} {e : Entry} (h1 : 1 ≤ i) (hi : l.storage.loadSnapshotMeta.index ≤ i)
    (he : L[i - 1]? = some e) : l.term i = .ok e.term := by
  obtain ⟨L₀, hs, hL, -⟩ := h.stable
  by_cases hiL : L₀.length < i
  · exact (unstableFrom hL).term_eq h.indexed hiL he
  · rw [(unstableFrom hL).term_storage h.indexed h.pending h1 (by omega)]
    refine hs.term_eq h1 hi ?_
    rw [← he, hL, getElem?_append_left (by omega)]

theorem of_term {i t : ℕ} (ht : l.term i = .ok t) (h1 : 1 ≤ i) :
    ∃ e, L[i - 1]? = some e ∧ e.term = t := by
  obtain ⟨L₀, hs, hL, -⟩ := h.stable
  by_cases hiL : L₀.length < i ∧ i ≤ L.length
  · obtain ⟨e, he⟩ : ∃ e, L[i - 1]? = some e := ⟨_, getElem?_eq_getElem (by omega)⟩
    rw [(unstableFrom hL).term_eq h.indexed hiL.1 he] at ht
    cases ht
    exact ⟨e, he, rfl⟩
  · rw [(unstableFrom hL).term_storage h.indexed h.pending h1 (by omega)] at ht
    obtain ⟨e, he, hte⟩ := hs.of_term ht h1
    refine ⟨e, ?_, hte⟩
    rw [hL, List.getElem?_append_left (List.getElem?_eq_some_iff.mp he).1, he]

theorem entries_eq {lo hi : ℕ} (hlo : l.storage.loadSnapshotMeta.index < lo)
    (hhi : hi ≤ L.length + 1) : l.entries lo hi = slice L lo hi := by
  obtain ⟨L₀, hs, hL, -⟩ := h.stable
  refine entries_eq_slice hs h.indexed hlo hhi (fun _ ↦ ⟨_, le_rfl, unstableFrom hL⟩) fun i _ _ _ ↦
    ?_
  rw [hL, getElem?_append_left (by omega)]

theorem nextEntries_eq : l.nextEntries = slice L (l.applied + 1) (l.committed + 1) := by
  rw [nextEntries]
  split
  · have h₁ := h.snap_le
    have h₂ := h.committed_le
    exact h.entries_eq (by omega) (by omega)
  · exact (slice_of_le (by omega)).symm

theorem append {es : List Entry} (hidx : Indexed (L ++ es)) :
    (l.append es).Live (L ++ es) clean := by
  obtain ⟨L₀, hs, hL, happ₀⟩ := h.stable
  rw [l.append_behind fun e he ↦ ?_]
  · refine ⟨h.pending, ⟨L₀, hs, ?_, happ₀⟩, hidx, h.snap_le, h.applied_le, ?_⟩
    · rw [hL, append_assoc]
    · exact h.committed_le.trans (by rw [length_append]; omega)
  · have hget : (L ++ es)[L.length]? = some e := by
      rw [getElem?_append_right le_rfl, Nat.sub_self, ← head?_eq_getElem?]
      exact he
    rw [hidx _ e hget, h.lastIndex_eq]
    exact lt_succ_self _

theorem commitTo {n : ℕ} (hn : n ≤ L.length) : (l.commitTo n).Live L clean := by
  rw [l.commitTo_eq]
  exact ⟨h.pending, h.stable, h.indexed, h.snap_le, h.applied_le.trans (le_max_left _ _),
    max_le h.committed_le hn⟩

theorem holds (hu : l.unstable = []) : l.storage.Holds L clean := by
  obtain ⟨L₀, hs, hL, -⟩ := h.stable
  rw [hu, append_nil] at hL
  exact hL ▸ hs

end

end Live

end RaftLog

end DucklingDB.Raft
