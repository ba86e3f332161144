import DucklingDB.Raft.LogView
import DucklingDB.Util.Along

/-!
# The Raft log as a list

What `RaftLog` is for: a list of entries that an append cuts at its first index and extends, and
that persisting and committing leave alone. The accessors agree with that list as long as no append
touches what is persisted already. Once one does, they part: `term` and `lastIndex` look at the
unstable entries first and `entries` at the storage first, and the storage never forgets a suffix,
so that after a shorter replacement has been persisted the old suffix is back.
-/

namespace DucklingDB.Raft

open List

/-- The answer of `term` for a list of entries. -/
def termAt (M : List Entry) (i : ℕ) : Except LogError ℕ :=
  if i = 0 then .ok 0
  else match M[i - 1]? with
    | some e => .ok e.term
    | none => .error .unavailable

namespace RaftLog

/-- What a caller of the log sees is the list `M`. -/
structure Shows (l : RaftLog) (M : List Entry) : Prop where
  lastIndex : l.lastIndex = M.length
  term : ∀ i, l.term i = termAt M i
  entries : ∀ {lo hi}, 1 ≤ lo → lo < hi → hi ≤ M.length + 1 → l.entries lo hi = slice M lo hi

/-- Persist the unstable entries through `AppendEntries`, then `stableTo` the last of them. -/
def persist (l : RaftLog) : RaftLog :=
  let l' := { l with storage := l.storage.appendEntries l.unstableEntries }
  match l.unstableEntries.getLast? with
  | none => l'
  | some e => l'.stableTo e.index e.term

/-! ## Stored and unstable entries of one list -/

/-- The storage and the unstable entries hold a beginning and an end of `M` that meet or overlap. -/
structure Overlaid (l : RaftLog) (L M : List Entry) (k : ℕ) : Prop where
  pending : l.pendingSnapshot = {}
  snap : l.storage.loadSnapshotMeta.index = 0
  indexed : Indexed M
  stored : l.storage.Holds L
  stored_prefix : L <+: M
  unstable : l.UnstableFrom M k
  meet : k ≤ L.length + 1

namespace Overlaid

variable {l : RaftLog} {L M : List Entry} {k : ℕ}

section

variable (h : l.Overlaid L M k)
include h

theorem getElem_stored {i : ℕ} (hi : i < L.length) : L[i]? = M[i]? := by
  obtain ⟨N, rfl⟩ := h.stored_prefix
  rw [getElem?_append_left hi]

theorem lastIndex_eq : l.lastIndex = M.length :=
  h.unstable.lastIndex_eq h.indexed h.pending h.stored h.meet h.stored_prefix.length_le

theorem storage_term_eq {i : ℕ} (h1 : 1 ≤ i) : l.storage.term i = termAt L i := by
  rw [LSMLogStorage.term, if_neg (by rw [h.snap]; omega), if_neg (by rw [h.snap]; omega),
    h.stored.lookup_eq (by rw [h.snap]; omega)]
  exact (if_neg (by omega)).symm

theorem term_eq (i : ℕ) : l.term i = termAt M i := by
  have hle := h.stored_prefix.length_le
  obtain rfl | h1 := Nat.eq_zero_or_pos i
  · rfl
  by_cases hi : k ≤ i ∧ i ≤ M.length
  · obtain ⟨e, he⟩ : ∃ e, M[i - 1]? = some e := ⟨_, getElem?_eq_getElem (by omega)⟩
    rw [h.unstable.term_eq h.indexed hi.1 he, termAt, if_neg (by omega), he]
  -- outside the unstable entries the storage answers, and there it agrees with `M`
  · rw [h.unstable.term_storage h.indexed h.pending h1 (by omega), h.storage_term_eq h1, termAt,
      termAt, if_neg (by omega), if_neg (by omega)]
    have hmeet := h.meet
    by_cases hk : i < k
    · rw [h.getElem_stored (by omega)]
    · rw [getElem?_eq_none (by omega), getElem?_eq_none (by omega)]

theorem entries_eq {lo hi : ℕ} (h1 : 1 ≤ lo) (_ : lo < hi) (hhi : hi ≤ M.length + 1) :
    l.entries lo hi = slice M lo hi :=
  entries_eq_slice h.stored h.indexed (by rw [h.snap]; omega) hhi
    (fun _ ↦ ⟨k, h.meet, h.unstable⟩) fun _ _ _ _ ↦ h.getElem_stored (by omega)

theorem shows : l.Shows M := ⟨h.lastIndex_eq, h.term_eq, h.entries_eq⟩

/-! ### The operations -/

theorem commitTo (index : ℕ) : (l.commitTo index).Overlaid L M k := by
  rw [l.commitTo_eq]
  exact ⟨h.pending, h.snap, h.indexed, h.stored, h.stored_prefix, h.unstable, h.meet⟩

theorem persist : l.persist.Overlaid M M (M.length + 1) := by
  have hle := h.stored_prefix.length_le
  have hU := h.unstable.2.2
  have hk1 := h.unstable.1
  have hmeet := h.meet
  have hmem : ∀ i, k ≤ i + 1 → i < M.length → ∃ x ∈ l.unstable, x.index = i + 1 := by
    intro i hki hi
    refine ⟨M[i], ?_, h.indexed i _ (getElem?_eq_getElem hi)⟩
    rw [hU]
    refine mem_of_getElem? (i := i - (k - 1)) ?_
    rw [getElem?_drop, ← getElem?_eq_getElem hi]
    congr 1
    omega
  have hstored : (l.storage.appendEntries l.unstable).Holds M := by
    refine h.stored.appendEntries ?_ (fun i hi ↦ .inl (h.getElem_stored hi))
      (fun i hi hLi ↦ hmem i (by omega) hi) hle (fun h0 ↦ absurd h0 (by rw [h.snap]; omega))
    intro x hx
    exact h.indexed.getElem_index (mem_of_mem_drop (hU ▸ hx))
  have hsnap : (l.storage.appendEntries l.unstable).loadSnapshotMeta.index = 0 := h.snap
  rw [RaftLog.persist, unstableEntries]
  cases hlast : l.unstable.getLast? with
  | none =>
    have hnil := getLast?_eq_none_iff.mp hlast
    refine ⟨h.pending, hsnap, h.indexed, hstored, prefix_refl _, ⟨by omega, le_rfl, ?_⟩, le_rfl⟩
    rw [hnil, drop_eq_nil_of_le (by omega)]
  | some e =>
    have he := h.unstable.last h.indexed hlast
    obtain ⟨first, hf⟩ : ∃ first, l.unstable.head? = some first := by
      cases hl : l.unstable with
      | nil => cases hl ▸ hlast
      | cons x xs => exact ⟨x, rfl⟩
    have hfirst := h.unstable.head h.indexed hf
    have hlen : l.unstable.length = M.length - (k - 1) := by rw [hU, length_drop]
    have hpos : 0 < l.unstable.length := length_pos_of_mem (mem_of_getLast? hlast)
    have hget : l.unstable[e.index - first.index]? = some e := by
      rw [← hlast, getLast?_eq_getElem?]
      congr 1
      omega
    simp only [stableTo, hf, hget]
    rw [if_neg (by omega), if_neg (by simp)]
    refine ⟨h.pending, hsnap, h.indexed, hstored, prefix_refl _, ⟨by omega, le_rfl, ?_⟩, le_rfl⟩
    rw [drop_eq_nil_of_le (by omega), drop_eq_nil_of_le (by omega)]

/-- Where the unstable entries begin after an append at `f`. -/
theorem unstableFrom_append {f : ℕ} {es : List Entry} (h1 : 1 ≤ f) (hf : f ≤ M.length + 1)
    (hne : es ≠ []) (hidx : Indexed (M.take (f - 1) ++ es)) :
    ∃ k' ≤ L.length + 1, (l.append es).UnstableFrom (M.take (f - 1) ++ es) k' := by
  obtain ⟨hk1, hkM, hU⟩ := h.unstable
  have hmeet := h.meet
  have htake : (M.take (f - 1)).length = f - 1 := by rw [length_take]; omega
  obtain ⟨e, es, rfl⟩ := exists_cons_of_ne_nil hne
  have hei : e.index = f := by
    rw [hidx (f - 1) e (by rw [getElem?_append_right (by omega), htake, Nat.sub_self]; rfl)]
    omega
  have hbelow : ∀ j, j ≤ f - 1 → (M.take (f - 1) ++ e :: es).drop j =
      (M.drop j).take (f - 1 - j) ++ e :: es := by
    intro j hj
    rw [drop_append_of_le_length (by omega), drop_take]
  rw [append]
  simp only [head?_cons]
  split
  · rename_i first last hfirst hlast
    have hfi := h.unstable.head h.indexed hfirst
    have hla := h.unstable.last h.indexed hlast
    split
    · by_cases hfk : k ≤ f
      · refine ⟨k, hmeet, hk1, by rw [length_append]; omega, ?_⟩
        rw [hbelow _ (by omega), hU, hei, hfi, show f - 1 - (k - 1) = f - k by omega]
      · refine ⟨f, by omega, h1, by rw [length_append]; omega, ?_⟩
        rw [hbelow _ (by omega), hei, hfi, Nat.sub_self, Nat.sub_eq_zero_of_le (by omega),
          take_zero, take_zero]
    · refine ⟨k, hmeet, hk1, by rw [length_append]; omega, ?_⟩
      rw [hbelow _ (by omega), hU, take_of_length_le (by rw [length_drop]; omega)]
  · rename_i hno
    have hnil : l.unstable = [] := by
      by_contra hne
      exact hno _ _ (head?_eq_some_head hne) (getLast?_eq_some_getLast hne)
    have hk := drop_eq_nil_iff.mp (hU ▸ hnil)
    refine ⟨f, by omega, h1, by rw [length_append]; omega, ?_⟩
    rw [hbelow _ le_rfl, hnil, Nat.sub_self, take_zero]

end

variable {es : List Entry}

theorem append (h : l.Overlaid L M k) {f : ℕ} (h1 : 1 ≤ f)
    (hf : f ≤ M.length + 1) (hne : es ≠ []) (hidx : Indexed (M.take (f - 1) ++ es))
    (hkeep : L <+: M.take (f - 1) ++ es) :
    ∃ k', (l.append es).Overlaid L (M.take (f - 1) ++ es) k' := by
  obtain ⟨k', hk', hU⟩ := h.unstableFrom_append h1 hf hne hidx
  obtain ⟨u, heq⟩ := l.append_eq es
  rw [heq] at hU ⊢
  exact ⟨k', h.pending, h.snap, hidx, h.stored, hkeep, hU, hk'⟩

/-- **An append that shows in every accessor has kept what was stored.** A stored entry from `f` on
that is not among the new ones is what `entries` returns in their place, or what `term` answers with
beyond their end. -/
theorem stored_mem_of_shows (h : l.Overlaid L M k) {f : ℕ} (h1 : 1 ≤ f)
    (hf : f ≤ M.length + 1) (hshow : (l.append es).Shows (M.take (f - 1) ++ es)) {i : ℕ} {e : Entry}
    (hi : f ≤ i) (he : AList.lookup i l.storage.log = some e) : e ∈ es := by
  have hstorage := l.append_storage es
  have hpending : (l.append es).pendingSnapshot = l.pendingSnapshot := by
    obtain ⟨u, heq⟩ := l.append_eq es
    rw [heq]
  obtain ⟨hi1, heL⟩ := h.stored.lookup (Or.inl trivial) he
  have hiL := (List.getElem?_eq_some_iff.mp heL).1
  have htake : (M.take (f - 1)).length = f - 1 := by rw [List.length_take]; omega
  have hlast := hshow.lastIndex
  have hnew : (M.take (f - 1) ++ es)[i - 1]? = es[i - f]? := by
    rw [List.getElem?_append_right (by omega), htake, show i - 1 - (f - 1) = i - f by omega]
  by_cases hlen : i - f < es.length
  · have hent := hshow.entries hi1 (Nat.lt_succ_self i) (by rw [List.length_append, htake]; omega)
    have hold : (l.append es).entries i (i + 1) = [e] := by
      rw [entries, if_neg (by omega)]
      simp only [hstorage, h.stored.lastIndex_eq]
      rw [if_pos (by omega), Nat.min_eq_left (by omega), LSMLogStorage.entries_eq _ (by omega),
        h.stored.entriesFrom_eq _ _ (by rw [h.snap]; omega) (by omega),
        show i + 1 - i = 1 by omega]
      have hone : (L.drop (i - 1)).take 1 = [e] := by
        rw [List.take_one, List.head?_drop, heL]
        rfl
      simp only [hone, unstableSlice_of_le _ (show i + 1 ≤ L.length + 1 by omega), List.append_nil]
    rw [hold] at hent
    have hmem : e ∈ slice (M.take (f - 1) ++ es) i (i + 1) := hent ▸ List.mem_singleton_self e
    obtain ⟨j, hj₁, hj₂, hj⟩ := mem_slice hi1 hmem
    obtain rfl : j = i := by omega
    rw [hnew] at hj
    exact List.mem_of_getElem? hj
  · -- the new list ends before `i`, yet the storage still answers for `i`
    have hterm := hshow.term i
    have hlen' : (M.take (f - 1) ++ es).length < i := by
      rw [List.length_append, htake]
      omega
    rw [termAt, if_neg (by omega), List.getElem?_eq_none (by omega)] at hterm
    have hstable : (l.append es).term i = (l.append es).stableTerm i := by
      rw [term, if_neg (by omega)]
      split
      · rename_i last _ hl
        rw [if_neg]
        rintro ⟨-, hle⟩
        have hlast' : (l.append es).lastIndex = last.index := by rw [RaftLog.lastIndex, hl]
        omega
      · rfl
    rw [hstable, stableTerm, hpending, h.pending, if_neg (fun hc ↦ hc.1 rfl), hstorage,
      h.storage_term_eq hi1, termAt, if_neg (by omega), heL] at hterm
    cases hterm

end Overlaid

/-! ## Runs -/

/-- An operation on the log. -/
inductive LogOp where
  /-- `append` of entries starting at index `f`. -/
  | append (f : ℕ) (entries : List Entry)
  | persist
  | commitTo (index : ℕ)

/-- A log and the list it stands for. -/
structure Paired where
  log : RaftLog
  list : List Entry

/-- An operation on the log and on the list: an append replaces everything from `f` on. -/
def Paired.step (p : Paired) : LogOp → Paired
  | .append f entries => ⟨p.log.append entries, p.list.take (f - 1) ++ entries⟩
  | .persist => ⟨p.log.persist, p.list⟩
  | .commitTo index => ⟨p.log.commitTo index, p.list⟩

/-- The log of an empty storage, and what the operations make of it. -/
def Paired.run (ops : List LogOp) : Paired := ops.foldl Paired.step ⟨newRaftLog {}, []⟩

/-- The entries of an append are numbered from `f` on, and `f` is at most one past the end. -/
def Paired.Follows (p : Paired) : LogOp → Prop
  | .append f entries => 1 ≤ f ∧ f ≤ p.list.length + 1 ∧ entries ≠ [] ∧
      entries.map Entry.index = List.range' f entries.length
  | .persist => True
  | .commitTo _ => True

/-- Every stored entry from `f` on is among those appended. -/
def Paired.Keeps (p : Paired) : LogOp → Prop
  | .append f entries => ∀ x ∈ p.log.storage.log.entries, f ≤ x.1 → x.2 ∈ entries
  | .persist => True
  | .commitTo _ => True

instance (p : Paired) : (op : LogOp) → Decidable (p.Follows op)
  | .append _ _ => inferInstanceAs (Decidable (_ ∧ _))
  | .persist => inferInstanceAs (Decidable True)
  | .commitTo _ => inferInstanceAs (Decidable True)

instance (p : Paired) : (op : LogOp) → Decidable (p.Keeps op)
  | .append _ _ => List.decidableBAll _ _
  | .persist => inferInstanceAs (Decidable True)
  | .commitTo _ => inferInstanceAs (Decidable True)

/-- Numbering from `f` on extends a numbered list that is cut before `f`. -/
theorem indexed_append {M es : List Entry} {f : ℕ} (hM : Indexed M) (h1 : 1 ≤ f)
    (hf : f ≤ M.length + 1) (hes : es.map Entry.index = List.range' f es.length) :
    Indexed (M.take (f - 1) ++ es) := by
  have htake : (M.take (f - 1)).length = f - 1 := by rw [length_take]; omega
  intro i e he
  by_cases hi : i < f - 1
  · rw [getElem?_append_left (by omega)] at he
    exact hM.take _ i e he
  · rw [getElem?_append_right (by omega), htake] at he
    have hlen := (List.getElem?_eq_some_iff.mp he).1
    have hidx : (es.map Entry.index)[i - (f - 1)]? = some e.index := by rw [getElem?_map, he]; rfl
    rw [hes, getElem?_range' hlen] at hidx
    have := Option.some.inj hidx
    omega

variable {p : Paired} {L : List Entry} {k : ℕ}

section

variable (h : p.log.Overlaid L p.list k)
include h

theorem Overlaid.keeps_prefix {f : ℕ} {es : List Entry}
    (hfollow : p.Follows (.append f es)) (hkeep : p.Keeps (.append f es)) :
    L <+: p.list.take (f - 1) ++ es := by
  obtain ⟨h1, hf, hne, hes⟩ := hfollow
  have hidx := indexed_append h.indexed h1 hf hes
  have htake : (p.list.take (f - 1)).length = f - 1 := by rw [length_take]; omega
  refine prefix_iff_getElem?.mpr fun i hi ↦ ?_
  have hLi : L[i]? = some L[i] := getElem?_eq_getElem hi
  by_cases hif : i < f - 1
  · rw [getElem?_append_left (by omega), getElem?_take_of_lt hif, ← h.getElem_stored hi, hLi]
  · -- a stored entry from `f` on is among the new ones, and both sit at their index
    have hlk : AList.lookup (i + 1) p.log.storage.log = some L[i] := by
      rw [h.stored.lookup_eq (by rw [h.snap]; omega), Nat.add_sub_cancel, hLi]
    have hmem := hkeep ⟨i + 1, L[i]⟩ (AList.mem_lookup_iff.mp hlk) (show f ≤ i + 1 by omega)
    obtain ⟨-, hat⟩ := hidx.getElem_index (mem_append_right _ hmem)
    have hind : (L[i]).index = i + 1 := h.indexed i _ (h.getElem_stored hi ▸ hLi)
    rwa [hind, Nat.add_sub_cancel] at hat

theorem Overlaid.step {op : LogOp} (hfollow : p.Follows op)
    (hkeep : p.Keeps op) : ∃ L' k', (p.step op).log.Overlaid L' (p.step op).list k' := by
  cases op with
  | append f es =>
    have hprefix := h.keeps_prefix hfollow hkeep
    obtain ⟨h1, hf, hne, hes⟩ := hfollow
    obtain ⟨k', h'⟩ := h.append h1 hf hne (indexed_append h.indexed h1 hf hes) hprefix
    exact ⟨L, k', h'⟩
  | persist => exact ⟨_, _, h.persist⟩
  | commitTo index => exact ⟨_, _, h.commitTo index⟩

theorem Overlaid.keeps_of_shows {op : LogOp}
    (hfollow : p.Follows op) (hshow : (p.step op).log.Shows (p.step op).list) : p.Keeps op := by
  cases op with
  | append f es =>
    obtain ⟨h1, hf, -, -⟩ := hfollow
    intro x hx hfx
    exact h.stored_mem_of_shows h1 hf hshow hfx (AList.mem_lookup_iff.mpr hx)
  | persist => trivial
  | commitTo index => trivial

end

theorem overlaid_empty : (newRaftLog {}).Overlaid [] [] 1 where
  pending := rfl
  snap := rfl
  indexed i e he := absurd he (by simp)
  stored := LSMLogStorage.holds_empty
  stored_prefix := prefix_refl _
  unstable := ⟨le_rfl, le_rfl, rfl⟩
  meet := le_rfl

/-- **The log refines the list** in the runs whose appends keep every stored entry they reach, and
in no others. -/
theorem shows_list_iff_keeps (ops : List LogOp)
    (hfollow : Along Paired.step Paired.Follows ⟨newRaftLog {}, []⟩ ops) :
    (∀ past, past <+: ops → (Paired.run past).log.Shows (Paired.run past).list) ↔
      Along Paired.step Paired.Keeps ⟨newRaftLog {}, []⟩ ops := by
  refine forall_prefix_iff_along
    (I := fun past ↦ ∃ L k, (Paired.run past).log.Overlaid L (Paired.run past).list k)
    ⟨[], 1, overlaid_empty⟩ (fun _ ⟨_, _, h⟩ ↦ h.shows) ?_ ?_ hfollow
  · rintro past op ⟨L, k, h⟩ hfol hkeep
    rw [Paired.run, foldl_append]
    exact h.step hfol hkeep
  · rintro past op ⟨L, k, h⟩ hfol hshow
    rw [Paired.run, foldl_append] at hshow
    exact h.keeps_of_shows hfol hshow

/-- A run of four operations that replaces one unstable entry and never a stored one. -/
def keepingOps : List LogOp :=
  [.append 1 [{ term := 1, index := 1 }, { term := 1, index := 2 }], .persist,
    .append 3 [{ term := 1, index := 3 }], .append 3 [{ term := 2, index := 3 }], .persist,
    .commitTo 3]

theorem shows_list_keepingOps : (Paired.run keepingOps).log.Shows (Paired.run keepingOps).list := by
  have hfollow : Along Paired.step Paired.Follows ⟨newRaftLog {}, []⟩ keepingOps := by decide
  have hkeep : Along Paired.step Paired.Keeps ⟨newRaftLog {}, []⟩ keepingOps := by decide
  exact (shows_list_iff_keeps keepingOps hfollow).mpr hkeep _ (prefix_refl _)

/-- A replacement of persisted entries: before it is persisted `entries` returns the old entry where
`term` has the new one, and afterwards the old suffix is back. -/
theorem exists_stale_entries :
    let stored := Paired.run
      [.append 1 [{ term := 1, index := 1 }, { term := 1, index := 2 }, { term := 1, index := 3 }],
        .persist]
    let replaced := stored.step (.append 2 [{ term := 2, index := 2 }])
    stored.Follows (.append 2 [{ term := 2, index := 2 }]) ∧
      replaced.log.term 2 = .ok 2 ∧ replaced.log.entries 2 3 = [{ term := 1, index := 2 }] ∧
      (replaced.step .persist).log.lastIndex = 3 ∧ (replaced.step .persist).list.length = 2 := by
  decide +kernel

end RaftLog

end DucklingDB.Raft
