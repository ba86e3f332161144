import DucklingDB.Raft.LogView
import DucklingDB.Raft.Cluster

/-!
# The `Ready` cycle and the log

After a `Ready` cycle the storage alone stands for the log. What list it stands for depends on how
the step ended. If the log was only extended, it is the same list. An accepted append replaces the
list up to the end of the message and leaves the rest in place, because persisting overwrites keys
and deletes none; a received snapshot does the same with the part it covers. Both are `overlay`.
-/

namespace DucklingDB.Raft

open RawNode RaftLog LSMLogStorage List Nat

/-- `L` with its first `n` entries taken from `F`. -/
def overlay (F L : List Entry) (n : ℕ) : List Entry := F.take n ++ L.drop n

section Overlay

variable {F L : List Entry} {n i : ℕ}

theorem overlay_getElem?_of_lt (hn : n ≤ F.length) (hi : i < n) : (overlay F L n)[i]? = F[i]? := by
  rw [overlay, getElem?_append_left (by rw [length_take]; omega), getElem?_take_of_lt hi]

theorem overlay_getElem?_of_le (hn : n ≤ F.length) (hi : n ≤ i) : (overlay F L n)[i]? = L[i]? := by
  have hlen : (F.take n).length = n := by rw [length_take]; omega
  rw [overlay, getElem?_append_right (by omega), hlen, getElem?_drop]
  congr 1
  omega

theorem length_overlay (hn : n ≤ F.length) : (overlay F L n).length = max n L.length := by
  rw [overlay, length_append, length_take, length_drop]
  omega

theorem Indexed.overlay (hF : Indexed F) (hL : Indexed L) (hn : n ≤ F.length) :
    Indexed (overlay F L n) := by
  intro i e he
  by_cases hi : i < n
  · rw [overlay_getElem?_of_lt hn hi] at he
    exact hF i e he
  · rw [overlay_getElem?_of_le hn (by omega)] at he
    exact hL i e he

theorem overlay_of_length_le (hL : L.length ≤ n) : overlay F L n = F.take n := by
  rw [overlay, drop_eq_nil_of_le hL, append_nil]

theorem overlay_self (h : L.take n = F.take n) : overlay F L n = L := by
  rw [overlay, ← h, take_append_drop]

end Overlay

/-! ## Storage writes -/

namespace LSMLogStorage

variable {clean : Prop} {s s' : LSMLogStorage} {F L M : List Entry} {snap : Snapshot}

theorem Holds.congr (h : s.Holds L clean) (hlog : s'.log = s.log)
    (hmeta : s'.loadSnapshotMeta = s.loadSnapshotMeta) : s'.Holds L clean := by
  refine ⟨?_, ?_, ?_, ?_⟩
  · rw [hlog, hmeta]
    exact h.lookup
  · rw [hlog, hmeta]
    exact h.present
  · rw [hmeta]
    exact h.snap_le
  · rw [hmeta]
    exact h.snap_term

theorem installSnapshot_meta (h0 : 0 < snap.metadata.index) :
    (s.installSnapshot snap).loadSnapshotMeta = snap.metadata := by
  rw [installSnapshot, compact_meta, saveSnapshot_meta h0]

theorem Holds.installSnapshot (h : s.Holds L clean) {e : Entry}
    (hle : s.loadSnapshotMeta.index < snap.metadata.index) (hF : snap.metadata.index ≤ F.length)
    (he : F[snap.metadata.index - 1]? = some e) (ht : snap.metadata.term = e.term) :
    (s.installSnapshot snap).Holds (overlay F L snap.metadata.index) clean := by
  have h0 : 0 < snap.metadata.index := (zero_le _).trans_lt hle
  have hmeta : (s.installSnapshot snap).loadSnapshotMeta = snap.metadata := installSnapshot_meta h0
  have hlk : ∀ j, AList.lookup j (s.installSnapshot snap).log =
      if j ≤ snap.metadata.index then none else AList.lookup j s.log := by
    intro j
    rw [LSMLogStorage.installSnapshot, lookup_compact, saveSnapshot_log]
    simp only [h0.ne', ne_eq, not_false_eq_true, and_true]
    rfl
  have hlen := length_overlay (L := L) hF
  refine ⟨?_, ?_, ?_, ?_⟩
  · intro j x _ hx
    rw [hlk] at hx
    split at hx
    · cases hx
    · obtain ⟨h1, hx'⟩ := h.lookup (.inr (by omega)) hx
      exact ⟨h1, by rw [overlay_getElem?_of_le hF (by omega), hx']⟩
  · intro j hj hjM
    rw [hmeta] at hj
    rw [hlk, if_neg (by omega)]
    exact h.present (by omega) (by omega)
  · rw [hmeta, hlen]
    exact le_max_left _ _
  · rw [hmeta]
    intro x _ hx
    rw [overlay_getElem?_of_lt hF (by omega), he] at hx
    cases hx
    exact ht

theorem Holds.appendSlice (h : s.Holds L clean) (hF : Indexed F) {prev n : ℕ} (hn : n ≤ F.length)
    (hprev : prev ≤ n) (hpL : prev ≤ L.length) (hag : L.take prev = F.take prev)
    (hsnap : ∀ i < n, i < s.loadSnapshotMeta.index → L[i]? = F[i]?) :
    (s.appendEntries (slice F (prev + 1) (n + 1))).Holds (overlay F L n) clean := by
  have hlen := length_overlay (L := L) hn
  have hbelow : ∀ i < prev, L[i]? = F[i]? := fun i hi ↦ by
    rw [← getElem?_take_of_lt hi, hag, getElem?_take_of_lt hi]
  have hwritten : ∀ i, prev ≤ i → i < n → ∃ x ∈ slice F (prev + 1) (n + 1), x.index = i + 1 := by
    intro i hi₁ hi₂
    obtain ⟨x, hx⟩ : ∃ x, F[i]? = some x := ⟨_, getElem?_eq_getElem (by omega)⟩
    refine ⟨x, mem_of_getElem? (i := i - prev) ?_, hF i x hx⟩
    rw [getElem?_slice (by omega), if_pos (by omega), ← hx]
    congr 1
    omega
  refine h.appendEntries ?_ ?_ ?_ (by rw [hlen]; exact le_max_right _ _) ?_
  · intro x hx
    obtain ⟨i, hi₁, hi₂, hFi⟩ := mem_slice (by omega) hx
    have hxi := hF _ x hFi
    rw [overlay_getElem?_of_lt hn (by omega), show x.index - 1 = i - 1 by omega]
    exact ⟨by omega, hFi⟩
  · intro i hi
    by_cases hi₁ : i < prev
    · left
      rw [overlay_getElem?_of_lt hn (by omega), hbelow i hi₁]
    · by_cases hi₂ : i < n
      · exact .inr (hwritten i (by omega) hi₂)
      · exact .inl (overlay_getElem?_of_le hn (by omega)).symm
  · intro i hi hiL
    exact hwritten i (by omega) (by omega)
  · intro h0
    by_cases hi : s.loadSnapshotMeta.index - 1 < n
    · rw [overlay_getElem?_of_lt hn hi, hsnap _ hi (by omega)]
    · exact overlay_getElem?_of_le hn (by omega)

/-- Of the writes of a `Ready` cycle only the snapshot and the entries touch the log. -/
theorem persist_eq (s : LSMLogStorage) (rd : Ready) : ∃ hs ap, s.persist rd =
    { (if rd.snapshot.isEmpty then s else s.installSnapshot rd.snapshot).appendEntries
        rd.entries with hardState := hs, applied := ap } := by
  have hinst : ∀ (s : LSMLogStorage) hs, (s.saveHardState hs).installSnapshot rd.snapshot =
      (s.installSnapshot rd.snapshot).saveHardState hs := by
    intro s hs
    simp only [installSnapshot, compact, saveSnapshot, saveHardState, saveApplied]
    split <;> split <;> rfl
  rw [persist]
  cases rd.committedEntries.getLast? <;> cases h₁ : rd.hardState.isEmpty <;>
    cases h₂ : rd.snapshot.isEmpty <;> simp only [hinst, ↓reduceIte, Bool.false_eq_true] <;>
    exact ⟨_, _, rfl⟩

theorem persist_holds {rd : Ready}
    (h : ((if rd.snapshot.isEmpty then s else s.installSnapshot rd.snapshot).appendEntries
      rd.entries).Holds M clean) : (s.persist rd).Holds M clean := by
  obtain ⟨hs, ap, heq⟩ := s.persist_eq rd
  rw [heq]
  exact h.congr rfl rfl

theorem persist_meta (s : LSMLogStorage) (rd : Ready) : (s.persist rd).loadSnapshotMeta =
    (if rd.snapshot.isEmpty then s else s.installSnapshot rd.snapshot).loadSnapshotMeta := by
  obtain ⟨hs, ap, heq⟩ := s.persist_eq rd
  rw [heq]
  rfl

end LSMLogStorage

/-! ## `Advance` -/

/-- Consecutive indices from `k` on. -/
def Contiguous (k : ℕ) (es : List Entry) : Prop := ∀ i x, es[i]? = some x → x.index = k + i

variable {F : List Entry}

theorem Indexed.contiguous_slice (hF : Indexed F) {lo hi : ℕ} (h1 : 1 ≤ lo) :
    Contiguous lo (slice F lo hi) := by
  intro i x hx
  rw [getElem?_slice h1] at hx
  split at hx
  · rw [hF _ x hx]
    omega
  · cases hx

theorem Indexed.contiguous_drop (hF : Indexed F) (n : ℕ) : Contiguous (n + 1) (F.drop n) := by
  intro i x hx
  rw [getElem?_drop] at hx
  rw [hF _ x hx]
  omega

theorem RaftLog.stableTo_last {l : RaftLog} {k : ℕ} {last : Entry} (hc : Contiguous k l.unstable)
    (hl : l.unstable.getLast? = some last) :
    l.stableTo last.index last.term = { l with unstable := [], offset := last.index } := by
  rw [getLast?_eq_getElem?] at hl
  obtain ⟨hlt, -⟩ := List.getElem?_eq_some_iff.mp hl
  have hne : l.unstable ≠ [] := length_pos_iff.mp (by omega)
  have hfirst : (l.unstable.head hne).index = k := by
    have := hc 0 (l.unstable.head hne) (by rw [← head?_eq_getElem?, head?_eq_some_head])
    omega
  have hlast := hc _ _ hl
  rw [stableTo, head?_eq_some_head hne]
  simp only [hfirst]
  rw [if_neg (by omega), show last.index - k = l.unstable.length - 1 by omega, hl]
  simp only [ne_eq, not_true_eq_false, ↓reduceIte]
  rw [drop_eq_nil_of_le (by omega)]

/-- The applied index after the committed entries have been handed out. -/
def appliedAfter (applied : ℕ) (es : List Entry) : ℕ :=
  match es.getLast? with
  | none => applied
  | some last => max applied last.index

theorem RawNode.advanceLog_eq {l : RaftLog} {rd : Ready} {k : ℕ} (hc : Contiguous k l.unstable)
    (he : rd.entries = l.unstable) (hp : rd.snapshot.isEmpty = true → l.pendingSnapshot = {}) :
    ∃ off, advanceLog l rd =
      { storage := l.storage, unstable := [], offset := off, committed := l.committed
        applied := appliedAfter l.applied rd.committedEntries, pendingSnapshot := {} } := by
  -- the snapshot has been installed
  have h₁ : (if rd.snapshot.isEmpty then l else { l with pendingSnapshot := {} }) =
      { l with pendingSnapshot := {} } := by
    split
    · rename_i h
      rw [← hp h]
    · rfl
  simp only [advanceLog, h₁, he, appliedAfter]
  have hc' : Contiguous k { l with pendingSnapshot := {} }.unstable := hc
  cases hl : l.unstable.getLast? with
  | none =>
    rw [getLast?_eq_none_iff] at hl
    refine ⟨l.offset, ?_⟩
    cases rd.committedEntries.getLast? <;> simp only [appliedTo_eq, hl]
  | some last =>
    refine ⟨last.index, ?_⟩
    simp only [stableTo_last hc' hl]
    cases rd.committedEntries.getLast? <;> simp only [appliedTo_eq]

theorem RawNode.ready_snapshot {rn : RawNode}
    (hp : rn.log.pendingSnapshot = {} ∨ rn.log.pendingSnapshot.isEmpty = false) :
    rn.ready.snapshot = rn.log.pendingSnapshot := by
  rcases hp with hp | hp <;> simp [ready, hasPendingSnapshot, hp]

theorem RawNode.ready_snapshot_isEmpty {rn : RawNode} (hp : rn.log.pendingSnapshot = {}) :
    rn.ready.snapshot.isEmpty = true := by
  rw [ready_snapshot (.inl hp), hp]
  rfl

section

variable {k : ℕ} (rn : RawNode) (hc : Contiguous k rn.log.unstable)
  (hp : rn.log.pendingSnapshot = {} ∨ rn.log.pendingSnapshot.isEmpty = false)
include rn hc hp

theorem RawNode.handleReady_log : ∃ off, rn.handleReady.log =
      { storage := rn.log.storage.persist rn.ready, unstable := [], offset := off
        committed := rn.log.committed
        applied := appliedAfter rn.log.applied rn.log.nextEntries, pendingSnapshot := {} } := by
  have hsnap : rn.ready.snapshot.isEmpty = true → rn.log.pendingSnapshot = {} := by
    intro h
    rw [ready_snapshot hp] at h
    exact hp.resolve_right (by simp [h])
  have hc' : Contiguous k { rn.log with storage := rn.log.storage.persist rn.ready }.unstable := hc
  exact advanceLog_eq hc' rfl hsnap

/-- **The log after a `Ready` cycle is what the storage then holds.** -/
theorem RawNode.handleReady_live {M : List Entry}
    (hs : (rn.log.storage.persist rn.ready).Holds M clean) (hM : Indexed M)
    (hsnap : (rn.log.storage.persist rn.ready).loadSnapshotMeta.index ≤ rn.log.applied)
    (happ : rn.log.applied ≤ rn.log.committed) (hcom : rn.log.committed ≤ M.length)
    (hnext : ∀ x ∈ rn.log.nextEntries, x.index ≤ rn.log.committed) :
    rn.handleReady.log.Live M clean ∧ rn.handleReady.log.unstable = [] ∧
      rn.handleReady.log.committed = rn.log.committed := by
  obtain ⟨off, heq⟩ := rn.handleReady_log hc hp
  rw [heq]
  have hle : rn.log.applied ≤ appliedAfter rn.log.applied rn.log.nextEntries ∧
      appliedAfter rn.log.applied rn.log.nextEntries ≤ rn.log.committed := by
    rw [appliedAfter]
    cases hl : rn.log.nextEntries.getLast? with
    | none => exact ⟨le_rfl, happ⟩
    | some last =>
      exact ⟨le_max_left _ _, max_le happ (hnext last (mem_of_getLast? hl))⟩
  exact ⟨⟨rfl, ⟨M, hs, by rw [append_nil], hle.2.trans hcom⟩, hM, hsnap.trans hle.1, hle.2, hcom⟩,
    rfl, rfl⟩

end

/-! ## The three ways a step ends -/

section Ends

variable {clean : Prop} {l : RaftLog} {L F : List Entry} {rn : RawNode}

theorem RaftLog.Live.handleReady (h : rn.log.Live L clean) :
    rn.handleReady.log.Live L clean ∧ rn.handleReady.log.unstable = [] ∧
      rn.handleReady.log.committed = rn.log.committed := by
  obtain ⟨L₀, hs, hL, -⟩ := h.stable
  have hU := Live.unstableFrom hL
  have hrd := ready_snapshot_isEmpty h.pending
  have hc : Contiguous (L₀.length + 1) rn.log.unstable := by
    rw [hU.2.2]
    exact h.indexed.contiguous_drop _
  refine rn.handleReady_live hc (.inl h.pending) ?_ h.indexed ?_ h.applied_le h.committed_le ?_
  · refine persist_holds ?_
    rw [if_pos hrd]
    refine hs.appendEntries ?_ ?_ ?_ (by rw [hL, length_append]; omega) ?_
    · intro x hx
      refine h.indexed.getElem_index ?_
      rw [hL]
      exact mem_append_right _ hx
    · intro i hi
      rw [hL, getElem?_append_left hi]
      exact .inl rfl
    · intro i hi hi₀
      obtain ⟨x, hx⟩ : ∃ x, L[i]? = some x := ⟨_, getElem?_eq_getElem hi⟩
      refine ⟨x, ?_, h.indexed i x hx⟩
      rw [hL, getElem?_append_right hi₀] at hx
      exact mem_of_getElem? hx
    · intro h0
      have := hs.snap_le
      rw [hL, getElem?_append_left (by omega)]
  · rw [persist_meta, if_pos hrd]
    exact h.snap_le
  · intro x hx
    rw [h.nextEntries_eq] at hx
    obtain ⟨i, hi₁, hi₂, hx⟩ := mem_slice (by omega) hx
    rw [h.indexed _ x hx]
    omega

theorem RawNode.appendedLog_eq (hu : l.unstable = []) (m : Message) :
    RawNode.appendedLog l m = { l with
      unstable := m.entries
      committed := max l.committed (min m.commit { l with unstable := m.entries }.lastIndex) } := by
  have hstep : (if m.entries = [] then l else l.append m.entries) =
      { l with unstable := m.entries } := by
    split <;> rename_i he
    · rw [he, ← hu]
    · rw [append, head?_eq_some_head he]
      simp only [hu, head?_nil, nil_append]
  simp only [appendedLog, hstep, commitTo_eq]
  split
  · rfl
  · rename_i hle
    rw [max_eq_left ((min_le_left _ _).trans (not_lt.mp hle))]

/-- What `appendedLog` does to a log without unstable entries. -/
structure Appended (l : RaftLog) (m : Message) (last : ℕ) (l' : RaftLog) : Prop where
  storage : l'.storage = l.storage
  unstable : l'.unstable = m.entries
  applied : l'.applied = l.applied
  pending : l'.pendingSnapshot = l.pendingSnapshot
  lastIndex : l'.lastIndex = last
  committed : l'.committed = max l.committed (min m.commit last)

theorem RaftLog.Live.appendedLog (h : l.Live L clean) (hu : l.unstable = []) (hF : Indexed F)
    {m : Message} {n : ℕ} (hes : m.entries = slice F (m.index + 1) (n + 1)) (hn : n ≤ F.length) :
    Appended l m (if m.entries = [] then L.length else n) (appendedLog l m) := by
  have hlast : { l with unstable := m.entries }.lastIndex = if m.entries = [] then L.length
    else n := by
    split <;> rename_i he
    · rw [he, ← hu]
      exact h.lastIndex_eq
    · rw [lastIndex]
      simp only [getLast?_eq_some_getLast he]
      have hlen : m.entries.length = n - m.index := by
        rw [hes, slice, length_take, length_drop]
        omega
      have hpos := length_pos_iff.mpr he
      have hget : m.entries[m.entries.length - 1]? = some (m.entries.getLast he) := by
        rw [← getLast?_eq_getElem?, getLast?_eq_some_getLast he]
      have hcont : Contiguous (m.index + 1) m.entries := by
        rw [hes]
        exact hF.contiguous_slice (by omega)
      have := hcont _ _ hget
      omega
  rw [appendedLog_eq hu, hlast]
  exact ⟨rfl, rfl, rfl, rfl, hlast, rfl⟩

theorem Appended.unstableFrom {l' : RaftLog} {m : Message} {last n : ℕ} (ha : Appended l m last l')
    (hes : m.entries = slice F (m.index + 1) (n + 1)) (hmn : m.index ≤ n)
    (hn : n ≤ F.length) (hpL : m.index ≤ L.length) (hL : L.length < n) :
    ∃ k ≤ L.length + 1, l'.UnstableFrom (overlay F L n) k := by
  have hlen := length_overlay (L := L) hn
  refine ⟨m.index + 1, by omega, by omega, by omega, ?_⟩
  rw [ha.unstable, hes, overlay_of_length_le hL.le, slice, Nat.add_sub_cancel, drop_take]
  congr 1
  omega

section

variable {m : Message} {n : ℕ} (h : l.Live L clean) (hu : l.unstable = []) (hF : Indexed F)
  (hes : m.entries = slice F (m.index + 1) (n + 1)) (hmn : m.index ≤ n) (hn : n ≤ F.length)
  (hpL : m.index ≤ L.length) (hag : L.take m.index = F.take m.index)
include h hu hF hes hmn hn hpL hag

/-- What an accepted append lets the node apply, if the entries it commits are not about to replace
others. -/
theorem RaftLog.Live.nextEntries_append (hcom : ∀ i < n, i < l.committed → L[i]? = F[i]?)
    (hfresh : ∀ i < n, m.index ≤ i → l.committed ≤ i → i < m.commit → i < L.length →
      L[i]? = F[i]?) :
    (RawNode.appendedLog l m).nextEntries = slice (overlay F L n) (l.applied + 1)
      ((RawNode.appendedLog l m).committed + 1) := by
  have hs := h.holds hu
  have ha := h.appendedLog hu hF hes hn
  have hlen := length_overlay (L := L) hn
  have hco := ha.committed
  have hcL := h.committed_le
  have hlast : (if m.entries = [] then L.length else n) ≤ max n L.length := by
    split
    · exact le_max_right _ _
    · exact le_max_left _ _
  rw [nextEntries, ha.applied]
  split
  · refine entries_eq_slice (ha.storage ▸ hs) (hF.overlay h.indexed hn) ?_ ?_ ?_ ?_
    · rw [ha.storage]
      exact lt_succ_of_le h.snap_le
    · omega
    · exact fun hlt ↦ ha.unstableFrom hes hmn hn hpL (by omega)
    · intro i hi₁ hi₂ hi₃
      by_cases hin : i - 1 < n
      · rw [overlay_getElem?_of_lt hn hin]
        by_cases hic : i - 1 < l.committed
        · exact hcom _ hin hic
        · by_cases him : i - 1 < m.index
          · rw [← getElem?_take_of_lt him, hag, getElem?_take_of_lt him]
          · exact hfresh _ hin (by omega) (by omega) (by omega) (by omega)
      · rw [overlay_getElem?_of_le hn (by omega)]
  · exact (slice_of_le (by omega)).symm

/-- An accepted append of a part of `F`: the storage then holds `F` up to the end of the message. -/
theorem RaftLog.Live.handleReady_append
    (hsnap : ∀ i < n, i < l.storage.loadSnapshotMeta.index → L[i]? = F[i]?) (rn : RawNode)
    (hlog : rn.log = RawNode.appendedLog l m) :
    rn.handleReady.log.Live (overlay F L n) clean ∧ rn.handleReady.log.unstable = [] ∧
      rn.handleReady.log.committed = rn.log.committed := by
  have hs := h.holds hu
  have ha := h.appendedLog hu hF hes hn
  rw [← hlog] at ha
  obtain ⟨hst, hun, hap, hpe, -, hco⟩ := id ha
  have hlen := length_overlay (L := L) hn
  have hM : Indexed (overlay F L n) := hF.overlay h.indexed hn
  have hrd := ready_snapshot_isEmpty (hpe.trans h.pending)
  have hcle : rn.log.committed ≤ (overlay F L n).length := by
    rw [hco, hlen]
    refine max_le (h.committed_le.trans (le_max_right _ _)) ((min_le_right _ _).trans ?_)
    split
    · exact le_max_right _ _
    · exact le_max_left _ _
  refine rn.handleReady_live (k := m.index + 1) ?_ (.inl (hpe.trans h.pending)) ?_ hM ?_ ?_ hcle ?_
  · rw [hun, hes]
    exact hF.contiguous_slice (by omega)
  · refine persist_holds ?_
    rw [if_pos hrd, hst]
    have : rn.ready.entries = slice F (m.index + 1) (n + 1) := hun.trans hes
    rw [this]
    exact hs.appendSlice hF hn hmn hpL hag hsnap
  · rw [persist_meta, if_pos hrd, hst, hap]
    exact h.snap_le
  · rw [hap, hco]
    exact h.applied_le.trans (le_max_left _ _)
  · -- whatever the storage answers, the indices are right
    intro x hx
    rw [nextEntries] at hx
    split at hx
    · rw [entries_eq_append (hst ▸ hs) hM] at hx
      · rcases mem_append.mp hx with hx | hx
        · obtain ⟨i, hi₁, hi₂, hx⟩ := mem_slice (by omega) hx
          rw [h.indexed _ x hx]
          omega
        · obtain ⟨i, hi₁, hi₂, hx⟩ := mem_slice (by omega) hx
          rw [hM _ x hx]
          omega
      · rw [hst, hap]
        exact lt_succ_of_le h.snap_le
      · rw [hap]
        exact succ_le_succ (h.applied_le.trans h.committed_le)
      · omega
      · exact fun hlt ↦ ha.unstableFrom hes hmn hn hpL (by omega)
    · cases hx

end

variable {snap : Snapshot}

theorem RaftLog.restore_eq (hu : l.unstable = []) (happ : l.applied ≤ l.committed)
    (hnew : l.committed < snap.metadata.index) : (l.restore snap).1 = { l with
      pendingSnapshot := snap, committed := snap.metadata.index, applied := snap.metadata.index
      unstable := [], offset := max l.offset snap.metadata.index } := by
  rw [restore, if_neg (not_le.mpr hnew), max_eq_right (happ.trans hnew.le), hu]
  rfl

theorem RaftLog.Live.handleReady_restore (h : l.Live L clean) (hu : l.unstable = [])
    (hF : Indexed F) {e : Entry} (hnew : l.committed < snap.metadata.index)
    (hn : snap.metadata.index ≤ F.length) (he : F[snap.metadata.index - 1]? = some e)
    (ht : snap.metadata.term = e.term) (rn : RawNode) (hlog : rn.log = (l.restore snap).1) :
    rn.handleReady.log.Live (overlay F L snap.metadata.index) clean ∧
      rn.handleReady.log.unstable = [] ∧ rn.handleReady.log.committed = snap.metadata.index := by
  have hs := h.holds hu
  have hle : l.storage.loadSnapshotMeta.index ≤ l.committed := h.snap_le.trans h.applied_le
  have h0 : 0 < snap.metadata.index := (zero_le _).trans_lt hnew
  have hlog' := hlog.trans (restore_eq hu h.applied_le hnew)
  have hpend : rn.log.pendingSnapshot = snap := by rw [hlog']
  have hne := Snapshot.isEmpty_eq_false.mpr h0
  have hrd := (ready_snapshot (.inr (hpend ▸ hne))).trans hpend
  have hents : rn.ready.entries = [] := by
    simp [ready, unstableEntries, hlog']
  have hlen := length_overlay (L := L) hn
  have hpersist : (rn.log.storage.persist rn.ready).Holds (overlay F L snap.metadata.index)
      clean := by
    refine persist_holds ?_
    rw [hrd, hne, hents, hlog']
    exact hs.installSnapshot (by omega) hn he ht
  have key := rn.handleReady_live (k := 0)
    (by rw [hlog']; exact fun i x hx ↦ by cases hx) (.inr (hpend ▸ hne)) hpersist
    (hF.overlay h.indexed hn) ?_ (by rw [hlog']) ?_ ?_
  · refine ⟨key.1, key.2.1, key.2.2.trans ?_⟩
    rw [hlog']
  · rw [persist_meta, hrd, hne, hlog']
    simp only [Bool.false_eq_true, ↓reduceIte]
    rw [installSnapshot_meta h0]
  · rw [hlog', hlen]
    exact le_max_left _ _
  · intro x hx
    rw [nextEntries, hlog'] at hx
    simp only at hx
    rw [if_neg (by omega)] at hx
    cases hx

end Ends

end DucklingDB.Raft
