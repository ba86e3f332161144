import DucklingDB.Raft.Move
import DucklingDB.Raft.ReadyCycle

/-!
# The form of a log

What holds of the logs of a cluster in every run, whatever the elections decide: a key holds an
entry of that index, the entries of an append are numbered consecutively, the node's own new entries
follow its last index, and the last index never decreases. Nothing is said about the terms of the
entries.
-/

namespace DucklingDB.Raft

open RawNode RaftLog LSMLogStorage List Nat

/-! ## The last index of a storage -/

namespace LSMLogStorage

variable {s s' : LSMLogStorage} {snap : Snapshot}

/-- `s'` is `s` without keys that its snapshot covers. -/
structure Truncates (s s' : LSMLogStorage) : Prop where
  lookup : ∀ {k e}, s'.log.lookup k = some e → s.log.lookup k = some e
  kept : ∀ {k e}, s.log.lookup k = some e → s'.loadSnapshotMeta.index < k → s'.log.lookup k = some e
  snap_le : s.loadSnapshotMeta.index ≤ s'.loadSnapshotMeta.index

theorem Truncates.lastIndex_le (h : Truncates s s') : s.lastIndex ≤ s'.lastIndex := by
  refine LSMLogStorage.lastIndex_le (fun {k e} he ↦ ?_) (h.snap_le.trans s'.snap_le_lastIndex)
  by_cases hk : s'.loadSnapshotMeta.index < k
  · exact le_lastIndex (h.kept he hk)
  · exact (not_lt.mp hk).trans s'.snap_le_lastIndex

theorem Truncates.lastIndex_eq (h : Truncates s s')
    (hsnap : s'.loadSnapshotMeta.index ≤ s.lastIndex) : s'.lastIndex = s.lastIndex :=
  le_antisymm (LSMLogStorage.lastIndex_le (fun he ↦ le_lastIndex (h.lookup he)) hsnap)
    h.lastIndex_le

theorem truncates_compact {n : ℕ} (hn : n ≤ s.loadSnapshotMeta.index) :
    Truncates s (s.compact n) := by
  refine ⟨fun {k e} he ↦ ?_, fun {k e} he hk ↦ ?_, by rw [compact_meta]⟩
  · rw [lookup_compact] at he
    split at he
    · cases he
    · exact he
  · rw [compact_meta] at hk
    rw [lookup_compact, if_neg (by omega), he]

theorem truncates_saveSnapshot {n : ℕ} (h0 : 0 < snap.metadata.index)
    (hle : s.loadSnapshotMeta.index ≤ snap.metadata.index) (hn : n ≤ snap.metadata.index) :
    Truncates s ((s.saveSnapshot snap).compact n) := by
  have hmeta : (s.saveSnapshot snap).loadSnapshotMeta = snap.metadata := saveSnapshot_meta h0
  have hc : Truncates (s.saveSnapshot snap) ((s.saveSnapshot snap).compact n) :=
    truncates_compact (by rwa [hmeta])
  have hlog := s.saveSnapshot_log snap
  refine ⟨fun he ↦ hlog ▸ hc.lookup he, fun he hk ↦ hc.kept (hlog ▸ he) hk, hle.trans ?_⟩
  rw [compact_meta, hmeta]

theorem truncates_installSnapshot (h0 : 0 < snap.metadata.index)
    (hle : s.loadSnapshotMeta.index ≤ snap.metadata.index) :
    Truncates s (s.installSnapshot snap) := by
  have h : Truncates (s.saveApplied snap.metadata.index) (s.installSnapshot snap) :=
    truncates_saveSnapshot h0 hle le_rfl
  exact ⟨h.lookup, h.kept, h.snap_le⟩

end LSMLogStorage

/-! ## Reading -/

namespace Contiguous

variable {k : ℕ} {es fs : List Entry}

theorem nil (k : ℕ) : Contiguous k [] := fun _ _ hx ↦ by cases hx

theorem take (h : Contiguous k es) (n : ℕ) : Contiguous k (es.take n) := by
  intro i x hx
  rw [getElem?_take] at hx
  split at hx
  · exact h i x hx
  · cases hx

theorem drop (h : Contiguous k es) (n : ℕ) : Contiguous (k + n) (es.drop n) := by
  intro i x hx
  rw [getElem?_drop] at hx
  rw [h _ x hx]
  omega

theorem append (h : Contiguous k es) (h' : Contiguous (k + es.length) fs) :
    Contiguous k (es ++ fs) := by
  intro i x hx
  rw [getElem?_append] at hx
  split at hx
  · exact h i x hx
  · rw [h' _ x hx]
    omega

theorem cons {e : Entry} (he : e.index = k) (h : Contiguous (k + 1) es) :
    Contiguous k (e :: es) := by
  intro i x hx
  cases i with
  | zero =>
    cases hx
    exact he
  | succ i =>
    rw [h i x hx]
    omega

theorem index_mem (h : Contiguous k es) {x : Entry} (hx : x ∈ es) :
    k ≤ x.index ∧ x.index < k + es.length := by
  obtain ⟨i, hi⟩ := List.getElem?_of_mem hx
  have := (List.getElem?_eq_some_iff.mp hi).1
  rw [h i x hi]
  omega

end Contiguous

namespace RaftLog

/-- Every key holds an entry of that index. -/
def Keyed (s : LSMLogStorage) : Prop :=
  ∀ {k e}, s.log.lookup k = some e → 1 ≤ k ∧ e.index = k

theorem entriesFrom_spec {s : LSMLogStorage} (hk : Keyed s) {n lo : ℕ} {es : List Entry}
    (h : s.entriesFrom lo n = .ok es) :
    Contiguous lo es ∧ es.length = n ∧ ∀ x ∈ es, s.log.lookup x.index = some x := by
  induction n generalizing lo es with
  | zero =>
    cases h
    exact ⟨.nil lo, rfl, by simp⟩
  | succ n ih =>
    rw [entriesFrom] at h
    cases he : s.log.lookup lo with
    | none =>
      rw [he] at h
      cases h
    | some e =>
      rw [he] at h
      cases hrest : s.entriesFrom (lo + 1) n with
      | error err =>
        rw [hrest] at h
        cases h
      | ok rest =>
        rw [hrest] at h
        cases h
        obtain ⟨hc, hlen, hmem⟩ := ih hrest
        have hidx := (hk he).2
        refine ⟨.cons hidx hc, by rw [length_cons, hlen], fun x hx ↦ ?_⟩
        rcases mem_cons.mp hx with rfl | hx
        · rw [hidx, he]
        · exact hmem x hx

/-- The answer `es` for the range `[lo, hi)` is numbered from `lo` on and consists of entries of the
log. -/
structure Reads (l : RaftLog) (lo hi : ℕ) (es : List Entry) : Prop where
  contiguous : Contiguous lo es
  source : ∀ x ∈ es, l.storage.log.lookup x.index = some x ∨ x ∈ l.unstable
  lt : ∀ x ∈ es, x.index < hi

variable {l : RaftLog} {lo hi k : ℕ}

theorem Reads.nil (l : RaftLog) (lo hi : ℕ) : l.Reads lo hi [] := ⟨.nil lo, by simp, by simp⟩

/-- What `unstableSlice` answers, if the unstable entries start no later than the range. -/
theorem reads_unstableSlice (hc : Contiguous k l.unstable) (hk : k ≤ lo) :
    l.Reads lo hi (l.unstableSlice lo hi) := by
  rw [unstableSlice]
  cases hf : l.unstable.head? with
  | none => exact .nil l lo hi
  | some first =>
    cases hl : l.unstable.getLast? with
    | none => exact .nil l lo hi
    | some last =>
      have hfirst : first.index = k := by
        rw [head?_eq_getElem?] at hf
        have := hc 0 first hf
        omega
      simp only [hfirst]
      split
      · have htake : Contiguous k (l.unstable.take (hi - k)) := hc.take _
        refine ⟨?_, fun x hx ↦ .inr (mem_of_mem_take (mem_of_mem_drop hx)), fun x hx ↦ ?_⟩
        · have := htake.drop (lo - k)
          rwa [show k + (lo - k) = lo by omega] at this
        · have := htake.index_mem (mem_of_mem_drop hx)
          rw [length_take] at this
          omega
      · exact .nil l lo hi

/-- What `entries` answers, if the unstable entries follow the persisted ones without a gap. -/
theorem reads_entries (hk : Keyed l.storage) (hkl : k ≤ l.storage.lastIndex + 1)
    (hc : Contiguous k l.unstable) : l.Reads lo hi (l.entries lo hi) := by
  rw [entries]
  split
  · exact .nil l lo hi
  · rename_i hlt
    dsimp only
    split
    · rw [l.storage.entries_eq (by omega)]
      cases hs : l.storage.entriesFrom lo (min hi (l.storage.lastIndex + 1) - lo) with
      | error err => exact .nil l lo hi
      | ok se =>
        obtain ⟨hse, hlen, hmem⟩ := entriesFrom_spec hk hs
        have hu : l.Reads (l.storage.lastIndex + 1) hi
            (l.unstableSlice (l.storage.lastIndex + 1) hi) := reads_unstableSlice hc hkl
        dsimp only
        refine ⟨?_, fun x hx ↦ ?_, fun x hx ↦ ?_⟩
        · by_cases h : hi ≤ l.storage.lastIndex + 1
          · rw [l.unstableSlice_of_le h, append_nil]
            exact hse
          · refine hse.append ?_
            rw [hlen, show lo + (min hi (l.storage.lastIndex + 1) - lo) = l.storage.lastIndex + 1
              by omega]
            exact hu.contiguous
        · rcases mem_append.mp hx with hx | hx
          · exact .inl (hmem x hx)
          · exact hu.source x hx
        · rcases mem_append.mp hx with hx | hx
          · have := hse.index_mem hx
            omega
          · exact hu.lt x hx
    · exact reads_unstableSlice hc (by omega)

/-- A range that starts at index `0` cannot be read. -/
theorem entries_zero (hk : Keyed l.storage) (hi : ℕ) : l.entries 0 hi = [] := by
  rw [entries]
  split
  · rfl
  · rename_i hlt
    rw [if_pos (zero_le _)]
    have hnone : l.storage.log.lookup 0 = none := by
      cases h : l.storage.log.lookup 0 with
      | none => rfl
      | some e => exact absurd (hk h).1 (by omega)
    have herr : l.storage.entries 0 (min hi (l.storage.lastIndex + 1)) = .error .unavailable := by
      rw [l.storage.entries_eq (zero_le _)]
      obtain ⟨n, hn⟩ : ∃ n, min hi (l.storage.lastIndex + 1) - 0 = n + 1 :=
        ⟨min hi (l.storage.lastIndex + 1) - 1, by omega⟩
      rw [hn, entriesFrom, hnone]
    rw [herr]

/-! ## Logs over any storage -/

/-- The form of a log over any storage with its entries under their own keys, also one that has lost
entries which had been applied. There may be entries or a snapshot of a leader. -/
structure Loose (l : RaftLog) : Prop where
  keys : Keyed l.storage
  unstable : ∃ k ≤ l.storage.lastIndex + 1, 1 ≤ k ∧ Contiguous k l.unstable
  snap_le : l.storage.loadSnapshotMeta.index ≤ l.applied
  applied_le : l.applied ≤ l.committed
  pending : l.pendingSnapshot = {} ∨ l.pendingSnapshot.isEmpty = false ∧ l.unstable = [] ∧
    l.applied = l.pendingSnapshot.metadata.index ∧ l.committed = l.applied

theorem Loose.reads_nextEntries (h : l.Loose) :
    l.Reads (l.applied + 1) (l.committed + 1) l.nextEntries := by
  obtain ⟨k, hk, -, hc⟩ := h.unstable
  rw [nextEntries]
  split
  · exact reads_entries h.keys hk hc
  · exact .nil l _ _

/-- An index whose term is known lies within the log. -/
theorem Loose.le_of_term (hp : l.pendingSnapshot = {}) (hu : l.unstable = []) {i t : ℕ} (hi : i ≠ 0)
    (ht : l.term i = .ok t) : i ≤ l.storage.lastIndex := by
  have hst : l.storage.term i = .ok t := by
    simpa [term, hi, hu, stableTerm, hp, Snapshot.isEmpty] using ht
  rw [LSMLogStorage.term] at hst
  split at hst
  · rename_i hc
    rw [hc.2]
    exact l.storage.snap_le_lastIndex
  · split at hst
    · cases hst
    · split at hst
      · rename_i e he
        exact le_lastIndex he
      · cases hst

/-- What an accepted append leaves of a log without unstable entries. -/
structure Accepted (l : RaftLog) (es : List Entry) (l' : RaftLog) : Prop where
  loose : l'.Loose
  storage : l'.storage = l.storage
  unstable : l'.unstable = es
  applied : l'.applied = l.applied
  pending : l'.pendingSnapshot = {}

theorem Loose.appendedLog (h : l.Loose) (hu : l.unstable = []) (hp : l.pendingSnapshot = {})
    {m : Message} (hm : m.index = 0 ∨ ∃ t, l.term m.index = .ok t)
    (hc : Contiguous (m.index + 1) m.entries) : l.Accepted m.entries (appendedLog l m) := by
  have hle : m.index ≤ l.storage.lastIndex := by
    rcases hm with hm | ⟨t, ht⟩
    · omega
    · by_cases h0 : m.index = 0
      · omega
      · exact Loose.le_of_term hp hu h0 ht
  rw [appendedLog_eq hu]
  exact ⟨⟨h.keys, ⟨m.index + 1, succ_le_succ hle, le_add_left 1 _, hc⟩, h.snap_le,
    h.applied_le.trans (le_max_left _ _), .inl hp⟩, rfl, rfl, rfl, hp⟩

theorem Loose.restore (h : l.Loose) (hu : l.unstable = []) {snap : Snapshot}
    (hnew : l.committed < snap.metadata.index) :
    (l.restore snap).1.Loose ∧ (l.restore snap).1.storage = l.storage ∧
      (l.restore snap).1.unstable = [] ∧ (l.restore snap).1.pendingSnapshot = snap ∧
      snap.isEmpty = false := by
  have hne := Snapshot.isEmpty_eq_false.mpr ((zero_le _).trans_lt hnew)
  rw [restore_eq hu h.applied_le hnew]
  exact ⟨⟨h.keys, ⟨1, le_add_left 1 _, le_rfl, .nil 1⟩,
    h.snap_le.trans (h.applied_le.trans hnew.le),
    le_rfl, .inr ⟨hne, rfl, rfl, rfl⟩⟩, rfl, rfl, rfl, hne⟩

/-! ## Logs between transitions -/

/-- The form of a log between two transitions of a node. The unstable entries are the node's own. -/
structure Regular (l : RaftLog) : Prop where
  keys : Keyed l.storage
  unstable : Contiguous (l.storage.lastIndex + 1) l.unstable
  pending : l.pendingSnapshot = {}
  snap_le : l.storage.loadSnapshotMeta.index ≤ l.applied
  applied_le : l.applied ≤ l.committed
  applied_last : l.applied ≤ l.storage.lastIndex

theorem regular_newRaftLog : (newRaftLog {}).Regular where
  keys h := by cases h
  unstable := .nil _
  pending := rfl
  snap_le := le_rfl
  applied_le := le_rfl
  applied_last := le_rfl

namespace Regular

theorem lastIndex_eq (h : l.Regular) : l.lastIndex = l.storage.lastIndex + l.unstable.length := by
  rw [lastIndex]
  cases hl : l.unstable.getLast? with
  | none =>
    rw [getLast?_eq_none_iff.mp hl, h.pending]
    simp
  | some last =>
    rw [getLast?_eq_getElem?] at hl
    have hlt := (List.getElem?_eq_some_iff.mp hl).1
    have := h.unstable _ _ hl
    simp only
    omega

theorem append (h : l.Regular) {es : List Entry} (hes : Contiguous (l.lastIndex + 1) es) :
    (l.append es).Regular := by
  rw [l.append_behind fun e he ↦ ?_]
  swap
  · exact (hes 0 e (head?_eq_getElem? ▸ he)).ge
  refine ⟨h.keys, h.unstable.append ?_, h.pending, h.snap_le, h.applied_le, h.applied_last⟩
  rwa [h.lastIndex_eq, show l.storage.lastIndex + l.unstable.length + 1 =
    l.storage.lastIndex + 1 + l.unstable.length by omega] at hes

theorem commitTo (h : l.Regular) (n : ℕ) : (l.commitTo n).Regular := by
  rw [l.commitTo_eq]
  exact ⟨h.keys, h.unstable, h.pending, h.snap_le, h.applied_le.trans (le_max_left _ _),
    h.applied_last⟩

theorem truncate (h : l.Regular) {s : LSMLogStorage} (hs : LSMLogStorage.Truncates l.storage s)
    (hsnap : s.loadSnapshotMeta.index ≤ l.applied) : { l with storage := s }.Regular := by
  have hlast := hs.lastIndex_eq (hsnap.trans h.applied_last)
  refine ⟨fun he ↦ h.keys (hs.lookup he), ?_, h.pending, hsnap, h.applied_le, ?_⟩
  · rw [hlast]
    exact h.unstable
  · rw [hlast]
    exact h.applied_last

end Regular

/-! ## Logs before a `Ready` cycle -/

/-- The form of a log when a transition is complete: there may be entries or a snapshot of a
leader. -/
structure Persistable (l : RaftLog) : Prop where
  keys : Keyed l.storage
  unstable : ∃ k ≤ l.storage.lastIndex + 1, 1 ≤ k ∧ Contiguous k l.unstable
  snap_le : l.storage.loadSnapshotMeta.index ≤ l.applied
  applied_le : l.applied ≤ l.committed
  pending : l.pendingSnapshot = {} ∧ l.applied ≤ l.storage.lastIndex ∨
    l.pendingSnapshot.isEmpty = false ∧ l.unstable = [] ∧
      l.applied = l.pendingSnapshot.metadata.index ∧ l.committed = l.applied

theorem Regular.persistable (h : l.Regular) : l.Persistable :=
  ⟨h.keys, ⟨_, le_rfl, le_add_left 1 _, h.unstable⟩, h.snap_le, h.applied_le,
    .inl ⟨h.pending, h.applied_last⟩⟩

theorem Persistable.loose (h : l.Persistable) : l.Loose :=
  ⟨h.keys, h.unstable, h.snap_le, h.applied_le, h.pending.imp_left And.left⟩

theorem Loose.persistable (h : l.Loose)
    (hlast : l.pendingSnapshot = {} → l.applied ≤ l.storage.lastIndex) : l.Persistable :=
  ⟨h.keys, h.unstable, h.snap_le, h.applied_le, h.pending.imp_left fun hp ↦ ⟨hp, hlast hp⟩⟩

theorem Persistable.regular (h : l.Persistable) (hu : l.unstable = [])
    (hp : l.hasPendingSnapshot = false) : l.Regular := by
  rcases h.pending with ⟨hpend, happ⟩ | ⟨hpend, -⟩
  · exact ⟨h.keys, hu ▸ .nil _, hpend, h.snap_le, h.applied_le, happ⟩
  · simp [hasPendingSnapshot, hpend] at hp

theorem Regular.appendedLog (h : l.Regular) (hu : l.unstable = []) {m : Message}
    (hm : m.index = 0 ∨ ∃ t, l.term m.index = .ok t) (hc : Contiguous (m.index + 1) m.entries) :
    (appendedLog l m).Persistable ∧ (appendedLog l m).storage = l.storage ∧
      (appendedLog l m).unstable = m.entries := by
  have ha := h.persistable.loose.appendedLog hu h.pending hm hc
  refine ⟨ha.loose.persistable fun _ ↦ ?_, ha.storage, ha.unstable⟩
  rw [ha.applied, ha.storage]
  exact h.applied_last

theorem Regular.restore (h : l.Regular) (hu : l.unstable = []) {snap : Snapshot}
    (hnew : l.committed < snap.metadata.index) :
    (l.restore snap).1.Persistable ∧ (l.restore snap).1.storage = l.storage ∧
      (l.restore snap).1.unstable = [] := by
  obtain ⟨hl, hs, hun, hpend, hne⟩ := h.persistable.loose.restore hu hnew
  refine ⟨hl.persistable fun hp ↦ ?_, hs, hun⟩
  rw [← hpend, hp] at hne
  exact absurd hne (by decide)

/-- What a `Ready` cycle that turns `l` into `l'` does to the log. -/
structure Persisted (l l' : RaftLog) : Prop where
  regular : l'.Regular
  unstable : l'.unstable = []
  lookup : ∀ {k x}, l'.storage.log.lookup k = some x →
    l.storage.log.lookup k = some x ∨ x ∈ l.unstable
  last_le : l.storage.lastIndex ≤ l'.storage.lastIndex
  written : ∀ x ∈ l.unstable, x.index ≤ l'.storage.lastIndex
  committed : l'.committed = l.committed
  snap : l'.storage.loadSnapshotMeta.index =
    if l.hasPendingSnapshot then l.pendingSnapshot.metadata.index
    else l.storage.loadSnapshotMeta.index

theorem Persistable.reads_nextEntries (h : l.Persistable) :
    l.Reads (l.applied + 1) (l.committed + 1) l.nextEntries := h.loose.reads_nextEntries

theorem appliedAfter_spec (es : List Entry) {a b c : ℕ} (hb : a ≤ b) (hc : a ≤ c)
    (h : ∀ x ∈ es, x.index ≤ b ∧ x.index ≤ c) :
    a ≤ appliedAfter a es ∧ appliedAfter a es ≤ b ∧ appliedAfter a es ≤ c := by
  rw [appliedAfter]
  cases hl : es.getLast? with
  | none => exact ⟨le_rfl, hb, hc⟩
  | some last =>
    have := h last (mem_of_getLast? hl)
    exact ⟨le_max_left _ _, max_le hb this.1, max_le hc this.2⟩

/-- The storage `s'` after writing `es` into `s`. -/
structure Written (s : LSMLogStorage) (es : List Entry) (s' : LSMLogStorage) : Prop where
  keys : Keyed s'
  lookup : ∀ {k x}, s'.log.lookup k = some x → s.log.lookup k = some x ∨ x ∈ es
  last_le : s.lastIndex ≤ s'.lastIndex
  written : ∀ x ∈ es, x.index ≤ s'.lastIndex

variable {es : List Entry}

theorem written_appendEntries {s : LSMLogStorage} (hk : Keyed s)
    (hes : ∀ x ∈ es, 1 ≤ x.index) : Written s es (s.appendEntries es) := by
  have hcases := lookup_appendEntries s es
  refine ⟨fun {k x} hx ↦ ?_, fun {k x} hx ↦ ?_, lastIndex_le (fun {k x} hx ↦ ?_) ?_, fun x hx ↦ ?_⟩
  · rcases hcases k with ⟨y, hy, rfl, hlk⟩ | ⟨-, hlk⟩
    · rw [hlk] at hx
      cases hx
      exact ⟨hes _ hy, rfl⟩
    · exact hk (hlk ▸ hx)
  · rcases hcases k with ⟨y, hy, rfl, hlk⟩ | ⟨-, hlk⟩
    · rw [hlk] at hx
      cases hx
      exact .inr hy
    · exact .inl (hlk ▸ hx)
  · rcases hcases k with ⟨y, -, -, hlk⟩ | ⟨-, hlk⟩
    · exact le_lastIndex hlk
    · exact le_lastIndex (hlk.trans hx)
  · exact snap_le_lastIndex (s.appendEntries es)
  · rcases hcases x.index with ⟨y, -, -, hlk⟩ | ⟨hno, -⟩
    · exact le_lastIndex hlk
    · exact absurd rfl (hno x hx)

theorem written_truncate {s s' : LSMLogStorage} (hk : Keyed s)
    (h : LSMLogStorage.Truncates s s') : Written s [] s' :=
  ⟨fun he ↦ hk (h.lookup he), fun he ↦ .inl (h.lookup he), h.lastIndex_le, by simp⟩

theorem Written.congr {s s₁ s₂ : LSMLogStorage} (h : Written s es s₁)
    (hlog : s₂.log = s₁.log) (hmeta : s₂.loadSnapshotMeta = s₁.loadSnapshotMeta) :
    Written s es s₂ := by
  have hlast : s₂.lastIndex = s₁.lastIndex := by
    rw [LSMLogStorage.lastIndex, LSMLogStorage.lastIndex, hlog, hmeta]
  refine ⟨fun {k e} he ↦ h.keys (hlog ▸ he), fun {k x} hx ↦ h.lookup (hlog ▸ hx), ?_, fun x hx ↦ ?_⟩
  · rw [hlast]
    exact h.last_le
  · rw [hlast]
    exact h.written x hx

theorem Loose.written (rn : RawNode) (h : rn.log.Loose) :
    Written rn.log.storage rn.log.unstable (rn.log.storage.persist rn.ready) ∧
      (rn.log.storage.persist rn.ready).loadSnapshotMeta.index ≤ rn.log.applied ∧
      (rn.log.pendingSnapshot ≠ {} →
      rn.log.applied ≤ (rn.log.storage.persist rn.ready).lastIndex) := by
  obtain ⟨k, hk, hk1, hc⟩ := h.unstable
  obtain ⟨hs, ap, hstorage⟩ := rn.log.storage.persist_eq rn.ready
  have hmeta := rn.log.storage.persist_meta rn.ready
  rcases h.pending with hp | ⟨hp, hu, happ, hcom⟩
  · rw [if_pos (ready_snapshot_isEmpty hp)] at hstorage hmeta
    have hw : Written rn.log.storage rn.log.unstable (rn.log.storage.persist rn.ready) := by
      refine (written_appendEntries h.keys fun x hx ↦ ?_).congr (by rw [hstorage]; rfl) hmeta
      exact hk1.trans (hc.index_mem hx).1
    exact ⟨hw, hmeta ▸ h.snap_le, fun hne ↦ absurd hp hne⟩
  · -- the snapshot covers what has been applied
    have hents : rn.ready.entries = [] := hu
    rw [ready_snapshot (.inr hp), if_neg (by simp [hp])] at hstorage hmeta
    rw [hents] at hstorage
    have h0 := Snapshot.isEmpty_eq_false.mp hp
    have ht : LSMLogStorage.Truncates rn.log.storage
        (rn.log.storage.installSnapshot rn.log.pendingSnapshot) :=
      truncates_installSnapshot h0 (happ ▸ h.snap_le)
    have hw : Written rn.log.storage rn.log.unstable (rn.log.storage.persist rn.ready) := by
      rw [hu]
      exact (written_truncate h.keys ht).congr (by rw [hstorage]; rfl) hmeta
    have hlast := (rn.log.storage.persist rn.ready).snap_le_lastIndex
    rw [hmeta, installSnapshot_meta h0] at hlast ⊢
    exact ⟨hw, happ.ge, fun _ ↦ happ.le.trans hlast⟩

theorem Persistable.applied_le_written (rn : RawNode) (h : rn.log.Persistable) :
    rn.log.applied ≤ (rn.log.storage.persist rn.ready).lastIndex := by
  obtain ⟨hw, -, hsnap⟩ := h.loose.written rn
  by_cases hp : rn.log.pendingSnapshot = {}
  · rcases h.pending with ⟨-, happ⟩ | ⟨hne, -⟩
    · exact happ.trans hw.last_le
    · rw [hp] at hne
      exact absurd hne (by decide)
  · exact hsnap hp

end RaftLog

theorem RawNode.persist_snapIndex (rn : RawNode) :
    (rn.log.storage.persist rn.ready).loadSnapshotMeta.index =
      if rn.log.hasPendingSnapshot then rn.log.pendingSnapshot.metadata.index
      else rn.log.storage.loadSnapshotMeta.index := by
  rw [persist_meta]
  cases hp : rn.log.hasPendingSnapshot with
  | false =>
    have : rn.ready.snapshot.isEmpty = true := by simp [ready, hp, Snapshot.isEmpty]
    rw [if_pos this, if_neg (by simp)]
  | true =>
    have hpend : rn.log.pendingSnapshot.isEmpty = false := by
      simpa [hasPendingSnapshot] using hp
    rw [ready_snapshot (.inr hpend), if_neg (by simp [hpend]), if_pos rfl,
      installSnapshot_meta (Snapshot.isEmpty_eq_false.mp hpend)]

/-- **A `Ready` cycle leaves a regular log**, with nothing unstable. -/
theorem RawNode.handleReady_persisted (rn : RawNode) (h : rn.log.Persistable) :
    RaftLog.Persisted rn.log rn.handleReady.log := by
  obtain ⟨k, hk, hk1, hc⟩ := h.unstable
  have hreads := h.reads_nextEntries
  have hpend : rn.log.pendingSnapshot = {} ∨ rn.log.pendingSnapshot.isEmpty = false :=
    h.pending.imp (fun h ↦ h.1) fun h ↦ h.1
  obtain ⟨off, hlog⟩ := rn.handleReady_log hc hpend
  set s' := rn.log.storage.persist rn.ready with hs'
  obtain ⟨⟨hkeys, hlookup, hlast, hwritten⟩, hsnap, -⟩ := h.loose.written rn
  have happ := h.applied_le_written rn
  have hafter := appliedAfter_spec rn.log.nextEntries h.applied_le happ fun x hx ↦ by
    refine ⟨Nat.lt_succ_iff.mp (hreads.lt x hx), ?_⟩
    rcases hreads.source x hx with hx | hx
    · exact (le_lastIndex hx).trans hlast
    · exact hwritten x hx
  rw [hlog]
  exact ⟨⟨hkeys, .nil _, rfl, hsnap.trans hafter.1, hafter.2.1, hafter.2.2⟩, rfl, hlookup, hlast,
    hwritten, rfl, rn.persist_snapIndex⟩

/-! ## Transitions -/

/-- The entries of an append are numbered from the index after the probed one. -/
def Message.WellNumbered (m : Message) : Prop :=
  m.type = .app → Contiguous (m.index + 1) m.entries

/-- `l'` is `l` with further entries of the node itself, or truncated, or with more committed. -/
structure RaftLog.Grows (l l' : RaftLog) : Prop where
  regular : l'.Regular
  lookup : ∀ {k x}, l'.storage.log.lookup k = some x → l.storage.log.lookup k = some x
  last_eq : l'.storage.lastIndex = l.storage.lastIndex
  snap_le : l.storage.loadSnapshotMeta.index ≤ l'.storage.loadSnapshotMeta.index
  commit_le : l.committed ≤ l'.committed

namespace RaftLog.Grows

variable {l l' l₁ l₂ l₃ : RaftLog}

theorem refl (h : l.Regular) : l.Grows l := ⟨h, id, rfl, le_rfl, le_rfl⟩

theorem trans (h : l₁.Grows l₂) (h' : l₂.Grows l₃) : l₁.Grows l₃ :=
  ⟨h'.regular, fun hx ↦ h.lookup (h'.lookup hx), h'.last_eq.trans h.last_eq,
    h.snap_le.trans h'.snap_le, h.commit_le.trans h'.commit_le⟩

theorem append (h : l.Regular) {es : List Entry} (hes : Contiguous (l.lastIndex + 1) es) :
    l.Grows (l.append es) := by
  have hs := l.append_storage es
  exact ⟨h.append hes, fun hx ↦ hs ▸ hx, by rw [hs], by rw [hs], (l.append_committed es).ge⟩

theorem commitTo (h : l.Regular) (n : ℕ) : l.Grows (l.commitTo n) := by
  have hr := h.commitTo n
  rw [l.commitTo_eq] at hr ⊢
  exact ⟨hr, id, rfl, le_rfl, le_max_left _ _⟩

theorem truncate (h : l.Regular) {s : LSMLogStorage} (hs : LSMLogStorage.Truncates l.storage s)
    (hsnap : s.loadSnapshotMeta.index ≤ l.applied) : l.Grows { l with storage := s } :=
  ⟨h.truncate hs hsnap, hs.lookup, hs.lastIndex_eq (hsnap.trans h.applied_last), hs.snap_le, le_rfl⟩

end RaftLog.Grows

namespace RawNode

variable {sent : Message → Prop} {ok : RawNode → Message → Prop} {rn rn' : RawNode}

theorem createSnapshot_truncates (h : rn.log.storage.loadSnapshotMeta.index ≤ rn.log.applied)
    (data : Bytes) :
    ∃ s, rn.createSnapshot data = rn.setStorage s ∧ LSMLogStorage.Truncates rn.log.storage s ∧
      s.loadSnapshotMeta.index ≤ rn.log.applied := by
  have hrefl : LSMLogStorage.Truncates rn.log.storage rn.log.storage :=
    ⟨fun h ↦ h, fun h _ ↦ h, le_rfl⟩
  rw [createSnapshot]
  split
  · exact ⟨rn.log.storage, rfl, hrefl, h⟩
  · rename_i t ht
    split
    · exact ⟨rn.log.storage, rfl, hrefl, h⟩
    · rename_i h0
      have hpos : 0 < rn.log.applied := pos_of_ne_zero h0
      refine ⟨_, rfl, truncates_saveSnapshot hpos h (compactableIndex_le rn rn.log.applied), ?_⟩
      rw [compact_meta, saveSnapshot_meta hpos]

theorem createSnapshot_grows (h : rn.log.Regular) (data : Bytes) :
    rn.log.Grows (rn.createSnapshot data).log := by
  obtain ⟨s, hs, ht, hle⟩ := createSnapshot_truncates h.snap_le data
  rw [hs]
  exact .truncate h ht hle

theorem compact_grows (h : rn.log.Regular) {n : ℕ}
    (hn : n ≤ rn.log.storage.loadSnapshotMeta.index) :
    rn.log.Grows (rn.setStorage (rn.log.storage.compact n)).log :=
  .truncate h (truncates_compact hn) (by rw [compact_meta]; exact h.snap_le)

theorem propEntries_contiguous (rn : RawNode) (es : List Entry) :
    Contiguous (rn.log.lastIndex + 1) (rn.propEntries es) := by
  intro i x hx
  rw [(propEntries_getElem? rn es hx).2]
  omega

theorem Move.grows (h : Move sent ok rn rn') (hr : rn.log.Regular) : rn.log.Grows rn'.log := by
  cases h with
  | win hst hq =>
    exact .append hr (.cons rfl (.nil _))
  | grant m hm hty hT hg hok =>
    rw [grantVote, if_pos hty]
    exact .refl hr
  | propose es hst => exact .append hr (propEntries_contiguous rn es)
  | commit n hst hn hc ht hq => exact .commitTo hr n
  | heartbeat m hm hty hT => exact .commitTo hr _
  | snapshot data => exact createSnapshot_grows hr data
  | compact => exact compact_grows hr (compactableIndex_le rn _)
  | _ => exact .refl hr

theorem Outgoing.wellNumbered {m : Message} (h : rn.Outgoing m) (hr : rn.log.Regular) :
    m.WellNumbered := by
  intro hty
  cases h with
  | harmless h => rcases h with h | h | h | ⟨h, -⟩ | ⟨h, -⟩ <;> rw [h] at hty <;> cases hty
  | vote dst h => cases hty
  | heartbeat dst h => cases hty
  | snap dst h hsnap => cases hty
  | append dst h hnext =>
    change Contiguous (rn.nextIndex.get dst 0 - 1 + 1)
      (rn.log.entries (rn.nextIndex.get dst 0) (rn.log.lastIndex + 1))
    by_cases h0 : rn.nextIndex.get dst 0 = 0
    · rw [h0, entries_zero hr.keys]
      exact .nil _
    · rw [Nat.sub_add_cancel (Nat.pos_of_ne_zero h0)]
      exact (reads_entries hr.keys le_rfl hr.unstable).contiguous

theorem Move.wellNumbered (h : Move sent ok rn rn') (hr : rn.log.Regular)
    (hm : ∀ m ∈ rn.msgs, m.WellNumbered) : ∀ m ∈ rn'.msgs, m.WellNumbered := by
  cases h with
  | grant m hs hty hT hg hok =>
    rw [grantVote, if_pos hty]
    intro m' hm'
    rcases mem_append.mp hm' with hm' | hm'
    · exact hm m' hm'
    · rw [mem_singleton.mp hm']
      intro hty'
      rw [voteRespType, if_neg (by rw [hty]; decide)] at hty'
      cases hty'
  | send m ho =>
    intro m' hm'
    rcases mem_append.mp hm' with hm' | hm'
    · exact hm m' hm'
    · rw [mem_singleton.mp hm']
      exact ho.wellNumbered hr
  | snapshot data =>
    obtain ⟨s, hs, -⟩ := rn.createSnapshot_eq data
    rw [hs]
    exact hm
  | _ => exact hm

theorem Move.term_le (h : Move sent ok rn rn') : rn.term ≤ rn'.term := by
  cases h with
  | campaign rnd hst => exact le_succ _
  | grant m hm hty hT hg hok =>
    rw [grantVote, if_pos hty]
    exact le_rfl
  | snapshot data =>
    obtain ⟨s, hs, -⟩ := rn.createSnapshot_eq data
    rw [hs]
    exact le_rfl
  | _ => exact le_rfl

theorem Begins.term_le (h : Begins rn rn') : rn.term ≤ rn'.term := by
  induction h with
  | refl => exact le_rfl
  | tail _ hb ih =>
    refine ih.trans ?_
    cases hb with
    | timers lead recent e h t => exact le_rfl
    | follow rnd T lead hT => exact hT

theorem Begins.msgs (h : Begins rn rn') : rn'.msgs = rn.msgs := by
  induction h with
  | refl => rfl
  | tail _ hb ih =>
    refine Eq.trans ?_ ih
    cases hb <;> rfl

theorem Moves.grows (h : Moves sent ok rn rn') (hr : rn.log.Regular)
    (hm : ∀ m ∈ rn.msgs, m.WellNumbered) :
    rn.log.Grows rn'.log ∧ (∀ m ∈ rn'.msgs, m.WellNumbered) ∧ rn.term ≤ rn'.term := by
  induction h with
  | refl => exact ⟨.refl hr, hm, le_rfl⟩
  | tail _ hmove ih =>
    obtain ⟨hg, hn, ht⟩ := ih
    exact ⟨hg.trans (hmove.grows hg.regular), hmove.wellNumbered hg.regular hn,
      ht.trans hmove.term_le⟩

/-- What a transition of a node whose log has nothing unstable does before the `Ready` cycle, when
the entries that `accepted` describes are those of an append it accepts. -/
structure Acted (accepted : Entry → Prop) (rn rn' : RawNode) : Prop where
  persistable : rn'.log.Persistable
  numbered : ∀ m ∈ rn'.msgs, m.WellNumbered
  lookup : ∀ {k x}, rn'.log.storage.log.lookup k = some x → rn.log.storage.log.lookup k = some x
  last_eq : rn'.log.storage.lastIndex = rn.log.storage.lastIndex
  snap_le : rn.log.storage.loadSnapshotMeta.index ≤ rn'.log.storage.loadSnapshotMeta.index
  commit_le : rn.log.committed ≤ rn'.log.committed
  fresh : ∀ x ∈ rn'.log.unstable, rn.log.storage.lastIndex < x.index ∨ accepted x

variable {accepted : Entry → Prop}

theorem Acted.of_grows (hg : rn.log.Grows rn'.log) (hn : ∀ m ∈ rn'.msgs, m.WellNumbered) :
    Acted accepted rn rn' :=
  ⟨hg.regular.persistable, hn, hg.lookup, hg.last_eq, hg.snap_le, hg.commit_le, fun x hx ↦ by
    have := (hg.regular.unstable.index_mem hx).1
    rw [hg.last_eq] at this
    exact .inl this⟩

theorem Acted.send (h : Acted accepted rn rn') {m : Message} (hty : m.type ≠ .app) :
    Acted accepted rn (rn'.send m) := by
  refine ⟨h.persistable, fun m' hm' ↦ ?_, h.lookup, h.last_eq, h.snap_le, h.commit_le, h.fresh⟩
  rcases mem_append.mp hm' with hm' | hm'
  · exact h.numbered m' hm'
  · rw [mem_singleton.mp hm']
    exact fun h ↦ absurd h hty

/-- The node accepts the append `m`: its term is not old and the entry before it is known. -/
def Accepts (rn : RawNode) (m : Message) : Prop :=
  m.type = .app ∧ rn.term ≤ m.term ∧ rn.matchesPrev m = true

instance (rn : RawNode) (m : Message) : Decidable (rn.Accepts m) :=
  inferInstanceAs (Decidable (_ ∧ _ ∧ _))

theorem appendedLog_committed_le (l : RaftLog) (m : Message) :
    l.committed ≤ (appendedLog l m).committed := by
  have happ : (if m.entries = [] then l else l.append m.entries).committed = l.committed := by
    split
    · rfl
    · exact l.append_committed m.entries
  dsimp only [appendedLog]
  generalize (if m.entries = [] then l else l.append m.entries) = l' at happ ⊢
  rw [← happ, commitTo_eq]
  split
  · exact le_max_left _ _
  · exact le_rfl

/-- The end of a transition. The log it acts upon is the one the transition started from. -/
theorem Finish.acted {r₁ : RawNode}
    (hf : Finish sent (fun l _ ↦ l = rn.log) r₁ rn') (hr : rn.log.Regular)
    (hu : rn.log.unstable = []) (hs : ∀ m, sent m → m.WellNumbered) (hterm : rn.term ≤ r₁.term)
    (h : Acted (fun x ↦ ∃ m, sent m ∧ rn.Accepts m ∧ x ∈ m.entries) rn r₁) :
    Acted (fun x ↦ ∃ m, sent m ∧ rn.Accepts m ∧ x ∈ m.entries) rn rn' := by
  cases hf with
  | keep => exact h
  | accept m hm hty hT hst hprev hok =>
    have hknown : m.index = 0 ∨ ∃ t, rn.log.term m.index = .ok t := by
      rw [matchesPrev, hok, Bool.or_eq_true, beq_iff_eq, beq_iff_eq] at hprev
      exact hprev.imp (fun h ↦ h) fun h ↦ ⟨_, h⟩
    have hacc : rn.Accepts m := ⟨hty, hT ▸ hterm, by rwa [matchesPrev, ← hok]⟩
    obtain ⟨hp, hst', hun⟩ := hr.appendedLog hu hknown (hs m hm hty)
    refine Acted.send ?_ (by simp)
    rw [hok]
    refine ⟨hp, h.numbered, fun hx ↦ ?_, ?_, ?_, appendedLog_committed_le _ _, fun x hx ↦ ?_⟩
    · rwa [hst'] at hx
    · rw [hst']
    · rw [hst']
    · rw [hun] at hx
      exact .inr ⟨m, hm, hacc, hx⟩
  | restore m hm hty hT hst hnew hok =>
    rw [hok] at hnew
    obtain ⟨hp, hst', hun⟩ := hr.restore hu hnew
    refine Acted.send ?_ (by simp)
    rw [hok]
    refine ⟨hp, h.numbered, fun hx ↦ ?_, ?_, ?_, ?_, fun x hx ↦ ?_⟩
    · rwa [hst'] at hx
    · rw [hst']
    · rw [hst']
    · rw [RaftLog.restore, if_neg (not_le.mpr hnew)]
      exact hnew.le
    · rw [hun] at hx
      cases hx
  | covered m hm hty hT => exact h.send (by simp)

theorem advanceCommitFrom_unstable (rn : RawNode) (n : ℕ) :
    (rn.advanceCommitFrom n).log.unstable = rn.log.unstable := by
  obtain ⟨k, -, heq⟩ := rn.advanceCommitFrom_eq_commitTo n
  rw [heq, commitTo_eq]

/-- A leader appends what is proposed to it behind its last index. -/
theorem propose_unstable (rn : RawNode) (rnd : ℕ) (data : Option Bytes) (hst : rn.state = .leader)
    (hu : rn.log.unstable = []) :
    (rn.propose rnd data).log.unstable =
      [{ term := rn.term, index := rn.log.lastIndex + 1, data := data }] := by
  rw [propose_eq, stepProp, if_neg (not_ne_iff.mpr hst)]
  rw [maybeAdvanceCommit, advanceCommitFrom_unstable, bcastAppend,
    forPeers_keeps log sendAppend_log]
  simp [propEntries, append, hu]

end RawNode

/-- **Every event keeps the form of the log**, up to the `Ready` cycle. The new unstable entries lie
behind the persisted ones or come from the append that was delivered. -/
theorem Action.apply_acted {rn : RawNode} (a : Action) (hr : rn.log.Regular)
    (hu : rn.log.unstable = []) (hm : ∀ m ∈ rn.msgs, m.WellNumbered)
    (ha : ∀ m rnd, a = .deliver m rnd → m.WellNumbered) :
    RawNode.Acted (fun x ↦ ∃ m, (∃ rnd, a = .deliver m rnd) ∧ rn.Accepts m ∧ x ∈ m.entries) rn
      (a.apply rn) := by
  obtain ⟨rn₀, rn₁, hb, hmv, hf⟩ : ∃ rn₀ rn₁, RawNode.Begins rn rn₀ ∧
      RawNode.Moves (fun m ↦ ∃ rnd, a = .deliver m rnd) (fun _ _ ↦ True) rn₀ rn₁ ∧
      RawNode.Finish (fun m ↦ ∃ rnd, a = .deliver m rnd) (fun l _ ↦ l = rn.log) rn₁ (a.apply rn) :=
    a.apply_moves (fun m rnd h ↦ ⟨rnd, h⟩) (fun _ _ _ _ _ ↦ trivial) (fun _ _ _ ↦ rfl)
  obtain ⟨hg, hn, ht⟩ := hmv.grows (hb.log ▸ hr) (hb.msgs ▸ hm)
  rw [hb.log] at hg
  exact hf.acted hr hu (fun m ⟨rnd, h⟩ ↦ ha m rnd h) (hb.term_le.trans ht) (.of_grows hg hn)

end DucklingDB.Raft
