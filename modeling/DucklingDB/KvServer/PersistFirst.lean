import DucklingDB.KvServer.Install
import DucklingDB.KvServer.Replica
import DucklingDB.Raft.InOrder
import DucklingDB.Raft.Outbox

/-!
# Persisting before sending

`handleReady` writes the hard state, a received snapshot and the new entries, then sends the
messages, and then calls `Advance`. Each of the three writes can fail. The error is printed, and the
cycle goes on: the messages are sent as they are, and `Advance` takes everything for persisted.

`PersistedFirst` is the contract of `Ready` for one cycle, and `persistedFirst_iff` says in which
runs it is kept in every cycle: a failed write is harmless only if it was not needed.
-/

namespace DucklingDB.KvServer

open Mvcc Raft Bytes RawNode RaftLog LSMLogStorage List Option

/-- The errors in one cycle of `handleReady`. -/
structure Failures where
  /-- `SaveHardState` fails. -/
  hardState : Bool := false
  /-- `installSnapshot` fails at the write with this number. -/
  install : Option ℕ := none
  /-- `AppendEntries` fails at the entry with this number. -/
  append : Option ℕ := none

/-- What is written before the error. -/
def upTo {α : Type} (xs : List α) : Option ℕ → List α
  | none => xs
  | some n => xs.take n

/-- The applied index after the committed entries. -/
def saveLast (s : LSMLogStorage) (es : List Entry) : LSMLogStorage :=
  match es.getLast? with
  | none => s
  | some last => s.saveApplied last.index

/-- The storage has an entry with the index, or a snapshot that reaches it. -/
def Reaches (s : LSMLogStorage) (i : ℕ) : Prop :=
  i ≤ s.loadSnapshotMeta.index ∨ (s.log.lookup i).isSome = true

section Cycle

variable (rn : RawNode) (e : Engine) (f : Failures)

/-- The disk when the hard state has been saved, or not. -/
def savedDisk : Durable where
  storage := if rn.ready.hardState.isEmpty || f.hardState then rn.log.storage
    else rn.log.storage.saveHardState rn.ready.hardState
  engine := e

/-- The disk when a snapshot has been installed, or a part of it. -/
def installedDisk : Durable :=
  if rn.ready.snapshot.isEmpty then savedDisk rn e f
  else (savedDisk rn e f).writeAll (upTo (installWrites (savedDisk rn e f) rn.ready.snapshot)
    f.install)

/-- The storage when the messages are sent. -/
def sendingStorage : LSMLogStorage :=
  (installedDisk rn e f).storage.appendEntries (upTo rn.ready.entries f.append)

/-- `installSnapshot` returns an error: a write fails, or the data cannot be applied. -/
def installFails : Bool :=
  !rn.ready.snapshot.isEmpty && ((installEngine e rn.ready.snapshot.data).2.isSome ||
    f.install.any (· < (installWrites (savedDisk rn e f) rn.ready.snapshot).length))

/-- The end of `handleReady`: the applied index is saved, and then `Advance`. -/
def handleReadyFailing : RawNode :=
  (rn.setStorage (saveLast (sendingStorage rn e f) rn.ready.committedEntries)).advance rn.ready

/-- What a message says about the hard state is persisted, and so are the entries and the snapshot
that it acknowledges, those of earlier cycles included, and the entries that `Advance` marks as
stable. -/
structure PersistedFirst : Prop where
  vouched : ∀ m ∈ rn.ready.messages, m.Vouches (sendingStorage rn e f).initialState
  entries : ∀ m ∈ rn.ready.messages, m.type = .appResp → m.reject = false →
    ∀ x ∈ rn.ready.entries, x.index ≤ m.index → (sendingStorage rn e f).log.lookup x.index = some x
  snapshot : ∀ m ∈ rn.ready.messages, m.type = .appResp → m.reject = false →
    rn.ready.snapshot.metadata.index ≤ m.index → installFails rn e f = false
  acked : ∀ m ∈ rn.ready.messages, m.type = .appResp → m.reject = false →
    ∀ i, 0 < i → i ≤ m.index → Reaches (sendingStorage rn e f) i
  stable : ∀ x ∈ rn.log.unstable, x ∉ (handleReadyFailing rn e f).log.unstable →
    (sendingStorage rn e f).log.lookup x.index = some x

/-- What failed was not needed: the messages say nothing that the storage did not have before, there
was no snapshot, and the entries that could not be written were there. What is acknowledged is in
the storage or is written in this cycle. -/
structure Tolerated : Prop where
  hardState : f.hardState = false ∧ rn.ready.hardState.isEmpty = false ∨
    ∀ m ∈ rn.ready.messages, m.Vouches rn.log.storage.initialState
  install : installFails rn e f = false
  append : ∀ n, f.append = some n → ∀ x ∈ rn.ready.entries.drop n,
    rn.log.storage.log.lookup x.index = some x
  acked : ∀ m ∈ rn.ready.messages, m.type = .appResp → m.reject = false → ∀ i, 0 < i → i ≤ m.index →
    Reaches rn.log.storage i ∨ i ≤ rn.ready.snapshot.metadata.index ∨ ∃ x ∈ rn.ready.entries,
    x.index = i

end Cycle

/-! ## The disk -/

section Disk

variable {rn : RawNode} {e : Engine} {f : Failures} {snap : Snapshot}

theorem writeAll_hardState (d : Durable) (ws : List DiskWrite) :
    (d.writeAll ws).storage.hardState = d.storage.hardState := by
  induction ws generalizing d with
  | nil => rfl
  | cons x ws ih =>
    refine (ih (d.write x)).trans ?_
    cases x <;> rfl

theorem sendingStorage_initialState : (sendingStorage rn e f).initialState =
      if rn.ready.hardState.isEmpty || f.hardState then rn.log.storage.initialState
      else rn.ready.hardState := by
  have hsaved : (installedDisk rn e f).storage.hardState =
      (savedDisk rn e f).storage.hardState := by
    rw [installedDisk]
    split
    · rfl
    · exact writeAll_hardState _ _
  have hstate : (sendingStorage rn e f).initialState = (savedDisk rn e f).storage.initialState :=
    congrArg (fun hs : Option HardState ↦ hs.getD {}) hsaved
  rw [hstate, savedDisk]
  split <;> rfl

/-- What a part of the writes of `installSnapshot` leaves. -/
structure Installing (snap : Snapshot) (s s' : LSMLogStorage) : Prop where
  lookup : ∀ {k x}, s'.log.lookup k = some x → s.log.lookup k = some x
  snapMeta : s'.loadSnapshotMeta = s.loadSnapshotMeta ∨ s'.loadSnapshotMeta = snap.metadata

theorem Installing.write {s : LSMLogStorage} {d : Durable}
    (h : Installing snap s d.storage) {x : DiskWrite}
    (hx : ∀ md, x = .snapshotMeta md → md = snap.metadata) :
    Installing snap s (d.write x).storage := by
  cases x with
  | snapshotMeta md => exact ⟨h.lookup, .inr (hx md rfl)⟩
  | dropEntry i =>
    refine ⟨fun {k y} hy ↦ h.lookup ?_, h.snapMeta⟩
    by_cases hk : k = i
    · have hy : (AList.erase i d.storage.log).lookup k = some y := hy
      rw [hk, AList.lookup_erase] at hy
      cases hy
    · rwa [← AList.lookup_erase_ne hk]
  | _ => exact ⟨h.lookup, h.snapMeta⟩

theorem mem_installWrites {d : Durable} {md : SnapshotMetadata}
    (h : .snapshotMeta md ∈ installWrites d snap) : md = snap.metadata := by
  have hengine : ∀ md, .snapshotMeta md ∉ engineWrites d snap := by
    intro md hmem
    rcases mem_append.mp hmem with hmem | hmem <;>
      obtain ⟨x, -, hx⟩ := mem_map.mp hmem <;> cases hx
  rw [installWrites] at h
  split at h
  · exact absurd h (hengine md)
  · rcases mem_append.mp h with h | h
    · rcases mem_append.mp h with h | h
      · exact absurd h (hengine md)
      · simp at h
    · rcases mem_cons.mp h with h | h
      · exact DiskWrite.snapshotMeta.inj h
      · obtain ⟨i, -, hi⟩ := mem_map.mp h
        cases hi

theorem upTo_subset {α : Type} (xs : List α) (n : Option ℕ) : upTo xs n ⊆ xs := by
  cases n with
  | none => exact List.Subset.refl xs
  | some n => exact take_subset n xs

theorem upTo_of_le {α : Type} (xs : List α) {n : Option ℕ} (h : n.any (· < xs.length) = false) :
    upTo xs n = xs := by
  cases n with
  | none => rfl
  | some n =>
    rw [any_some, decide_eq_false_iff_not, not_lt] at h
    exact take_of_length_le h

section

variable (hne : rn.ready.snapshot.isEmpty = false) (hok : installFails rn e f = false)
include hne hok

theorem installedDisk_eq : (installedDisk rn e f) =
      { storage := (savedDisk rn e f).storage.installSnapshot rn.ready.snapshot
        engine := (installEngine e rn.ready.snapshot.data).1 } := by
  rw [installFails, hne, Bool.not_false, Bool.true_and, Bool.or_eq_false_iff] at hok
  have hidx : rn.ready.snapshot.metadata.index ≠ 0 := beq_eq_false_iff_ne.mp hne
  have happlied : (installEngine (savedDisk rn e f).engine rn.ready.snapshot.data).2 = none :=
    isSome_eq_false_iff.mp hok.1 |> isNone_iff_eq_none.mp
  rw [installedDisk, hne, if_neg Bool.false_ne_true, upTo_of_le _ hok.2,
    writeAll_installWrites _ hne hidx, if_pos happlied]
  rfl

theorem installedDisk_meta :
    (installedDisk rn e f).storage.loadSnapshotMeta = rn.ready.snapshot.metadata := by
  rw [installedDisk_eq hne hok]
  exact installSnapshot_meta (Snapshot.isEmpty_eq_false.mp hne)

end

theorem installing_installedDisk :
    Installing rn.ready.snapshot rn.log.storage (installedDisk rn e f).storage := by
  have hsaved : Installing rn.ready.snapshot rn.log.storage (savedDisk rn e f).storage := by
    rw [savedDisk]
    split <;> exact ⟨id, .inl rfl⟩
  have hall : ∀ (ws : List DiskWrite) (d : Durable),
      (∀ md, .snapshotMeta md ∈ ws → md = rn.ready.snapshot.metadata) →
      Installing rn.ready.snapshot rn.log.storage d.storage →
      Installing rn.ready.snapshot rn.log.storage (d.writeAll ws).storage := by
    intro ws
    induction ws with
    | nil => exact fun d _ hd ↦ hd
    | cons x ws ih =>
      intro d hws hd
      refine ih (d.write x) (fun md hmem ↦ hws md (.tail _ hmem)) (hd.write fun md hx ↦ ?_)
      exact hws md (hx ▸ mem_cons_self)
  rw [installedDisk]
  split
  · exact hsaved
  · refine hall _ _ (fun md hmem ↦ ?_) hsaved
    exact mem_installWrites (upTo_subset _ _ hmem)

variable {es : List Entry}

theorem Contiguous.eq_of_index {k : ℕ} (h : Contiguous k es) {x y : Entry}
    (hx : x ∈ es) (hy : y ∈ es) (hxy : x.index = y.index) : x = y := by
  obtain ⟨i, hi⟩ := getElem?_of_mem hx
  obtain ⟨j, hj⟩ := getElem?_of_mem hy
  have hij : i = j := by
    have hxi := h i x hi
    have hyj := h j y hj
    omega
  rw [hij, hj] at hi
  exact (Option.some.inj hi).symm

/-- What is written before the error can be read back, and the rest is as it was. -/
theorem lookup_append_upTo {k : ℕ} (hc : Contiguous k es) (s : LSMLogStorage)
    (n : Option ℕ) {x : Entry} (hx : x ∈ es) :
    (x ∈ upTo es n → (s.appendEntries (upTo es n)).log.lookup x.index = some x) ∧ (x ∉ upTo es n →
        (s.appendEntries (upTo es n)).log.lookup x.index = s.log.lookup x.index) := by
  rcases lookup_appendEntries s (upTo es n) x.index with
    ⟨y, hy, hidx, hlook⟩ | ⟨hne, hlook⟩
  · obtain rfl : y = x := Contiguous.eq_of_index hc (upTo_subset _ _ hy) hx hidx
    exact ⟨fun _ ↦ hlook, fun hmem ↦ absurd hy hmem⟩
  · exact ⟨fun hmem ↦ absurd rfl (hne x hmem), fun _ ↦ hlook⟩

theorem mem_drop_iff_notMem_upTo {k n : ℕ} (hc : Contiguous k es) {x : Entry}
    (hx : x ∈ es) : x ∈ es.drop n ↔ x ∉ upTo es (some n) := by
  constructor
  · intro hdrop htake
    have h₁ := (hc.drop n).index_mem hdrop
    have h₂ := (hc.take n).index_mem htake
    rw [length_take] at h₂
    omega
  · intro htake
    rw [← take_append_drop n es] at hx
    exact (mem_append.mp hx).resolve_left htake

variable (hl : rn.log.Loose)
include hl

/-- A cycle with entries has no snapshot. -/
theorem lookup_sendingStorage {x : Entry} (hx : x ∈ rn.ready.entries) :
    (x ∈ upTo rn.ready.entries f.append → (sendingStorage rn e f).log.lookup x.index = some x) ∧
      (x ∉ upTo rn.ready.entries f.append →
        (sendingStorage rn e f).log.lookup x.index = rn.log.storage.log.lookup x.index) := by
  obtain ⟨k, -, -, hc⟩ := hl.unstable
  have hsnap : rn.ready.snapshot.isEmpty = true := by
    rcases hl.pending with hp | ⟨-, hu, -⟩
    · exact ready_snapshot_isEmpty hp
    · have hx : x ∈ rn.log.unstable := hx
      rw [hu] at hx
      cases hx
  have hlog : (installedDisk rn e f).storage.log = rn.log.storage.log := by
    rw [installedDisk, if_pos hsnap, savedDisk]
    split <;> rfl
  have hentries : Contiguous k rn.ready.entries := hc
  rw [← hlog]
  exact lookup_append_upTo hentries _ _ hx

theorem installedDisk_snap_le :
    rn.log.storage.loadSnapshotMeta.index ≤ (installedDisk rn e f).storage.loadSnapshotMeta.index ∧
      (installedDisk rn e f).storage.loadSnapshotMeta.index ≤ rn.log.applied := by
  rcases hl.pending with hp | ⟨hp, -, happ, -⟩
  · have hrd := ready_snapshot_isEmpty hp
    have hmeta : (installedDisk rn e f).storage.loadSnapshotMeta =
        rn.log.storage.loadSnapshotMeta := by
      rw [installedDisk, if_pos hrd, savedDisk]
      split <;> rfl
    rw [hmeta]
    exact ⟨le_rfl, hl.snap_le⟩
  · have hrd := ready_snapshot (.inr hp)
    rcases installing_installedDisk.snapMeta with hmeta | hmeta
    · rw [hmeta]
      exact ⟨le_rfl, hl.snap_le⟩
    · rw [hmeta, hrd, ← happ]
      exact ⟨hl.snap_le, le_rfl⟩

omit hl in
/-- What the storage reaches when the messages are sent, it reached before or was to be written. -/
theorem reaches_of_sending {i : ℕ} (h : Reaches (sendingStorage rn e f) i) :
    Reaches rn.log.storage i ∨ i ≤ rn.ready.snapshot.metadata.index ∨
      ∃ x ∈ rn.ready.entries, x.index = i := by
  have hinst : Installing rn.ready.snapshot rn.log.storage (installedDisk rn e f).storage :=
    installing_installedDisk
  rcases h with hle | hsome
  · have hle : i ≤ (installedDisk rn e f).storage.loadSnapshotMeta.index := hle
    rcases hinst.snapMeta with hmeta | hmeta
    · exact .inl (.inl (hmeta ▸ hle))
    · exact .inr (.inl (hmeta ▸ hle))
  · rcases lookup_appendEntries (installedDisk rn e f).storage (upTo rn.ready.entries f.append)
      i with
      ⟨x, hx, hidx, -⟩ | ⟨-, hlook⟩
    · exact .inr (.inr ⟨x, upTo_subset _ _ hx, hidx⟩)
    · rw [sendingStorage, hlook] at hsome
      obtain ⟨x, hx⟩ := isSome_iff_exists.mp hsome
      exact .inl (.inr (by rw [hinst.lookup hx, isSome_some]))

/-- And if nothing of that was lost, it reaches all of it. -/
theorem reaches_sending (hok : installFails rn e f = false)
    (hthere : ∀ x ∈ rn.ready.entries, (sendingStorage rn e f).log.lookup x.index = some x) {i : ℕ}
    (hi : 0 < i) (h : Reaches rn.log.storage i ∨ i ≤ rn.ready.snapshot.metadata.index ∨
      ∃ x ∈ rn.ready.entries, x.index = i) : Reaches (sendingStorage rn e f) i := by
  have hmono := (installedDisk_snap_le (e := e) (f := f) hl).1
  have hsnap : i ≤ rn.ready.snapshot.metadata.index → Reaches (sendingStorage rn e f) i := by
    intro hle
    have hne : rn.ready.snapshot.isEmpty = false := by
      rw [Snapshot.isEmpty_eq_false]
      omega
    exact .inl (hle.trans (installedDisk_meta hne hok ▸ le_rfl))
  rcases h with (hle | hsome) | hle | ⟨x, hx, rfl⟩
  · exact .inl (hle.trans hmono)
  · by_cases hle : i ≤ rn.ready.snapshot.metadata.index
    · exact hsnap hle
    · -- the entry is not compacted away, and may be written over
      have hsaved : (savedDisk rn e f).storage.log = rn.log.storage.log := by
        rw [savedDisk]
        split <;> rfl
      have hkept : ((installedDisk rn e f).storage.log.lookup i).isSome = true := by
        cases hne : rn.ready.snapshot.isEmpty with
        | true => rwa [installedDisk, if_pos hne, hsaved]
        | false =>
          rw [installedDisk_eq hne hok, LSMLogStorage.installSnapshot, lookup_compact,
            if_neg fun h ↦ hle h.1, LSMLogStorage.saveSnapshot, hne]
          rwa [← hsaved] at hsome
      refine .inr ?_
      rcases lookup_appendEntries (installedDisk rn e f).storage (upTo rn.ready.entries f.append)
        i with
        ⟨x, -, -, hlook⟩ | ⟨-, hlook⟩
      · rw [sendingStorage, hlook, isSome_some]
      · rw [sendingStorage, hlook, hkept]
  · exact hsnap hle
  · exact .inr (by rw [hthere x hx, isSome_some])

theorem handleReadyFailing_log : ∃ s off, (handleReadyFailing rn e f).log =
      { storage := s, unstable := [], offset := off, committed := rn.log.committed
        applied := appliedAfter rn.log.applied rn.log.nextEntries, pendingSnapshot := {} } ∧
      s.log = (sendingStorage rn e f).log ∧
      s.loadSnapshotMeta = (sendingStorage rn e f).loadSnapshotMeta := by
  obtain ⟨k, -, -, hc⟩ := hl.unstable
  have hsnap : rn.ready.snapshot.isEmpty = true → rn.log.pendingSnapshot = {} := by
    intro h
    rcases hl.pending with hp | ⟨hp, -⟩
    · exact hp
    · simp [ready, hasPendingSnapshot, hp] at h
  have hadvance : ∀ s : LSMLogStorage, ∃ off, advanceLog { rn.log with storage := s } rn.ready =
      { storage := s, unstable := [], offset := off, committed := rn.log.committed
        applied := appliedAfter rn.log.applied rn.log.nextEntries, pendingSnapshot :=
        {} } := fun s ↦
    advanceLog_eq (l := { rn.log with storage := s }) hc rfl hsnap
  obtain ⟨off, hlog⟩ := hadvance (saveLast (sendingStorage rn e f) rn.ready.committedEntries)
  refine ⟨_, off, hlog, ?_⟩
  rw [saveLast]
  split <;> exact ⟨rfl, rfl⟩

/-- **A cycle ends in a log as every other, whatever failed in it.** -/
theorem handleReadyFailing_loose :
    (handleReadyFailing rn e f).log.Loose ∧ (handleReadyFailing rn e f).log.unstable = [] ∧
      (handleReadyFailing rn e f).log.pendingSnapshot = {} ∧
      (handleReadyFailing rn e f).log.storage.loadSnapshotMeta =
        (installedDisk rn e f).storage.loadSnapshotMeta := by
  obtain ⟨k, -, hk, hc⟩ := hl.unstable
  obtain ⟨s, off, hlog, hs, hmeta⟩ := handleReadyFailing_log (e := e) (f := f) hl
  have hreads := hl.reads_nextEntries
  have hafter := appliedAfter_spec rn.log.nextEntries hl.applied_le hl.applied_le fun x hx ↦
    ⟨Nat.lt_succ_iff.mp (hreads.lt x hx), Nat.lt_succ_iff.mp (hreads.lt x hx)⟩
  have hkeys : RaftLog.Keyed (installedDisk rn e f).storage := fun he ↦
    hl.keys (installing_installedDisk.lookup he)
  have hwritten : RaftLog.Written _ (upTo rn.ready.entries f.append) (sendingStorage rn e f) :=
    written_appendEntries hkeys fun x hx ↦ hk.trans (hc.index_mem (upTo_subset _ _ hx)).1
  have hsend : (sendingStorage rn e f).loadSnapshotMeta =
      (installedDisk rn e f).storage.loadSnapshotMeta :=
    rfl
  rw [hlog]
  refine ⟨⟨fun {i x} hx ↦ hwritten.keys (k := i) ?_, ⟨_, le_rfl, Nat.le_add_left 1 _, .nil _⟩, ?_,
    hafter.2.1, .inl rfl⟩, rfl, rfl, hmeta.trans hsend⟩
  · rwa [hs] at hx
  · rw [hmeta, hsend]
    exact (installedDisk_snap_le hl).2.trans hafter.1

omit hl in
/-- A cycle in which nothing fails is that of a cluster. -/
theorem handleReadyFailing_none (hok : installFails rn e {} = false) :
    handleReadyFailing rn e {} = rn.handleReady := by
  have hsaved : (savedDisk rn e {}).storage = if rn.ready.hardState.isEmpty then rn.log.storage
        else rn.log.storage.saveHardState rn.ready.hardState := by
    rw [savedDisk]
    rw [Bool.or_false]
  have hinstalled : (installedDisk rn e {}).storage =
      if rn.ready.snapshot.isEmpty then (savedDisk rn e {}).storage
        else (savedDisk rn e {}).storage.installSnapshot rn.ready.snapshot := by
    cases hne : rn.ready.snapshot.isEmpty with
    | true => rw [installedDisk, if_pos hne, if_pos rfl]
    | false => rw [installedDisk_eq hne hok, if_neg Bool.false_ne_true]
  rw [handleReadyFailing, handleReady, LSMLogStorage.persist, sendingStorage, hinstalled, hsaved]
  rfl

omit hl in
/-- The messages are about the hard state that the node has. -/
theorem vouched_iff (hv : rn.AllVouch) :
    (∀ m ∈ rn.ready.messages, m.Vouches (sendingStorage rn e f).initialState) ↔
      f.hardState = false ∧ rn.ready.hardState.isEmpty = false ∨
        ∀ m ∈ rn.ready.messages, m.Vouches rn.log.storage.initialState := by
  rw [sendingStorage_initialState]
  cases he : rn.ready.hardState.isEmpty with
  | true => simp
  | false =>
    cases hf : f.hardState with
    | true => simp
    | false =>
      have hhs : rn.ready.hardState = rn.hardState := RawNode.ready_hardState (by simp [he])
      exact iff_of_true (hhs ▸ hv) (.inl ⟨rfl, rfl⟩)

/-- The new entries are there if those that could not be written were. -/
theorem forall_lookup_iff :
    (∀ x ∈ rn.ready.entries, (sendingStorage rn e f).log.lookup x.index = some x) ↔
      ∀ n, f.append = some n → ∀ x ∈ rn.ready.entries.drop n,
        rn.log.storage.log.lookup x.index = some x := by
  obtain ⟨k, -, -, hc⟩ := hl.unstable
  have hdrop {n : ℕ} {x : Entry} (hx : x ∈ rn.ready.entries) :
      x ∈ rn.ready.entries.drop n ↔ x ∉ upTo rn.ready.entries (some n) :=
    mem_drop_iff_notMem_upTo hc hx
  constructor
  · intro h n hn x hx
    have hmem : x ∈ rn.ready.entries := mem_of_mem_drop hx
    rw [← (lookup_sendingStorage hl hmem).2 (hn ▸ (hdrop hmem).mp hx)]
    exact h x hmem
  · intro h x hx
    by_cases hmem : x ∈ upTo rn.ready.entries f.append
    · exact (lookup_sendingStorage hl hx).1 hmem
    · rw [(lookup_sendingStorage hl hx).2 hmem]
      cases hf : f.append with
      | none =>
        rw [hf] at hmem
        exact absurd hx hmem
      | some n =>
        rw [hf] at hmem
        exact h n hf x ((hdrop hx).mpr hmem)

/-- **A cycle keeps the contract exactly if nothing failed that was needed.** The node's messages
are about the hard state that it has, and a snapshot that it received is acknowledged. -/
theorem persistedFirst_iff_tolerated (hv : rn.AllVouch)
    (hack : rn.log.pendingSnapshot = {} ∨ ∃ m ∈ rn.msgs, m.type = .appResp ∧ m.reject = false ∧
      rn.log.pendingSnapshot.metadata.index ≤ m.index) :
    PersistedFirst rn e f ↔ Tolerated rn e f := by
  constructor
  · intro h
    refine ⟨(vouched_iff hv).mp h.vouched, ?_, (forall_lookup_iff (e := e) hl).mp fun x hx ↦ ?_,
      fun m hm hty hrej i hi hle ↦ reaches_of_sending (h.acked m hm hty hrej i hi hle)⟩
    · -- a snapshot is acknowledged in the same cycle
      by_cases hpend : rn.log.hasPendingSnapshot = true
      · have hrd : rn.ready.snapshot = rn.log.pendingSnapshot := if_pos hpend
        rcases hack with hnone | ⟨m, hm, hty, hrej, hidx⟩
        · rw [hasPendingSnapshot, hnone] at hpend
          exact absurd hpend (by decide)
        · exact h.snapshot m hm hty hrej (hrd ▸ hidx)
      · have hrd : rn.ready.snapshot = {} := if_neg hpend
        rw [installFails, hrd]
        rfl
    · -- `Advance` has marked it as stable
      obtain ⟨s, off, hlog, -, -⟩ := handleReadyFailing_log (e := e) (f := f) hl
      exact h.stable x hx (by rw [hlog]; exact not_mem_nil)
  · intro h
    have hthere := (forall_lookup_iff (e := e) hl).mpr h.append
    exact ⟨(vouched_iff hv).mpr h.hardState, fun _ _ _ _ x hx _ ↦ hthere x hx,
      fun _ _ _ _ _ ↦ h.install, fun m hm hty hrej i hi hle ↦
        reaches_sending hl h.install hthere hi (h.acked m hm hty hrej i hi hle),
      fun x hx _ ↦ hthere x hx⟩

end Disk

/-! ## The loop -/

/-- What the loop of a replica wakes up for. -/
inductive Wake where
  | tick (rnd : ℕ)
  | propose (prop : Proposal) (rnd : ℕ)
  | step (m : Message) (rnd : ℕ)
  /-- A request for a snapshot. -/
  | snapshot
  /-- A request for the applied index. -/
  | query

namespace Replica

variable (sm : StateMachine Engine)

variable (r : Replica Engine)

/-- The `select` of `run`. -/
def receive : Wake → Replica Engine
  | .tick rnd => { r with rn := r.rn.tick rnd }
  | .propose prop rnd =>
    { r with pendingProps := r.pendingProps ++ [prop], rn := r.rn.propose rnd prop.data }
  | .step m rnd => { r with rn := r.rn.step rnd m }
  | .snapshot => r.createSnapshotOnLoop sm
  | .query => r

/-- `handleReady`. -/
def handleReadyFailing (f : Failures) : Replica Engine :=
  if r.rn.hasReady then
    let rd := r.rn.ready
    let rn := KvServer.handleReadyFailing r.rn r.engine f
    let r := { r with
      leadID := (rd.softState.map SoftState.lead).getD r.leadID
      engine := (installedDisk r.rn r.engine f).engine
      lastSnapIndex := if rd.snapshot.isEmpty || installFails r.rn r.engine f then r.lastSnapIndex
        else rd.snapshot.metadata.index }
    let r := r.assign rd.entries
    let r := rd.committedEntries.foldl (applyEntry sm) r
    { r with rn := rn }.maybeSnapshotAndCompact sm
  else r

/-- The property holds in every cycle of the loop: these are the iterations, each with what fails in
it. -/
def EveryCycle (P : RawNode → Engine → Failures → Prop) (r : Replica Engine) :
    List (Wake × Failures) → Prop
  | [] => True
  | (w, f) :: past => P (r.receive sm w).rn (r.receive sm w).engine f ∧
      EveryCycle P ((r.receive sm w).handleReadyFailing sm f) past

/-- The loop waits. -/
structure Idle (r : Replica Engine) : Prop where
  loose : r.rn.log.Loose
  unstable : r.rn.log.unstable = []
  pending : r.rn.log.pendingSnapshot = {}
  msgs : r.rn.msgs = []
  snap_le : r.lastSnapIndex ≤ r.rn.log.storage.loadSnapshotMeta.index

/-- The loop has woken up. -/
structure Awake (r : Replica Engine) : Prop where
  loose : r.rn.log.Loose
  vouched : r.rn.AllVouch
  acked : r.rn.log.pendingSnapshot = {} ∨ ∃ m ∈ r.rn.msgs, m.type = .appResp ∧ m.reject = false ∧
    r.rn.log.pendingSnapshot.metadata.index ≤ m.index
  snap_le : r.lastSnapIndex ≤ r.rn.log.storage.loadSnapshotMeta.index

variable {sm} {r : Replica Engine}

section

variable (h : r.Idle)
include h

theorem Idle.truncate {s : LSMLogStorage}
    (hs : LSMLogStorage.Truncates r.rn.log.storage s)
    (hle : s.loadSnapshotMeta.index ≤ r.rn.log.applied) {n : ℕ}
    (hn : n ≤ s.loadSnapshotMeta.index) :
    Idle { r with rn := r.rn.setStorage s, lastSnapIndex := n } :=
  ⟨(RaftLog.Onward.truncate h.loose h.pending hs hle).loose, h.unstable, h.pending, h.msgs, hn⟩

theorem Idle.createSnapshotOnLoop : Idle (r.createSnapshotOnLoop sm) := by
  rw [Replica.createSnapshotOnLoop]
  cases hterm : r.rn.log.term r.rn.log.applied with
  | error err => exact h
  | ok t =>
    dsimp only
    split
    · exact h
    · rename_i h0
      have hpos : 0 < r.rn.log.applied := Nat.pos_of_ne_zero h0
      have hrn : r.rn.createSnapshot (sm.serialize r.engine) = r.rn.setStorage
          ((r.rn.log.storage.saveSnapshot ⟨⟨r.rn.log.applied, t⟩, sm.serialize r.engine⟩).compact
            (r.rn.compactableIndex r.rn.log.applied)) := by
        rw [createSnapshot, hterm]
        exact if_neg h0
      have hmeta : ((r.rn.log.storage.saveSnapshot ⟨⟨r.rn.log.applied, t⟩,
          sm.serialize r.engine⟩).compact
          (r.rn.compactableIndex r.rn.log.applied)).loadSnapshotMeta.index = r.rn.log.applied := by
        rw [compact_meta, saveSnapshot_meta hpos]
      rw [hrn]
      exact h.truncate (truncates_saveSnapshot hpos h.loose.snap_le
        (compactableIndex_le r.rn r.rn.log.applied)) hmeta.le hmeta.ge

theorem Idle.compact {n : ℕ} (hn : n ≤ r.lastSnapIndex) :
    Idle { r with rn := r.rn.setStorage (r.rn.log.storage.compact n) } := by
  have hmeta : (r.rn.log.storage.compact n).loadSnapshotMeta = r.rn.log.storage.loadSnapshotMeta :=
    compact_meta _ _
  refine h.truncate (truncates_compact (hn.trans h.snap_le)) ?_ ?_
  · rw [hmeta]
    exact h.loose.snap_le
  · rw [hmeta]
    exact h.snap_le

theorem Idle.maybeSnapshotAndCompact : Idle (r.maybeSnapshotAndCompact sm) := by
  rw [Replica.maybeSnapshotAndCompact]
  set r₁ : Replica Engine := if r.rn.log.applied > r.lastSnapIndex ∧
    r.rn.log.applied + 1 ≥ r.rn.log.storage.firstIndex + snapshotThreshold then
    r.createSnapshotOnLoop sm else r with hr₁
  have h₁ : r₁.Idle := by
    rw [hr₁]
    split
    · exact h.createSnapshotOnLoop
    · exact h
  dsimp only
  split
  · exact h₁
  · split
    · exact h₁.compact (compactableIndex_le _ _)
    · exact h₁

theorem Idle.receive (w : Wake) (hw : ∀ m rnd, w = .step m rnd → m.WellNumbered) :
    Awake (r.receive sm w) := by
  have hcall : ∀ i : RawNode.Input, (∀ m rnd, i = .step m rnd → m.WellNumbered) →
      ∀ props, Awake { r with pendingProps := props, rn := r.rn.call i } := by
    intro i hi props
    have hcalled := call_called h.loose h.unstable h.pending i hi
    exact ⟨hcalled.loose, call_vouches h.msgs i, hcalled.acked, h.snap_le.trans hcalled.snap_le⟩
  have hidle : ∀ {r : Replica Engine}, r.Idle → r.Awake := fun {r} h ↦
    ⟨h.loose, fun m hm ↦ absurd (h.msgs ▸ hm) not_mem_nil, .inl h.pending, h.snap_le⟩
  cases w with
  | tick rnd => exact hcall (.tick rnd) (by simp) r.pendingProps
  | propose prop rnd =>
    refine hcall (.step { type := .prop, src := r.rn.id, dst := r.rn.id
                          entries := [{ data := prop.data }] } rnd) (fun m rnd' hi hty ↦ ?_) _
    obtain ⟨rfl, -⟩ := RawNode.Input.step.inj hi
    cases hty
  | step m rnd =>
    refine hcall (.step m rnd) (fun m' rnd' hi ↦ ?_) r.pendingProps
    obtain ⟨rfl, rfl⟩ := RawNode.Input.step.inj hi
    exact hw _ _ rfl
  | snapshot => exact hidle h.createSnapshotOnLoop
  | query => exact hidle h

end

theorem foldl_applyEntry_lastSnapIndex (es : List Entry) (r : Replica Engine) :
    (es.foldl (applyEntry sm) r).lastSnapIndex = r.lastSnapIndex := by
  induction es generalizing r with
  | nil => rfl
  | cons x es ih =>
    refine (ih _).trans ?_
    rw [applyEntry]
    split <;> rfl

theorem Awake.handleReadyFailing (h : r.Awake) (f : Failures) :
    Idle (r.handleReadyFailing sm f) := by
  rw [Replica.handleReadyFailing]
  split
  · obtain ⟨hloose, hun, hpend, hmeta⟩ := handleReadyFailing_loose (e := r.engine) (f := f) h.loose
    refine Idle.maybeSnapshotAndCompact ⟨hloose, hun, hpend, rfl, ?_⟩
    rw [foldl_applyEntry_lastSnapIndex, hmeta]
    change (if _ then _ else _) ≤ _
    split
    · exact h.snap_le.trans (installedDisk_snap_le h.loose).1
    · rename_i hok
      rw [Bool.or_eq_true, not_or, Bool.not_eq_true, Bool.not_eq_true] at hok
      rw [installedDisk_meta hok.1 hok.2]
  · rename_i hidle
    simp only [hasReady, Bool.or_eq_true, decide_eq_true_eq, not_or, not_not] at hidle
    obtain ⟨⟨⟨⟨⟨-, hsnap⟩, hun⟩, -⟩, hmsgs⟩, -⟩ := hidle
    refine ⟨h.loose, hun, ?_, hmsgs, h.snap_le⟩
    rcases h.loose.pending with hp | ⟨hp, -⟩
    · exact hp
    · exact absurd (by rw [hasPendingSnapshot, hp]; rfl) hsnap

theorem Idle.everyCycle_iff (h : r.Idle) (past : List (Wake × Failures))
    (hm : ∀ m rnd f, (Wake.step m rnd, f) ∈ past → m.WellNumbered) :
    EveryCycle sm PersistedFirst r past ↔ EveryCycle sm Tolerated r past := by
  induction past generalizing r with
  | nil => rfl
  | cons x past ih =>
    obtain ⟨w, f⟩ := x
    have hawake : (r.receive sm w).Awake := h.receive w fun m rnd hw ↦
      hm m rnd f (hw ▸ mem_cons_self)
    exact and_congr (persistedFirst_iff_tolerated hawake.loose hawake.vouched hawake.acked)
      (ih (hawake.handleReadyFailing f) fun m rnd f' hmem ↦ hm m rnd f' (.tail _ hmem))

theorem idle_newRawNode (id : NodeId) (peers : List NodeId) {storage : LSMLogStorage}
    (hs : RaftLog.Keyed storage) (rnd : ℕ) (engine : Engine) :
    Idle { rn := newRawNode id peers storage rnd, engine := engine } := by
  obtain ⟨hloose, hun, hpend⟩ := loose_newRawNode id peers hs rnd
  have hmsgs : (newRawNode id peers storage rnd).msgs = [] := by
    rw [newRawNode]
    split <;> rfl
  exact ⟨hloose, hun, hpend, hmsgs, Nat.zero_le _⟩

end Replica

/-- An engine that no command changes. -/
def inert : StateMachine Engine where
  batch e _ := (e, none)
  serialize := serializeEngineState
  install e data := (installEngine e data).1

/-- A new replica. -/
def freshReplica : Replica Engine := { rn := newRawNode 2 [1, 2, 3] {} 0, engine := .empty }

/-- Node `1` campaigns in term `1`. -/
def voteRequest : Message := { type := .vote, src := 1, dst := 2, term := 1 }

/-- Node `1` replicates its first entry. -/
def firstAppend : Message :=
  { type := .app, src := 1, dst := 2, term := 1, entries := [{ term := 1, index := 1 }] }

/-- The first entry is written, and the commit index that comes with it the second time is not. -/
def appendTwice : List (Wake × Failures) :=
  [(.step firstAppend 0, {}), (.step { firstAppend with commit := 1 } 0, { hardState := true })]

/-- A new replica after a cycle in which it could not install a snapshot, which is sent again. -/
def offeredAgain : Replica Engine :=
  ((freshReplica.receive inert (.step snapshotOfA 0)).handleReadyFailing inert
    { install := some 0 }).receive inert (.step snapshotOfA 0)

end DucklingDB.KvServer
