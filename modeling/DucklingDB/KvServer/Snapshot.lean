import DucklingDB.Mvcc.Store
import DucklingDB.Util.Reader

/-!
# Snapshots of the engine

`internal/kv/kvserver/snapshot.go`: the state of an engine as one blob, and its installation on
another engine. Everything a node stores shares one key space: the replicated data, the node's Raft
state, its identity and its liveness record. The snapshot code separates them by one test, whether a
key starts with `raftPrefix`, so the identity and the liveness record of a node count as replicated
data: serialized at the source, wiped and replaced at the destination.
-/

namespace DucklingDB.KvServer

open Bytes SortedMap
open Mvcc (Engine)
open List hiding lookup

/-- `"\x00raft/"`. -/
def raftPrefix : Bytes := [0x00, 0x72, 0x61, 0x66, 0x74, 0x2f]

/-- The errors of `applyEngineSnapshot`. -/
inductive SnapshotError where
  /-- `snapshot: data too short (%d bytes)`. -/
  | tooShort (length : ℕ)
  /-- `snapshot: read entry %d header`. -/
  | entryHeader (i : ℕ)
  /-- `snapshot: read entry %d key`. -/
  | entryKey (i : ℕ)
  /-- `snapshot: read entry %d value`. -/
  | entryValue (i : ℕ)
  deriving DecidableEq, Repr

/-! ## The blob -/

variable (e : Engine)

/-- The pairs a snapshot carries, in key order. -/
def stateMachine : List (Bytes × Bytes) :=
  e.entries.filter fun x ↦ !raftPrefix.isPrefixOf x.1

/-- One entry of the blob. -/
def encodePair (x : Bytes × Bytes) : Bytes :=
  leBytes 4 x.1.length ++ leBytes 4 x.2.length ++ x.1 ++ x.2

def serializeEngineState : Bytes :=
  leBytes 8 (stateMachine e).length ++ (stateMachine e).flatMap encodePair

/-- The loop of `applyEngineSnapshot` from entry `i` on, with `count` entries to go. What was put
before an error stays. -/
def putEntries (e : Engine) (r : Bytes) (i : ℕ) : ℕ → Engine × Option SnapshotError
  | 0 => (e, none)
  | count + 1 =>
    match readFull 8 r with
    | none => (e, some (.entryHeader i))
    | some (scratch, r) =>
      match readFull (ofLeBytes (scratch.take 4)) r with
      | none => (e, some (.entryKey i))
      | some (k, r) =>
        match readFull (ofLeBytes (scratch.drop 4)) r with
        | none => (e, some (.entryValue i))
        | some (v, r) => putEntries (e.insert k v) r (i + 1) count

def applyEngineSnapshot (data : Bytes) : Engine × Option SnapshotError :=
  match readFull 8 data with
  | none => (e, some (.tooShort data.length))
  | some (header, r) => putEntries e r 0 (ofLeBytes header)

def clearStateMachine : Engine :=
  ((stateMachine e).map Prod.fst).foldl erase e

/-- `clearStateMachine`, then `applyEngineSnapshot`. -/
def installEngine (dst : Engine) (data : Bytes) : Engine × Option SnapshotError :=
  applyEngineSnapshot (clearStateMachine dst) data

/-! ## What an installation does -/

theorem mem_stateMachine {e : Engine} {k v : Bytes} :
    (k, v) ∈ stateMachine e ↔ e.get k = some v ∧ ¬raftPrefix <+: k := by
  rw [stateMachine, mem_filter, mem_entries, Bool.not_eq_true', Bool.eq_false_iff,
    ne_eq, isPrefixOf_iff_prefix]

theorem get_clearStateMachine (k : Bytes) :
    (clearStateMachine e).get k = if raftPrefix <+: k then e.get k else none := by
  rw [clearStateMachine, get_foldl_erase]
  have hmem : k ∈ (stateMachine e).map Prod.fst ↔ (∃ v, e.get k = some v) ∧ ¬raftPrefix <+: k := by
    simp [mem_stateMachine]
  by_cases hraft : raftPrefix <+: k
  · rw [if_neg (by rw [hmem]; tauto), if_pos hraft]
  · rw [if_neg hraft]
    cases hk : e.get k with
    | none => simp
    | some v => rw [if_pos (hmem.mpr ⟨⟨v, hk⟩, hraft⟩)]

/-- The blob can express the number of entries and the lengths of keys and values. -/
structure Fits (e : Engine) : Prop where
  count : e.entries.length < 2 ^ 64
  lengths : ∀ x ∈ e.entries, x.1.length < 2 ^ 32 ∧ x.2.length < 2 ^ 32

theorem readFull_encodePair {x : Bytes × Bytes} (hfit : x.1.length < 2 ^ 32 ∧ x.2.length < 2 ^ 32)
    (rest : Bytes) :
    ∃ scratch, readFull 8 (encodePair x ++ rest) = some (scratch, x.1 ++ (x.2 ++ rest)) ∧
      ofLeBytes (scratch.take 4) = x.1.length ∧ ofLeBytes (scratch.drop 4) = x.2.length := by
  refine ⟨leBytes 4 x.1.length ++ leBytes 4 x.2.length, ?_, ?_, ?_⟩
  · rw [← readFull_append (n := 8) (by simp)]
    simp [encodePair]
  · rw [take_left' (length_leBytes _ _), ofLeBytes_leBytes (by omega)]
  · rw [drop_left' (length_leBytes _ _), ofLeBytes_leBytes (by omega)]

theorem putEntries_encodePair (xs : List (Bytes × Bytes)) (rest : Bytes)
    (hfit : ∀ x ∈ xs, x.1.length < 2 ^ 32 ∧ x.2.length < 2 ^ 32) (e : Engine) (i : ℕ) :
    putEntries e (xs.flatMap encodePair ++ rest) i xs.length =
      (xs.foldl (fun e x ↦ e.insert x.1 x.2) e, none) := by
  induction xs generalizing e i with
  | nil => rfl
  | cons x xs ih =>
    obtain ⟨scratch, hread, hkey, hval⟩ := readFull_encodePair (hfit x (.head _))
      (xs.flatMap encodePair ++ rest)
    rw [flatMap_cons, append_assoc, length_cons, putEntries, hread]
    simp only [hkey, hval, readFull_append rfl]
    rw [ih (fun y hy ↦ hfit y (.tail _ hy)), foldl_cons]

open SortedMap (empty lookup lookup_eq_none)

theorem get_foldl_insert {xs : List (Bytes × Bytes)} (hs : xs.Pairwise fun a b ↦ a.1 < b.1)
    (e : Engine) (k : Bytes) :
    (xs.foldl (fun e x ↦ e.insert x.1 x.2) e).get k = ((lookup k xs).map some).getD (e.get k) := by
  induction xs generalizing e with
  | nil => rfl
  | cons x xs ih =>
    obtain ⟨hx, hs⟩ := pairwise_cons.mp hs
    rw [foldl_cons, ih hs, get_insert, lookup]
    by_cases hk : k = x.1
    · have hnone : lookup k xs = none := lookup_eq_none fun y hy ↦ hk ▸ (hx y hy).ne'
      rw [hnone, if_pos hk, if_pos hk.symm]
      rfl
    · rw [if_neg hk, if_neg (Ne.symm hk)]

theorem lookup_stateMachine (e : Engine) (k : Bytes) :
    lookup k (stateMachine e) = if raftPrefix <+: k then none else e.get k := by
  have hsorted : (stateMachine e).Pairwise fun a b ↦ a.1 < b.1 := e.sorted.filter _
  split <;> rename_i hraft
  · refine lookup_eq_none fun x hx hxk ↦ ?_
    exact (mem_stateMachine.mp (show (x.1, x.2) ∈ _ from hx)).2 (hxk ▸ hraft)
  · cases hk : e.get k with
    | some v => exact lookup_of_mem hsorted (mem_stateMachine.mpr ⟨hk, hraft⟩)
    | none =>
      refine lookup_eq_none fun x hx hxk ↦ ?_
      have := (mem_stateMachine.mp (show (x.1, x.2) ∈ _ from hx)).1
      rw [hxk, hk] at this
      cases this

/-- The wiped engine with the pairs of the source put back. -/
def replaced (dst src : Engine) : Engine :=
  (stateMachine src).foldl (fun e x ↦ e.insert x.1 x.2) (clearStateMachine dst)

theorem installEngine_serialize {src : Engine} (hfit : Fits src) (dst : Engine) :
    installEngine dst (serializeEngineState src) = (replaced dst src, none) := by
  have hcount : (stateMachine src).length < 256 ^ 8 := (length_filter_le _ _).trans_lt hfit.count
  rw [installEngine, applyEngineSnapshot, serializeEngineState,
    readFull_append (length_leBytes _ _)]
  simp only [ofLeBytes_leBytes hcount]
  have hput := putEntries_encodePair (stateMachine src) []
    (fun x hx ↦ hfit.lengths x (mem_of_mem_filter hx)) (clearStateMachine dst) 0
  rwa [append_nil] at hput

theorem get_replaced (dst src : Engine) (k : Bytes) :
    (replaced dst src).get k = if raftPrefix <+: k then dst.get k else src.get k := by
  have hsorted : (stateMachine src).Pairwise fun a b ↦ a.1 < b.1 := src.sorted.filter _
  rw [replaced, get_foldl_insert hsorted, lookup_stateMachine, get_clearStateMachine]
  split
  · rfl
  · cases src.get k <;> rfl

/-- **A snapshot carries every key but the Raft keys**, whatever the engine held before. -/
theorem snapshot_round_trip {src : Engine} (hfit : Fits src) (dst : Engine) :
    (applyEngineSnapshot (clearStateMachine dst) (serializeEngineState src)).2 = none ∧
      ∀ k, (applyEngineSnapshot (clearStateMachine dst) (serializeEngineState src)).1.get k =
        if raftPrefix <+: k then dst.get k else src.get k := by
  have heq : applyEngineSnapshot (clearStateMachine dst) (serializeEngineState src) =
      (replaced dst src, none) := installEngine_serialize hfit dst
  rw [heq]
  exact ⟨rfl, get_replaced dst src⟩

/-- An empty key with an empty value, and a key next to the prefix, replace what was there. -/
theorem snapshot_round_trip_edges :
    let src : Engine := (empty.insert [] []).insert (raftPrefix.dropLast ++ [0x30]) [1]
    let dst : Engine := (empty.insert (raftPrefix ++ [0x61]) [2]).insert [0x61] [3]
    Fits src ∧
      (applyEngineSnapshot (clearStateMachine dst) (serializeEngineState src)).1.get
        (raftPrefix ++ [0x61]) = some [2] := by
  intro src dst
  have hfit : Fits src := ⟨by decide, by decide⟩
  exact ⟨hfit, (snapshot_round_trip hfit dst).2 _⟩

/-! ## The identity of a node -/

/-- `"\x00cluster-id"`. -/
def keyClusterID : Bytes := [0x00, 0x63, 0x6c, 0x75, 0x73, 0x74, 0x65, 0x72, 0x2d, 0x69, 0x64]

/-- `"\x00node-id"`. -/
def keyNodeID : Bytes := [0x00, 0x6e, 0x6f, 0x64, 0x65, 0x2d, 0x69, 0x64]

/-- `"\x00next-node-id"`. -/
def keyNextNodeID : Bytes :=
  [0x00, 0x6e, 0x65, 0x78, 0x74, 0x2d, 0x6e, 0x6f, 0x64, 0x65, 0x2d, 0x69, 0x64]

/-- `fmt`'s `%d` of a number. -/
def decimal (n : ℤ) : Bytes :=
  let digits := (Nat.toDigits 10 n.natAbs).map fun c ↦ UInt8.ofNat c.toNat
  if n < 0 then 0x2d :: digits else digits

/-- `livenessKey`: `"\x00liveness-%d"`. -/
def livenessKey (nodeID : Int32) : Bytes :=
  [0x00, 0x6c, 0x69, 0x76, 0x65, 0x6e, 0x65, 0x73, 0x73, 0x2d] ++ decimal nodeID.toInt

/-- The keys that belong to node `id` alone. -/
def nodeKeys (id : Int32) : List Bytes := [keyClusterID, keyNodeID, keyNextNodeID, livenessKey id]

theorem not_raftPrefix_of_mem_nodeKeys {id : Int32} {k : Bytes} (hk : k ∈ nodeKeys id) :
    ¬raftPrefix <+: k := by
  simp only [nodeKeys, mem_cons, not_mem_nil, or_false] at hk
  obtain rfl | rfl | rfl | rfl := hk
  · decide
  · decide
  · decide
  · simp [raftPrefix, livenessKey]

/-- **A snapshot leaves the Raft keys of the node it is installed on**, and the keys of the node
itself exactly when the source holds the same under them. -/
theorem install_keeps_nodeKeys_iff {src : Engine} (hfit : Fits src) (dst : Engine) (id : Int32) :
    (∀ k, raftPrefix <+: k ∨ k ∈ nodeKeys id →
      (installEngine dst (serializeEngineState src)).1.get k = dst.get k) ↔
      ∀ k ∈ nodeKeys id, src.get k = dst.get k := by
  have hget (k : Bytes) : (installEngine dst (serializeEngineState src)).1.get k =
      if raftPrefix <+: k then dst.get k else src.get k := by
    rw [installEngine_serialize hfit, get_replaced]
  constructor
  · intro h k hk
    have := h k (.inr hk)
    rwa [hget, if_neg (not_raftPrefix_of_mem_nodeKeys hk)] at this
  · rintro h k (hraft | hk)
    · rw [hget, if_pos hraft]
    · rw [hget, if_neg (not_raftPrefix_of_mem_nodeKeys hk), h k hk]

/-- A node that has just been bootstrapped: identity, allocator and liveness record, a hard state,
and one user key. -/
def bootstrapped (nodeID : UInt8) : Engine :=
  [(keyClusterID, [7]), (keyNodeID, [nodeID]), (keyNextNodeID, [3]), (livenessKey 1, [1]),
    (raftPrefix ++ [0x68], [nodeID]), ([0x61], [0x78])].foldl (fun e x ↦ e.insert x.1 x.2)
    empty

theorem install_keeps_nodeKeys_same :
    Fits (bootstrapped 1) ∧
      (installEngine (bootstrapped 1) (serializeEngineState (bootstrapped 1))).1.get keyNodeID =
        (bootstrapped 1).get keyNodeID := by
  have hfit : Fits (bootstrapped 1) := ⟨by decide +kernel, by decide +kernel⟩
  refine ⟨hfit,
    (install_keeps_nodeKeys_iff hfit (bootstrapped 1) 1).mpr (fun _ _ ↦ rfl) _ (.inr ?_)⟩
  exact List.mem_cons_of_mem _ (.head _)

/-- A snapshot of node `1` makes node `2` forget who it is. -/
theorem exists_lost_identity :
    (bootstrapped 2).get keyNodeID = some [2] ∧
      (installEngine (bootstrapped 2) (serializeEngineState (bootstrapped 1))).1.get keyNodeID =
        some [1] := by
  decide +kernel

end DucklingDB.KvServer
