import DucklingDB.Util.Bytes
import DucklingDB.Util.GoMap
import Mathlib.Data.List.Nodup
import Mathlib.Data.List.Sigma

/-!
# The gossip store

`infostore.go`, and what the two sides of a gossip exchange in `gossip.go` do to their stores. A
store keeps one info per key and, per node, the highest sequence number it has seen from that node.

A message is filtered or merged info by info, in the order in which Go happens to range over a map;
the lists here stand for the values of such a map, and whoever merges one merges some permutation of
it. Peers and callbacks have no influence on the store and are left out.
-/

namespace DucklingDB.Gossip

open List Bool AList

/-- `Info`; times in nanoseconds. -/
structure Info where
  key : String
  value : Bytes
  origStamp : ℕ
  nodeID : Int32
  ttl : ℤ
  createdAt : ℤ
  deriving DecidableEq

/-- `pb.Info`. -/
structure PbInfo where
  key : String
  value : Bytes
  origStamp : ℕ
  nodeID : Int32
  ttlSeconds : ℤ
  deriving DecidableEq

def second : ℤ := 1000000000

namespace Info

/-- `expired`; a ttl of zero never expires. -/
def expired (i : Info) (now : ℤ) : Bool := decide (0 < i.ttl) && decide (i.createdAt + i.ttl < now)

/-- `infoToProto`. -/
def toProto (i : Info) : PbInfo where
  key := i.key
  value := i.value
  origStamp := i.origStamp
  nodeID := i.nodeID
  ttlSeconds := if 0 < i.ttl then i.ttl.tdiv second else 0

end Info

/-- `protoToInfo`: the info is as old as its arrival. -/
def PbInfo.toInfo (p : PbInfo) (now : ℤ) : Info where
  key := p.key
  value := p.value
  origStamp := p.origStamp
  nodeID := p.nodeID
  ttl := if 0 < p.ttlSeconds then p.ttlSeconds * second else 0
  createdAt := now

structure InfoStore where
  infos : GoMap String Info := ∅
  highWater : GoMap Int32 ℕ := ∅
  seqGen : ℕ := 0

namespace InfoStore

variable (is : InfoStore)

/-- The high-water mark of a node, zero if nothing has been seen from it. -/
def mark (n : Int32) : ℕ := is.highWater.get n 0

/-- What is held under a key, expired or not. -/
def held (key : String) : Option Info := is.infos.lookup key

/-- Store an info under its key, and raise the mark of its node. -/
def store (info : Info) : InfoStore :=
  { is with
    infos := AList.insert info.key info is.infos
    highWater :=
      if info.origStamp > is.highWater.get info.nodeID 0 then
        AList.insert info.nodeID info.origStamp is.highWater
      else is.highWater }

/-- The first half of `AddInfo`, before the lock is taken: a sequence number is drawn. -/
def draw (key : String) (val : Bytes) (ttl : ℤ) (nodeID : Int32) (now : ℤ) :
    InfoStore × Info :=
  ({ is with seqGen := is.seqGen + 1 }, ⟨key, val, is.seqGen + 1, nodeID, ttl, now⟩)

/-- `AddInfo`. The second half, under the lock, is `store`. -/
def addInfo (key : String) (val : Bytes) (ttl : ℤ) (nodeID : Int32) (now : ℤ) :
    InfoStore × Info :=
  let (is, info) := is.draw key val ttl nodeID now
  (is.store info, info)

def combine (info : Info) : InfoStore × Bool :=
  match is.infos.lookup info.key with
  | none => (is.store info, true)
  | some existing =>
    if existing.origStamp ≥ info.origStamp then (is, false) else (is.store info, true)

def delta (peerHighWater : GoMap Int32 ℕ) (now : ℤ) : List Info :=
  (is.infos.entries.map Sigma.snd).filter fun info ↦
    !info.expired now && decide (info.origStamp > peerHighWater.get info.nodeID 0)

def allInfos (now : ℤ) : List Info :=
  (is.infos.entries.map Sigma.snd).filter fun info ↦ !info.expired now

/-- Merge the infos of a message, one after the other. -/
def combineAll (infos : List PbInfo) (now : ℤ) : InfoStore :=
  infos.foldl (fun is p ↦ (is.combine (p.toInfo now)).1) is

end InfoStore

/-- `pb.GossipMessage`, as far as stores are concerned. -/
structure GossipMessage where
  nodeID : Int32
  delta : List PbInfo
  highWater : GoMap Int32 ℕ

instance : DecidableEq GossipMessage := fun a b ↦
  decidable_of_iff (a.nodeID = b.nodeID ∧ a.delta = b.delta ∧
    a.highWater.entries = b.highWater.entries) <| by
    cases a
    cases b
    rw [GossipMessage.mk.injEq, AList.ext_iff]

/-! ## One info -/

namespace InfoStore

variable (is : InfoStore) (info : Info) {k : String}

theorem held_store (k : String) :
    (is.store info).held k = if k = info.key then some info else is.held k := by
  rw [held, store]
  by_cases h : k = info.key
  · rw [if_pos h, h, lookup_insert]
  · rw [if_neg h, lookup_insert_ne h, held]

theorem mark_store (n : Int32) :
    (is.store info).mark n = if n = info.nodeID then max (is.mark n) info.origStamp
      else is.mark n := by
  rw [mark, store]
  split <;> rename_i h
  · rw [GoMap.get_insert]
    split
    · rename_i hn
      rw [mark, hn, max_eq_right h.le]
    · rfl
  · split
    · rename_i hn
      rw [mark, hn, max_eq_left (not_lt.mp h)]
    · rfl

theorem le_mark_store (n : Int32) : is.mark n ≤ (is.store info).mark n := by
  rw [mark_store]
  split
  · exact le_max_left _ _
  · exact le_rfl

/-- A merged info is ignored, when there is one that is as new, or stored. -/
theorem combine_cases :
    (∃ existing, is.held info.key = some existing ∧ info.origStamp ≤ existing.origStamp ∧
      (is.combine info).1 = is) ∨
    (∀ existing, is.held info.key = some existing → existing.origStamp < info.origStamp) ∧
      (is.combine info).1 = is.store info := by
  rw [combine]
  cases h : is.infos.lookup info.key with
  | none => exact .inr ⟨fun existing he ↦ absurd (h.symm.trans he) (by simp), rfl⟩
  | some existing =>
    dsimp only
    split
    · rename_i hle
      exact .inl ⟨existing, h, hle, rfl⟩
    · rename_i hlt
      refine .inr ⟨fun existing' he ↦ ?_, rfl⟩
      rw [← Option.mem_unique h he]
      exact not_le.mp hlt

variable {is info}

/-- What a store that the operations have built is like. -/
structure WellFormed (is : InfoStore) : Prop where
  keyed : ∀ {k info}, is.held k = some info → info.key = k
  le_mark : ∀ {k info}, is.held k = some info → info.origStamp ≤ is.mark info.nodeID

theorem wellFormed_new : WellFormed {} := by
  constructor <;> intro k info h <;> simp [held] at h

section

variable (h : is.WellFormed)
include h

theorem WellFormed.store (info : Info) : (is.store info).WellFormed where
  keyed {k info'} hk := by
    rw [held_store] at hk
    split at hk
    · rename_i heq
      cases hk
      exact heq.symm
    · exact h.keyed hk
  le_mark {k info'} hk := by
    rw [held_store] at hk
    split at hk
    · cases hk
      rw [mark_store, if_pos rfl]
      exact le_max_right _ _
    · exact (h.le_mark hk).trans (le_mark_store is info _)

theorem WellFormed.combine (info : Info) : (is.combine info).1.WellFormed := by
  rcases is.combine_cases info with ⟨_, _, _, heq⟩ | ⟨_, heq⟩
  · rwa [heq]
  · rw [heq]
    exact h.store info

theorem WellFormed.combineAll (L : List PbInfo) (now : ℤ) :
    (is.combineAll L now).WellFormed := by
  induction L generalizing is with
  | nil => exact h
  | cons p L ih => exact ih (h.combine (p.toInfo now))

theorem WellFormed.addInfo (key : String) (val : Bytes) (ttl : ℤ)
    (nodeID : Int32) (now : ℤ) : (is.addInfo key val ttl nodeID now).1.WellFormed := by
  have hdraw : (is.draw key val ttl nodeID now).1.WellFormed := ⟨h.keyed, h.le_mark⟩
  exact hdraw.store _

end

theorem mem_values : info ∈ is.infos.entries.map Sigma.snd ↔ ∃ k, is.held k = some info := by
  simp only [mem_map, held]
  constructor
  · rintro ⟨⟨k, info'⟩, hin, rfl⟩
    exact ⟨k, mem_lookup_iff.mpr hin⟩
  · rintro ⟨k, hk⟩
    exact ⟨⟨k, info⟩, mem_lookup_iff.mp hk, rfl⟩

theorem mem_delta {hw : GoMap Int32 ℕ} {now : ℤ} : info ∈ is.delta hw now ↔
    (∃ k, is.held k = some info) ∧ info.expired now = false ∧
      hw.get info.nodeID 0 < info.origStamp := by
  rw [delta, mem_filter, mem_values, and_eq_true, not_eq_true', decide_eq_true_iff]

theorem mem_allInfos {now : ℤ} : info ∈ is.allInfos now ↔
    (∃ k, is.held k = some info) ∧ info.expired now = false := by
  rw [allInfos, mem_filter, mem_values, not_eq_true']

theorem WellFormed.nodup_values (h : is.WellFormed) :
    (is.infos.entries.map Sigma.snd).Pairwise fun a b ↦ a.key ≠ b.key := by
  rw [pairwise_map]
  have hkeys : is.infos.entries.Pairwise fun a b ↦ a.1 ≠ b.1 :=
    nodupKeys_iff_pairwise.mp is.infos.nodupKeys
  refine hkeys.imp_of_mem fun {a b} ha hb hne ↦ ?_
  rw [h.keyed (mem_lookup_iff.mpr ha : is.held a.1 = some a.2),
    h.keyed (mem_lookup_iff.mpr hb : is.held b.1 = some b.2)]
  exact hne

/-! ## A whole message -/

section CombineAll

variable {L : List PbInfo} {now : ℤ}

theorem combineAll_cons (is : InfoStore) (p : PbInfo) (L : List PbInfo) (now : ℤ) :
    is.combineAll (p :: L) now = (is.combine (p.toInfo now)).1.combineAll L now := rfl

theorem seqGen_combineAll (is : InfoStore) (L : List PbInfo) (now : ℤ) :
    (is.combineAll L now).seqGen = is.seqGen := by
  induction L generalizing is with
  | nil => rfl
  | cons p L ih =>
    rw [combineAll_cons, ih]
    rcases is.combine_cases (p.toInfo now) with ⟨_, _, _, heq⟩ | ⟨-, heq⟩
    · rw [heq]
    · rw [heq, store]

theorem exists_held_combineAll (h : is.held k = some info) (L : List PbInfo) (now : ℤ) :
    ∃ info', (is.combineAll L now).held k = some info' ∧ info.origStamp ≤ info'.origStamp := by
  induction L generalizing is info with
  | nil => exact ⟨info, h, le_rfl⟩
  | cons p L ih =>
    rw [combineAll_cons]
    rcases is.combine_cases (p.toInfo now) with ⟨_, _, _, heq⟩ | ⟨hnew, heq⟩
    · rw [heq]
      exact ih h
    · have hst := is.held_store (p.toInfo now) k
      rw [← heq] at hst
      by_cases hk : k = (p.toInfo now).key
      · rw [if_pos hk] at hst
        obtain ⟨info', hheld, hle⟩ := ih hst
        exact ⟨info', hheld, (hnew info (hk ▸ h)).le.trans hle⟩
      · rw [if_neg hk] at hst
        exact ih (hst.trans h)

/-- What is merged is held afterwards, or something as new. -/
theorem exists_held_of_mem {p : PbInfo} (hp : p ∈ L) (is : InfoStore) (now : ℤ) :
    ∃ info, (is.combineAll L now).held p.key = some info ∧ p.origStamp ≤ info.origStamp := by
  induction L generalizing is with
  | nil => cases hp
  | cons q L ih =>
    rw [combineAll_cons]
    rcases mem_cons.mp hp with rfl | hp
    · rcases is.combine_cases (p.toInfo now) with ⟨existing, hheld, hle, heq⟩ | ⟨-, heq⟩
      · obtain ⟨info, hinfo, hle'⟩ := exists_held_combineAll hheld L now
        rw [heq]
        exact ⟨info, hinfo, hle.trans hle'⟩
      · have hst : (is.combine (p.toInfo now)).1.held p.key = some (p.toInfo now) := by
          rw [heq, held_store]
          exact if_pos rfl
        exact exists_held_combineAll hst L now
    · exact ih hp _

theorem held_of_combineAll (h : (is.combineAll L now).held k = some info) :
    is.held k = some info ∨ ∃ p ∈ L, p.key = k ∧ info = p.toInfo now := by
  induction L generalizing is with
  | nil => exact .inl h
  | cons p L ih =>
    rw [combineAll_cons] at h
    rcases ih h with hheld | ⟨q, hq, hk, heq⟩
    · rcases is.combine_cases (p.toInfo now) with ⟨_, _, _, heq⟩ | ⟨-, heq⟩
      · exact .inl (heq ▸ hheld)
      · rw [heq, held_store] at hheld
        split at hheld
        · rename_i hk
          exact .inr ⟨p, mem_cons_self, hk.symm, (Option.some.inj hheld).symm⟩
        · exact .inl hheld
    · exact .inr ⟨q, mem_cons_of_mem _ hq, hk, heq⟩

theorem le_mark_combineAll (is : InfoStore) (L : List PbInfo) (now : ℤ) (n : Int32) :
    is.mark n ≤ (is.combineAll L now).mark n := by
  induction L generalizing is with
  | nil => exact le_rfl
  | cons p L ih =>
    refine le_trans ?_ (ih (is.combine (p.toInfo now)).1)
    rcases is.combine_cases (p.toInfo now) with ⟨_, _, _, heq⟩ | ⟨-, heq⟩
    · rw [heq]
    · rw [heq]
      exact le_mark_store is _ n

/-- A mark that rises is the sequence number of something merged. -/
theorem mark_combineAll (is : InfoStore) (L : List PbInfo) (now : ℤ) (n : Int32) :
    (is.combineAll L now).mark n = is.mark n ∨
      ∃ p ∈ L, p.nodeID = n ∧ p.origStamp = (is.combineAll L now).mark n := by
  induction L generalizing is with
  | nil => exact .inl rfl
  | cons p L ih =>
    rcases ih (is.combine (p.toInfo now)).1 with heq | ⟨q, hq, hn, heq⟩
    · rcases is.combine_cases (p.toInfo now) with ⟨_, _, _, hc⟩ | ⟨-, hc⟩
      · exact .inl (by rw [combineAll_cons, heq, hc])
      · rw [combineAll_cons, heq, hc, mark_store]
        by_cases hn : n = (p.toInfo now).nodeID
        · rw [if_pos hn]
          rcases max_choice (is.mark n) (p.toInfo now).origStamp with hm | hm
          · exact .inl hm
          · exact .inr ⟨p, mem_cons_self, hn.symm, hm.symm⟩
        · rw [if_neg hn]
          exact .inl rfl
    · exact .inr ⟨q, mem_cons_of_mem _ hq, hn, heq⟩

end CombineAll

end InfoStore

end DucklingDB.Gossip
