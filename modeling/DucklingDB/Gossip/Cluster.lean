import DucklingDB.Gossip.InfoStore
import DucklingDB.Util.Along
import Mathlib.Logic.Function.Basic

/-!
# Stores that gossip

Any number of stores that publish infos, send each other what they hold and answer with what the
other one lacks. Messages and replies are never taken back, so that they may be delayed, reordered,
repeated or lost. The two captures of a message (`AllInfos`, then `HighWater`) are two steps, as are
the two halves of `AddInfo`: the sequence number is drawn before the lock of the store is taken.

## The invariant

A reply leaves out what is below the high-water marks of the message, so the marks have to be
*honest*: a store with the mark `h` for a node holds everything that node has published up to `h`.
What makes this an invariant is that everything on its way is `Whole`: a list of infos that is
merged into a store with the marks `low` has, for each node, everything from `low` up to the newest
one in it.

The publications of a node must not overlap. A sequence number that is drawn first and stored second
leaves a gap, and whoever gossips in between takes the mark but not the info (`exists_not_honest`).
-/

namespace DucklingDB.Gossip

open Function InfoStore List Nat

structure Cluster where
  store : Int32 → InfoStore := fun _ ↦ {}
  /-- Infos that have a sequence number and are not stored yet. -/
  pending : List Info := []
  /-- What a node has captured with `AllInfos`, for a message. -/
  drafts : List (Int32 × List PbInfo) := []
  messages : List GossipMessage := []
  /-- The replies, with the node that they go to. -/
  replies : List (Int32 × List PbInfo) := []
  /-- All infos that `AddInfo` has stored. -/
  published : List Info := []

inductive Action where
  | draw (i : Int32) (key : String) (val : Bytes) (ttl now : ℤ)
  | publish (info : Info)
  | capture (i : Int32) (now : ℤ)
  | send (draft : Int32 × List PbInfo)
  | receive (j : Int32) (m : GossipMessage) (order : List PbInfo) (now : ℤ)
  | answer (j : Int32) (m : GossipMessage) (now : ℤ)
  | merge (reply : Int32 × List PbInfo) (order : List PbInfo) (now : ℤ)
  | restart (i : Int32)

namespace Cluster

def setStore (c : Cluster) (i : Int32) (is : InfoStore) : Cluster :=
  { c with store := update c.store i is }

def act (c : Cluster) : Action → Cluster
  | .draw i key val ttl now =>
    let (is, info) := (c.store i).draw key val ttl i now
    { c.setStore i is with pending := info :: c.pending }
  | .publish info =>
    if info ∈ c.pending then
      { c.setStore info.nodeID ((c.store info.nodeID).store info) with
        pending := c.pending.erase info
        published := info :: c.published }
    else c
  | .capture i now =>
    { c with drafts := (i, ((c.store i).allInfos now).map Info.toProto) :: c.drafts }
  | .send draft =>
    if draft ∈ c.drafts then
      { c with messages := ⟨draft.1, draft.2, (c.store draft.1).highWater⟩ :: c.messages }
    else c
  | .receive j m order now =>
    if m ∈ c.messages ∧ order.Perm m.delta then c.setStore j ((c.store j).combineAll order now)
      else c
  | .answer j m now =>
    if m ∈ c.messages then
      { c with
        replies := (m.nodeID, ((c.store j).delta m.highWater now).map Info.toProto) :: c.replies }
    else c
  | .merge reply order now =>
    if reply ∈ c.replies ∧ order.Perm reply.2 then
      c.setStore reply.1 ((c.store reply.1).combineAll order now)
    else c
  | .restart i =>
    -- the process takes its half-done publications, its drafts and its open streams with it
    { c.setStore i {} with
      pending := c.pending.filter fun info ↦ info.nodeID ≠ i
      drafts := c.drafts.filter fun d ↦ d.1 ≠ i
      replies := c.replies.filter fun r ↦ r.1 ≠ i }

/-- Every key is written by one node, infos never expire, and nobody restarts. -/
def Allowed (owner : String → Int32) : Action → Prop
  | .draw i key _ ttl _ => owner key = i ∧ ttl ≤ 0
  | .restart _ => False
  | _ => True

/-- A node draws no sequence number while another info of it has one and is not stored. -/
def Separate (c : Cluster) : Action → Prop
  | .draw i _ _ _ _ => ∀ info ∈ c.pending, info.nodeID ≠ i
  | _ => True

instance (owner : String → Int32) : (a : Action) → Decidable (Allowed owner a)
  | .draw _ _ _ _ _ => inferInstanceAs (Decidable (_ ∧ _))
  | .restart _ => inferInstanceAs (Decidable False)
  | .publish _ | .capture _ _ | .send _ | .receive _ _ _ _ | .answer _ _ _ | .merge _ _ _ =>
    inferInstanceAs (Decidable True)

instance (c : Cluster) : (a : Action) → Decidable (c.Separate a)
  | .draw i _ _ _ _ => inferInstanceAs (Decidable (∀ info ∈ c.pending, info.nodeID ≠ i))
  | .publish _ | .capture _ _ | .send _ | .receive _ _ _ _ | .answer _ _ _ | .merge _ _ _
  | .restart _ =>
    inferInstanceAs (Decidable True)

/-- The marks are honest. For each published info up to the mark of its node, the store holds that
info or a newer one of the same key and node. What is left out of an answer, to the marks of a store
or to those in a message of it, is then something that the store has, or has something newer for. -/
structure Honest (c : Cluster) : Prop where
  covered : ∀ i, ∀ x ∈ c.published, x.origStamp ≤ (c.store i).mark x.nodeID →
    ∃ y, (c.store i).held x.key = some y ∧ ∃ z ∈ c.published, z.key = x.key ∧ z.nodeID = x.nodeID ∧
      y.toProto = z.toProto ∧ (z = x ∨ x.origStamp < z.origStamp)
  answered : ∀ i j k x now, (c.store j).held k = some x →
    x ∈ (c.store j).delta (c.store i).highWater now ∨
      ∃ y, (c.store i).held k = some y ∧ x.origStamp ≤ y.origStamp
  answered_message : ∀ m ∈ c.messages, ∀ j k x now, (c.store j).held k = some x →
    x ∈ (c.store j).delta m.highWater now ∨
      ∃ y, (c.store m.nodeID).held k = some y ∧ x.origStamp ≤ y.origStamp

/-! ## What is on its way -/

/-- `s` is a sequence number of `n` that has been published, or zero. -/
def Seen (P : List Info) (n : Int32) (s : ℕ) : Prop :=
  s = 0 ∨ ∃ x ∈ P, x.nodeID = n ∧ x.origStamp = s

/-- `A` has everything that was published above `low`, up to the newest it has. -/
structure Whole (P : List Info) (low : Int32 → ℕ) (A : List PbInfo) : Prop where
  genuine : ∀ p ∈ A, ∃ x ∈ P, x.toProto = p ∧ x.ttl ≤ 0
  covers : ∃ top : Int32 → ℕ, (∀ n, Seen P n (top n)) ∧ (∀ p ∈ A, p.origStamp ≤ top p.nodeID) ∧
    ∀ x ∈ P, low x.nodeID < x.origStamp → x.origStamp ≤ top x.nodeID →
      ∃ p ∈ A, p.key = x.key ∧ x.origStamp ≤ p.origStamp

section Whole

variable {P : List Info} {low : Int32 → ℕ} {A B : List PbInfo} {x : Info}

theorem Seen.cons {n : Int32} {s : ℕ} (h : Seen P n s) (x : Info) : Seen (x :: P) n s :=
  h.imp_right fun ⟨y, hy, hs⟩ ↦ ⟨y, mem_cons_of_mem _ hy, hs⟩

theorem Whole.perm (h : Whole P low A) (hp : B.Perm A) : Whole P low B := by
  obtain ⟨hg, top, hseen, hle, hc⟩ := h
  refine ⟨fun p hpB ↦ hg p (hp.mem_iff.mp hpB), top, hseen, fun p hpB ↦ hle p (hp.mem_iff.mp hpB),
    fun x hx hlow htop ↦ ?_⟩
  obtain ⟨p, hpA, hk⟩ := hc x hx hlow htop
  exact ⟨p, hp.mem_iff.mpr hpA, hk⟩

/-- An info that is newer than everything published before it is in no list that was whole without
it. -/
theorem Whole.cons (h : Whole P low A) (hx : ∀ s, Seen P x.nodeID s → s < x.origStamp) :
    Whole (x :: P) low A := by
  obtain ⟨hg, top, hseen, hle, hc⟩ := h
  refine ⟨fun p hp ↦ ?_, top, fun n ↦ (hseen n).cons x, hle, fun y hy hlow htop ↦ ?_⟩
  · obtain ⟨y, hy, hp⟩ := hg p hp
    exact ⟨y, mem_cons_of_mem _ hy, hp⟩
  · rcases mem_cons.mp hy with rfl | hy
    · exact absurd (hx _ (hseen y.nodeID)) (not_lt.mpr htop)
    · exact hc y hy hlow htop

theorem expired_eq_false (h : x.ttl ≤ 0) (now : ℤ) : x.expired now = false := by
  rw [Info.expired, decide_eq_false (not_lt.mpr h), Bool.false_and]

theorem toInfo_toProto (h : x.ttl ≤ 0) (now : ℤ) :
    (x.toProto.toInfo now).toProto = x.toProto ∧ (x.toProto.toInfo now).ttl ≤ 0 := by
  simp [Info.toProto, PbInfo.toInfo, not_lt.mpr h]

end Whole

/-! ## The invariant -/

structure Inv (owner : String → Int32) (c : Cluster) : Prop where
  wellFormed : ∀ i, (c.store i).WellFormed
  origin : ∀ x ∈ c.published, x.nodeID = owner x.key
  /-- A node has numbered what it has published, and has seen it. -/
  numbered : ∀ x ∈ c.published, x.origStamp ≤ (c.store x.nodeID).seqGen
  home : ∀ x ∈ c.published, x.origStamp ≤ (c.store x.nodeID).mark x.nodeID
  distinct : ∀ x ∈ c.published, ∀ y ∈ c.published, x.nodeID = y.nodeID → x.origStamp = y.origStamp →
    x = y
  /-- What is pending has the last number of its node. -/
  pending : ∀ x ∈ c.pending, x.nodeID = owner x.key ∧ x.ttl ≤ 0 ∧
    x.origStamp = (c.store x.nodeID).seqGen ∧ ∀ s, Seen c.published x.nodeID s → s < x.origStamp
  alone : c.pending.Pairwise fun x y ↦ x.nodeID ≠ y.nodeID
  genuine : ∀ i {k y}, (c.store i).held k = some y →
    y.ttl ≤ 0 ∧ ∃ x ∈ c.published, x.toProto = y.toProto ∧ x.ttl ≤ 0
  seen : ∀ i n, Seen c.published n ((c.store i).mark n)
  covered : ∀ i, ∀ x ∈ c.published, x.origStamp ≤ (c.store i).mark x.nodeID →
    ∃ y, (c.store i).held x.key = some y ∧ x.origStamp ≤ y.origStamp
  drafts : ∀ d ∈ c.drafts, Whole c.published (fun _ ↦ 0) d.2
  messages : ∀ m ∈ c.messages, Whole c.published (fun _ ↦ 0) m.delta ∧
    ∀ n, m.highWater.get n 0 ≤ (c.store m.nodeID).mark n
  replies : ∀ r ∈ c.replies, ∃ low, (∀ n, low n ≤ (c.store r.1).mark n) ∧ Whole c.published low r.2

variable {owner : String → Int32} {c : Cluster}

theorem inv_init (owner : String → Int32) : Inv owner {} where
  wellFormed _ := wellFormed_new
  origin _ h := by cases h
  numbered _ h := by cases h
  home _ h := by cases h
  distinct _ h := by cases h
  pending _ h := by cases h
  alone := List.Pairwise.nil
  genuine _ _ _ h := by simp [held] at h
  seen _ _ := .inl rfl
  covered _ _ h := by cases h
  drafts _ h := by cases h
  messages _ h := by cases h
  replies _ h := by cases h

section

variable (h : Inv owner c)
include h

/-- What is held under a key comes from the owner of the key. -/
theorem Inv.nodeID_eq {i : Int32} {k : String} {y : Info} (hy : (c.store i).held k = some y) :
    y.nodeID = owner k := by
  obtain ⟨-, x, hx, hxy, -⟩ := h.genuine i hy
  have hkey : x.key = y.key := congrArg PbInfo.key hxy
  have hnode : x.nodeID = y.nodeID := congrArg PbInfo.nodeID hxy
  rw [← hnode, h.origin x hx, hkey, (h.wellFormed i).keyed hy]

theorem Inv.pending_ne {x y : Info} (hx : x ∈ c.pending) (hy : y ∈ c.pending.erase x) :
    x.nodeID ≠ y.nodeID := by
  have hperm := perm_cons_erase hx
  have halone : (x :: c.pending.erase x).Pairwise fun x y ↦ x.nodeID ≠ y.nodeID :=
    (hperm.pairwise_iff fun hne ↦ hne.symm).mp h.alone
  exact (pairwise_cons.mp halone).1 y hy

/-- The invariant makes the marks honest. -/
theorem Inv.honest : c.Honest := by
  -- what an answer leaves out is up to the marks, and so is held
  have hanswered : ∀ (hw : GoMap Int32 ℕ) (i : Int32), (∀ n, hw.get n 0 ≤ (c.store i).mark n) →
      ∀ j k x now, (c.store j).held k = some x → x ∈ (c.store j).delta hw now ∨
        ∃ y, (c.store i).held k = some y ∧ x.origStamp ≤ y.origStamp := by
    intro hw i hle j k x now hx
    by_cases hlt : hw.get x.nodeID 0 < x.origStamp
    · exact .inl (mem_delta.mpr ⟨⟨k, hx⟩, expired_eq_false (h.genuine j hx).1 now, hlt⟩)
    · obtain ⟨-, z, hz, hzx, -⟩ := h.genuine j hx
      have hstamp : z.origStamp = x.origStamp := congrArg PbInfo.origStamp hzx
      have hkey : z.key = k := (congrArg PbInfo.key hzx).trans ((h.wellFormed j).keyed hx)
      have hnode : z.nodeID = x.nodeID := congrArg PbInfo.nodeID hzx
      obtain ⟨y, hy, hzy⟩ :=
        h.covered i z hz (hstamp ▸ hnode ▸ (not_lt.mp hlt).trans (hle x.nodeID))
      exact .inr ⟨y, hkey ▸ hy, hstamp ▸ hzy⟩
  refine ⟨fun i x hx hle ↦ ?_, fun i ↦ hanswered _ i fun n ↦ le_rfl,
    fun m hm ↦ hanswered _ _ (h.messages m hm).2⟩
  obtain ⟨y, hy, hxy⟩ := h.covered i x hx hle
  obtain ⟨-, z, hz, hzy, -⟩ := h.genuine i hy
  have hkey : z.key = x.key := (congrArg PbInfo.key hzy).trans ((h.wellFormed i).keyed hy)
  have hnode : z.nodeID = x.nodeID := by rw [h.origin z hz, h.origin x hx, hkey]
  have hstamp : z.origStamp = y.origStamp := congrArg PbInfo.origStamp hzy
  refine ⟨y, hy, z, hz, hkey, hnode, hzy.symm, ?_⟩
  rcases (hstamp ▸ hxy : x.origStamp ≤ z.origStamp).eq_or_lt with heq | hlt
  · exact .inl (h.distinct z hz x hx hnode heq.symm)
  · exact .inr hlt

/-! ## The steps -/

/-- What a store sends is whole, from the marks it is asked for up to its own. -/
theorem Inv.whole (i : Int32) {low : Int32 → ℕ} {L : List Info}
    (hheld : ∀ y ∈ L, ∃ k, (c.store i).held k = some y)
    (hall : ∀ k y, (c.store i).held k = some y → low y.nodeID < y.origStamp → y ∈ L) :
    Whole c.published low (L.map Info.toProto) := by
  refine ⟨fun p hp ↦ ?_, (c.store i).mark, h.seen i, fun p hp ↦ ?_, fun x hx hlow htop ↦ ?_⟩
  · obtain ⟨y, hy, rfl⟩ := mem_map.mp hp
    obtain ⟨k, hk⟩ := hheld y hy
    exact (h.genuine i hk).2
  · obtain ⟨y, hy, rfl⟩ := mem_map.mp hp
    obtain ⟨k, hk⟩ := hheld y hy
    exact (h.wellFormed i).le_mark hk
  · obtain ⟨y, hy, hle⟩ := h.covered i x hx htop
    have hnode : y.nodeID = x.nodeID := by rw [h.nodeID_eq hy, h.origin x hx]
    have hin : y ∈ L := hall x.key y hy (hnode ▸ hlow.trans_le hle)
    exact ⟨y.toProto, mem_map_of_mem hin, (h.wellFormed i).keyed hy, hle⟩

theorem Inv.capture (i : Int32) (now : ℤ) : Inv owner (c.act (.capture i now)) := by
  refine { h with drafts := forall_mem_cons.mpr ⟨h.whole i (fun y hy ↦ ?_) fun k y hy _ ↦ ?_,
    h.drafts⟩ }
  · exact (mem_allInfos.mp hy).1
  · exact mem_allInfos.mpr ⟨⟨k, hy⟩, expired_eq_false (h.genuine i hy).1 now⟩

theorem Inv.send (draft : Int32 × List PbInfo) : Inv owner (c.act (.send draft)) := by
  rw [act]
  split
  · rename_i hd
    exact { h with messages := forall_mem_cons.mpr ⟨⟨h.drafts draft hd, fun _ ↦ le_rfl⟩,
      h.messages⟩ }
  · exact h

theorem Inv.answer (j : Int32) (m : GossipMessage) (now : ℤ) :
    Inv owner (c.act (.answer j m now)) := by
  rw [act]
  split
  · rename_i hm
    refine { h with replies := forall_mem_cons.mpr ⟨⟨fun n ↦ m.highWater.get n 0,
      (h.messages m hm).2, h.whole j (fun y hy ↦ ?_) fun k y hy hlow ↦ ?_⟩, h.replies⟩ }
    · exact (mem_delta.mp hy).1
    · exact mem_delta.mpr ⟨⟨k, hy⟩, expired_eq_false (h.genuine j hy).1 now, hlow⟩
  · exact h

end

variable {i : Int32}

/-- What holds of the new store, and of the old ones at their nodes. -/
@[elab_as_elim]
theorem forall_setStore {P : Int32 → InfoStore → Prop} {is : InfoStore} (hi : P i is)
    (h : ∀ n, P n (c.store n)) (n : Int32) : P n ((c.setStore i is).store n) := by
  simp only [setStore, update_apply]
  split
  · rename_i hn
    exact hn ▸ hi
  · exact h n

section

variable (h : Inv owner c)
include h

theorem Inv.draw {key : String} {ttl : ℤ} (val : Bytes) (now : ℤ)
    (howner : owner key = i) (httl : ttl ≤ 0) (hsep : ∀ info ∈ c.pending, info.nodeID ≠ i) :
    Inv owner (c.act (.draw i key val ttl now)) := by
  -- only the sequence number of the node changes
  have hact : c.act (.draw i key val ttl now) = { c with
      store n := { c.store n with seqGen := (c.store n).seqGen + if n = i then 1 else 0 }
      pending := ((c.store i).draw key val ttl i now).2 :: c.pending } := by
    simp only [act, setStore, Cluster.mk.injEq, and_true]
    funext n
    by_cases hn : n = i
    · subst hn
      rw [update_self, if_pos rfl, draw]
    · rw [update_of_ne hn, if_neg hn, add_zero]
  rw [hact]
  refine { h with
    wellFormed := fun n ↦ ⟨(h.wellFormed n).keyed, (h.wellFormed n).le_mark⟩
    numbered := fun x hx ↦ (h.numbered x hx).trans (le_add_right _ _)
    pending := forall_mem_cons.mpr ⟨⟨howner.symm, httl, ?_, fun s hs ↦ ?_⟩, fun x hx ↦ ?_⟩
    alone := pairwise_cons.mpr ⟨fun x hx ↦ (hsep x hx).symm, h.alone⟩ }
  · exact congrArg ((c.store i).seqGen + ·) (if_pos rfl).symm
  · rcases hs with rfl | ⟨y, hy, hn, rfl⟩
    · exact succ_pos _
    · exact lt_succ_of_le ((h.numbered y hy).trans_eq (by rw [hn]; rfl))
  · dsimp only
    rw [if_neg (hsep x hx)]
    exact h.pending x hx

theorem Inv.publish (info : Info) : Inv owner (c.act (.publish info)) := by
  rw [act]
  split
  case isFalse => exact h
  case isTrue hpend =>
  obtain ⟨howner, httl, hstamp, hnew⟩ := h.pending info hpend
  set c' : Cluster := { c.setStore info.nodeID ((c.store info.nodeID).store info) with
    pending := c.pending.erase info, published := info :: c.published } with hc'
  have hstore : c'.store = (c.setStore info.nodeID ((c.store info.nodeID).store info)).store := rfl
  have hle : ∀ n m, (c.store n).mark m ≤ (c'.store n).mark m := by
    rw [hstore]
    exact fun n ↦ forall_setStore (le_mark_store _ info) (fun _ _ ↦ le_rfl) n
  have hseq : ∀ n, (c'.store n).seqGen = (c.store n).seqGen := by
    rw [hstore]
    exact fun n ↦ forall_setStore rfl (fun _ ↦ rfl) n
  have hself : c'.store info.nodeID = (c.store info.nodeID).store info := update_self _ _ _
  constructor
  case wellFormed => exact fun n ↦ forall_setStore ((h.wellFormed _).store info) h.wellFormed n
  case origin => exact forall_mem_cons.mpr ⟨howner, h.origin⟩
  case numbered =>
    refine forall_mem_cons.mpr ⟨?_, fun x hx ↦ ?_⟩
    · rw [hseq, hstamp]
    · rw [hseq]
      exact h.numbered x hx
  case home =>
    refine forall_mem_cons.mpr ⟨?_, fun x hx ↦ (h.home x hx).trans (hle _ _)⟩
    rw [hself, mark_store, if_pos rfl]
    exact le_max_right _ _
  case distinct =>
    -- the new number is larger than the others of the node
    have hne : ∀ y ∈ c.published, info.nodeID = y.nodeID → info.origStamp ≠ y.origStamp :=
      fun y hy hn ↦ (hnew _ (.inr ⟨y, hy, hn.symm, rfl⟩)).ne'
    refine forall_mem_cons.mpr ⟨forall_mem_cons.mpr ⟨fun _ _ ↦ rfl, fun y hy hn hs ↦ ?_⟩,
      fun x hx ↦ forall_mem_cons.mpr ⟨fun hn hs ↦ ?_, h.distinct x hx⟩⟩
    · exact absurd hs (hne y hy hn)
    · exact absurd hs.symm (hne x hx hn.symm)
  case pending =>
    intro x hx
    obtain ⟨hxo, hxt, hxs, hxn⟩ := h.pending x (mem_of_mem_erase hx)
    refine ⟨hxo, hxt, by rw [hseq, hxs], fun s hs ↦ ?_⟩
    rcases hs with rfl | ⟨y, hy, hn, rfl⟩
    · exact hxn 0 (.inl rfl)
    · rcases mem_cons.mp hy with rfl | hy
      · exact absurd hn (h.pending_ne hpend hx)
      · exact hxn _ (.inr ⟨y, hy, hn, rfl⟩)
  case alone => exact h.alone.sublist erase_sublist
  case genuine =>
    have hold : ∀ n {k y}, (c.store n).held k = some y →
        y.ttl ≤ 0 ∧ ∃ x ∈ info :: c.published, x.toProto = y.toProto ∧ x.ttl ≤ 0 := by
      intro n k y hy
      obtain ⟨hy, x, hx, hxy⟩ := h.genuine n hy
      exact ⟨hy, x, mem_cons_of_mem _ hx, hxy⟩
    refine fun n {k y} ↦ forall_setStore (fun hy ↦ ?_) (fun n ↦ hold n) n
    rw [held_store] at hy
    split at hy
    · cases hy
      exact ⟨httl, info, mem_cons_self, rfl, httl⟩
    · exact hold _ hy
  case seen =>
    refine fun n ↦ forall_setStore (fun m ↦ ?_) (fun n m ↦ (h.seen n m).cons info) n
    rw [mark_store]
    split
    · rename_i hm
      rcases max_choice ((c.store info.nodeID).mark m) info.origStamp with hmax | hmax
      · rw [hmax]
        exact (h.seen _ m).cons info
      · rw [hmax]
        exact .inr ⟨info, mem_cons_self, hm.symm, rfl⟩
    · exact (h.seen _ m).cons info
  case covered =>
    refine fun n ↦ forall_setStore (forall_mem_cons.mpr ⟨fun _ ↦ ?_, fun x hx hxle ↦ ?_⟩)
      (fun n ↦ forall_mem_cons.mpr ⟨fun hxle ↦ ?_, h.covered n⟩) n
    · exact ⟨info, by rw [held_store, if_pos rfl], le_rfl⟩
    · have hxmark : x.origStamp ≤ (c.store info.nodeID).mark x.nodeID := by
        rw [mark_store] at hxle
        split at hxle
        · rename_i hn
          exact (h.home x hx).trans_eq (by rw [hn])
        · exact hxle
      obtain ⟨y, hy, hxy⟩ := h.covered _ x hx hxmark
      rw [held_store]
      split
      · rename_i hk
        have hnode : x.nodeID = info.nodeID := by rw [h.origin x hx, howner, hk]
        exact ⟨info, rfl, (hnew _ (.inr ⟨x, hx, hnode, rfl⟩)).le⟩
      · exact ⟨y, hy, hxy⟩
    · -- nobody but the node itself has the new mark
      exact absurd (hnew _ (h.seen n info.nodeID)) (not_lt.mpr hxle)
  case drafts => exact fun d hd ↦ (h.drafts d hd).cons hnew
  case messages =>
    exact fun m hm ↦ ⟨(h.messages m hm).1.cons hnew,
      fun n ↦ ((h.messages m hm).2 n).trans (hle _ _)⟩
  case replies =>
    intro r hr
    obtain ⟨low, hlow, hw⟩ := h.replies r hr
    exact ⟨low, fun n ↦ (hlow n).trans (hle _ _), hw.cons hnew⟩

/-- Merging what is whole from the marks of the store on. -/
theorem Inv.combineAll {low : Int32 → ℕ} {L : List PbInfo}
    (hlow : ∀ n, low n ≤ (c.store i).mark n) (hL : Whole c.published low L) (now : ℤ) :
    Inv owner (c.setStore i ((c.store i).combineAll L now)) := by
  have hle : ∀ n m, (c.store n).mark m ≤
      ((c.setStore i ((c.store i).combineAll L now)).store n).mark m := fun n ↦
    forall_setStore (le_mark_combineAll (c.store i) L now) (fun _ _ ↦ le_rfl) n
  have hseq : ∀ n, ((c.setStore i ((c.store i).combineAll L now)).store n).seqGen =
      (c.store n).seqGen := fun n ↦
    forall_setStore (seqGen_combineAll (c.store i) L now) (fun _ ↦ rfl) n
  constructor
  case wellFormed =>
    exact fun n ↦ forall_setStore ((h.wellFormed i).combineAll L now) h.wellFormed n
  case origin => exact h.origin
  case numbered =>
    intro x hx
    rw [hseq]
    exact h.numbered x hx
  case home => exact fun x hx ↦ (h.home x hx).trans (hle _ _)
  case distinct => exact h.distinct
  case pending =>
    intro x hx
    rw [hseq]
    exact h.pending x hx
  case alone => exact h.alone
  case genuine =>
    refine fun n {k y} ↦ forall_setStore (fun hy ↦ ?_) (fun n ↦ h.genuine n) n
    rcases held_of_combineAll hy with hy | ⟨p, hp, -, rfl⟩
    · exact h.genuine i hy
    · obtain ⟨x, hx, rfl, httl⟩ := hL.genuine p hp
      obtain ⟨heq, httl'⟩ := toInfo_toProto httl now
      exact ⟨httl', x, hx, heq.symm, httl⟩
  case seen =>
    refine fun n ↦ forall_setStore (fun m ↦ ?_) h.seen n
    rcases (c.store i).mark_combineAll L now m with heq | ⟨p, hp, hn, hs⟩
    · rw [heq]
      exact h.seen i m
    · obtain ⟨x, hx, rfl, -⟩ := hL.genuine p hp
      exact .inr ⟨x, hx, hn, hs⟩
  case covered =>
    refine fun n ↦ forall_setStore (fun x hx hxle ↦ ?_) h.covered n
    -- below the old mark the store has it, above it the list does
    by_cases hold : x.origStamp ≤ (c.store i).mark x.nodeID
    · obtain ⟨y, hy, hxy⟩ := h.covered i x hx hold
      obtain ⟨z, hz, hyz⟩ := exists_held_combineAll hy L now
      exact ⟨z, hz, hxy.trans hyz⟩
    · obtain ⟨top, -, htop, hcovers⟩ := hL.covers
      rcases (c.store i).mark_combineAll L now x.nodeID with heq | ⟨p, hp, hpn, hps⟩
      · exact absurd (heq ▸ hxle) hold
      · have hxtop : x.origStamp ≤ top x.nodeID := hxle.trans (hps ▸ hpn ▸ htop p hp)
        obtain ⟨q, hq, hqk, hxq⟩ := hcovers x hx ((hlow _).trans_lt (not_le.mp hold)) hxtop
        obtain ⟨z, hz, hqz⟩ := exists_held_of_mem hq (c.store i) now
        exact ⟨z, hqk ▸ hz, hxq.trans hqz⟩
  case drafts => exact h.drafts
  case messages =>
    exact fun m hm ↦ ⟨(h.messages m hm).1, fun n ↦ ((h.messages m hm).2 n).trans (hle _ _)⟩
  case replies =>
    intro r hr
    obtain ⟨low', hlow', hw⟩ := h.replies r hr
    exact ⟨low', fun n ↦ (hlow' n).trans (hle _ _), hw⟩

/-- **One step keeps the invariant.** -/
theorem Inv.act {a : Action} (ha : Allowed owner a) (hsep : c.Separate a) :
    Inv owner (c.act a) := by
  cases a with
  | draw i key val ttl now => exact h.draw val now ha.1 ha.2 hsep
  | publish info => exact h.publish info
  | capture i now => exact h.capture i now
  | send draft => exact h.send draft
  | receive j m order now =>
    rw [Cluster.act]
    split
    · rename_i hm
      exact h.combineAll (fun n ↦ zero_le _) ((h.messages m hm.1).1.perm hm.2) now
    · exact h
  | answer j m now => exact h.answer j m now
  | merge reply order now =>
    rw [Cluster.act]
    split
    · rename_i hr
      obtain ⟨low, hlow, hw⟩ := h.replies reply hr.1
      exact h.combineAll hlow (hw.perm hr.2) now
    · exact h
  | restart i => exact absurd ha id

end

/-- **High-water marks are honest** in every state that is reached by publishing and gossiping, as
long as the publications of a node do not overlap. -/
theorem highWater_honest {acts : List Action}
    (h : Along act (fun c a ↦ Allowed owner a ∧ c.Separate a) {} acts) :
    (acts.foldl act {}).Honest :=
  (h.invariant (inv_init owner) fun _ _ hinv ha ↦ hinv.act ha.1 ha.2).honest

/-- The descriptor and the liveness record of node `1`. -/
def descInfo (stamp : ℕ) : Info := ⟨"node-desc:1", [1], stamp, 1, 0, 0⟩

def livenessInfo (stamp : ℕ) : Info := ⟨"node-liveness:1", [2], stamp, 1, 0, 0⟩

/-- Two publications one after the other, and a message that has both. -/
def inTurn : List Action :=
  let message : GossipMessage :=
    ⟨1, [(livenessInfo 2).toProto, (descInfo 1).toProto], AList.insert 1 2 ∅⟩
  [.draw 1 "node-desc:1" [1] 0 0, .publish (descInfo 1), .draw 1 "node-liveness:1" [2] 0 0,
    .publish (livenessInfo 2), .capture 1 0, .send (1, message.delta),
    .receive 2 message message.delta 0, .answer 2 message 0]

theorem highWater_honest_inTurn :
    Along act (fun c a ↦ Allowed (fun _ ↦ 1) a ∧ c.Separate a) {} inTurn ∧
      (inTurn.foldl act {}).Honest := by
  have h : Along act (fun c a ↦ Allowed (fun _ ↦ 1) a ∧ c.Separate a) {} inTurn := by decide +kernel
  exact ⟨h, highWater_honest h⟩

/-- The node draws the number of its descriptor, then that of its liveness record, and stores the
latter first; a message goes out before it stores the descriptor. -/
def overlapping : List Action :=
  let message : GossipMessage := ⟨1, [(livenessInfo 2).toProto], AList.insert 1 2 ∅⟩
  [.draw 1 "node-desc:1" [1] 0 0, .draw 1 "node-liveness:1" [2] 0 0, .publish (livenessInfo 2),
    .capture 1 0, .send (1, message.delta), .receive 2 message message.delta 0,
    .publish (descInfo 1)]

/-- The receiver has the mark `2` and not the info numbered `1`, which no answer will have for
it. -/
theorem exists_not_honest : Along act (fun _ ↦ Allowed fun _ ↦ 1) {} overlapping ∧
    ¬ (overlapping.foldl act {}).Honest := by
  refine ⟨by decide +kernel, fun h ↦ ?_⟩
  have hrun : descInfo 1 ∈ (overlapping.foldl act {}).published ∧
      (descInfo 1).origStamp ≤ ((overlapping.foldl act {}).store 2).mark (descInfo 1).nodeID ∧
      ((overlapping.foldl act {}).store 2).held (descInfo 1).key = none := by decide +kernel
  obtain ⟨y, hy, -⟩ := h.covered 2 (descInfo 1) hrun.1 hrun.2.1
  cases hrun.2.2.symm.trans hy

end Cluster

end DucklingDB.Gossip
