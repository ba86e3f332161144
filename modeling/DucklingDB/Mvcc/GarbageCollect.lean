import DucklingDB.Mvcc.Summary

/-!
# Garbage collection

`gc.go`: of each raw key only the newest version and the versions above the threshold are kept, and
a key whose newest version is a tombstone at or below the threshold is dropped altogether.

## What a reader above the threshold notices

The rules keep *the newest version of the key*, not the newest one at or below the threshold. A read
between the threshold and the oldest version above it was served by a version that is now gone. That
is what the rules say, and `get_garbageCollect` says that it is all that happens to a key without
intent.

The rules do not look at intents. An uncommitted version counts as the current state, so the
committed one beneath it is dropped, and an abort then has nothing to go back to; an uncommitted
tombstone at or below the threshold takes the whole key with it. `exists_get_garbageCollect_ne` has
an instance of each.
-/

namespace DucklingDB.Mvcc

open Hlc Bytes SortedMap Timestamp List Option Mvcc

/-! ## The code -/

structure VersionInfo where
  timestamp : Timestamp
  isTombstone : Bool
  deriving DecidableEq, Repr

/-- The loop of `collectVersions`: as long as the iterator stands at versions of `key`. -/
def versionsFrom (key : Bytes) : List (Bytes × Bytes) → List VersionInfo
  | [] => []
  | (b, raw) :: L =>
    match decode b with
    | .error _ => []
    | .ok (found, versioned) =>
      if !versioned || found.key ≠ key then []
      else ⟨found.timestamp, (decodeMVCCValue raw).isNone⟩ :: versionsFrom key L

variable (e : Engine)

/-- `collectVersions`, newest first. -/
def collectVersions (key : Bytes) : Except KeyError (List VersionInfo) :=
  match e.seek (encodeMeta key) with
  | [] => .ok []
  | (b, raw) :: L =>
    match decode b with
    | .error err => .error err
    | .ok (found, versioned) =>
      if !versioned then .ok (versionsFrom key L)
      else if found.key ≠ key then .ok []
      else .ok (versionsFrom key ((b, raw) :: L))

/-- Delete versions of a key, one after the other. -/
def dropVersions (key : Bytes) (versions : List VersionInfo) : Engine :=
  versions.foldl (fun e v ↦ e.erase (encode ⟨key, v.timestamp⟩)) e

def gcKey (key : Bytes) (gcThreshold : Timestamp) : Except KeyError Engine :=
  match collectVersions e key with
  | .error err => .error err
  | .ok [] => .ok e
  | .ok (newest :: older) =>
    if newest.isTombstone && newest.timestamp.lessEq gcThreshold then
      .ok ((dropVersions e key (newest :: older)).erase (encodeMeta key))
    else .ok (dropVersions e key (older.filter fun v ↦ v.timestamp.lessEq gcThreshold))

/-- The loop of `MVCCGarbageCollect` over what the iterator has ahead of it. The iterator shows the
engine as it was when the iterator was made; `target` is where it was last sent, always forward. An
error leaves what has been deleted before it deleted. -/
def gcLoop (gcThreshold : Timestamp) :
    Bytes → List (Bytes × Bytes) → Engine → Engine × Option KeyError
  | _, [], e => (e, none)
  | target, (b, _) :: L, e =>
    if b < target then gcLoop gcThreshold target L e
    else
      match decode b with
      | .error _ => gcLoop gcThreshold target L e
      | .ok (found, versioned) =>
        if versioned then gcLoop gcThreshold target L e
        else
          match gcKey e found.key gcThreshold with
          | .error err => (e, some err)
          | .ok e => gcLoop gcThreshold (encodeMeta (nextKeyPrefix found.key)) L e

def mvccGarbageCollect (gcThreshold : Timestamp) : Engine × Option KeyError :=
  gcLoop gcThreshold [] e.entries e

/-! ## The versions that are collected -/

theorem eq_of_decode_meta {b : Bytes} {found : MVCCKey} (h : decode b = .ok (found, false)) :
    found.timestamp = {} ∧ b = encodeMeta found.key := by
  rw [decode] at h
  split at h
  · cases h
  · dsimp only at h
    split at h
    · cases h
    · split at h
      · rename_i hlast
        cases h
        obtain ⟨ys, rfl⟩ := getLast?_eq_some_iff.mp hlast
        exact ⟨rfl, by rw [dropLast_concat, encodeMeta]⟩
      · cases h

section Collecting

variable [MetadataCodec] {K : Set Bytes} {e e' e₁ : Engine} {k : Bytes} {G : Timestamp}

variable {L : List (Bytes × Bytes)}

/-- The loop of `collectVersions` ends at an entry that is no version of the key. -/
theorem Proper.versionsFrom_eq_nil (h : Proper K e) (hk : k ∈ K) {b raw : Bytes}
    (hb : e.get b = some raw) (hver : ¬ ∃ ts, Valid ts ∧ b = encode ⟨k, ts⟩) :
    versionsFrom k ((b, raw) :: L) = [] := by
  obtain ⟨found, versioned, hd, hno⟩ := h.decode_ne hk hb fun ts hts heq ↦ hver ⟨ts, hts, heq⟩
  simp only [versionsFrom, hd]
  rw [if_pos hno]

variable {v : VersionInfo}

omit [MetadataCodec] in
theorem versionsFrom_cons {ts : Timestamp} (hts : Valid ts) (raw : Bytes) :
    versionsFrom k ((encode ⟨k, ts⟩, raw) :: L) =
      ⟨ts, (decodeMVCCValue raw).isNone⟩ :: versionsFrom k L := by
  simp [versionsFrom, decode_encode k hts.2]

/-- `vs` are the versions of `k`, newest first. -/
structure Lists (e : Engine) (k : Bytes) (vs : List VersionInfo) : Prop where
  mem : ∀ v, v ∈ vs ↔ Valid v.timestamp ∧ ∃ raw, version e k v.timestamp = some raw ∧
    v.isTombstone = (decodeMVCCValue raw).isNone
  sorted : vs.Pairwise fun v w ↦ w.timestamp < v.timestamp

section

variable (h : Proper K e) (hk : k ∈ K) (hsorted : L.Pairwise fun a b ↦ a.1 < b.1)
  (hmem : ∀ x ∈ L, e.get x.1 = some x.2) (hlo : ∀ x ∈ L, encodeMeta k < x.1)
include h hk hsorted hmem hlo

/-- The loop of `collectVersions` finds the versions of the key that are ahead. -/
theorem Proper.versionsFrom_spec :
    (∀ v, v ∈ versionsFrom k L ↔ Valid v.timestamp ∧ ∃ raw, (encode ⟨k, v.timestamp⟩, raw) ∈ L ∧
      v.isTombstone = (decodeMVCCValue raw).isNone) ∧
    (versionsFrom k L).Pairwise fun v w ↦ w.timestamp < v.timestamp := by
  induction L with
  | nil => simp [versionsFrom]
  | cons x L ih =>
    obtain ⟨b, raw⟩ := x
    have hb : e.get b = some raw := hmem (b, raw) (.head _)
    obtain ⟨hhead, htail⟩ := pairwise_cons.mp hsorted
    by_cases hver : ∃ ts, Valid ts ∧ b = encode ⟨k, ts⟩
    · obtain ⟨ts, hts, rfl⟩ := hver
      obtain ⟨hfound, hdesc⟩ :=
        ih htail (fun x hx ↦ hmem x (.tail _ hx)) fun x hx ↦ hlo x (.tail _ hx)
      rw [versionsFrom_cons hts]
      refine ⟨fun v ↦ ?_, pairwise_cons.mpr ⟨fun v hv ↦ ?_, hdesc⟩⟩
      · simp only [mem_cons, hfound]
        constructor
        · rintro (rfl | ⟨hv, raw', hin, htomb⟩)
          · exact ⟨hts, raw, .inl rfl, rfl⟩
          · exact ⟨hv, raw', .inr hin, htomb⟩
        · rintro ⟨hv, raw', heq | hin, htomb⟩
          · obtain ⟨henc, rfl⟩ := Prod.mk.inj heq
            obtain ⟨-, hts'⟩ := h.separated.encode_inj hk hk hv.2 hts.2 henc
            exact .inl (by cases v; cases hts'; cases htomb; rfl)
          · exact .inr ⟨hv, raw', hin, htomb⟩
      · obtain ⟨hvalid, raw', hin, -⟩ := (hfound v).mp hv
        exact (encode_lt_encode hts hvalid).mp (hhead _ hin)
    · -- the loop ends here, and a version further on would make this entry one as well
      rw [h.versionsFrom_eq_nil hk hb hver]
      refine ⟨fun v ↦ iff_of_false not_mem_nil ?_, .nil⟩
      rintro ⟨hv, raw', hin, -⟩
      refine hver (h.eq_of_between_meta hk hv hb (hlo (b, raw) (.head _)) ?_)
      rcases mem_cons.mp hin with heq | hin
      · exact (congrArg Prod.fst heq).ge
      · exact (hhead _ hin).le

theorem Proper.lists_versionsFrom
    (hall : ∀ {ts raw}, Valid ts → version e k ts = some raw → (encode ⟨k, ts⟩, raw) ∈ L) :
    Lists e k (versionsFrom k L) := by
  obtain ⟨hfound, hdesc⟩ := h.versionsFrom_spec hk hsorted hmem hlo
  refine ⟨fun v ↦ (hfound v).trans ?_, hdesc⟩
  exact and_congr_right fun hv ↦ exists_congr fun raw ↦ and_congr_left fun _ ↦ ⟨hmem _, hall hv⟩

end

/-- **What `collectVersions` returns** for a key whose metadata entry is recognised as such. -/
theorem Proper.collectVersions (h : Proper K e) (hk : k ∈ K)
    (hd : decode (encodeMeta k) = .ok (⟨k, {}⟩, false)) :
    ∃ vs, collectVersions e k = .ok vs ∧ Lists e k vs := by
  have hmem : ∀ x ∈ e.seek (encodeMeta k), e.get x.1 = some x.2 := fun x hx ↦
    mem_entries.mp (mem_seek.mp hx).1
  have hle : ∀ x ∈ e.seek (encodeMeta k), encodeMeta k ≤ x.1 := fun x hx ↦ (mem_seek.mp hx).2
  -- a version is ahead of the metadata
  have hahead : ∀ {ts raw}, Valid ts → version e k ts = some raw →
      (encode ⟨k, ts⟩, raw) ∈ e.seek (encodeMeta k) := fun hts hv ↦
    mem_seek.mpr ⟨mem_entries.mpr hv, (encodeMeta_lt_encode k hts).le⟩
  have hsorted := e.sorted_seek (encodeMeta k)
  rw [Mvcc.collectVersions]
  generalize e.seek (encodeMeta k) = S at hmem hle hahead hsorted ⊢
  cases S with
  | nil => exact ⟨[], rfl, h.lists_versionsFrom hk .nil (by simp) (by simp) hahead⟩
  | cons x L =>
    obtain ⟨b, raw⟩ := x
    obtain ⟨hhead, htail⟩ := pairwise_cons.mp hsorted
    obtain ⟨hb, hmem'⟩ := forall_mem_cons.mp hmem
    have hle := hle _ (.head _)
    have hlo : ∀ x ∈ L, encodeMeta k < x.1 := fun x hx ↦ hle.trans_lt (hhead x hx)
    by_cases hver : ∃ ts, Valid ts ∧ b = encode ⟨k, ts⟩
    · -- there is no metadata, and the iterator stands at the newest version
      obtain ⟨ts, hts, rfl⟩ := hver
      refine ⟨_, ?_, h.lists_versionsFrom hk hsorted hmem
        (forall_mem_cons.mpr ⟨encodeMeta_lt_encode k hts, hlo⟩) hahead⟩
      simp [decode_encode k hts.2]
    by_cases hmeta : b = encodeMeta k
    · subst hmeta
      refine ⟨versionsFrom k L,
        by simp [hd], h.lists_versionsFrom hk htail hmem' hlo fun hts hv ↦ ?_⟩
      rcases mem_cons.mp (hahead hts hv) with heq | htl
      · exact absurd (congrArg Prod.fst heq).symm (h.separated.encodeMeta_ne hk hk hts.2)
      · exact htl
    · -- the iterator is past the key, which has no version
      have hnone : ∀ {ts raw'}, Valid ts → version e k ts ≠ some raw' := by
        intro ts raw' hts hv
        refine hver (h.eq_of_between_meta hk hts hb (lt_of_le_of_ne hle (Ne.symm hmeta)) ?_)
        rcases mem_cons.mp (hahead hts hv) with heq | htl
        · exact (congrArg Prod.fst heq).ge
        · exact (hhead _ htl).le
      obtain ⟨found, versioned, hdec, hno⟩ := h.decode_ne hk hb fun ts hts heq ↦ hver ⟨ts, hts, heq⟩
      cases versioned with
      | false =>
        exact ⟨versionsFrom k L, by simp [hdec],
          h.lists_versionsFrom hk htail hmem' hlo fun hts hv ↦ absurd hv (hnone hts)⟩
      | true =>
        have hne : found.key ≠ k := by simpa using hno
        exact ⟨[], by simp [hdec, hne],
          h.lists_versionsFrom hk .nil (by simp) (by simp) fun hts hv ↦ absurd hv (hnone hts)⟩

/-! ## One key -/

theorem Proper.changed_dropVersions (h : Proper K e) (hk : k ∈ K) (vs : List VersionInfo)
    (hvs : ∀ v ∈ vs, Valid v.timestamp) :
    Changed K e (dropVersions e k vs) k (metaOf e k)
      (fun u ↦ if u ∈ vs.map VersionInfo.timestamp then none else version e k u) := by
  induction vs generalizing e with
  | nil => exact ⟨h, rfl, fun _ _ ↦ (if_neg not_mem_nil).symm, fun _ _ _ ↦ rfl, fun _ _ _ _ _ ↦ rfl⟩
  | cons v vs ih =>
    obtain ⟨hv, hvs⟩ := forall_mem_cons.mp hvs
    have hone := h.changed_eraseVersion hk hv
    have hrest := ih hone.proper hvs
    rw [hone.md] at hrest
    refine (hone.trans hrest).congr fun u hu ↦ ?_
    rw [map_cons, hone.version u hu]
    by_cases huv : u = v.timestamp
    · rw [huv, Function.update_self, ite_self, if_pos mem_cons_self]
    · simp [huv]

/-- `e'` holds at `k` what `e` holds there. -/
structure SameAt (e e' : Engine) (k : Bytes) : Prop where
  md : metaOf e' k = metaOf e k
  version : ∀ u, Valid u → version e' k u = version e k u

theorem SameAt.refl (e : Engine) (k : Bytes) : SameAt e e k := ⟨rfl, fun _ _ ↦ rfl⟩

theorem SameAt.trans (h₁ : SameAt e e₁ k) (h₂ : SameAt e₁ e' k) : SameAt e e' k :=
  ⟨h₂.md.trans h₁.md, fun u hu ↦ (h₂.version u hu).trans (h₁.version u hu)⟩

/-- What collection does to a key, if anything: the key is dead and dropped, or the versions at or
below the threshold are, the newest one of the key excepted. -/
inductive Collected (G : Timestamp) (e e' : Engine) (k : Bytes) : Prop
  | same (h : SameAt e e' k)
  | dead {ts : Timestamp} {raw : Bytes} (newest : Newest e k (fun _ ↦ True) ts raw)
      (tombstone : decodeMVCCValue raw = none) (old : ts ≤ G) (md : metaOf e' k = none)
  | pruned {ts : Timestamp} {raw : Bytes} (newest : Newest e k (fun _ ↦ True) ts raw)
      (md : metaOf e' k = metaOf e k)
      (version : ∀ u, Valid u → version e' k u = if u ≤ G ∧ u ≠ ts then none else version e k u)

theorem Newest.congr {p : Timestamp → Prop} {ts : Timestamp} {raw : Bytes}
    (h : Newest e' k p ts raw) (hs : SameAt e e' k) : Newest e k p ts raw :=
  ⟨h.valid, (hs.version ts h.valid).symm.trans h.holds, h.sat,
    fun hu hv hp ↦ h.le hu ((hs.version _ hu).trans hv) hp⟩

theorem Collected.congr {e₂ : Engine} (hs : SameAt e e₁ k) (h : Collected G e₁ e₂ k)
    (hs' : SameAt e₂ e' k) : Collected G e e' k := by
  cases h with
  | same h => exact .same ((hs.trans h).trans hs')
  | dead hn ht hle hmd => exact .dead (hn.congr hs) ht hle (hs'.md.trans hmd)
  | pruned hn hmd hv =>
    refine .pruned (hn.congr hs) (hs'.md.trans (hmd.trans hs.md)) fun u hu ↦ ?_
    rw [hs'.version u hu, hv u hu, hs.version u hu]

variable {vs : List VersionInfo}

omit [MetadataCodec] in
theorem Lists.newest (h : Lists e k (v :: vs)) : ∃ raw, Newest e k (fun _ ↦ True) v.timestamp raw ∧
      v.isTombstone = (decodeMVCCValue raw).isNone := by
  obtain ⟨hv, raw, hraw, htomb⟩ := (h.mem v).mp (.head _)
  refine ⟨raw, ⟨hv, hraw, trivial, fun {ts' raw'} hts' hraw' _ ↦ ?_⟩, htomb⟩
  rcases mem_cons.mp ((h.mem ⟨ts', _⟩).mpr ⟨hts', raw', hraw', rfl⟩) with heq | hin
  · exact (congrArg VersionInfo.timestamp heq).le
  · exact ((pairwise_cons.mp h.sorted).1 _ hin).le

omit [MetadataCodec] in
theorem Lists.mem_older (h : Lists e k (v :: vs)) {u : Timestamp}
    (hu : Valid u) {raw : Bytes} (hraw : version e k u = some raw) :
    u ∈ (vs.filter fun w ↦ w.timestamp.lessEq G).map VersionInfo.timestamp ↔
      u ≤ G ∧ u ≠ v.timestamp := by
  have hlt := (pairwise_cons.mp h.sorted).1
  constructor
  · intro hin
    obtain ⟨w, hw, rfl⟩ := mem_map.mp hin
    obtain ⟨hw, hle⟩ := mem_filter.mp hw
    exact ⟨(lessEq_iff _ _).mp hle, (hlt w hw).ne⟩
  · rintro ⟨hle, hne⟩
    have hin := (h.mem ⟨u, (decodeMVCCValue raw).isNone⟩).mpr ⟨hu, raw, hraw, rfl⟩
    rcases mem_cons.mp hin with heq | hin
    · exact absurd (congrArg VersionInfo.timestamp heq) hne
    · exact mem_map.mpr ⟨_, mem_filter.mpr ⟨hin, (lessEq_iff _ _).mpr hle⟩, rfl⟩

/-- **`gcKey` collects its key and leaves the others alone.** -/
theorem Proper.gcKey (h : Proper K e) (hk : k ∈ K)
    (hd : decode (encodeMeta k) = .ok (⟨k, {}⟩, false)) (G : Timestamp) :
    ∃ e', gcKey e k G = .ok e' ∧ Proper K e' ∧ Collected G e e' k ∧
      ∀ k' ∈ K, k' ≠ k → SameAt e e' k' := by
  obtain ⟨vs, hvs, hl⟩ := h.collectVersions hk hd
  have hvalid : ∀ v ∈ vs, Valid v.timestamp := fun v hv ↦ ((hl.mem v).mp hv).1
  rw [Mvcc.gcKey, hvs]
  cases vs with
  | nil => exact ⟨e, rfl, h, .same (.refl e k), fun k' _ _ ↦ .refl e k'⟩
  | cons v vs =>
    obtain ⟨raw, hn, htomb⟩ := hl.newest
    dsimp only
    split
    · rename_i hdead
      rw [Bool.and_eq_true, lessEq_iff, htomb, isNone_iff_eq_none] at hdead
      have hdrop := h.changed_dropVersions hk _ hvalid
      have hall := hdrop.trans (hdrop.proper.changed_eraseMeta hk)
      exact ⟨_, rfl, hall.proper, .dead hn hdead.1 hdead.2 hall.md, fun k' hk' hne ↦
        ⟨hall.metaOf_ne k' hk' hne, hall.version_ne k' hk' hne⟩⟩
    · have hdrop := h.changed_dropVersions hk (vs.filter fun w ↦ w.timestamp.lessEq G)
        fun w hw ↦ hvalid w (.tail _ (mem_of_mem_filter hw))
      refine ⟨_, rfl, hdrop.proper, .pruned hn hdrop.md fun u hu ↦ ?_,
        fun k' hk' hne ↦ ⟨hdrop.metaOf_ne k' hk' hne, hdrop.version_ne k' hk' hne⟩⟩
      rw [hdrop.version u hu]
      cases hraw : version e k u with
      | none => rw [ite_self, ite_self]
      | some raw' => exact if_congr (hl.mem_older hu hraw) rfl rfl

/-! ## The whole engine -/

/-- **The scan collects every key at most once.** A key whose metadata entry is not ahead is left
alone. -/
theorem Proper.gcLoop (h : Proper K e) (hsorted : L.Pairwise fun a b ↦ a.1 < b.1)
    (hL : ∀ x ∈ L, (∃ k ∈ K, x.1 = encodeMeta k) ∨ ∃ k ∈ K, ∃ ts, Valid ts ∧ x.1 = encode ⟨k, ts⟩)
    (G : Timestamp) (target : Bytes) :
    ∃ e', gcLoop G target L e = (e', none) ∧ Proper K e' ∧
      ∀ k ∈ K, Collected G e e' k ∧ ((∀ x ∈ L, x.1 ≠ encodeMeta k) → SameAt e e' k) := by
  induction L generalizing e target with
  | nil => exact ⟨e, rfl, h, fun k _ ↦ ⟨.same (.refl e k), fun _ ↦ .refl e k⟩⟩
  | cons x L ih =>
    obtain ⟨b, raw⟩ := x
    obtain ⟨hhead, htail⟩ := pairwise_cons.mp hsorted
    obtain ⟨hb, hLtail⟩ := forall_mem_cons.mp hL
    -- an entry that is passed over changes nothing
    have hskip : ∃ e', gcLoop G target L e = (e', none) ∧ Proper K e' ∧ ∀ k ∈ K,
        Collected G e e' k ∧ ((∀ x ∈ (b, raw) :: L, x.1 ≠ encodeMeta k) → SameAt e e' k) := by
      obtain ⟨e', heq, hp, hall⟩ := ih h htail hLtail target
      exact ⟨e', heq, hp, fun k hk ↦
        ⟨(hall k hk).1, fun hno ↦ (hall k hk).2 (forall_mem_cons.mp hno).2⟩⟩
    rw [gcLoop]
    split
    · exact hskip
    cases hdec : decode b with
    | error err => exact hskip
    | ok r =>
      obtain ⟨found, versioned⟩ := r
      cases versioned with
      | true => exact hskip
      | false =>
        obtain ⟨hts, rfl⟩ := eq_of_decode_meta hdec
        have hkey : found.key ∈ K := by
          rcases hb with ⟨k', hk', heq⟩ | ⟨k', hk', ts, hvalid, heq⟩
          · exact encodeMeta_injective heq ▸ hk'
          · have hdec' := decode_encode k' hvalid.2
            rw [← heq, hdec] at hdec'
            cases hdec'
        obtain ⟨key, ts⟩ := found
        cases hts
        obtain ⟨e₁, hgc, hp₁, hcol, hsame⟩ := h.gcKey hkey hdec G
        obtain ⟨e', heq, hp', hall⟩ := ih hp₁ htail hLtail (encodeMeta (nextKeyPrefix key))
        refine ⟨e', ?_, hp', fun k hk ↦ ?_⟩
        · simp only [Bool.false_eq_true, if_false, hgc]
          exact heq
        by_cases hne : k = key
        · -- the key has been collected, and its metadata is not met again
          subst hne
          have hlater := (hall k hk).2 fun x hx ↦ (hhead x hx).ne'
          exact ⟨.congr (.refl e k) hcol hlater, fun hno ↦ absurd rfl (hno _ (.head _))⟩
        · have hk₁ := hsame k hk hne
          exact ⟨.congr hk₁ (hall k hk).1 (.refl e' k),
            fun hno ↦ hk₁.trans ((hall k hk).2 (forall_mem_cons.mp hno).2)⟩

theorem Proper.mvccGarbageCollect (h : Proper K e) (G : Timestamp) :
    ∃ e', mvccGarbageCollect e G = (e', none) ∧ Proper K e' ∧ ∀ k ∈ K, Collected G e e' k := by
  obtain ⟨e', heq, hp, hall⟩ := h.gcLoop e.sorted (fun x hx ↦ h.keys (mem_entries.mp hx)) G []
  exact ⟨e', heq, hp, fun k hk ↦ (hall k hk).1⟩

/-! ## Reading above the threshold -/

/-- A read depends on the metadata and on the version it finds. -/
theorem Proper.get_congr (h : Proper K e) (h' : Proper K e') (hk : k ∈ K) {t : Timestamp}
    (ht : Valid t) (hmd : metaOf e' k = metaOf e k)
    (hread : Mvcc.readVersion e' k t = Mvcc.readVersion e k t)
    (opts : ReadOptions) : mvccGet e' k t opts = mvccGet e k t opts := by
  cases hm : metaOf e k with
  | none => rw [h.get_eq_none hk hm, h'.get_eq_none hk (hmd.trans hm)]
  | some m => rw [h.get_eq_some hk ht.2 hm, h'.get_eq_some hk ht.2 (hmd.trans hm), hread]

/-- The read at `T` is served by a version at or below `G` that is not the newest one of the key. -/
structure Overtaken (e : Engine) (k : Bytes) (G T : Timestamp) : Prop where
  served : ∃ u raw, Newest e k (· ≤ T) u raw ∧ u ≤ G
  newer : ∃ u raw, Valid u ∧ T < u ∧ version e k u = some raw

section Reading

variable {T : Timestamp} {ts : Timestamp}

/-- A key that is dead at the threshold was not to be found above it. -/
theorem Proper.get_of_dead (h : Proper K e) (hk : k ∈ K) (hx : Indexed e k)
    (hi : intentOf e k = none) (hT : Valid T) {raw : Bytes}
    (hn : Newest e k (fun _ ↦ True) ts raw) (htomb : decodeMVCCValue raw = none) (hlt : ts < T)
    (opts : ReadOptions) : mvccGet e k T opts = .error .keyNotFound := by
  cases hm : metaOf e k with
  | none => exact h.get_eq_none hk hm opts
  | some m =>
    obtain ⟨raw', hraw'⟩ := hx.stored hm
    have hle : m.timestamp ≤ ts := hn.le (hx.valid hm) hraw' trivial
    have hclear : readConflict m k T opts = none := by
      rcases readConflict_cases m k T opts with ⟨t, ht, -⟩ | ⟨-, hc | ⟨-, ⟨hlt', -⟩, -⟩⟩
      · cases (intentOf_eq_none hm hi).symm.trans ht
      · exact hc
      · exact absurd (hlt'.trans_le hle) (not_lt.mpr hlt.le)
    have hn' : Newest e k (· ≤ T) ts raw :=
      ⟨hn.valid, hn.holds, hlt.le, fun hu hv _ ↦ hn.le hu hv trivial⟩
    rw [h.get_eq_some hk hT.2 hm, hclear, elim_none, hn'.readVersion h hk hT, htomb]
    rfl

/-- A key that loses versions still serves every read that was not overtaken. -/
theorem Proper.get_of_pruned (h : Proper K e) (h' : Proper K e') (hk : k ∈ K) (hT : Valid T)
    {raw : Bytes} (hn : Newest e k (fun _ ↦ True) ts raw)
    (hmd : metaOf e' k = metaOf e k)
    (hv : ∀ u, Valid u → version e' k u = if u ≤ G ∧ u ≠ ts then none else version e k u)
    (opts : ReadOptions) :
    mvccGet e' k T opts = mvccGet e k T opts ∨
      Overtaken e k G T ∧ mvccGet e' k T opts = .error .keyNotFound := by
  have hsub : ∀ {u raw'}, Valid u → version e' k u = some raw' → version e k u = some raw' := by
    intro u raw' hu hraw'
    rw [hv u hu] at hraw'
    split at hraw'
    · cases hraw'
    · exact hraw'
  rcases h.readVersion hk hT with ⟨u, raw', hread, heq⟩ | ⟨hnone, heq⟩
  · by_cases hdrop : u ≤ G ∧ u ≠ ts
    · -- everything at or below `T` is gone
      have hTts : T < ts := by
        by_contra hle
        exact hdrop.2 (le_antisymm (hn.le hread.valid hread.holds trivial)
          (hread.le hn.valid hn.holds (not_lt.mp hle)))
      have hgone : Mvcc.readVersion e' k T = .error .keyNotFound := by
        refine h'.readVersion_eq_error hk hT fun w hw hwT ↦ ?_
        rw [hv w hw]
        split
        · rfl
        · rename_i hkeep
          by_contra hne
          obtain ⟨raw'', hraw''⟩ := ne_none_iff_exists'.mp hne
          exact hkeep ⟨(hread.le hw hraw'' hwT).trans hdrop.1, (hwT.trans_lt hTts).ne⟩
      cases hm : metaOf e k with
      | none => exact .inl (by rw [h.get_eq_none hk hm, h'.get_eq_none hk (hmd.trans hm)])
      | some m =>
        rw [h.get_eq_some hk hT.2 hm, h'.get_eq_some hk hT.2 (hmd.trans hm), hgone]
        cases readConflict m k T opts with
        | some err => exact .inl rfl
        | none =>
          exact .inr ⟨⟨⟨u, raw', hread, hdrop.1⟩, ⟨ts, raw, hn.valid, hTts, hn.holds⟩⟩, rfl⟩
    · have hread' : Newest e' k (· ≤ T) u raw' :=
        ⟨hread.valid, by rw [hv u hread.valid, if_neg hdrop, hread.holds], hread.sat,
          fun hw hraw hwT ↦ hread.le hw (hsub hw hraw) hwT⟩
      exact .inl (h.get_congr h' hk hT hmd (by rw [hread'.readVersion h' hk hT, heq]) opts)
  · refine .inl (h.get_congr h' hk hT hmd ?_ opts)
    rw [heq]
    refine h'.readVersion_eq_error hk hT fun w hw hwT ↦ ?_
    rw [hv w hw, hnone w hw hwT, ite_self]

/-- **Collection preserves what is read above the threshold**, at a key without intent: a read at
`T > G` gives the same result, unless it was served by a version at or below `G` that is not the
newest one of the key, and then it may find nothing. -/
theorem get_garbageCollect (h : Proper K e) (hk : k ∈ K) (hx : Indexed e k)
    (hi : intentOf e k = none) (hT : Valid T) (hGT : G < T) (opts : ReadOptions) :
    (mvccGarbageCollect e G).2 = none ∧
      (mvccGet (mvccGarbageCollect e G).1 k T opts = mvccGet e k T opts ∨
        Overtaken e k G T ∧ mvccGet (mvccGarbageCollect e G).1 k T opts = .error .keyNotFound) := by
  obtain ⟨e', heq, h', hall⟩ := h.mvccGarbageCollect G
  rw [heq]
  refine ⟨rfl, ?_⟩
  cases hall k hk with
  | same hs =>
    have hread := h.readVersion_congr h' hk hT fun u hu _ ↦ hs.version u hu
    exact .inl (h.get_congr h' hk hT hs.md hread opts)
  | dead hn htomb hle hmd =>
    refine .inl ?_
    rw [h'.get_eq_none hk hmd, h.get_of_dead hk hx hi hT hn htomb (hle.trans_lt hGT)]
  | pruned hn hmd hv => exact h.get_of_pruned h' hk hT hn hmd hv opts

end Reading

end Collecting

/-- The engine after a history of one key. -/
def engineAfter (ops : List KeyOp) : Engine := (Traced.run [0x6b] {} ops).engine

/-- Two values, and a threshold between them. -/
def twoValues : List KeyOp := [.write ⟨10, 0⟩ (some [1]) none, .write ⟨50, 0⟩ (some [2]) none]

theorem get_garbageCollect_twoValues : Traced.AllSteady [0x6b] {} twoValues ∧
    (mvccGarbageCollect (engineAfter twoValues) ⟨30, 0⟩).2 = none ∧
      (mvccGet (mvccGarbageCollect (engineAfter twoValues) ⟨30, 0⟩).1 [0x6b] ⟨60, 0⟩ {} =
          mvccGet (engineAfter twoValues) [0x6b] ⟨60, 0⟩ {} ∨
        Overtaken (engineAfter twoValues) [0x6b] ⟨30, 0⟩ ⟨60, 0⟩ ∧
          mvccGet (mvccGarbageCollect (engineAfter twoValues) ⟨30, 0⟩).1 [0x6b] ⟨60, 0⟩ {} =
            .error .keyNotFound) := by
  have hst : Traced.AllSteady [0x6b] {} twoValues := by decide +kernel
  have hinv := (Traced.inv_init [0x6b]).run hst
  exact ⟨hst, get_garbageCollect hinv.proper (Set.mem_singleton _) hinv.summary.toIndexed
    (by decide +kernel) (by decide) (by decide) {}⟩

/-- What is read above the threshold and lost by collection: the version below two others, and what
an abort would bring back from beneath a tombstone or a value that is not committed. -/
theorem exists_get_garbageCollect_ne :
    (mvccGet (engineAfter twoValues) [0x6b] ⟨40, 0⟩ {} = .ok [1] ∧
      mvccGet (mvccGarbageCollect (engineAfter twoValues) ⟨30, 0⟩).1 [0x6b] ⟨40, 0⟩ {} =
        .error .keyNotFound) ∧
    (∀ intent ∈ [KeyOp.write ⟨20, 0⟩ none (some (txnId 1)),
      .write ⟨50, 0⟩ (some [2]) (some (txnId 1))],
      let e := engineAfter [.write ⟨10, 0⟩ (some [1]) none, intent]
      ((mvccResolveWriteIntent e [0x6b] (txnId 1) .aborted {}).bind
          fun e ↦ mvccGet e [0x6b] ⟨40, 0⟩ {}) = .ok [1] ∧
        ((mvccResolveWriteIntent (mvccGarbageCollect e ⟨30, 0⟩).1 [0x6b] (txnId 1) .aborted {}).bind
          fun e ↦ mvccGet e [0x6b] ⟨40, 0⟩ {}) = .error .keyNotFound) := by
  decide +kernel

end DucklingDB.Mvcc
