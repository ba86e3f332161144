import DucklingDB.Mvcc.Store
import Mathlib.Logic.Function.Basic

/-!
# The versions of a key

What the operations of `Store` do to an engine, key by key. An engine all of whose keys encode
entries of separated raw keys (`Proper`) is as good as a family of cells, one per raw key: its
metadata and its versions. Writing an entry of one key leaves the cells of the others alone, and an
iterator positioned among the versions of a key finds the newest one in question, if there is any,
and otherwise nothing that decodes to a version of the key.
-/

namespace DucklingDB.Mvcc

open Hlc Bytes Function SortedMap List Option Mvcc

/-- What is stored at `(key, ts)`. -/
def version (e : Engine) (key : Bytes) (ts : Timestamp) : Option Bytes := e.get (encode ⟨key, ts⟩)

variable [MetadataCodec]

/-- The metadata of a key, if it has any. -/
def metaOf (e : Engine) (key : Bytes) : Option MVCCMetadata :=
  (e.get (encodeMeta key)).bind MetadataCodec.unmarshal

/-- Every entry is the metadata or a version of a raw key in `K`. -/
structure Proper (K : Set Bytes) (e : Engine) : Prop where
  separated : Separated K
  keys : ∀ {b v}, e.get b = some v →
    (∃ k ∈ K, b = encodeMeta k) ∨ ∃ k ∈ K, ∃ ts, Valid ts ∧ b = encode ⟨k, ts⟩
  metas : ∀ {k v}, k ∈ K → e.get (encodeMeta k) = some v →
    ∃ m : MVCCMetadata, v = MetadataCodec.marshal m ∧ m.omitEmpty = m

section Cells

variable {K : Set Bytes} {e : Engine} {k k' : Bytes}

theorem proper_empty (hK : Separated K) : Proper K (empty : Engine) :=
  ⟨hK, (fun h ↦ by cases h), fun _ h ↦ by cases h⟩

theorem Proper.loadMeta (h : Proper K e) (hk : k ∈ K) : loadMeta e k = .ok (metaOf e k) := by
  rw [Mvcc.loadMeta, metaOf]
  cases hv : e.get (encodeMeta k) with
  | none => rfl
  | some v =>
    obtain ⟨m, rfl, -⟩ := h.metas hk hv
    simp only [bind_some, MetadataCodec.unmarshal_marshal]

variable {v : Bytes}

theorem Proper.metaOf_ne_none (h : Proper K e) (hk : k ∈ K) (hv : e.get (encodeMeta k) = some v) :
    metaOf e k ≠ none := by
  obtain ⟨m, rfl, -⟩ := h.metas hk hv
  simp [metaOf, hv, MetadataCodec.unmarshal_marshal]

/-! ## Writing one entry -/

variable {m : MVCCMetadata}

open SortedMap (get_erase get_insert mem_entries)

theorem Proper.erase (h : Proper K e) (b : Bytes) : Proper K (e.erase b) := by
  refine ⟨h.separated, fun {b v} hb ↦ ?_, fun {k' v} hk' hv ↦ ?_⟩
  · rw [get_erase] at hb
    split at hb
    · cases hb
    · exact h.keys hb
  · rw [get_erase] at hv
    split at hv
    · cases hv
    · exact h.metas hk' hv

theorem Proper.insert (h : Proper K e) {b : Bytes}
    (hb : (∃ k ∈ K, b = encodeMeta k) ∨ ∃ k ∈ K, ∃ ts, Valid ts ∧ b = encode ⟨k, ts⟩)
    (hm : ∀ k ∈ K, encodeMeta k = b → ∃ m : MVCCMetadata, v = MetadataCodec.marshal m ∧
      m.omitEmpty = m) :
    Proper K (e.insert b v) := by
  refine ⟨h.separated, fun {b' v'} hb' ↦ ?_, fun {k' v'} hk' hv' ↦ ?_⟩
  · rw [get_insert] at hb'
    split at hb' <;> rename_i heq
    · exact heq ▸ hb
    · exact h.keys hb'
  · rw [get_insert] at hv'
    split at hv' <;> rename_i heq
    · exact Option.some.inj hv' ▸ hm k' hk' heq
    · exact h.metas hk' hv'

variable {ts : Timestamp}

section

variable (h : Proper K e)
include h

section

variable (hk : k ∈ K)
include hk

/-! ## Finding a version -/

/-- The newest version of `k` whose timestamp satisfies `p`. -/
structure Newest (e : Engine) (k : Bytes) (p : Timestamp → Prop) (ts : Timestamp) (raw : Bytes) :
    Prop where
  valid : Valid ts
  holds : version e k ts = some raw
  sat : p ts
  le : ∀ {ts' raw'}, Valid ts' → version e k ts' = some raw' → p ts' → ts' ≤ ts

/-- What lies between the metadata of a key and a version of it is a version of it. -/
theorem Proper.eq_of_between_meta {u : Timestamp} (hu : Valid u) {b : Bytes} (hb : e.get b = some v)
    (hlo : encodeMeta k < b) (hhi : b ≤ encode ⟨k, u⟩) : ∃ ts, Valid ts ∧ b = encode ⟨k, ts⟩ := by
  rw [encode_version hu.2, append_cons] at hhi
  have hpre : k ++ [keySeparator] <+: b :=
    isPrefix_of_between (by rw [append_nil]; exact hlo.le) hhi
  rcases h.keys hb with ⟨k', hk', rfl⟩ | ⟨k', hk', ts, hts, rfl⟩
  · exact absurd hlo (by rw [h.separated.eq_of_prefix_meta hk hk' hpre]; exact lt_irrefl _)
  · rw [encode_version hts.2] at hpre
    rw [h.separated.eq_of_prefix_append hk hk' hpre]
    exact ⟨ts, hts, rfl⟩

end

end

variable {t : Timestamp}

section

variable (h : Proper K e) (hk : k ∈ K)
include h hk

theorem Proper.decode_ne {b : Bytes} (hb : e.get b = some v)
    (hno : ∀ ts, Valid ts → b ≠ encode ⟨k, ts⟩) :
    ∃ found versioned, decode b = .ok (found, versioned) ∧
      (!versioned || found.key ≠ k) = true := by
  suffices hno : ∃ found versioned, decode b = .ok (found, versioned) ∧
      ¬(versioned = true ∧ found.key = k) by
    obtain ⟨found, versioned, hd, hno⟩ := hno
    refine ⟨found, versioned, hd, ?_⟩
    cases versioned
    · rfl
    · simpa using fun hk' ↦ hno ⟨rfl, hk'⟩
  rcases h.keys hb with ⟨k', hk', rfl⟩ | ⟨k', hk', ts, hts, rfl⟩
  · obtain ⟨⟨found, versioned⟩, hd⟩ := decode_encodeMeta k'
    refine ⟨found, versioned, hd, ?_⟩
    rintro ⟨rfl, rfl⟩
    obtain ⟨s, hs, heq, -⟩ := eq_of_decode_version hd
    have hpre : found.key ++ [keySeparator] <+: encodeMeta k' :=
      heq ▸ (prefix_append_right_inj _).mpr ⟨s, rfl⟩
    have hkk := h.separated.eq_of_prefix_meta hk hk' hpre
    have := congrArg List.length heq
    rw [hkk] at this
    simp [encodeMeta, hs, tsSize] at this
  · refine ⟨_, _, decode_encode k' hts.2, ?_⟩
    rintro ⟨-, rfl⟩
    exact hno ts hts rfl

/-- Where an iterator stands that ranges over the entries in `above`, which start among the versions
of `k`: at the newest version in range, or at nothing that decodes to a version of `k`. -/
theorem Proper.head_cases (ht : Valid t) {L : List (Bytes × Bytes)} (above : Bytes → Prop)
    (p : Timestamp → Prop) (hsorted : L.Pairwise fun a b ↦ a.1 < b.1)
    (hmem : ∀ b v, (b, v) ∈ L ↔ e.get b = some v ∧ above b) (hlo : ∀ b, above b → encode ⟨k, t⟩ ≤ b)
    (hp : ∀ ts, Valid ts → (above (encode ⟨k, ts⟩) ↔ p ts)) :
    (∃ ts raw, Newest e k p ts raw ∧ L.head? = some (encode ⟨k, ts⟩, raw)) ∨
      (∀ ts, Valid ts → p ts → version e k ts = none) ∧ ∀ b raw, L.head? = some (b, raw) →
          ∃ found versioned, decode b = .ok (found, versioned) ∧
            (!versioned || found.key ≠ k) = true := by
  cases L with
  | nil =>
    refine .inr ⟨fun ts hts hpt ↦ ?_, fun b raw hb ↦ by cases hb⟩
    by_contra hne
    obtain ⟨raw, hraw⟩ := ne_none_iff_exists'.mp hne
    cases (hmem _ raw).mpr ⟨hraw, (hp ts hts).mpr hpt⟩
  | cons x L =>
    obtain ⟨b, raw⟩ := x
    obtain ⟨hb, hab⟩ := (hmem b raw).mp (.head _)
    -- the head precedes every version in range
    have hle : ∀ ts v, Valid ts → p ts → version e k ts = some v → b ≤ encode ⟨k, ts⟩ := by
      intro ts v hts hpt hv
      have hin := (hmem _ v).mpr ⟨hv, (hp ts hts).mpr hpt⟩
      rcases mem_cons.mp hin with heq | hin
      · cases heq
        exact le_rfl
      · exact ((pairwise_cons.mp hsorted).1 _ hin).le
    by_cases hver : ∃ ts, Valid ts ∧ b = encode ⟨k, ts⟩
    · obtain ⟨ts, hts, rfl⟩ := hver
      refine .inl ⟨ts, raw, ⟨hts, hb, (hp ts hts).mp hab, fun hts' hv hpt ↦ ?_⟩, rfl⟩
      exact (encode_le_encode hts hts').mp (hle _ _ hts' hpt hv)
    · refine .inr ⟨fun ts hts hpt ↦ ?_, fun b' raw' hb' ↦ ?_⟩
      · by_contra hne
        obtain ⟨v, hv⟩ := ne_none_iff_exists'.mp hne
        exact hver
          (h.eq_of_between_meta hk hts hb ((encodeMeta_lt_encode k ht).trans_le (hlo b hab))
          (hle ts v hts hpt hv))
      · cases hb'
        exact h.decode_ne hk hb fun ts hts heq ↦ hver ⟨ts, hts, heq⟩

/-- **A point read finds the newest version at or below its timestamp.** -/
theorem Proper.readVersion (ht : Valid t) : (∃ ts raw, Newest e k (· ≤ t) ts raw ∧
      readVersion e k t = (decodeMVCCValue raw).elim (.error .keyNotFound) .ok) ∨
    (∀ ts, Valid ts → ts ≤ t → version e k ts = none) ∧
      readVersion e k t = .error .keyNotFound := by
  have hcases :=
    h.head_cases hk ht (fun b ↦ encode ⟨k, t⟩ ≤ b) (· ≤ t) (e.sorted_seek (encode ⟨k, t⟩))
    (fun b v ↦ by rw [mem_seek, mem_entries]) (fun _ hb ↦ hb)
    fun ts hts ↦ encode_le_encode ht hts
  rw [Mvcc.readVersion]
  cases hs : e.seek (encode ⟨k, t⟩) with
  | nil =>
    rw [hs] at hcases
    rcases hcases with ⟨_, _, _, hhead⟩ | ⟨hnone, -⟩
    · cases hhead
    · exact .inr ⟨hnone, rfl⟩
  | cons x L =>
    obtain ⟨b, raw⟩ := x
    rw [hs] at hcases
    rcases hcases with ⟨ts, raw', hn, hhead⟩ | ⟨hnone, hhead⟩
    · cases hhead
      refine .inl ⟨ts, raw, hn, ?_⟩
      simp only [decode_encode k hn.valid.2, Bool.not_true, ne_eq, not_true_eq_false, decide_false,
        Bool.or_self, Bool.false_eq_true, if_false]
      cases decodeMVCCValue raw <;> rfl
    · obtain ⟨found, versioned, hd, hno⟩ := hhead b raw rfl
      refine .inr ⟨hnone, ?_⟩
      simp only [hd]
      rw [if_pos hno]

end

omit [MetadataCodec] in
theorem Newest.unique {p : Timestamp → Prop} {u : Timestamp} {raw raw' : Bytes}
    (h : Newest e k p t raw) (h' : Newest e k p u raw') : t = u ∧ raw = raw' := by
  have htu : t = u := le_antisymm (h'.le h.valid h.holds h.sat) (h.le h'.valid h'.holds h'.sat)
  subst htu
  exact ⟨rfl, mem_unique h.holds h'.holds⟩

theorem Newest.readVersion {raw : Bytes} (hn : Newest e k (· ≤ t) ts raw) (h : Proper K e)
    (hk : k ∈ K) (ht : Valid t) :
    readVersion e k t = (decodeMVCCValue raw).elim (.error .keyNotFound) .ok := by
  rcases h.readVersion hk ht with ⟨ts', raw', hn', heq⟩ | ⟨hnone, -⟩
  · rw [heq, (hn.unique hn').2]
  · cases (hnone ts hn.valid hn.sat).symm.trans hn.holds

theorem Proper.readVersion_eq_error (h : Proper K e) (hk : k ∈ K) (ht : Valid t)
    (hnone : ∀ u, Valid u → u ≤ t → version e k u = none) :
    Mvcc.readVersion e k t = .error .keyNotFound := by
  rcases h.readVersion hk ht with ⟨ts, raw, hn, -⟩ | ⟨-, heq⟩
  · cases (hnone ts hn.valid hn.sat).symm.trans hn.holds
  · exact heq

/-- What a point read finds depends on the versions at or below its timestamp. -/
theorem Proper.readVersion_congr {e' : Engine} (h : Proper K e) (h' : Proper K e') (hk : k ∈ K)
    (ht : Valid t) (hsame : ∀ u, Valid u → u ≤ t → version e' k u = version e k u) :
    Mvcc.readVersion e' k t = Mvcc.readVersion e k t := by
  rcases h.readVersion hk ht with ⟨u, raw, hn, heq⟩ | ⟨hnone, heq⟩
  · have hn' : Newest e' k (· ≤ t) u raw :=
      ⟨hn.valid, (hsame u hn.valid hn.sat).trans hn.holds, hn.sat,
        fun hw hraw hwt ↦ hn.le hw ((hsame _ hw hwt).symm.trans hraw) hwt⟩
    rw [heq, hn'.readVersion h' hk ht]
  · rw [heq]
    exact h'.readVersion_eq_error hk ht fun u hu hut ↦ (hsame u hu hut).trans (hnone u hu hut)

theorem Proper.findPreviousVersion (h : Proper K e) (hk : k ∈ K) (ht : Valid t) {raw₀ : Bytes}
    (h₀ : version e k t = some raw₀) :
    (∃ ts raw, Newest e k (· < t) ts raw ∧
      findPreviousVersion e k t = .ok (some (ts, (decodeMVCCValue raw).isNone))) ∨
    (∀ ts, Valid ts → ts < t → version e k ts = none) ∧ findPreviousVersion e k t = .ok none := by
  have hin : (encode ⟨k, t⟩, raw₀) ∈ e.seek (encode ⟨k, t⟩) :=
    mem_seek.mpr ⟨mem_entries.mpr h₀, le_rfl⟩
  rw [Mvcc.findPreviousVersion]
  cases hs : e.seek (encode ⟨k, t⟩) with
  | nil =>
    rw [hs] at hin
    cases hin
  | cons x L =>
    -- the iterator stands at the version itself
    have hx : x.1 = encode ⟨k, t⟩ :=
      le_antisymm ((seek_eq_cons hs).2.2 _ _ h₀ le_rfl) (seek_eq_cons hs).2.1
    have hsorted := e.sorted_seek (encode ⟨k, t⟩)
    rw [hs] at hsorted
    have hcases :=
      h.head_cases hk ht (fun b ↦ encode ⟨k, t⟩ < b) (· < t) (pairwise_cons.mp hsorted).2
      (fun b v ↦ by rw [mem_tail_seek hs, mem_entries, hx])
      (fun _ hb ↦ hb.le) fun ts hts ↦ encode_lt_encode ht hts
    cases L with
    | nil =>
      rcases hcases with ⟨_, _, _, hhead⟩ | ⟨hnone, -⟩
      · cases hhead
      · exact .inr ⟨hnone, rfl⟩
    | cons y L =>
      obtain ⟨b, raw⟩ := y
      rcases hcases with ⟨ts, raw', hn, hhead⟩ | ⟨hnone, hhead⟩
      · cases hhead
        refine .inl ⟨ts, raw, hn, ?_⟩
        simp only [decode_encode k hn.valid.2, Bool.not_true, ne_eq, not_true_eq_false,
          decide_false, Bool.or_self, Bool.false_eq_true, if_false]
      · obtain ⟨found, versioned, hd, hno⟩ := hhead b raw rfl
        refine .inr ⟨hnone, ?_⟩
        simp only [hd]
        rw [if_pos hno]

/-! ## Changing one key -/

/-- `e'` is `e` with the metadata `md` and the versions `f` at `k`. -/
structure Changed (K : Set Bytes) (e e' : Engine) (k : Bytes) (md : Option MVCCMetadata)
    (f : Timestamp → Option Bytes) : Prop where
  proper : Proper K e'
  md : metaOf e' k = md
  version : ∀ ts, Valid ts → version e' k ts = f ts
  metaOf_ne : ∀ k' ∈ K, k' ≠ k → metaOf e' k' = metaOf e k'
  version_ne : ∀ k' ∈ K, k' ≠ k → ∀ ts, Valid ts → Mvcc.version e' k' ts = Mvcc.version e k' ts

variable {e₁ e₂ : Engine} {md md₁ : Option MVCCMetadata} {f f₁ : Timestamp → Option Bytes}

theorem Changed.trans (h₁ : Changed K e e₁ k md₁ f₁) (h₂ : Changed K e₁ e₂ k md f) :
    Changed K e e₂ k md f :=
  ⟨h₂.proper, h₂.md, h₂.version,
    fun k' hk' hne ↦ (h₂.metaOf_ne k' hk' hne).trans (h₁.metaOf_ne k' hk' hne),
    fun k' hk' hne ts hts ↦ (h₂.version_ne k' hk' hne ts hts).trans
    (h₁.version_ne k' hk' hne ts hts)⟩

theorem Changed.congr (h : Changed K e e₁ k md f) (hf : ∀ ts, Valid ts → f ts = f₁ ts) :
    Changed K e e₁ k md f₁ :=
  { h with version := fun ts hts ↦ (h.version ts hts).trans (hf ts hts) }

variable {e' : Engine}

section

variable (h : Proper K e) (hk : k ∈ K)
include h hk

theorem Proper.changed_meta (h' : Proper K e') (hsame : ∀ b ≠ encodeMeta k, e'.get b = e.get b) :
    Changed K e e' k (metaOf e' k) (version e k) where
  proper := h'
  md := rfl
  version ts hts := hsame _ (h.separated.encodeMeta_ne hk hk hts.2).symm
  metaOf_ne k' _ hne := by rw [metaOf, metaOf, hsame _ fun hc ↦ hne (encodeMeta_injective hc)]
  version_ne k' hk' _ ts hts := hsame _ (h.separated.encodeMeta_ne hk hk' hts.2).symm

theorem Proper.changed_version (h' : Proper K e') (hts : Valid ts)
    (hsame : ∀ b ≠ encode ⟨k, ts⟩, e'.get b = e.get b) :
    Changed K e e' k (metaOf e k) (update (version e k) ts (e'.get (encode ⟨k, ts⟩))) where
  proper := h'
  md := by rw [metaOf, metaOf, hsame _ (h.separated.encodeMeta_ne hk hk hts.2)]
  version ts' hts' := by
    by_cases heq : ts' = ts
    · rw [heq, update_self, version]
    · rw [update_of_ne heq]
      exact hsame _ fun hc ↦ heq (h.separated.encode_inj hk hk hts'.2 hts.2 hc).2
  metaOf_ne k' hk' _ := by rw [metaOf, metaOf, hsame _ (h.separated.encodeMeta_ne hk' hk hts.2)]
  version_ne k' hk' hne ts' hts' :=
    hsame _ fun hc ↦ hne (h.separated.encode_inj hk' hk hts'.2 hts.2 hc).1

theorem Proper.changed_putMeta (hm : m.omitEmpty = m) :
    Changed K e (putMeta e k m) k (some m) (version e k) := by
  have hch := h.changed_meta hk (h.insert (.inl ⟨k, hk, rfl⟩) fun _ _ _ ↦ ⟨m, rfl, hm⟩)
    fun b hb ↦ get_insert_of_ne e hb _
  rwa [metaOf, get_insert_self, bind_some, MetadataCodec.unmarshal_marshal, hm] at hch

theorem Proper.changed_eraseMeta : Changed K e (e.erase (encodeMeta k)) k none (version e k) := by
  have hch := h.changed_meta hk (h.erase _) fun b hb ↦ get_erase_of_ne e hb
  rwa [metaOf, get_erase_self, bind_none] at hch

theorem Proper.changed_insertVersion (hts : Valid ts) (raw : Bytes) :
    Changed K e (e.insert (encode ⟨k, ts⟩) raw) k (metaOf e k)
      (update (version e k) ts (some raw)) := by
  have hch := h.changed_version hk (h.insert (v := raw) (.inr ⟨k, hk, ts, hts, rfl⟩) fun k' hk' hc ↦
    absurd hc (h.separated.encodeMeta_ne hk' hk hts.2)) hts
    fun b hb ↦ get_insert_of_ne e hb _
  rwa [get_insert_self] at hch

theorem Proper.changed_eraseVersion (hts : Valid ts) :
    Changed K e (e.erase (encode ⟨k, ts⟩)) k (metaOf e k) (update (version e k) ts none) := by
  have hch := h.changed_version hk (h.erase _) hts fun b hb ↦ get_erase_of_ne e hb
  rwa [get_erase_self] at hch

end

end Cells

/-! ## A part of the engine -/

section DropBelow

variable {e : Engine} {b k : Bytes}

omit [MetadataCodec] in
/-- The entries of a key lie above what lies below the key. -/
theorem le_encode (h : b ≤ k) (ts : Timestamp) : b ≤ encode ⟨k, ts⟩ ∧ b ≤ encodeMeta k := by
  have happ : ∀ s, b ≤ k ++ s := fun s ↦ by
    refine h.trans ?_
    have := (append_le_append_left k [] s).mpr (not_lt.mp (not_lt_nil s))
    rwa [append_nil] at this
  refine ⟨?_, happ _⟩
  rw [encode]
  split
  · exact happ _
  · exact happ _

variable (h : b ≤ k)
include h

theorem loadMeta_dropBelow : loadMeta (e.dropBelow b) k = loadMeta e k := by
  rw [loadMeta, get_dropBelow, if_pos (le_encode h {}).2, loadMeta]

/-- A read does not see what lies below its key. -/
theorem mvccGet_dropBelow (ts : Timestamp) (opts : ReadOptions) :
    mvccGet (e.dropBelow b) k ts opts = mvccGet e k ts opts := by
  have hread : readVersion (e.dropBelow b) k ts = readVersion e k ts := by
    rw [readVersion, seek_dropBelow _ (le_encode h ts).1, readVersion]
  rw [mvccGet, loadMeta_dropBelow h, hread, mvccGet]

/-- A put leaves it alone. -/
theorem mvccPut_dropBelow {ts : Timestamp} {v : Bytes} {txn : Option TxnID} {e' : Engine}
    (hput : mvccPut e k ts v txn = .ok e') :
    mvccPut (e.dropBelow b) k ts v txn = .ok (e'.dropBelow b) := by
  have hmeta : ∀ (e : Engine) md, (putMeta e k md).dropBelow b = putMeta (e.dropBelow b) k md :=
    fun e md ↦ insert_dropBelow e (le_encode h ts).2 _
  rw [mvccPut] at hput
  rw [mvccPut, loadMeta_dropBelow h]
  cases hload : loadMeta e k with
  | error err =>
    rw [hload] at hput
    cases hput
  | ok found =>
    rw [hload] at hput
    dsimp only at hput ⊢
    split at hput
    · rename_i hts
      rw [if_pos hts, ← Except.ok.inj hput, hmeta]
    · rename_i hts
      rw [if_neg hts]
      cases hconf : writeConflict (found.getD {}) k ts txn with
      | some err =>
        rw [hconf] at hput
        cases hput
      | none =>
        rw [hconf] at hput
        rw [← Except.ok.inj hput, hmeta, insert_dropBelow e (le_encode h ts).1]

end DropBelow

end DucklingDB.Mvcc
