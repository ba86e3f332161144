import DucklingDB.Mvcc.Layout
import DucklingDB.Mvcc.Versions

/-!
# Scans

`MVCCScan` walks over the entries from the metadata of `start` on, skips versions, and at each
metadata entry makes a point read of its raw key. It then seeks the metadata key of the raw key
followed by a zero byte.

That position does not lie behind the versions of the raw key, as the comment in the source has it.
But it lies behind its metadata, and no raw key lies between a key and the same key with a zero
byte. So the scan terminates, because every step passes the entry that the iterator stood at, and it
meets every raw key once, because the metadata entries that are ahead are those of the raw keys from
some key on (`Ahead`).
-/

namespace DucklingDB.Mvcc

open Hlc Bytes List Option Bool

def bytesLess : Bytes → Bytes → Bool
  | a :: as, b :: bs => if a ≠ b then decide (a < b) else bytesLess as bs
  | as, bs => decide (as.length < bs.length)

theorem bytesLess_iff (a b : Bytes) : bytesLess a b = true ↔ a < b := by
  induction a generalizing b with
  | nil =>
    cases b with
    | nil => simp [bytesLess]
    | cons y b => simp [bytesLess]
  | cons x a ih =>
    cases b with
    | nil => simp [bytesLess]
    | cons y b =>
      rw [bytesLess, cons_lt_cons_iff]
      split
      · rename_i hne
        simp [hne]
      · rename_i heq
        rw [ih]
        simp [not_not.mp heq]

structure KeyValue where
  key : Bytes
  value : Bytes
  deriving DecidableEq

section Scan

variable [MetadataCodec]

/-- The loop of `MVCCScan`, with the entries that the iterator has ahead. `none` means that the fuel
has run out. -/
def scanLoop (e : Engine) (stop : Option Bytes) (timestamp : Timestamp) (opts : ReadOptions) :
    ℕ → List (Bytes × Bytes) → List KeyValue → Option (Except MVCCError (List KeyValue))
  | 0, _, _ => none
  | _ + 1, [], results => some (.ok results)
  | fuel + 1, (b, _) :: ahead, results =>
    match decode b with
    | .error err => some (.error (.key err))
    | .ok (mk, versioned) =>
      if versioned then scanLoop e stop timestamp opts fuel ahead results
      else if stop.any fun s ↦ !bytesLess mk.key s then some (.ok results)
      else
        match mvccGet e mk.key timestamp opts with
        | .ok value =>
          scanLoop e stop timestamp opts fuel (e.seek (encodeMeta (nextKeyPrefix mk.key)))
            (results ++ [⟨mk.key, value⟩])
        | .error .keyNotFound =>
          scanLoop e stop timestamp opts fuel (e.seek (encodeMeta (nextKeyPrefix mk.key))) results
        | .error err => some (.error err)

/-- `MVCCScan`; no `stop` means that the range is unbounded. -/
def mvccScan (e : Engine) (start : Bytes) (stop : Option Bytes) (timestamp : Timestamp)
    (opts : ReadOptions) : Option (Except MVCCError (List KeyValue)) :=
  scanLoop e stop timestamp opts (e.entries.length + 1) (e.seek (encodeMeta start)) []

end Scan

/-! ## The position of the iterator -/

section Position

/-- From `start` on the engine holds metadata and versions of raw keys in `K`, whose metadata keys
decode to themselves. -/
structure Scannable (K : Set Bytes) (start : Bytes) (e : Engine) : Prop where
  keys : ∀ {b v}, e.get b = some v → encodeMeta start ≤ b →
    (∃ k ∈ K, b = encodeMeta k) ∨ ∃ k ∈ K, ∃ ts, ts ≠ {} ∧ b = encode ⟨k, ts⟩
  decodes : ∀ k ∈ K, decode (encodeMeta k) = .ok (⟨k, {}⟩, false)

/-- A raw key in the range from `lo` on that has metadata. -/
structure Listed (K : Set Bytes) (e : Engine) (stop : Option Bytes) (lo k : Bytes) : Prop where
  mem : k ∈ K
  le : lo ≤ k
  lt : ∀ s, stop = some s → k < s
  hasMeta : (e.get (encodeMeta k)).isSome = true

/-- The entries `ahead` are the last ones of the engine, and the metadata entries among them are
those of the raw keys from `lo` on. -/
structure Ahead (K : Set Bytes) (start : Bytes) (e : Engine) (lo : Bytes)
    (ahead : List (Bytes × Bytes)) : Prop where
  suffix : ahead <:+ e.entries
  keys : ∀ x ∈ ahead, encodeMeta start ≤ x.1
  metas : ∀ k ∈ K, ∀ v, (encodeMeta k, v) ∈ ahead ↔ e.get (encodeMeta k) = some v ∧ lo ≤ k

variable {K : Set Bytes} {start lo k b raw : Bytes} {e : Engine} {stop : Option Bytes}
  {ahead : List (Bytes × Bytes)}

theorem encodeMeta_le_encodeMeta {a b : Bytes} : encodeMeta a ≤ encodeMeta b ↔ a ≤ b := by
  refine ⟨fun h ↦ not_lt.mp fun hlt ↦ ?_, fun h ↦ ?_⟩
  · exact absurd (encodeMeta_lt_encodeMeta hlt) (not_lt.mpr h)
  · rcases h.eq_or_lt with rfl | hlt
    · exact le_rfl
    · exact (encodeMeta_lt_encodeMeta hlt).le

theorem ahead_seek (K : Set Bytes) (start : Bytes) (e : Engine) (hlo : start ≤ lo) :
    Ahead K start e lo (e.seek (encodeMeta lo)) where
  suffix := dropWhile_suffix _
  keys x hx := (encodeMeta_le_encodeMeta.mpr hlo).trans (SortedMap.mem_seek.mp hx).2
  metas k _ v := by rw [SortedMap.mem_seek, SortedMap.mem_entries, encodeMeta_le_encodeMeta]

variable {k' : Bytes}

/-- The raw keys behind `k` are those from `k` with a zero byte on. -/
theorem nextKeyPrefix_le : nextKeyPrefix k ≤ k' ↔ k < k' :=
  ⟨fun h ↦ (lt_append_of_ne_nil k (by simp)).trans_le h, append_zero_le⟩

theorem Ahead.head_le (h : Ahead K start e lo ((encodeMeta k, raw) :: ahead))
    (hk' : Listed K e stop lo k') : k ≤ k' := by
  obtain ⟨v, hv⟩ := isSome_iff_exists.mp hk'.hasMeta
  have hsorted := e.sorted.sublist h.suffix.sublist
  rcases mem_cons.mp ((h.metas k' hk'.mem v).mpr ⟨hv, hk'.le⟩) with heq | hmem
  · exact (encodeMeta_injective (congrArg Prod.fst heq)).ge
  · exact encodeMeta_le_encodeMeta.mp ((pairwise_cons.mp hsorted).1 _ hmem).le

theorem Ahead.version (h : Ahead K start e lo ((b, raw) :: ahead)) (hs : Scannable K start e)
    {mk : MVCCKey} (hd : decode b = .ok (mk, true)) : Ahead K start e lo ahead where
  suffix := (suffix_cons _ _).trans h.suffix
  keys x hx := h.keys x (.tail _ hx)
  metas k hk v := by
    rw [← h.metas k hk v, mem_cons]
    refine ⟨Or.inr, fun hor ↦ hor.resolve_left fun heq ↦ ?_⟩
    obtain ⟨rfl, -⟩ := Prod.mk.inj heq
    cases (hs.decodes k hk).symm.trans hd

theorem Ahead.next (h : Ahead K start e lo ((encodeMeta k, raw) :: ahead)) (hk : start ≤ k) :
    Ahead K start e (nextKeyPrefix k) (e.seek (encodeMeta (nextKeyPrefix k))) ∧
      (e.seek (encodeMeta (nextKeyPrefix k))).length ≤ ahead.length := by
  have hlt : k < nextKeyPrefix k := nextKeyPrefix_le.mp le_rfl
  refine ⟨ahead_seek K start e (hk.trans hlt.le), ?_⟩
  rw [SortedMap.seek_of_suffix h.suffix (encodeMeta_lt_encodeMeta hlt)]
  exact (dropWhile_suffix _).length_le

/-- Past the metadata of `k`, the raw keys that are listed are `k` and those that come after it. -/
theorem Ahead.listed_iff (h : Ahead K start e lo ((encodeMeta k, raw) :: ahead))
    (hk : Listed K e stop lo k) :
    Listed K e stop lo k' ↔ k' = k ∨ Listed K e stop (nextKeyPrefix k) k' := by
  constructor
  · intro hk'
    rcases (h.head_le hk').eq_or_lt with heq | hlt
    · exact .inl heq.symm
    · exact .inr ⟨hk'.mem, nextKeyPrefix_le.mpr hlt, hk'.lt, hk'.hasMeta⟩
  · rintro (rfl | hk')
    · exact hk
    · exact ⟨hk'.mem, hk.le.trans (nextKeyPrefix_le.mp hk'.le).le, hk'.lt, hk'.hasMeta⟩

end Position

/-! ## The result -/

section Result

variable [MetadataCodec]

/-- The point read of `k` fails, other than by not finding anything. -/
def Fails (e : Engine) (timestamp : Timestamp) (opts : ReadOptions) (k : Bytes) : Prop :=
  ∃ err, mvccGet e k timestamp opts = .error err ∧ err ≠ .keyNotFound

/-- What a scan from `lo` on is to return. -/
def ScanResult (K : Set Bytes) (e : Engine) (stop : Option Bytes) (timestamp : Timestamp)
    (opts : ReadOptions) (lo : Bytes) : Except MVCCError (List KeyValue) → Prop
  | .error err => ∃ k, Listed K e stop lo k ∧ mvccGet e k timestamp opts = .error err ∧
      err ≠ .keyNotFound ∧ ∀ k', Listed K e stop lo k' → Fails e timestamp opts k' → k ≤ k'
  | .ok out => (∀ k, Listed K e stop lo k → ¬ Fails e timestamp opts k) ∧
      out.Pairwise (fun x y ↦ x.key < y.key) ∧
      ∀ x : KeyValue, x ∈ out ↔ Listed K e stop lo x.key ∧
        mvccGet e x.key timestamp opts = .ok x.value

variable {K : Set Bytes} {start lo k b raw : Bytes} {e : Engine} {stop : Option Bytes}
  {ts : Timestamp} {opts : ReadOptions} {ahead : List (Bytes × Bytes)}

theorem isSome_of_get {v : Bytes} (h : mvccGet e k ts opts = .ok v) :
    (e.get (encodeMeta k)).isSome = true := by
  rw [mvccGet, loadMeta] at h
  cases hm : e.get (encodeMeta k) with
  | none =>
    rw [hm] at h
    cases h
  | some v => rfl

section

variable {r : Except MVCCError (List KeyValue)}
  (h : Ahead K start e lo ((encodeMeta k, raw) :: ahead)) (hk : Listed K e stop lo k)
include h hk

theorem ScanResult.found {v : Bytes} (hget : mvccGet e k ts opts = .ok v)
    (hr : ScanResult K e stop ts opts (nextKeyPrefix k) r) :
    ScanResult K e stop ts opts lo (r.map (⟨k, v⟩ :: ·)) := by
  have hno : ¬ Fails e ts opts k := by
    rintro ⟨err, herr, -⟩
    cases hget.symm.trans herr
  cases r with
  | error err =>
    obtain ⟨k', hk', hget', hne, hleast⟩ := hr
    refine ⟨k', (h.listed_iff hk).mpr (.inr hk'), hget', hne, fun k'' hk'' hf ↦ ?_⟩
    rcases (h.listed_iff hk).mp hk'' with rfl | hk''
    · exact absurd hf hno
    · exact hleast k'' hk'' hf
  | ok out =>
    obtain ⟨hall, hsorted, hmem⟩ := hr
    refine ⟨fun k' hk' ↦ ?_, pairwise_cons.mpr ⟨fun x hx ↦ ?_, hsorted⟩, fun x ↦ ?_⟩
    · rcases (h.listed_iff hk).mp hk' with rfl | hk'
      · exact hno
      · exact hall k' hk'
    · exact nextKeyPrefix_le.mp ((hmem x).mp hx).1.le
    · rw [mem_cons, hmem, h.listed_iff hk]
      constructor
      · rintro (rfl | ⟨hx, hxget⟩)
        · exact ⟨.inl rfl, hget⟩
        · exact ⟨.inr hx, hxget⟩
      · rintro ⟨hkey | hx, hxget⟩
        · rw [hkey, hget] at hxget
          obtain rfl := Except.ok.inj hxget
          exact .inl (by rw [← hkey])
        · exact .inr ⟨hx, hxget⟩

theorem ScanResult.notFound (hget : mvccGet e k ts opts = .error .keyNotFound)
    (hr : ScanResult K e stop ts opts (nextKeyPrefix k) r) : ScanResult K e stop ts opts lo r := by
  have hno : ¬ Fails e ts opts k := by
    rintro ⟨err, herr, hne⟩
    exact hne (Except.error.inj (herr.symm.trans hget))
  cases r with
  | error err =>
    obtain ⟨k', hk', hget', hne, hleast⟩ := hr
    refine ⟨k', (h.listed_iff hk).mpr (.inr hk'), hget', hne, fun k'' hk'' hf ↦ ?_⟩
    rcases (h.listed_iff hk).mp hk'' with rfl | hk''
    · exact absurd hf hno
    · exact hleast k'' hk'' hf
  | ok out =>
    obtain ⟨hall, hsorted, hmem⟩ := hr
    refine ⟨fun k' hk' ↦ ?_, hsorted, fun x ↦ ?_⟩
    · rcases (h.listed_iff hk).mp hk' with rfl | hk'
      · exact hno
      · exact hall k' hk'
    · rw [hmem, h.listed_iff hk]
      refine ⟨fun hx ↦ ⟨.inr hx.1, hx.2⟩, fun hx ↦ ⟨hx.1.resolve_left fun hkey ↦ ?_, hx.2⟩⟩
      rw [hkey, hget] at hx
      cases hx.2

end

theorem ScanResult.nil (hno : ∀ k, ¬ Listed K e stop lo k) :
    ScanResult K e stop ts opts lo (.ok []) :=
  ⟨fun k hk ↦ absurd hk (hno k), List.Pairwise.nil, fun x ↦ by simp [hno]⟩

/-- **The loop of a scan** returns what it is to return, behind what it has found before. -/
theorem scanLoop_spec (hs : Scannable K start e) (h : Ahead K start e lo ahead) (hlo : start ≤ lo)
    {fuel : ℕ} (hfuel : ahead.length < fuel) (results : List KeyValue) :
    ∃ r, ScanResult K e stop ts opts lo r ∧
      scanLoop e stop ts opts fuel ahead results = some (r.map (results ++ ·)) := by
  induction fuel generalizing lo ahead results with
  | zero => exact absurd hfuel (Nat.not_lt_zero _)
  | succ fuel ih =>
    cases ahead with
    | nil =>
      refine ⟨.ok [], .nil fun k hk ↦ ?_, by simp [scanLoop, Except.map]⟩
      obtain ⟨v, hv⟩ := isSome_iff_exists.mp hk.hasMeta
      cases (h.metas k hk.mem v).mpr ⟨hv, hk.le⟩
    | cons x ahead =>
      obtain ⟨b, raw⟩ := x
      have hget : e.get b = some raw := SortedMap.mem_entries.mp (h.suffix.subset (.head _))
      have hfuel' : ahead.length < fuel := Nat.lt_of_succ_lt_succ hfuel
      rcases hs.keys hget (h.keys _ (.head _)) with ⟨k, hk, rfl⟩ | ⟨k, hk, u, hu, rfl⟩
      · obtain ⟨hmeta, hle⟩ := (h.metas k hk raw).mp (.head _)
        have hd := hs.decodes k hk
        obtain ⟨hnext, hlen⟩ := h.next (hlo.trans hle)
        have hlo' : start ≤ nextKeyPrefix k := hlo.trans (hle.trans (nextKeyPrefix_le.mp le_rfl).le)
        by_cases hstop : (stop.any fun s ↦ !bytesLess k s) = true
        · -- the rest lies behind the range
          obtain ⟨s, rfl, hks⟩ : ∃ s, stop = some s ∧ ¬ k < s := by
            obtain ⟨s, rfl, hks⟩ := (any_eq_true _ _).mp hstop
            refine ⟨s, rfl, fun hlt ↦ ?_⟩
            rw [(bytesLess_iff k s).mpr hlt] at hks
            cases hks
          refine ⟨.ok [], .nil fun k' hk' ↦ hks ((h.head_le hk').trans_lt (hk'.lt s rfl)), ?_⟩
          simp only [scanLoop, hd, hstop]
          simp [Except.map]
        · have hlisted : Listed K e stop lo k := by
            refine ⟨hk, hle, fun s hs' ↦ ?_, by rw [hmeta]; rfl⟩
            by_contra hks
            refine hstop ((any_eq_true _ _).mpr ⟨s, hs', ?_⟩)
            rw [not_eq_true', eq_false_iff, ne_eq, bytesLess_iff]
            exact hks
          cases hr : mvccGet e k ts opts with
          | ok v =>
            obtain ⟨r, hres, heq⟩ := ih hnext hlo' (hlen.trans_lt hfuel') (results ++ [⟨k, v⟩])
            refine ⟨r.map (⟨k, v⟩ :: ·), hres.found h hlisted hr, ?_⟩
            simp only [scanLoop, hd, hstop, hr, false_eq_true, if_false, heq]
            cases r <;> simp [Except.map]
          | error err =>
            by_cases hnf : err = .keyNotFound
            · subst hnf
              obtain ⟨r, hres, heq⟩ := ih hnext hlo' (hlen.trans_lt hfuel') results
              refine ⟨r, hres.notFound h hlisted hr, ?_⟩
              simp only [scanLoop, hd, hstop, hr, false_eq_true, if_false, heq]
            · refine ⟨.error err, ⟨k, hlisted, hr, hnf, fun k' hk' _ ↦ h.head_le hk'⟩, ?_⟩
              simp only [scanLoop, hd, hstop, hr, false_eq_true, if_false]
              rfl
      · -- a version is passed
        have hd := decode_encode k hu
        obtain ⟨r, hres, heq⟩ := ih (h.version hs hd) hlo hfuel' results
        refine ⟨r, hres, ?_⟩
        simp only [scanLoop, hd, if_true, heq]

/-- **A scan** terminates and returns what it is to return. -/
theorem mvccScan_spec (h : Scannable K start e) (stop : Option Bytes) (ts : Timestamp)
    (opts : ReadOptions) :
    ∃ r, mvccScan e start stop ts opts = some r ∧ ScanResult K e stop ts opts start r := by
  have hlen : (e.seek (encodeMeta start)).length < e.entries.length + 1 :=
    Nat.lt_succ_of_le (dropWhile_suffix _).length_le
  have hspec : ∃ r, ScanResult K e stop ts opts start r ∧ _ :=
    scanLoop_spec h (ahead_seek K start e le_rfl) le_rfl hlen []
  obtain ⟨r, hres, heq⟩ := hspec
  refine ⟨r, ?_, hres⟩
  rw [mvccScan, heq]
  cases r <;> rfl

theorem Proper.scannable (h : Proper K e) (hK : ∀ k ∈ K, ¬ Ambiguous k) (start : Bytes) :
    Scannable K start e where
  keys hb _ := (h.keys hb).imp_right fun ⟨k, hk, ts, hts, heq⟩ ↦ ⟨k, hk, ts, hts.2, heq⟩
  decodes k hk := decode_encodeMeta_of_not_ambiguous (hK k hk)

/-- **A scan equals point reads**, over an engine that from `start` on holds metadata and versions
of raw keys whose metadata keys decode to themselves. It terminates. If the point read of a raw key
in the range that has metadata fails, other than by not finding anything, it returns the error of
the least such key; otherwise it returns the raw keys in the range whose point reads find a value,
with these values, in ascending order. -/
theorem mvccScan_eq_gets (h : Scannable K start e) (stop : Option Bytes) (ts : Timestamp)
    (opts : ReadOptions) : ∃ r, mvccScan e start stop ts opts = some r ∧
      ((∃ k, Listed K e stop start k ∧ Fails e ts opts k) →
        ∃ k err, Listed K e stop start k ∧ Fails e ts opts k ∧
          (∀ k', Listed K e stop start k' → Fails e ts opts k' → k ≤ k') ∧
          mvccGet e k ts opts = .error err ∧ r = .error err) ∧
      ((¬ ∃ k, Listed K e stop start k ∧ Fails e ts opts k) →
        ∃ out, r = .ok out ∧ out.Pairwise (fun x y ↦ x.key < y.key) ∧
          ∀ x : KeyValue, x ∈ out ↔ x.key ∈ K ∧ start ≤ x.key ∧ (∀ s, stop = some s → x.key < s) ∧
            mvccGet e x.key ts opts = .ok x.value) := by
  obtain ⟨r, hr, hres⟩ := mvccScan_spec h stop ts opts
  refine ⟨r, hr, ?_, ?_⟩
  · rintro ⟨k, hk, hf⟩
    cases r with
    | ok out => exact absurd hf (hres.1 k hk)
    | error err =>
      obtain ⟨k', hk', hget, hne, hleast⟩ := hres
      exact ⟨k', err, hk', ⟨err, hget, hne⟩, hleast, hget, rfl⟩
  · intro hno
    cases r with
    | error err =>
      obtain ⟨k, hk, hget, hne, -⟩ := hres
      exact absurd ⟨k, hk, err, hget, hne⟩ hno
    | ok out =>
      refine ⟨out, rfl, hres.2.1, fun x ↦ (hres.2.2 x).trans ?_⟩
      constructor
      · rintro ⟨hx, hget⟩
        exact ⟨hx.mem, hx.le, hx.lt, hget⟩
      · rintro ⟨hmem, hle, hlt, hget⟩
        exact ⟨⟨hmem, hle, hlt, isSome_of_get hget⟩, hget⟩

end Result

/-- A key that was deleted later than the scan, and one with a single version. -/
theorem mvccScan_eq_gets_someWrites :
    Scannable {k : Bytes | k.length = 1} [] (Journal.run someWrites).engine ∧
    mvccScan (Journal.run someWrites).engine [] none ⟨15, 0⟩ {} =
      some (.ok [⟨[0x61], [1]⟩, ⟨[0x62], [3]⟩]) ∧
    ∀ x : KeyValue, x ∈ ([⟨[0x61], [1]⟩, ⟨[0x62], [3]⟩] : List KeyValue) ↔
      x.key ∈ {k : Bytes | k.length = 1} ∧ [] ≤ x.key ∧ (∀ s, none = some s → x.key < s) ∧
        mvccGet (Journal.run someWrites).engine x.key ⟨15, 0⟩ {} = .ok x.value := by
  have hws : ∀ w ∈ someWrites, w.key ∈ {k : Bytes | k.length = 1} ∧ Valid w.timestamp := by decide
  have hscan : Scannable {k : Bytes | k.length = 1} [] (Journal.run someWrites).engine := by
    refine ((Journal.inv_init (separated_length 1)).foldl hws).1.proper.scannable
      (fun k hk hamb ↦ ?_) []
    have hlen : k.length = 1 := hk
    exact absurd hamb.1 (by rw [hlen]; decide)
  have hval : mvccScan (Journal.run someWrites).engine [] none ⟨15, 0⟩ {} =
      some (.ok [⟨[0x61], [1]⟩, ⟨[0x62], [3]⟩]) := by decide +kernel
  obtain ⟨r, hr, herr, hok⟩ := mvccScan_eq_gets hscan none ⟨15, 0⟩ {}
  obtain rfl := Option.mem_unique hval hr
  obtain ⟨out, hout, -, hmem⟩ := hok fun hfail ↦ by
    obtain ⟨_, _, _, _, _, _, h⟩ := herr hfail
    cases h
  obtain rfl := Except.ok.inj hout
  exact ⟨hscan, hval, hmem⟩

end DucklingDB.Mvcc
