import DucklingDB.Mvcc.Lifecycle
import DucklingDB.Mvcc.Scan
import DucklingDB.Sql.Codec
import DucklingDB.Util.Causality

/-!
# Listing the tables

`ListTables` scans the range of the schema keys, while `CreateTable`, `DropTable` and `GetTable`
make point reads. The two agree on the tables there are, as long as the scan recovers the schema
keys from their metadata. It does not for a table whose name has four letters: the zero byte that
schema keys begin with is then where the separator of a version would be.
-/

namespace DucklingDB.Sql

open Hlc Mvcc Bytes Function List

section Listing

variable [MetadataCodec] [SchemaCodec]

/-- `DropTable`. A read that fails counts as no table. -/
def dropTable (e : Engine) (clock : Clock) (name : Bytes) : Engine × Clock × Option SqlError :=
  match mvccGet e (schemaKey name) maxSchemaTS {} with
  | .error _ => (e, clock, some (.tableNotFound name))
  | .ok _ =>
    let (ts, clock) := clock.now
    match mvccDelete e (schemaKey name) ts none with
    | .error err => (e, clock, some (.kv err))
    | .ok e => (e, clock, none)

open SchemaCodec (marshal unmarshal)

def listTables (e : Engine) : Option (Except SqlError (List TableSchema)) :=
  (mvccScan e (0x00 :: ascii "schema/") (some (0x00 :: ascii "schema0")) maxSchemaTS {}).map fun
    | .error err => .error (.kv err)
    | .ok kvs => (kvs.mapM fun kv ↦ unmarshal kv.value).elim (.error .unmarshal) .ok

/-! ## Runs -/

inductive CatalogOp where
  | create (schema : TableSchema)
  | drop (name : Bytes)

/-- The engine, the clock, and the tables that have been created and not since dropped. -/
structure CatalogRun where
  engine : Engine := SortedMap.empty
  clock : Clock
  tables : Bytes → Option TableSchema := fun _ ↦ none

/-- A call that fails creates and drops nothing. -/
def CatalogRun.step (s : CatalogRun) : CatalogOp → CatalogRun
  | .create schema =>
    match createTable s.engine s.clock schema with
    | (e, clock, some _) => ⟨e, clock, s.tables⟩
    | (e, clock, none) => ⟨e, clock, update s.tables schema.name (some schema)⟩
  | .drop name =>
    match dropTable s.engine s.clock name with
    | (e, clock, some _) => ⟨e, clock, s.tables⟩
    | (e, clock, none) => ⟨e, clock, update s.tables name none⟩

def CatalogRun.run (s : CatalogRun) (ops : List CatalogOp) : CatalogRun :=
  ops.foldl CatalogRun.step s

/-- The next reading of the clock does not overflow, and schemas written at it are read. -/
def Ticks (c : Clock) : Prop :=
  (c.state.wallTime < c.wall c.reads ∨ c.HasTick) ∧ c.nextState ≤ maxSchemaTS

/-- What is asked of a call. A table that is created has a schema that JSON gives back, and a schema
key whose metadata is not taken for a version. -/
def CatalogRun.Legible (N : Set Bytes) (s : CatalogRun) : CatalogOp → Prop
  | .create schema => schema.name ∈ N ∧ ¬ Ambiguous (schemaKey schema.name) ∧
      unmarshal (marshal schema) = some schema ∧ Ticks s.clock
  | .drop name => name ∈ N ∧ Ticks s.clock

def CatalogRun.AllLegible (N : Set Bytes) (s : CatalogRun) : List CatalogOp → Prop
  | [] => True
  | op :: ops => s.Legible N op ∧ (s.step op).AllLegible N ops

/-! ## Schema keys -/

section

omit [MetadataCodec] [SchemaCodec]

theorem schemaKey_injective : Function.Injective schemaKey := fun _ _ h ↦ append_cancel_left h

theorem separated_schemaKey {N : Set Bytes} (hN : Separated N) : Separated (schemaKey '' N) := by
  rintro _ ⟨n, hn, rfl⟩ _ ⟨n', hn', rfl⟩ hpre
  rw [schemaKey, schemaKey, append_assoc, prefix_append_right_inj] at hpre
  exact hN n hn n' hn' hpre

theorem schemaKey_mem_range (n : Bytes) :
    0x00 :: ascii "schema/" ≤ schemaKey n ∧ schemaKey n < 0x00 :: ascii "schema0" := by
  constructor
  · have h : (0x00 :: ascii "schema/") ++ [] ≤ schemaKey n :=
      (append_le_append_left _ [] n).mpr (not_lt.mp (not_lt_nil n))
    rwa [append_nil] at h
  · have h : (0x00 :: ascii "schema") ++ (0x2f :: n) < (0x00 :: ascii "schema") ++ [0x30] :=
      (append_lt_append_left _ _ _).mpr (cons_lt_cons_iff.mpr (.inl (by decide)))
    exact h

theorem valid_maxSchemaTS : Valid maxSchemaTS := by decide

end

/-! ## The tables there are -/

/-- The point reads of the schemas give the tables there are. -/
structure CatalogRun.Inv (N : Set Bytes) (s : CatalogRun) : Prop where
  committed : AllCommitted (schemaKey '' N) s.engine
  nonneg : s.clock.state.Nonneg
  metas : ∀ n ∈ N, ∀ m, metaOf s.engine (schemaKey n) = some m →
    m.timestamp ≤ s.clock.state ∧ ¬ Ambiguous (schemaKey n)
  get : ∀ n ∈ N, mvccGet s.engine (schemaKey n) maxSchemaTS {} =
    (s.tables n).elim (.error .keyNotFound) fun t ↦ .ok (marshal t)
  tables : ∀ {n t}, s.tables n = some t → n ∈ N ∧ t.name = n ∧ unmarshal (marshal t) = some t

variable {N : Set Bytes} {s : CatalogRun} {n : Bytes}

theorem CatalogRun.inv_init (hN : Separated N) {clock : Clock} (hc : clock.state.Nonneg) :
    CatalogRun.Inv N { clock := clock } where
  committed := Committed.empty.allCommitted (separated_schemaKey hN)
  nonneg := hc
  metas _ _ _ h := absurd h (by simp [metaOf])
  get n hn := (proper_empty (separated_schemaKey hN)).get_eq_none ⟨n, hn, rfl⟩ (by simp [metaOf]) {}
  tables h := by cases h

section

variable (h : s.Inv N)
include h

/-- A schema or a tombstone is written at the next reading of the clock. -/
theorem CatalogRun.Inv.write (hn : n ∈ N) (hamb : ¬ Ambiguous (schemaKey n)) (hc : Ticks s.clock)
    {table : Option TableSchema}
    (htable : ∀ t, table = some t → t.name = n ∧ unmarshal (marshal t) = some t) :
    ∃ e', mvccWrite s.engine (schemaKey n) s.clock.nextState (table.map marshal) none = .ok e' ∧
      CatalogRun.Inv N ⟨e', s.clock.now.2, update s.tables n table⟩ := by
  have hk : schemaKey n ∈ schemaKey '' N := ⟨n, hn, rfl⟩
  have hlt := (Clock.lt_nextState_iff s.clock).mpr hc.1
  have hnonneg := Clock.nonneg_nextState h.nonneg hlt
  have hts : Valid s.clock.nextState :=
    ⟨hnonneg, fun h0 ↦ absurd (h0 ▸ hlt) (not_lt.mpr h.nonneg.empty_le)⟩
  have hmetas : ∀ m, metaOf s.engine (schemaKey n) = some m → m.timestamp < s.clock.nextState :=
    fun m hm ↦ (h.metas n hn m hm).1.trans_lt hlt
  obtain ⟨e', m, hok, hch, hsum, hi⟩ := h.committed.write hk hts hmetas (table.map marshal)
  obtain ⟨hold, -, -, -, hget⟩ := (h.committed.summary _ hk).get_write h.committed.proper hk hts hok
  refine ⟨e', hok, h.committed.changed hch hsum hi, hnonneg, fun n' hn' m' hm' ↦ ?_,
    fun n' hn' ↦ ?_, fun {n' t} ht ↦ ?_⟩
  · by_cases heq : n' = n
    · subst heq
      refine ⟨?_, hamb⟩
      -- the metadata names a version, which is the new one or older
      obtain ⟨raw, hraw⟩ := hsum.stored hm'
      rw [hch.version _ (hsum.valid hm'), update_apply] at hraw
      split at hraw
      · rename_i htop
        exact htop.le
      · exact (hold _ raw (hsum.valid hm') hraw).le
    · rw [hch.metaOf_ne _ ⟨n', hn', rfl⟩ (schemaKey_injective.ne heq)] at hm'
      exact (h.metas n' hn' m' hm').imp_left fun hle ↦ hle.trans hlt.le
  · by_cases heq : n' = n
    · subst heq
      dsimp only
      rw [hget _ valid_maxSchemaTS, if_pos hc.2, update_self]
      cases table <;> rfl
    · have hk' : schemaKey n' ∈ schemaKey '' N := ⟨n', hn', rfl⟩
      have hne := schemaKey_injective.ne heq
      dsimp only
      rw [update_of_ne heq, ← h.get n' hn']
      exact (h.committed.summary _ hk').get_congr
        (hch.summary_ne hk' hne (h.committed.summary _ hk'))
        h.committed.proper hch.proper hk' (h.committed.free _ hk')
        ((hch.intentOf_ne hk' hne).trans (h.committed.free _ hk')) (hch.version_ne _ hk' hne)
        valid_maxSchemaTS.1 {}
  · dsimp only at ht
    by_cases heq : n' = n
    · subst heq
      rw [update_self] at ht
      exact ⟨hn, htable t ht⟩
    · rw [update_of_ne heq] at ht
      exact h.tables ht

theorem CatalogRun.Inv.not_ambiguous (hn : n ∈ N) (hm : metaOf s.engine (schemaKey n) ≠ none) :
    ¬ Ambiguous (schemaKey n) := by
  obtain ⟨m, hm⟩ := Option.ne_none_iff_exists'.mp hm
  exact (h.metas n hn m hm).2

/-- **One call.** -/
theorem CatalogRun.Inv.step {op : CatalogOp} (hop : s.Legible N op) : (s.step op).Inv N := by
  cases op with
  | create schema =>
    obtain ⟨hn, hamb, hjson, hc⟩ := hop
    have hget := h.get _ hn
    cases ht : s.tables schema.name with
    | some t =>
      rw [ht, Option.elim_some] at hget
      simp only [CatalogRun.step, createTable, hget]
      exact h
    | none =>
      rw [ht, Option.elim_none] at hget
      obtain ⟨e', hok, hinv⟩ := h.write hn hamb hc fun t (ht : some schema = some t) ↦
        Option.some.inj ht ▸ ⟨rfl, hjson⟩
      have hput : mvccPut s.engine (schemaKey schema.name) s.clock.nextState
          (marshal schema) none = .ok e' := hok
      simp only [CatalogRun.step, createTable, hget, Clock.now, hput]
      exact hinv
  | drop name =>
    obtain ⟨hn, hc⟩ := hop
    have hget := h.get _ hn
    cases ht : s.tables name with
    | none =>
      rw [ht, Option.elim_none] at hget
      simp only [CatalogRun.step, dropTable, hget]
      exact h
    | some t =>
      rw [ht, Option.elim_some] at hget
      -- what is found has metadata
      have hamb : ¬ Ambiguous (schemaKey name) := h.not_ambiguous hn fun hm ↦ by
        rw [h.committed.proper.get_eq_none ⟨name, hn, rfl⟩ hm] at hget
        cases hget
      obtain ⟨e', hok, hinv⟩ := h.write hn hamb hc fun t (ht : none = some t) ↦ by cases ht
      have hdel : mvccDelete s.engine (schemaKey name) s.clock.nextState none = .ok e' := hok
      simp only [CatalogRun.step, dropTable, hget, Clock.now, hdel]
      exact hinv

/-- **Any number of calls.** -/
theorem CatalogRun.Inv.run {ops : List CatalogOp} (hops : s.AllLegible N ops) :
    (s.run ops).Inv N := by
  induction ops generalizing s with
  | nil => exact h
  | cons op ops ih => exact ih (h.step hops.1) hops.2

/-! ## Listing them -/

theorem CatalogRun.Inv.getTable_eq (hn : n ∈ N) : getTable s.engine n =
    (s.tables n).elim (.error (.tableNotFound n)) .ok := by
  rw [getTable, h.get n hn]
  cases ht : s.tables n with
  | none => rfl
  | some t => simp only [Option.elim_some, (h.tables ht).2.2]

theorem CatalogRun.Inv.scannable (start : Bytes) :
    Scannable {k ∈ schemaKey '' N | ¬ Ambiguous k} start s.engine where
  keys {b v} hb _ := by
    rcases h.committed.proper.keys hb with ⟨_, ⟨n, hn, rfl⟩, rfl⟩ | ⟨_, ⟨n, hn, rfl⟩, ts, hts, rfl⟩
    · refine .inl ⟨_, ⟨⟨n, hn, rfl⟩, h.not_ambiguous hn ?_⟩, rfl⟩
      exact h.committed.proper.metaOf_ne_none ⟨n, hn, rfl⟩ hb
    · refine .inr ⟨_, ⟨⟨n, hn, rfl⟩, h.not_ambiguous hn fun hm ↦ ?_⟩, ts, hts.2, rfl⟩
      have hnone := (h.committed.summary _ ⟨n, hn, rfl⟩).absent hm ts hts
      cases hb.symm.trans hnone
  decodes k hk := decode_encodeMeta_of_not_ambiguous hk.2

end

omit [MetadataCodec] [SchemaCodec] in
theorem mapM_map_eq_some {α β : Type*} {f : α → Option β} {g : β → α} {L : List β}
    (h : ∀ b ∈ L, f (g b) = some b) : (L.map g).mapM f = some L := by
  induction L with
  | nil => rfl
  | cons b L ih =>
    rw [map_cons, mapM_cons, h b (.head _), ih fun b' hb' ↦ h b' (.tail _ hb')]
    rfl

/-- The entry of a table. -/
def entryOf (t : TableSchema) : KeyValue := ⟨schemaKey t.name, marshal t⟩

/-- The scan finds the tables there are, by name. -/
theorem CatalogRun.Inv.scan (h : s.Inv N) : ∃ out : List TableSchema,
    mvccScan s.engine (0x00 :: ascii "schema/") (some (0x00 :: ascii "schema0")) maxSchemaTS {} =
        some (.ok (out.map entryOf)) ∧
      out.Pairwise (fun t u ↦ t.name < u.name) ∧ ∀ t, t ∈ out ↔ s.tables t.name = some t := by
  obtain ⟨r, hr, hres⟩ := mvccScan_spec (h.scannable (0x00 :: ascii "schema/"))
    (some (0x00 :: ascii "schema0")) maxSchemaTS {}
  cases r with
  | error err =>
    -- a point read finds a schema or nothing
    obtain ⟨_, ⟨⟨⟨n, hn, rfl⟩, -⟩, -, -, -⟩, hget, hne, -⟩ := hres
    rw [h.get n hn] at hget
    cases ht : s.tables n with
    | none =>
      rw [ht] at hget
      exact absurd (Except.error.inj hget).symm hne
    | some t =>
      rw [ht] at hget
      cases hget
  | ok kvs =>
    obtain ⟨-, hsorted, hmem⟩ := hres
    have hlive : ∀ x ∈ kvs, ∃ t : {t // s.tables t.name = some t}, entryOf t.1 = x := by
      intro x hx
      obtain ⟨⟨⟨⟨n, hn, hkey⟩, -⟩, -, -, -⟩, hget⟩ := (hmem x).mp hx
      rw [← hkey, h.get n hn] at hget
      cases ht : s.tables n with
      | none =>
        rw [ht] at hget
        cases hget
      | some t =>
        rw [ht] at hget
        obtain rfl := (h.tables ht).2.1
        refine ⟨⟨t, ht⟩, ?_⟩
        rw [entryOf, hkey, Except.ok.inj hget]
    have hrange : kvs ∈ Set.range (List.map fun t : {t // s.tables t.name = some t} ↦
        entryOf t.1) := by
      rw [Set.range_list_map]
      exact hlive
    obtain ⟨L, rfl⟩ := hrange
    refine ⟨L.map Subtype.val, by rw [hr, map_map]; rfl, ?_, fun t ↦ ⟨fun ht ↦ ?_, fun ht ↦ ?_⟩⟩
    · rw [pairwise_map] at hsorted ⊢
      exact hsorted.imp (append_lt_append_left (0x00 :: ascii "schema/") _ _).mp
    · obtain ⟨u, -, rfl⟩ := mem_map.mp ht
      exact u.2
    · obtain ⟨hn, -, -⟩ := h.tables ht
      have hget : mvccGet s.engine (schemaKey t.name) maxSchemaTS {} = .ok (marshal t) := by
        rw [h.get _ hn, ht]
        rfl
      have hsome := isSome_of_get hget
      obtain ⟨v, hv⟩ := Option.isSome_iff_exists.mp hsome
      have hamb := h.not_ambiguous hn (h.committed.proper.metaOf_ne_none ⟨_, hn, rfl⟩ hv)
      have hx := (hmem (entryOf t)).mpr ⟨⟨⟨⟨_, hn, rfl⟩, hamb⟩, (schemaKey_mem_range _).1,
        fun _ hs ↦ Option.some.inj hs ▸ (schemaKey_mem_range _).2, hsome⟩, hget⟩
      -- the tables of one name are one
      obtain ⟨u, hu, heq⟩ := mem_map.mp hx
      have hname : u.1.name = t.name := schemaKey_injective (congrArg KeyValue.key heq)
      have hut : u.1 = t := Option.mem_unique u.2 (hname ▸ ht)
      exact mem_map.mpr ⟨u, hu, hut⟩

/-- **Listing is complete.** After any calls of `CreateTable` and `DropTable` that meet the
condition, for names none of which starts with another one followed by a zero byte, `ListTables`
returns exactly the schemas of the tables that have been created and not since dropped, by name, and
`GetTable` finds exactly these. -/
theorem listTables_complete (hN : Separated N) {clock : Clock} (hc : clock.state.Nonneg)
    {ops : List CatalogOp} (hops : CatalogRun.AllLegible N { clock := clock } ops) :
    let s := CatalogRun.run { clock := clock } ops
    ∃ out, listTables s.engine = some (.ok out) ∧ out.Pairwise (fun t u ↦ t.name < u.name) ∧
      (∀ t, t ∈ out ↔ s.tables t.name = some t) ∧
      ∀ n ∈ N, ∀ t, getTable s.engine n = .ok t ↔ t ∈ out ∧ t.name = n := by
  intro s
  have h : s.Inv N := (CatalogRun.inv_init hN hc).run hops
  obtain ⟨out, hscan, hsorted, hmem⟩ := h.scan
  refine ⟨out, ?_, hsorted, hmem, fun n hn t ↦ ?_⟩
  · have hjson : (out.map entryOf).mapM (fun kv ↦ unmarshal kv.value) = some out :=
      mapM_map_eq_some fun t ht ↦ (h.tables ((hmem t).mp ht)).2.2
    simp only [listTables, hscan, Option.map_some, hjson, Option.elim_some]
  · rw [h.getTable_eq hn, hmem]
    constructor
    · intro hget
      cases ht : s.tables n with
      | none =>
        rw [ht] at hget
        cases hget
      | some u =>
        rw [ht] at hget
        obtain rfl := Except.ok.inj hget
        have hname := (h.tables ht).2.1
        exact ⟨hname.symm ▸ ht, hname⟩
    · rintro ⟨ht, rfl⟩
      rw [ht]
      rfl

end Listing

/-- Two tables are created, and the first one is dropped. -/
def letterTables : List CatalogOp :=
  [.create ⟨ascii "t", []⟩, .create ⟨ascii "users", []⟩, .drop (ascii "t")]

theorem listTables_complete_letters :
    Separated {n : Bytes | 0x00 ∉ n} ∧
    CatalogRun.AllLegible {n : Bytes | 0x00 ∉ n} { clock := ⟨fun _ ↦ 10, 0, 0, {}⟩ } letterTables ∧
    ∃ out, listTables (CatalogRun.run { clock := ⟨fun _ ↦ 10, 0, 0, {}⟩ } letterTables).engine =
      some (.ok out) ∧ ∀ t, getTable (CatalogRun.run { clock := ⟨fun _ ↦ 10, 0, 0, {}⟩ }
        letterTables).engine (ascii "users") = .ok t ↔ t ∈ out ∧ t.name = ascii "users" := by
  have hN : Separated {n : Bytes | 0x00 ∉ n} := by
    intro k _ k' hk' hpre
    exact hk' (hpre.subset (by simp [keySeparator]))
  have hops : CatalogRun.AllLegible {n : Bytes | 0x00 ∉ n} { clock := ⟨fun _ ↦ 10, 0, 0, {}⟩ }
      letterTables := by
    refine ⟨⟨by decide, by decide, by decide +kernel, ?_, ?_⟩,
      ⟨by decide, by decide, by decide +kernel, ?_, ?_⟩, ⟨by decide, ?_, ?_⟩,
      trivial⟩ <;> decide +kernel
  obtain ⟨out, hout, -, -, hget⟩ := listTables_complete hN (by decide) hops
  exact ⟨hN, hops, out, hout, hget _ (by decide)⟩

/-- A table whose name has four letters is found, but not listed. -/
theorem exists_unlisted_table :
    let s := CatalogRun.run { clock := ⟨fun _ ↦ 10, 0, 0, {}⟩ } [.create ⟨ascii "rows", []⟩]
    listTables s.engine = some (.ok []) ∧
      getTable s.engine (ascii "rows") = .ok ⟨ascii "rows", []⟩ := by
  decide +kernel

end DucklingDB.Sql
