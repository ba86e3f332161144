import DucklingDB.Mvcc.Intent
import DucklingDB.Sql.Codec

/-!
# The two write paths

An executor that writes itself and one that sends its writes as a batch to a `BatchHandler` on the
same engine. They agree on every statement but one: `CREATE TABLE` looks for a table of that name in
two ways. The direct path takes any value under the schema key for a table, the other one only a
value that `GetTable` can decode. `paths_agree_iff` says when this makes a difference.

In an engine that statements have filled there is nothing but schemas under schema keys, as long as
no table name contains the byte zero (`paths_agree_of_run`). With such a name the metadata of one
table can be taken for a version of another, and the difference shows (`exists_paths_disagree`).
-/

namespace DucklingDB.Sql

open Hlc Mvcc KvServer SortedMap

section Paths

variable [MetadataCodec] [SchemaCodec] [GoLibrary]

/-- The sender that applies the batch and returns its error. -/
def handlerSender : BatchSender := batch

/-- Same success or failure, same result, same engine. -/
def Agree (a b : Outcome) : Prop := a.1 = b.1 ∧ a.2.2.toOption = b.2.2.toOption

/-- The two paths on one statement. -/
def PathsAgree (e : Engine) (clock : Clock) (stmt : Statement) : Prop :=
  Agree (execute none e clock stmt) (execute (some handlerSender) e clock stmt)

section

variable (e : Engine)
include e

omit [SchemaCodec] [GoLibrary] in
/-- The puts of a batch are the puts of the loop. -/
theorem executeAll_puts (ts : Timestamp) (puts : List (Bytes × Bytes)) :
    executeAll e ts (puts.map fun p ↦ .put p.1 (some p.2)) = putLoop e ts puts := by
  induction puts generalizing e with
  | nil => rfl
  | cons p puts ih =>
    obtain ⟨key, val⟩ := p
    rw [List.map_cons, executeAll, putLoop, executeSingle, Option.getD_some]
    cases mvccPut e key ts val none with
    | error err => rfl
    | ok e' => exact ih e'

theorem execInsert_eq (clock : Clock) (table : TableExpr) (rows : Option (List (List Expr))) :
    execInsert none e clock table rows = execInsert (some handlerSender) e clock table rows := by
  have hsend : ∀ (ts : Timestamp) (puts : List (Bytes × Bytes)),
      handlerSender e ⟨ts, puts.map fun p ↦ .put p.1 (some p.2)⟩ = putLoop e ts puts :=
    fun ts puts ↦ executeAll_puts e ts puts
  simp only [execInsert, hsend]

section

omit [SchemaCodec] [GoLibrary]

theorem handlerSender_put (ts : Timestamp) (key val : Bytes) :
    handlerSender e ⟨ts, [.put key (some val)]⟩ = written e (mvccPut e key ts val none) := by
  rw [handlerSender, batch, executeAll, executeSingle, Option.getD_some]
  cases mvccPut e key ts val none <;> rfl

theorem handlerSender_delete (ts : Timestamp) (key : Bytes) :
    handlerSender e ⟨ts, [.delete key]⟩ = written e (mvccDelete e key ts none) := by
  rw [handlerSender, batch, executeAll, executeSingle]
  cases mvccDelete e key ts none <;> rfl

end

/-- `CREATE TABLE` of a table under whose schema key there is something that is no schema, and in
whose way there is neither an intent nor a version that is not older. -/
structure Misjudged (e : Engine) (clock : Clock) (schema : TableSchema) : Prop where
  found : ∃ val, mvccGet e (schemaKey schema.name) maxSchemaTS {} = .ok val ∧
    SchemaCodec.unmarshal val = none
  writable : clock.now.1 = {} ∨ ∀ md, metaOf e (schemaKey schema.name) = some md →
    md.intent = none ∧ (md.timestamp = {} ∨ md.timestamp < clock.now.1)

omit [SchemaCodec] [GoLibrary] in
theorem exists_meta_of_get {key val : Bytes} {ts : Timestamp} {opts : ReadOptions}
    (h : mvccGet e key ts opts = .ok val) : ∃ md, loadMeta e key = .ok (some md) ∧
      (ts.isEmpty = false → readVersion e key ts = .ok val) := by
  rw [mvccGet] at h
  split at h
  · cases h
  · cases h
  · rename_i md hmd
    refine ⟨md, hmd, fun hts ↦ ?_⟩
    rw [hts, if_neg Bool.false_ne_true] at h
    split at h
    · cases h
    · exact h

omit [MetadataCodec] [SchemaCodec] [GoLibrary] e in
/-- A write without a transaction goes through where there is no intent and no version that is not
older. -/
theorem writeConflict_eq_none_iff {md : MVCCMetadata} (key : Bytes) {ts : Timestamp} :
    writeConflict md key ts none = none ↔
      md.intent = none ∧ (md.timestamp = {} ∨ md.timestamp < ts) := by
  rw [writeConflict]
  cases md.intent with
  | some owner => simp
  | none =>
    simp only [true_and]
    rw [ite_eq_right_iff]
    simp only [reduceCtorEq, imp_false, Bool.and_eq_true, Bool.not_eq_true', not_and_or,
      Bool.not_eq_false, Timestamp.isEmpty_iff, Timestamp.lessEq_iff, not_le]

omit [SchemaCodec] [GoLibrary] in
theorem exists_put_iff {key : Bytes} (ts : Timestamp) {md : MVCCMetadata}
    (h : loadMeta e key = .ok (some md)) (val : Bytes) :
    (∃ e', mvccPut e key ts val none = .ok e') ↔
      ts = {} ∨ md.intent = none ∧ (md.timestamp = {} ∨ md.timestamp < ts) := by
  rw [← writeConflict_eq_none_iff key, mvccPut, h]
  dsimp only
  split
  · rename_i hts
    exact iff_of_true ⟨_, rfl⟩ (.inl ((Timestamp.isEmpty_iff _).mp hts))
  · rename_i hts
    rw [Timestamp.isEmpty_iff] at hts
    rw [Option.getD_some, or_iff_right hts]
    cases writeConflict md key ts none with
    | some err => exact iff_of_false (by simp) (by simp)
    | none => exact iff_of_true ⟨_, rfl⟩ rfl

omit [GoLibrary] in
/-- The two paths of `CREATE TABLE`, once there is a schema. -/
theorem agree_create_iff (clock : Clock) {table : Bytes} {defs : List TableDef}
    {schema : TableSchema} (h : tableSchema table defs = .ok schema) :
    Agree (execCreateTable none e clock table defs)
      (execCreateTable (some handlerSender) e clock table defs) ↔ ¬ Misjudged e clock schema := by
  simp only [execCreateTable, h, createTable, getTable, handlerSender_put]
  cases hget : mvccGet e (schemaKey schema.name) maxSchemaTS {} with
  | error err =>
    -- both take it for a new table
    have hno : ¬ Misjudged e clock schema := fun hm ↦ by
      obtain ⟨val, hval, -⟩ := hm.found
      cases hget.symm.trans hval
    refine iff_of_true ?_ hno
    cases mvccPut e (schemaKey schema.name) clock.now.1 (SchemaCodec.marshal schema) none <;>
      exact ⟨rfl, rfl⟩
  | ok val =>
    dsimp only
    cases hval : SchemaCodec.unmarshal val with
    | some found =>
      have hno : ¬ Misjudged e clock schema := fun hm ↦ by
        obtain ⟨val', hval', hnone⟩ := hm.found
        obtain rfl : val = val' := Except.ok.inj (hget.symm.trans hval')
        cases hval.symm.trans hnone
      exact iff_of_true ⟨rfl, rfl⟩ hno
    | none =>
      -- it depends on the put, which only the path with the sender makes
      obtain ⟨md, hmd, -⟩ := exists_meta_of_get e hget
      have hput := exists_put_iff e clock.now.1 hmd (SchemaCodec.marshal schema)
      have hmis : Misjudged e clock schema ↔
          ∃ e', mvccPut e (schemaKey schema.name) clock.now.1 (SchemaCodec.marshal schema) none =
            .ok e' := by
        rw [hput]
        refine ⟨fun hm ↦ hm.writable.imp_right fun h ↦ h md (metaOf_of_loadMeta hmd),
          fun h ↦ ⟨⟨val, hget, hval⟩, h.imp_right fun h md' hmd' ↦ ?_⟩⟩
        obtain rfl := Option.some.inj ((metaOf_of_loadMeta hmd).symm.trans hmd')
        exact h
      rw [hmis]
      cases mvccPut e (schemaKey schema.name) clock.now.1 (SchemaCodec.marshal schema) none with
      | error err => exact iff_of_true ⟨rfl, rfl⟩ fun ⟨_, h⟩ ↦ by cases h
      | ok e' =>
        refine iff_of_false (fun hagree ↦ ?_) (not_not.mpr ⟨e', rfl⟩)
        exact absurd hagree.2 (by simp [Except.toOption, finish, written])

/-- The other statements take the same steps on both paths. -/
theorem execute_eq (clock : Clock) {stmt : Statement}
    (h : ∀ table defs, stmt ≠ .createTable table defs) :
    execute none e clock stmt = execute (some handlerSender) e clock stmt := by
  cases stmt with
  | createTable table defs => exact absurd rfl (h table defs)
  | insert table rows => exact execInsert_eq e clock table rows
  | update table cond exprs => simp only [execute, execUpdate, handlerSender_put]
  | delete table cond => simp only [execute, execDelete, handlerSender_delete]

theorem pathsAgree_of_eq {clock : Clock} {stmt : Statement}
    (h : execute none e clock stmt = execute (some handlerSender) e clock stmt) :
    PathsAgree e clock stmt := by
  rw [PathsAgree, h]
  exact ⟨rfl, rfl⟩

theorem pathsAgree_create_iff (clock : Clock) (table : Bytes) (defs : List TableDef) :
    PathsAgree e clock (.createTable table defs) ↔
      ∀ schema, tableSchema table defs = .ok schema → ¬ Misjudged e clock schema := by
  cases hs : tableSchema table defs with
  | error err =>
    refine iff_of_true (pathsAgree_of_eq e ?_) fun _ h ↦ by cases h
    simp only [execute, execCreateTable, hs]
  | ok schema =>
    refine (agree_create_iff e clock hs).trans ⟨fun h schema' heq ↦ ?_, fun h ↦ h schema rfl⟩
    rwa [← Except.ok.inj heq]

end

/-- **The two paths agree** on a statement exactly when it is no `CREATE TABLE` of a table under
whose schema key there is something else than a schema. -/
theorem paths_agree_iff (e : Engine) (clock : Clock) (stmt : Statement) :
    PathsAgree e clock stmt ↔ ∀ table defs schema, stmt = .createTable table defs →
      tableSchema table defs = .ok schema → ¬ Misjudged e clock schema := by
  by_cases hother : ∀ table defs, stmt ≠ .createTable table defs
  · exact iff_of_true (pathsAgree_of_eq e (execute_eq e clock hother))
      fun table defs _ heq ↦ absurd heq (hother table defs)
  · push Not at hother
    obtain ⟨table, defs, rfl⟩ := hother
    rw [pathsAgree_create_iff]
    refine ⟨fun h table' defs' schema heq ↦ ?_, fun h schema ↦ h table defs schema rfl⟩
    obtain ⟨rfl, rfl⟩ := Statement.createTable.inj heq
    exact h schema

/-! ## Runs of statements -/

/-- A statement, by the one path or the other, with the clock it finds. -/
structure Run where
  viaSender : Bool
  clock : Clock
  stmt : Statement

def Run.exec (e : Engine) (r : Run) : Engine :=
  (execute (if r.viaSender then some handlerSender else none) e r.clock r.stmt).1

/-- `CREATE TABLE` names a table without a zero. -/
def Statement.Plain : Statement → Prop
  | .createTable table _ => 0x00 ∉ table
  | _ => True

/-- What statements write: rows, and the schemas of tables without a zero in their name. -/
def Harmless (key : Bytes) (value : Option Bytes) : Prop :=
  key.head? = some 0x2f ∨
    ∃ name schema, 0x00 ∉ name ∧ key = schemaKey name ∧ value = some (SchemaCodec.marshal schema)

/-- An entry of a row, or of the schema of a table without a zero in its name. -/
def PlainEntry (b v : Bytes) : Prop :=
  b.head? = some 0x2f ∨ (∃ name, 0x00 ∉ name ∧ b = encodeMeta (schemaKey name)) ∨
    ∃ schema, v = encodeMVCCValue (SchemaCodec.marshal schema)

/-- Under schema keys there are schemas. -/
def OnlySchemas (e : Engine) : Prop := ∀ b v, e.get b = some v → PlainEntry b v

section OnlySchemas

variable {e e' : Engine} {key : Bytes} {value : Option Bytes} {ts : Timestamp}

section

omit [GoLibrary]

omit [MetadataCodec] [SchemaCodec] in
theorem head_append (h : key.head? = some 0x2f) (s : Bytes) : (key ++ s).head? = some 0x2f := by
  rw [List.head?_append, h]
  rfl

section

omit [MetadataCodec]

theorem OnlySchemas.insert (h : OnlySchemas e) {b v : Bytes} (hb : PlainEntry b v) :
    OnlySchemas (e.insert b v) := by
  intro b' v' hget
  by_cases heq : b' = b
  · rw [heq, get_insert_self] at hget
    rw [heq, ← Option.some.inj hget]
    exact hb
  · rw [get_insert_of_ne _ heq] at hget
    exact h b' v' hget

theorem Harmless.meta (h : Harmless key value) (v : Bytes) : PlainEntry (encodeMeta key) v := by
  rcases h with hhead | ⟨name, -, hname, rfl, -⟩
  · exact Or.inl (head_append hhead _)
  · exact Or.inr (Or.inl ⟨name, hname, rfl⟩)

theorem Harmless.version (h : Harmless key value) (ts : Timestamp) :
    PlainEntry (encode ⟨key, ts⟩) (encodeWrite value) := by
  rcases h with hhead | ⟨-, schema, -, -, rfl⟩
  · refine Or.inl ?_
    rw [encode]
    split
    · exact head_append hhead _
    · exact head_append hhead _
  · exact Or.inr (Or.inr ⟨schema, rfl⟩)

end

/-- **A harmless write keeps schemas under schema keys.** -/
theorem OnlySchemas.write (h : OnlySchemas e) (ts : Timestamp) (hh : Harmless key value) :
    OnlySchemas (written e (mvccWrite e key ts value none)).1 := by
  rcases mvccWrite_cases e key ts value none with
    herr | ⟨-, m, hok⟩ | ⟨-, -, ⟨err, -, herr⟩ | ⟨-, m, hok⟩⟩
  · rw [herr]
    exact h
  · rw [hok]
    exact h.insert (hh.meta _)
  · rw [herr]
    exact h
  · rw [hok]
    exact (h.insert (hh.version ts)).insert (hh.meta _)

theorem OnlySchemas.putLoop {puts : List (Bytes × Bytes)} (h : OnlySchemas e)
    (hputs : ∀ p ∈ puts, p.1.head? = some 0x2f) : OnlySchemas (putLoop e ts puts).1 := by
  induction puts generalizing e with
  | nil => exact h
  | cons p puts ih =>
    obtain ⟨hp, hputs⟩ := List.forall_mem_cons.mp hputs
    have hw := h.write ts (.inl hp : Harmless p.1 (some p.2))
    rw [mvccWrite] at hw
    rw [Sql.putLoop]
    cases hput : mvccPut e p.1 ts p.2 none with
    | error err => exact h
    | ok e' =>
      rw [hput] at hw
      exact ih hw hputs

omit [SchemaCodec] in
/-- A value that is read is in an entry that decodes to a version of the key. -/
theorem exists_entry_of_get {val : Bytes} (hts : ts.isEmpty = false) {opts : ReadOptions}
    (hget : mvccGet e key ts opts = .ok val) :
    ∃ s raw, s.length = tsSize ∧ e.get (key ++ keySeparator :: s) = some raw ∧
      decodeMVCCValue raw = some val := by
  obtain ⟨-, -, hread⟩ := exists_meta_of_get e hget
  specialize hread hts
  rw [readVersion] at hread
  split at hread
  · cases hread
  · rename_i b raw L hseek
    have hentry : e.get b = some raw :=
      mem_entries.mp (mem_seek.mp (hseek ▸ List.mem_cons_self)).1
    split at hread
    · cases hread
    · rename_i found versioned hdec
      split at hread
      · cases hread
      · rename_i hkey
        split at hread
        · cases hread
        · rename_i value hvalue
          rw [Except.ok.inj hread] at hvalue
          simp only [Bool.or_eq_true, Bool.not_eq_true', decide_eq_true_iff, not_or, not_not,
            Bool.not_eq_false] at hkey
          obtain ⟨rfl, rfl⟩ := hkey
          obtain ⟨s, hs, rfl, -⟩ := eq_of_decode_version hdec
          exact ⟨s, raw, hs, hentry, hvalue⟩

/-- **What is found under a schema key is a schema.** -/
theorem OnlySchemas.get (h : OnlySchemas e) {name val : Bytes}
    (hget : mvccGet e (schemaKey name) maxSchemaTS {} = .ok val) :
    ∃ schema, val = SchemaCodec.marshal schema := by
  obtain ⟨s, raw, hs, hentry, hraw⟩ := exists_entry_of_get (by decide) hget
  rcases h _ _ hentry with hhead | ⟨name', hname', heq⟩ | ⟨schema, rfl⟩
  · exact absurd hhead (by simp [schemaKey])
  · -- the metadata of a table has no zero where the timestamp would begin
    rw [encodeMeta, schemaKey, schemaKey, List.append_assoc, List.append_assoc] at heq
    have htail := List.append_cancel_left heq
    have hne : s ≠ [] := fun hnil ↦ absurd hs (by simp [hnil, tsSize])
    rw [← List.dropLast_append_getLast hne, ← List.cons_append, ← List.append_assoc] at htail
    have hname := (List.append_inj' htail rfl).1
    exact absurd (hname ▸ List.mem_append_right name List.mem_cons_self) hname'
  · exact ⟨schema, (Option.some.inj hraw).symm⟩

end

/-! ## What statements write -/

omit [MetadataCodec] [SchemaCodec] in
theorem head_of_mem_insertPuts {tableName : Bytes} {schema : TableSchema} {pk : Column}
    {rows : List (List Expr)} {puts : List (Bytes × Bytes)}
    (h : insertPuts tableName schema pk rows = .ok puts) : ∀ p ∈ puts, p.1.head? = some 0x2f := by
  induction rows generalizing puts with
  | nil =>
    cases h
    exact fun p hp ↦ absurd hp List.not_mem_nil
  | cons exprs rows ih =>
    rw [insertPuts] at h
    split at h
    · cases h
    · split at h
      · cases h
      · split at h
        · cases h
        · cases hrest : insertPuts tableName schema pk rows with
          | error err =>
            rw [hrest] at h
            cases h
          | ok rest =>
            rw [hrest] at h
            rw [← Except.ok.inj h]
            exact List.forall_mem_cons.mpr ⟨rfl, ih hrest⟩

/-- The key that a `WHERE` clause names is a row key. -/
theorem head_of_whereKey {table : TableExpr} {cond : Option Expr} {schema : TableSchema}
    (h : whereKey e table cond = .ok (schema, key)) : key.head? = some 0x2f := by
  rw [whereKey] at h
  split at h
  · cases h
  · split at h
    · cases h
    · split at h
      · cases h
      · split at h
        · cases h
        · rw [← (Prod.mk.inj (Except.ok.inj h)).2]
          rfl

variable (h : OnlySchemas e) (clock : Clock)
include h

theorem OnlySchemas.execInsert (table : TableExpr) (rows : Option (List (List Expr))) :
    OnlySchemas (execInsert none e clock table rows).1 := by
  rw [Sql.execInsert]
  dsimp only
  split
  · exact h
  · split
    · exact h
    · exact h
    · split
      · exact h
      · rename_i puts hputs
        exact h.putLoop (head_of_mem_insertPuts hputs)

theorem OnlySchemas.execUpdate (table : TableExpr) (cond : Option Expr)
    (exprs : List (Bytes × Expr)) : OnlySchemas (execUpdate none e clock table cond exprs).1 := by
  rw [Sql.execUpdate]
  split
  · exact h
  · rename_i schema key hkey
    dsimp only
    split
    · exact h
    · exact h
    · rename_i val _
      exact h.write _ (.inl (head_of_whereKey hkey) : Harmless key (some val))

theorem OnlySchemas.execDelete (table : TableExpr) (cond : Option Expr) :
    OnlySchemas (execDelete none e clock table cond).1 := by
  rw [Sql.execDelete]
  split
  · exact h
  · rename_i schema key hkey
    dsimp only
    split
    · exact h
    · exact h.write _ (.inl (head_of_whereKey hkey) : Harmless key none)

omit [GoLibrary] in
theorem OnlySchemas.execCreateTable {table : Bytes} (htable : 0x00 ∉ table) (defs : List TableDef) :
    OnlySchemas (execCreateTable none e clock table defs).1 := by
  rw [Sql.execCreateTable]
  split
  · exact h
  · rename_i schema hschema
    have hname : schema.name = table := by
      rw [tableSchema] at hschema
      split at hschema
      · cases hschema
      · dsimp only at hschema
        split at hschema
        · cases hschema
        · rw [← Except.ok.inj hschema]
    have hput := h.write clock.now.1 (.inr ⟨schema.name, schema, hname ▸ htable, rfl, rfl⟩)
    rw [mvccWrite] at hput
    simp only [createTable]
    cases mvccGet e (schemaKey schema.name) maxSchemaTS {} with
    | ok val => exact h
    | error err =>
      cases hw : mvccPut e (schemaKey schema.name) clock.now.1 (SchemaCodec.marshal schema)
        none with
      | error err => exact h
      | ok e' =>
        rw [hw] at hput
        exact hput

/-- The paths agree where schema keys hold schemas. -/
theorem OnlySchemas.agree (stmt : Statement) : PathsAgree e clock stmt := by
  by_cases hother : ∀ table defs, stmt ≠ .createTable table defs
  · exact pathsAgree_of_eq e (execute_eq e clock hother)
  · push Not at hother
    obtain ⟨table, defs, rfl⟩ := hother
    refine (pathsAgree_create_iff e clock table defs).mpr fun schema _ hm ↦ ?_
    obtain ⟨val, hval, hnone⟩ := hm.found
    obtain ⟨schema', rfl⟩ := h.get hval
    exact absurd hnone (Option.isSome_iff_ne_none.mp (SchemaCodec.unmarshal_marshal schema'))

omit clock in
/-- **A statement keeps schemas under schema keys.** -/
theorem OnlySchemas.exec {r : Run} (hr : r.stmt.Plain) : OnlySchemas (r.exec e) := by
  obtain ⟨viaSender, clock, stmt⟩ := r
  have hdirect : OnlySchemas (execute none e clock stmt).1 := by
    cases stmt with
    | createTable table defs => exact h.execCreateTable clock hr defs
    | insert table rows => exact h.execInsert clock table rows
    | update table cond exprs => exact h.execUpdate clock table cond exprs
    | delete table cond => exact h.execDelete clock table cond
  cases viaSender with
  | false => exact hdirect
  | true =>
    rw [(h.agree clock stmt).1] at hdirect
    exact hdirect

end OnlySchemas

/-- **The paths agree** on every statement in an engine that statements have filled, if no table
they created has a zero in its name. -/
theorem paths_agree_of_run (runs : List Run) (hruns : ∀ r ∈ runs, r.stmt.Plain) (clock : Clock)
    (stmt : Statement) : PathsAgree (runs.foldl Run.exec empty) clock stmt := by
  refine OnlySchemas.agree ?_ clock stmt
  induction runs using List.reverseRecOn with
  | nil => exact fun b v h ↦ absurd h (by simp)
  | append_singleton runs r ih =>
    rw [List.foldl_append]
    refine (ih fun r' hr' ↦ hruns r' (List.mem_append_left _ hr')).exec ?_
    exact hruns r (List.mem_append_right _ List.mem_cons_self)

end Paths

/-- `CREATE TABLE` with an integer as the primary key. -/
def createIntTable (table : Bytes) : Statement :=
  .createTable table [.column (ascii "id") (ascii "INT") true]

/-- The table `t` is created by the one path, and a row is inserted by the other. -/
def plainRun : List Run :=
  [⟨false, ⟨fun _ ↦ 10, 0, 0, {}⟩, createIntTable (ascii "t")⟩,
    ⟨true, ⟨fun _ ↦ 20, 0, 0, {}⟩, .insert (.name (ascii "t")) (some [[.num (ascii "1")]])⟩]

/-- Both paths refuse to create the table a second time. -/
theorem paths_agree_iff_plainRun :
    let e := plainRun.foldl Run.exec empty
    (getTable e (ascii "t")).isOk = true ∧
    (mvccGet e (encodeRowKey (ascii "t") .int (.int 1)) ⟨20, 0⟩ {}).isOk ∧
      PathsAgree e ⟨fun _ ↦ 30, 0, 0, {}⟩ (createIntTable (ascii "t")) := by
  have htable : (getTable (plainRun.foldl Run.exec empty) (ascii "t")).isOk = true := by
    decide +kernel
  refine ⟨htable,
    by decide +kernel, (paths_agree_iff _ _ _).mpr fun table defs schema heq hs hm ↦ ?_⟩
  obtain ⟨rfl, rfl⟩ := Statement.createTable.inj heq
  obtain rfl := Except.ok.inj hs
  obtain ⟨val, hval, hnone⟩ := hm.found
  have hval : mvccGet (plainRun.foldl Run.exec empty) (schemaKey (ascii "t")) maxSchemaTS {} =
      .ok val :=
    hval
  rw [getTable, hval] at htable
  dsimp only at htable
  rw [hnone] at htable
  cases htable

/-- A name that continues the name `t` with a zero and eleven bytes. -/
def misleadingName : Bytes := ascii "t" ++ 0x00 :: 0xc3 :: 0xa9 :: List.replicate 9 0x61

/-- The table `t` is created, and then the one with the misleading name. -/
def misleadingRun : List Run :=
  [⟨false, ⟨fun _ ↦ 10, 0, 0, {}⟩, createIntTable (ascii "t")⟩,
    ⟨false, ⟨fun _ ↦ 20, 0, 0, {}⟩, createIntTable misleadingName⟩]

/-- The direct path refuses to create the table `t` a second time, the other one does it. -/
theorem exists_paths_disagree :
    let e := misleadingRun.foldl Run.exec empty
    let clock : Clock := ⟨fun _ ↦ 30, 0, 0, {}⟩
    (execute none e clock (createIntTable (ascii "t"))).2.2 = .error (.tableExists (ascii "t")) ∧
      (execute (some handlerSender) e clock (createIntTable (ascii "t"))).2.2 =
        .ok { message := "OK" } ∧
      ¬ PathsAgree e clock (createIntTable (ascii "t")) := by
  have hdirect : (execute none (misleadingRun.foldl Run.exec empty) ⟨fun _ ↦ 30, 0, 0, {}⟩
      (createIntTable (ascii "t"))).2.2 = .error (.tableExists (ascii "t")) := by decide +kernel
  have hsent : (execute (some handlerSender) (misleadingRun.foldl Run.exec empty)
      ⟨fun _ ↦ 30, 0, 0, {}⟩ (createIntTable (ascii "t"))).2.2 = .ok { message := "OK" } := by
    decide +kernel
  refine ⟨hdirect, hsent, fun hagree ↦ ?_⟩
  have hres := hagree.2
  rw [hdirect, hsent] at hres
  exact absurd hres (by simp [Except.toOption])

end DucklingDB.Sql
