import DucklingDB.KvServer.Batch
import DucklingDB.Sql.Catalog
import DucklingDB.Util.GoMap

/-!
# The executor

`executor.go` and `encode.go`, for the statements that write. An executor with a sender hands its
writes to the sender as one batch, an executor without one makes them itself; every statement has a
branch for each. The parser is not part of the source, so a statement here is its syntax tree, as
far as the executor looks at it. Numbers are parsed and printed, and rows encoded, by the Go
library, of which `GoLibrary` says what is assumed.
-/

namespace DucklingDB.Sql

open Hlc Mvcc KvServer

/-! ## Values and rows -/

/-- What a column can hold: the dynamic types that `exprToValue` and `decodeRowValue` produce. A
`float64` is given by its bits. -/
inductive Datum where
  | int (n : Int64)
  | float (bits : UInt64)
  | str (s : Bytes)
  | bool (b : Bool)
  deriving DecidableEq

/-- `map[string]any`, by column name. -/
abbrev Row := GoMap Bytes Datum

/-- The parts of the Go library the executor uses. Of numbers and formats nothing is assumed. Of
`encoding/json` it is assumed that a row that is encoded decodes to the same columns, if their names
are UTF-8, with values that encode to themselves from then on: an integer becomes a floating-point
number. -/
class GoLibrary where
  /-- `strconv.ParseInt`, to base 10. -/
  parseInt : Bytes → Option Int64
  /-- `strconv.ParseFloat`. -/
  parseFloat : Bytes → Option UInt64
  /-- `fmt.Sprintf` with `%v`. -/
  format : Datum → Bytes
  /-- The conversion `int64(x)` of a `float64`. -/
  truncate : UInt64 → Int64
  /-- `utf8.Valid`. -/
  validUTF8 : Bytes → Bool
  marshalRow : Row → Option Bytes
  unmarshalRow : Bytes → Option Row
  /-- What a value is after it has been stored. -/
  stored : Datum → Datum
  stored_stored : ∀ d, stored (stored d) = stored d
  unmarshal_marshalRow : ∀ {row b}, marshalRow row = some b →
    (∀ c ∈ row, validUTF8 c = true) → ∃ row', unmarshalRow b = some row' ∧
    ∀ c, row'.lookup c = (row.lookup c).map stored

/-! ## Syntax trees -/

inductive Expr where
  | num (orig : Bytes)
  | str (raw : Bytes)
  | bool (b : Bool)
  /-- A comparison, by `=` or another operator. -/
  | comparison (eq : Bool) (left right : Expr)
  | column (name : Bytes)
  | other

inductive TableExpr where
  | aliased (expr : TableExpr)
  | name (table : Bytes)
  | other (formatted : Bytes)

inductive TableDef where
  | column (name sqlType : Bytes) (primaryKey : Bool)
  | other

inductive Statement where
  | createTable (table : Bytes) (defs : List TableDef)
  /-- The rows are those of the `VALUES` clause, if it is one. -/
  | insert (table : TableExpr) (rows : Option (List (List Expr)))
  | update (table : TableExpr) (cond : Option Expr) (exprs : List (Bytes × Expr))
  | delete (table : TableExpr) (cond : Option Expr)

def tableNameFromExpr : TableExpr → Bytes
  | .aliased expr => tableNameFromExpr expr
  | .name table => table
  | .other formatted => formatted

/-- `strings.ToUpper` on ASCII letters. -/
def toUpper (s : Bytes) : Bytes := s.map fun b ↦ if 0x61 ≤ b ∧ b ≤ 0x7a then b - 0x20 else b

def mapColumnType (s : Bytes) : Except SqlError ColumnType :=
  if (["INT", "INT8", "INT4", "INTEGER", "BIGINT"].map ascii).contains (toUpper s) then .ok .int
  else if (["TEXT", "STRING", "VARCHAR", "CHAR"].map ascii).contains (toUpper s) then .ok .text
  else if (["BOOL", "BOOLEAN"].map ascii).contains (toUpper s) then .ok .bool
  else if (["FLOAT", "FLOAT8", "FLOAT4", "REAL", "DOUBLE PRECISION"].map ascii).contains
    (toUpper s) then
    .ok .float
  else .error (.columnType s)

/-- The columns of `CREATE TABLE`. -/
def tableColumns : List TableDef → Except SqlError (List Column)
  | [] => .ok []
  | .other :: defs => tableColumns defs
  | .column name sqlType primaryKey :: defs =>
    match mapColumnType sqlType with
    | .error err => .error err
    | .ok type =>
      if primaryKey ∧ type ≠ .int ∧ type ≠ .text then .error (.primaryKeyType name)
      else (tableColumns defs).map fun cols ↦ ⟨name, type, primaryKey⟩ :: cols

/-- The schema of `CREATE TABLE`. -/
def tableSchema (table : Bytes) (defs : List TableDef) : Except SqlError TableSchema :=
  match tableColumns defs with
  | .error err => .error err
  | .ok columns =>
    let schema : TableSchema := ⟨table, columns⟩
    if schema.primaryKeyColumn = none then .error .noPrimaryKey else .ok schema

variable [GoLibrary]

def exprToValue : Expr → Except SqlError Datum
  | .num orig =>
    if orig.contains 0x2e then ((GoLibrary.parseFloat orig).map Datum.float).elim
      (.error .literal) .ok
    else ((GoLibrary.parseInt orig).map Datum.int).elim (.error .literal) .ok
  | .str raw => .ok (.str raw)
  | .bool b => .ok (.bool b)
  | .comparison _ _ _ | .column _ | .other => .error .literal

def whereExprToPKValue (expr : Expr) (schema : TableSchema) : Except SqlError Datum :=
  match expr with
  | .comparison true (.column name) right =>
    match schema.primaryKeyColumn with
    | none => .error .wherePrimaryKey
    | some pk => if name ≠ pk.name then .error .wherePrimaryKey else exprToValue right
  | .comparison true _ _ => .error .whereColumn
  | _ => .error .wherePrimaryKey

def toInt64 : Datum → Int64
  | .int n => n
  | .float bits => GoLibrary.truncate bits
  | .str _ | .bool _ => 0

def encodeRowKey (tableName : Bytes) (pkType : ColumnType) (pkVal : Datum) : Bytes :=
  ascii "/" ++ tableName ++ ascii "/" ++
    if pkType = .int then Bytes.beBytes 8 (toInt64 pkVal).toUInt64.toNat else GoLibrary.format pkVal

/-- The columns that `encodeRowValue` keeps of a row: those of the schema that are not the primary
key. -/
def storedColumns (cols : List Column) (row : Row) : Row :=
  cols.foldl (fun out col ↦
    if col.primaryKey then out
    else
      match row.lookup col.name with
      | none => out
      | some v => out.insert col.name v) ∅

def encodeRowValue (cols : List Column) (row : Row) : Except SqlError Bytes :=
  (GoLibrary.marshalRow (storedColumns cols row)).elim (.error .marshal) .ok

def decodeRowValue (data : Bytes) : Except SqlError Row :=
  (GoLibrary.unmarshalRow data).elim (.error .unmarshal) .ok

/-! ## Statements -/

/-- `Result`, for a statement that writes. -/
structure Result where
  rowsAffected : ℕ := 0
  message : String
  deriving DecidableEq

/-- `BatchSender`: what the sender does to the engine, and the error it returns. -/
abbrev BatchSender := Engine → BatchRequest → Engine × Option MVCCError

/-- What a statement leaves behind and returns. -/
abbrev Outcome := Engine × Clock × Except SqlError Result

/-- The values of one row of `INSERT`, by column, and the value of the primary key: the last column
that is marked as one. -/
def insertRow : List Column → List Expr → Row → Option Datum → Except SqlError (Row × Option Datum)
  | col :: cols, expr :: exprs, row, pkVal =>
    match exprToValue expr with
    | .error err => .error err
    | .ok val =>
      insertRow cols exprs (row.insert col.name val) (if col.primaryKey then some val else pkVal)
  | _, _, row, pkVal => .ok (row, pkVal)

/-- The puts of `INSERT`. A missing primary key would be printed as `<nil>`, and is zero as an
integer. -/
def insertPuts (tableName : Bytes) (schema : TableSchema) (pk : Column) :
    List (List Expr) → Except SqlError (List (Bytes × Bytes))
  | [] => .ok []
  | exprs :: rows =>
    if exprs.length ≠ schema.columns.length then
      .error (.valueCount schema.columns.length exprs.length)
    else
      match insertRow schema.columns exprs ∅ none with
      | .error err => .error err
      | .ok (row, pkVal) =>
        let key := encodeRowKey tableName pk.type (pkVal.getD (.str (ascii "<nil>")))
        match encodeRowValue schema.columns row with
        | .error err => .error err
        | .ok val => (insertPuts tableName schema pk rows).map fun puts ↦ (key, val) :: puts

section Exec

variable [MetadataCodec] [SchemaCodec]

/-- The loop of `MVCCPut` in the direct path of `INSERT`. -/
def putLoop (e : Engine) (ts : Timestamp) : List (Bytes × Bytes) → Engine × Option MVCCError
  | [] => (e, none)
  | (key, val) :: puts =>
    match mvccPut e key ts val none with
    | .error err => (e, some err)
    | .ok e => putLoop e ts puts

/-- One write: the new engine, or the old one and the error. -/
def written (e : Engine) : Except MVCCError Engine → Engine × Option MVCCError
  | .error err => (e, some err)
  | .ok e => (e, none)

/-- The end of a statement: the error of its writes, or its result. -/
def finish (clock : Clock) (res : Result) (w : Engine × Option MVCCError) : Outcome :=
  (w.1, clock, match w.2 with | some err => .error (.kv err) | none => .ok res)

variable (sender : Option BatchSender)

variable (e : Engine)

def execCreateTable (clock : Clock) (table : Bytes)
    (defs : List TableDef) : Outcome :=
  match tableSchema table defs with
  | .error err => (e, clock, .error err)
  | .ok schema =>
    match sender with
    | some send =>
      -- the duplicate is looked for with `GetTable`, not as `CreateTable` does
      match getTable e schema.name with
      | .ok _ => (e, clock, .error (.tableExists schema.name))
      | .error _ =>
        let data := SchemaCodec.marshal schema
        let (ts, clock) := clock.now
        finish clock { message := "OK" } (send e ⟨ts, [.put (schemaKey schema.name) (some data)]⟩)
    | none =>
      match createTable e clock schema with
      | (e, clock, some err) => (e, clock, .error err)
      | (e, clock, none) => (e, clock, .ok { message := "OK" })

def execInsert (clock : Clock) (table : TableExpr)
    (rows : Option (List (List Expr))) : Outcome :=
  let tableName := tableNameFromExpr table
  match getTable e tableName with
  | .error err => (e, clock, .error err)
  | .ok schema =>
    match schema.primaryKeyColumn, rows with
    | none, _ => (e, clock, .error .noPrimaryKey)
    | some _, none => (e, clock, .error .valuesOnly)
    | some pk, some rows =>
      let (ts, clock) := clock.now
      match insertPuts tableName schema pk rows with
      | .error err => (e, clock, .error err)
      | .ok puts =>
        let res : Result := ⟨puts.length, s!"INSERT {puts.length}"⟩
        match sender with
        | some send => finish clock res (send e ⟨ts, puts.map fun p ↦ .put p.1 (some p.2)⟩)
        | none => finish clock res (putLoop e ts puts)

/-- `SET`: the expressions are evaluated and stored in the row, in order. -/
def setColumns : List (Bytes × Expr) → Row → Except SqlError Row
  | [], row => .ok row
  | (colName, expr) :: exprs, row =>
    match exprToValue expr with
    | .error err => .error err
    | .ok val => setColumns exprs (row.insert colName val)

/-- What the row that an `UPDATE` reads is to become; nothing, if there is no row. A read that fails
has no value either, and is not told apart. -/
def updatedRow (schema : TableSchema) (key : Bytes) (ts : Timestamp)
    (exprs : List (Bytes × Expr)) : Except SqlError (Option Bytes) :=
  match mvccGet e key ts {} with
  | .error _ => .ok none
  | .ok existing =>
    match decodeRowValue existing with
    | .error err => .error err
    | .ok row =>
      match setColumns exprs row with
      | .error err => .error err
      | .ok row => (encodeRowValue schema.columns row).map some

/-- The key that the `WHERE` clause names. -/
def whereKey (table : TableExpr) (cond : Option Expr) :
    Except SqlError (TableSchema × Bytes) :=
  let tableName := tableNameFromExpr table
  match getTable e tableName with
  | .error err => .error err
  | .ok schema =>
    match cond with
    | none => .error .whereRequired
    | some expr =>
      match whereExprToPKValue expr schema with
      | .error err => .error err
      | .ok pkVal =>
        match schema.primaryKeyColumn with
        | none => .error .wherePrimaryKey
        | some pk => .ok (schema, encodeRowKey tableName pk.type pkVal)

def execUpdate (clock : Clock) (table : TableExpr)
    (cond : Option Expr) (exprs : List (Bytes × Expr)) : Outcome :=
  match whereKey e table cond with
  | .error err => (e, clock, .error err)
  | .ok (schema, key) =>
    let (ts, clock) := clock.now
    match updatedRow e schema key ts exprs with
    | .error err => (e, clock, .error err)
    | .ok none => (e, clock, .ok ⟨0, "UPDATE 0"⟩)
    | .ok (some valBytes) =>
      match sender with
      | some send =>
        let (newTs, clock) := clock.now
        finish clock ⟨1, "UPDATE 1"⟩ (send e ⟨newTs, [.put key (some valBytes)]⟩)
      | none =>
        let (newTs, clock) := clock.now
        finish clock ⟨1, "UPDATE 1"⟩ (written e (mvccPut e key newTs valBytes none))

def execDelete (clock : Clock) (table : TableExpr)
    (cond : Option Expr) : Outcome :=
  match whereKey e table cond with
  | .error err => (e, clock, .error err)
  | .ok (_, key) =>
    let (ts, clock) := clock.now
    match mvccGet e key ts {} with
    | .error _ => (e, clock, .ok ⟨0, "DELETE 0"⟩)
    | .ok _ =>
      match sender with
      | some send => finish clock ⟨1, "DELETE 1"⟩ (send e ⟨ts, [.delete key]⟩)
      | none => finish clock ⟨1, "DELETE 1"⟩ (written e (mvccDelete e key ts none))

/-- `Execute`, on a statement that writes. -/
def execute (clock : Clock) : Statement → Outcome
  | .createTable table defs => execCreateTable sender e clock table defs
  | .insert table rows => execInsert sender e clock table rows
  | .update table cond exprs => execUpdate sender e clock table cond exprs
  | .delete table cond => execDelete sender e clock table cond

end Exec

end DucklingDB.Sql
