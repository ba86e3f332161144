import DucklingDB.Mvcc.Store

/-!
# The catalog

`catalog.go`: the schema of a table is stored under a key of its own, and is read at the largest
wall time there is. Names are Go strings, that is bytes. Schemas are stored as JSON, of which only
is assumed that what was encoded can be decoded.
-/

namespace DucklingDB.Sql

open Hlc Mvcc

/-- An ASCII constant of the source. -/
def ascii (s : String) : Bytes := s.toList.map fun c ↦ c.toNat.toUInt8

inductive ColumnType where
  | int
  | text
  | bool
  | float
  deriving DecidableEq, Repr

structure Column where
  name : Bytes
  type : ColumnType
  primaryKey : Bool
  deriving DecidableEq

structure TableSchema where
  name : Bytes
  columns : List Column
  deriving DecidableEq

def TableSchema.primaryKeyColumn (s : TableSchema) : Option Column :=
  s.columns.find? Column.primaryKey

/-- What is assumed of `encoding/json` for schemas. -/
class SchemaCodec where
  marshal : TableSchema → Bytes
  unmarshal : Bytes → Option TableSchema
  unmarshal_marshal : ∀ s, (unmarshal (marshal s)).isSome = true

/-- The errors of the SQL layer. -/
inductive SqlError where
  | tableExists (name : Bytes)
  | tableNotFound (name : Bytes)
  /-- `json.Unmarshal` of a schema or a row. -/
  | unmarshal
  /-- `json.Marshal` of a row. -/
  | marshal
  | columnType (type : Bytes)
  /-- A primary key that is neither `INT` nor `TEXT`. -/
  | primaryKeyType (column : Bytes)
  | noPrimaryKey
  /-- `INSERT` without a `VALUES` clause. -/
  | valuesOnly
  | valueCount (expected got : ℕ)
  /-- A literal that is not supported, or not a number. -/
  | literal
  | whereRequired
  /-- `WHERE` on something else than the primary key. -/
  | wherePrimaryKey
  /-- The left side of `WHERE` is no column. -/
  | whereColumn
  /-- The error of a write, with its text. -/
  | kv (err : MVCCError)
  deriving DecidableEq

def schemaKey (name : Bytes) : Bytes := 0x00 :: ascii "schema/" ++ name

def maxSchemaTS : Timestamp := { wallTime := Int64.maxValue }

variable [MetadataCodec] [SchemaCodec]

/-- `CreateTable`. A read that fails counts as no table. -/
def createTable (e : Engine) (clock : Clock) (schema : TableSchema) :
    Engine × Clock × Option SqlError :=
  match mvccGet e (schemaKey schema.name) maxSchemaTS {} with
  | .ok _ => (e, clock, some (.tableExists schema.name))
  | .error _ =>
    let data := SchemaCodec.marshal schema
    let (ts, clock) := clock.now
    match mvccPut e (schemaKey schema.name) ts data none with
    | .error err => (e, clock, some (.kv err))
    | .ok e => (e, clock, none)

def getTable (e : Engine) (name : Bytes) : Except SqlError TableSchema :=
  match mvccGet e (schemaKey name) maxSchemaTS {} with
  | .error _ => .error (.tableNotFound name)
  | .ok val =>
    match SchemaCodec.unmarshal val with
    | none => .error .unmarshal
    | some schema => .ok schema

end DucklingDB.Sql
