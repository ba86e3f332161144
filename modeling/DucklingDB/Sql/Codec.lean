import DucklingDB.Sql.Executor

/-!
# Codecs for the SQL layer

Instances of what the executor assumes of the Go library, on which statements can be evaluated. Only
integers and strings can be written in them.
-/

namespace DucklingDB.Sql

def columnTypeWire : Wire ColumnType :=
  Wire.byte.via
    (fun | .int => 0 | .text => 1 | .bool => 2 | .float => 3)
    (fun b ↦ if b = 0 then some .int else if b = 1 then some .text else if b = 2 then some .bool
      else if b = 3 then some .float else none)
    fun t ↦ by cases t <;> rfl

def schemaWire : Wire TableSchema :=
  (Wire.byte.list.pair (Wire.byte.list.pair (columnTypeWire.pair Wire.bool)).list).via
    (fun s ↦ (s.name, s.columns.map fun c ↦ (c.name, c.type, c.primaryKey)))
    (fun x ↦ some ⟨x.1, x.2.map fun c ↦ ⟨c.1, c.2.1, c.2.2⟩⟩)
    fun s ↦ by simp [Function.comp_def]

/-- As in JSON, what is no schema does not begin like one. -/
instance instSchemaCodec : SchemaCodec where
  marshal s := 0x7b :: schemaWire.put s
  unmarshal
    | [] => none
    | b :: rest => if b = 0x7b then schemaWire.decode rest else none
  unmarshal_marshal s := by
    dsimp only
    rw [if_pos rfl, schemaWire.decode_put]
    rfl

def datumWire : Wire Datum :=
  (Wire.byte.pair Wire.byte.list).via
    (fun
      | .int n => (0, Bytes.beBytes 8 n.toUInt64.toNat)
      | .float bits => (1, Bytes.beBytes 8 bits.toNat)
      | .str s => (2, s)
      | .bool b => (3, if b then [1] else []))
    (fun x ↦
      if x.1 = 0 then some (.int (UInt64.ofNat (Bytes.ofBeBytes x.2)).toInt64)
      else if x.1 = 1 then some (.float (UInt64.ofNat (Bytes.ofBeBytes x.2)))
      else if x.1 = 2 then some (.str x.2)
      else some (.bool (x.2 == [1])))
    fun d ↦ by
      have hlt : ∀ u : UInt64, u.toNat < 256 ^ 8 := fun u ↦ UInt64.toNat_lt u
      cases d with
      | int n =>
        rw [if_pos rfl, Bytes.ofBeBytes_beBytes (hlt _), UInt64.ofNat_toNat]
        rfl
      | float bits =>
        dsimp only
        rw [if_neg (by decide), if_pos rfl, Bytes.ofBeBytes_beBytes (hlt _), UInt64.ofNat_toNat]
      | str s => rfl
      | bool b => cases b <;> rfl

def rowWire : Wire (List (Sigma fun _ : Bytes ↦ Datum)) :=
  (Wire.byte.list.pair datumWire).list.via
    (fun row ↦ row.map fun x ↦ (x.1, x.2)) (fun row ↦ some (row.map fun x ↦ ⟨x.1, x.2⟩))
    fun row ↦ by simp [Function.comp_def]

/-- Digits to a number. -/
def parseDigits (s : Bytes) : Option ℕ :=
  s.foldl (fun n b ↦ n.bind fun n ↦ if 0x30 ≤ b ∧ b ≤ 0x39 then some (10 * n + (b - 0x30).toNat)
    else none) (some 0)

instance instGoLibrary : GoLibrary where
  parseInt s := (parseDigits s).map Int64.ofNat
  parseFloat _ := none
  format
    | .str s => s
    | _ => []
  truncate _ := 0
  validUTF8 _ := true
  marshalRow row := some (rowWire.put row.entries)
  unmarshalRow b := (rowWire.decode b).map List.toAList
  stored := id
  stored_stored _ := rfl
  unmarshal_marshalRow {row b} h _ := by
    obtain rfl := Option.some.inj h
    refine ⟨row.entries.toAList, by rw [rowWire.decode_put, Option.map_some], fun c ↦ ?_⟩
    rw [AList.lookup_to_alist, Option.map_id]
    rfl

end DucklingDB.Sql
