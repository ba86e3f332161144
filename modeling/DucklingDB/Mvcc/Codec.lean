import DucklingDB.Mvcc.Store
import DucklingDB.Util.Wire

/-!
# A codec for metadata

The source stores metadata as JSON, of which only the round trip is assumed. Here is a codec with
that property, on which histories can be evaluated.
-/

namespace DucklingDB.Mvcc

open Hlc

def timestampWire : Wire Timestamp :=
  Wire.byte.list.via encodeTimestampDesc (fun b ↦ some (decodeTimestampDesc b))
    fun ts ↦ by rw [decodeTimestampDesc_encode]

def metadataWire : Wire MVCCMetadata :=
  (timestampWire.pair (Wire.bool.pair ((Wire.byte.vector 16).option.pair (timestampWire.pair
    (Wire.unary.pair (Wire.unary.pair Wire.byte.list.option)))))).via
    (fun m ↦ (m.timestamp, m.deleted, m.txn, m.txnTimestamp, m.keyBytes, m.valBytes, m.inlineValue))
    (fun (ts, del, txn, txnTs, kb, vb, inl) ↦ some ⟨ts, del, txn, txnTs, kb, vb, inl⟩)
    fun _ ↦ rfl

/-- The codec of metadata, with `omitempty`. -/
instance instMetadataCodec : MetadataCodec where
  marshal m := metadataWire.put m.omitEmpty
  unmarshal := metadataWire.decode
  unmarshal_marshal m := metadataWire.decode_put m.omitEmpty

/-- The identifier that repeats one byte. -/
def txnId (n : UInt8) : TxnID := Vector.replicate 16 n

end DucklingDB.Mvcc
