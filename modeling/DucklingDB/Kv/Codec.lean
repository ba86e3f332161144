import DucklingDB.Kv.System
import DucklingDB.Mvcc.Codec

/-!
# A codec for records

The source stores records as JSON, of which only the round trip is assumed. Here is a codec with
that property, and a system on which runs of the coordinators can be evaluated.
-/

namespace DucklingDB.Txn

open Hlc Mvcc

def int32Wire : Wire Int32 :=
  timestampWire.via (fun i ↦ { logical := i }) (fun ts ↦ some ts.logical) fun _ ↦ rfl

def statusWire : Wire TxnStatus :=
  Wire.byte.via (fun | .pending => 0 | .committed => 1 | .aborted => 2)
    (fun b ↦ if b = 0 then some .pending else if b = 1 then some .committed
      else if b = 2 then some .aborted else none)
    fun s ↦ by cases s <;> rfl

def isolationWire : Wire IsolationLevel :=
  Wire.bool.via (· == .SI) (fun b ↦ some (if b then .SI else .SSI)) fun i ↦ by cases i <;> rfl

def transactionWire : Wire Transaction :=
  ((Wire.byte.vector 16).pair (statusWire.pair (isolationWire.pair (timestampWire.pair
    (timestampWire.pair (timestampWire.pair (int32Wire.pair
      (Wire.byte.list.list.pair timestampWire)))))))).via
    (fun t ↦ (t.id, t.status, t.isolation, t.readTimestamp, t.writeTimestamp, t.maxTimestamp,
      t.priority, t.intentKeys, t.lastHeartbeat))
    (fun (id, st, iso, r, w, m, pri, ks, hb) ↦ some ⟨id, st, iso, r, w, m, pri, ks, hb⟩)
    fun _ ↦ rfl

/-- The codec of records. -/
instance instRecordCodec : RecordCodec where
  marshal t := transactionWire.put t
  unmarshal := transactionWire.decode
  unmarshal_marshal t := transactionWire.decode_put t
  marshal_ne_nil t h := by
    have hd := transactionWire.decode_put t
    rw [h] at hd
    cases hd

/-- An empty system whose clocks advance by 10 at every reading. -/
def blank : System where
  clocks _ := { wall := fun n ↦ Int64.ofNat (10 * (n + 1)), maxOffset := 0 }
  caches _ := {}

end DucklingDB.Txn
