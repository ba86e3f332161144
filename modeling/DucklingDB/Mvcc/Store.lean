import DucklingDB.Mvcc.Key
import DucklingDB.Util.SortedMap

/-!
# Multi-version storage

The operations of `mvcc.go` and `intent.go` on a storage engine. The engine is the sorted map that
`storage.Engine` promises; every operation here is one critical section of `mvccMu`. An operation
that fails has written nothing, so its result is the new engine or an error.

Metadata is stored as JSON. `MetadataCodec` is what is assumed of `encoding/json`: decoding gives
back what was encoded, except that an empty inline value, which `omitempty` drops, comes back as no
inline value.
-/

namespace DucklingDB.Mvcc

open Hlc

/-- A storage engine as its clients see it. -/
abbrev Engine := SortedMap Bytes Bytes

/-- A transaction identifier, `[16]byte`. -/
abbrev TxnID := Vector UInt8 16

def TxnID.isZero (t : TxnID) : Bool := t.toList.all (· == 0)

/-! ## Metadata -/

/-- `MVCCMetadata`, the index entry of a raw key. -/
structure MVCCMetadata where
  timestamp : Timestamp := {}
  deleted : Bool := false
  txn : Option TxnID := none
  txnTimestamp : Timestamp := {}
  keyBytes : ℕ := 0
  valBytes : ℕ := 0
  inlineValue : Option Bytes := none
  deriving DecidableEq

namespace MVCCMetadata

variable (m : MVCCMetadata)

/-- `HasIntent`, with the transaction that holds it. -/
def intent : Option TxnID := m.txn.filter fun t ↦ !TxnID.isZero t

/-- What is left of `m` after encoding and decoding it. -/
def omitEmpty : MVCCMetadata :=
  { m with inlineValue := m.inlineValue.filter fun v ↦ !v.isEmpty }

end MVCCMetadata

/-- What is assumed of `encoding/json` for metadata. -/
class MetadataCodec where
  marshal : MVCCMetadata → Bytes
  unmarshal : Bytes → Option MVCCMetadata
  unmarshal_marshal : ∀ m, unmarshal (marshal m) = some m.omitEmpty

/-! ## Values -/

def mvccValueTagLive : UInt8 := 0x01

def mvccValueTagTombstone : UInt8 := 0x00

def encodeMVCCValue (value : Bytes) : Bytes := mvccValueTagLive :: value

def encodeMVCCTombstone : Bytes := [mvccValueTagTombstone]

/-- `decodeMVCCValue`; `none` is a tombstone. -/
def decodeMVCCValue : Bytes → Option Bytes
  | [] => none
  | tag :: value => if tag = mvccValueTagTombstone then none else some value

/-! ## Errors and options -/

inductive MVCCError where
  /-- `storage.ErrKeyNotFound`. -/
  | keyNotFound
  /-- The metadata entry is not metadata. -/
  | metadata
  | key (err : KeyError)
  | writeIntent (key : Bytes) (txn : TxnID) (timestamp : Timestamp)
  | writeTooOld (key : Bytes) (requested existing : Timestamp)
  | uncertainty (key : Bytes) (read max existing : Timestamp)
  /-- The metadata names an intent that is not there. -/
  | intentValue (timestamp : Timestamp)
  deriving DecidableEq, Repr

structure ReadOptions where
  txn : Option TxnID := none
  maxTimestamp : Timestamp := {}

variable [MetadataCodec]

variable (e : Engine)

variable (key : Bytes)

/-- The metadata of a key. -/
def loadMeta : Except MVCCError (Option MVCCMetadata) :=
  match e.get (encodeMeta key) with
  | none => .ok none
  | some metaVal =>
    match MetadataCodec.unmarshal metaVal with
    | none => .error .metadata
    | some md => .ok (some md)

def putMeta (md : MVCCMetadata) : Engine :=
  e.insert (encodeMeta key) (MetadataCodec.marshal md)

/-! ## Reading -/

/-- The last step of `MVCCGet`: the newest version at or below the timestamp. -/
def readVersion (timestamp : Timestamp) : Except MVCCError Bytes :=
  match e.seek (encode ⟨key, timestamp⟩) with
  | [] => .error .keyNotFound
  | (k, raw) :: _ =>
    match decode k with
    | .error err => .error (.key err)
    | .ok (found, versioned) =>
      if !versioned || found.key ≠ key then .error .keyNotFound
      else
        match decodeMVCCValue raw with
        | none => .error .keyNotFound
        | some value => .ok value

/-- What stands in the way of a read: a visible intent of another transaction, or a newest version
within the uncertainty window. -/
def readConflict (md : MVCCMetadata) (key : Bytes) (timestamp : Timestamp) (opts : ReadOptions) :
    Option MVCCError :=
  match md.intent with
  | some owner =>
    if opts.txn = some owner then none
    else if md.txnTimestamp.lessEq timestamp then
      some (.writeIntent key owner md.txnTimestamp)
    else uncertain
  | none => uncertain
where
  uncertain : Option MVCCError :=
    if !opts.maxTimestamp.isEmpty && timestamp.less md.timestamp &&
        md.timestamp.lessEq opts.maxTimestamp then
      some (.uncertainty key timestamp opts.maxTimestamp md.timestamp)
    else none

def mvccGet (timestamp : Timestamp) (opts : ReadOptions) :
    Except MVCCError Bytes :=
  match loadMeta e key with
  | .error err => .error err
  | .ok none => .error .keyNotFound
  | .ok (some md) =>
    if timestamp.isEmpty then
      match md.inlineValue with
      | some value => .ok value
      | none => .error .keyNotFound
    else
      match readConflict md key timestamp opts with
      | some err => .error err
      | none => readVersion e key timestamp

/-- `nextKeyPrefix`: where the loops over all raw keys go on after `key`. -/
def nextKeyPrefix : Bytes := key ++ [0x00]

/-! ## Writing -/

/-- What stands in the way of a write: an intent of another transaction, or without any intent a
version at or above the timestamp. -/
def writeConflict (md : MVCCMetadata) (key : Bytes) (timestamp : Timestamp) (txn : Option TxnID) :
    Option MVCCError :=
  match md.intent with
  | some owner =>
    if txn = some owner then none else some (.writeIntent key owner md.txnTimestamp)
  | none =>
    if !md.timestamp.isEmpty && timestamp.lessEq md.timestamp then
      some (.writeTooOld key timestamp md.timestamp)
    else none

/-- The transaction fields of the metadata of a write. -/
def MVCCMetadata.own (md : MVCCMetadata) (timestamp : Timestamp) (txn : Option TxnID) :
    MVCCMetadata :=
  { md with txn := txn, txnTimestamp := if txn.isSome then timestamp else {} }

/-- `MVCCPut`; at the zero timestamp the value is stored inline. -/
def mvccPut (timestamp : Timestamp) (value : Bytes) (txn : Option TxnID) :
    Except MVCCError Engine :=
  match loadMeta e key with
  | .error err => .error err
  | .ok found =>
    let md := found.getD {}
    if timestamp.isEmpty then
      .ok (putMeta e key { md with
        inlineValue := some value, keyBytes := key.length, valBytes := value.length })
    else
      match writeConflict md key timestamp txn with
      | some err => .error err
      | none =>
        let e := e.insert (encode ⟨key, timestamp⟩) (encodeMVCCValue value)
        .ok (putMeta e key ({ md with
          timestamp := timestamp, deleted := false, inlineValue := none
          keyBytes := key.length, valBytes := value.length }.own timestamp txn))

/-- `MVCCDelete`. Unlike `MVCCPut` it has no inline case and keeps an inline value. -/
def mvccDelete (timestamp : Timestamp) (txn : Option TxnID) :
    Except MVCCError Engine :=
  match loadMeta e key with
  | .error err => .error err
  | .ok found =>
    let md := found.getD {}
    match writeConflict md key timestamp txn with
    | some err => .error err
    | none =>
      let e := e.insert (encode ⟨key, timestamp⟩) encodeMVCCTombstone
      .ok (putMeta e key ({ md with
        timestamp := timestamp, deleted := true
        keyBytes := key.length, valBytes := 0 }.own timestamp txn))

/-- `MVCCPut`, or `MVCCDelete` when there is no value. -/
def mvccWrite (timestamp : Timestamp) (value : Option Bytes)
    (txn : Option TxnID) : Except MVCCError Engine :=
  match value with
  | some v => mvccPut e key timestamp v txn
  | none => mvccDelete e key timestamp txn

/-! ## Intents -/

/-- `mvcc.TxnStatus`: the outcome of a transaction. -/
inductive TxnStatus where
  | committed
  | aborted
  deriving DecidableEq, Repr

/-- `findPreviousVersion`: the version behind the one at `after`, and whether it is a tombstone. -/
def findPreviousVersion (after : Timestamp) :
    Except MVCCError (Option (Timestamp × Bool)) :=
  match e.seek (encode ⟨key, after⟩) with
  | _ :: (k, raw) :: _ =>
    match decode k with
    | .error err => .error (.key err)
    | .ok (found, versioned) =>
      if !versioned || found.key ≠ key then .ok none
      else .ok (some (found.timestamp, (decodeMVCCValue raw).isNone))
  | _ => .ok none

/-- Rewrite a version at another timestamp. -/
def moveVersion (old new : Timestamp) : Except MVCCError Engine :=
  match e.get (encode ⟨key, old⟩) with
  | none => .error (.intentValue old)
  | some raw => .ok ((e.insert (encode ⟨key, new⟩) raw).erase (encode ⟨key, old⟩))

def resolveCommit (md : MVCCMetadata)
    (intentTimestamp commitTimestamp : Timestamp) : Except MVCCError Engine :=
  let moved :=
    if intentTimestamp ≠ commitTimestamp then moveVersion e key intentTimestamp commitTimestamp
    else .ok e
  match moved with
  | .error err => .error err
  | .ok e => .ok (putMeta e key { md.own {} none with timestamp := commitTimestamp })

def resolveAbort (intentTimestamp : Timestamp) :
    Except MVCCError Engine :=
  match findPreviousVersion e key intentTimestamp with
  | .error err => .error err
  | .ok prev =>
    let e := e.erase (encode ⟨key, intentTimestamp⟩)
    match prev with
    | none => .ok (e.erase (encodeMeta key))
    | some (timestamp, deleted) =>
      .ok (putMeta e key { timestamp := timestamp, deleted := deleted, keyBytes := key.length })

/-- `MVCCResolveWriteIntent`; an intent of another transaction is left alone. -/
def mvccResolveWriteIntent (txnID : TxnID) (status : TxnStatus)
    (commitTimestamp : Timestamp) : Except MVCCError Engine :=
  match loadMeta e key with
  | .error err => .error err
  | .ok none => .ok e
  | .ok (some md) =>
    if md.intent ≠ some txnID then .ok e
    else
      match status with
      | .committed => resolveCommit e key md md.txnTimestamp commitTimestamp
      | .aborted => resolveAbort e key md.txnTimestamp

def mvccPushIntent (txnID : TxnID) (newTimestamp : Timestamp) :
    Except MVCCError Engine :=
  match loadMeta e key with
  | .error err => .error err
  | .ok none => .ok e
  | .ok (some md) =>
    if md.intent ≠ some txnID then .ok e
    else if newTimestamp.lessEq md.txnTimestamp then .ok e
    else
      match moveVersion e key md.txnTimestamp newTimestamp with
      | .error err => .error err
      | .ok e =>
        .ok (putMeta e key { md with timestamp := newTimestamp, txnTimestamp := newTimestamp })

end DucklingDB.Mvcc
