import DucklingDB.Kv.Tscache
import DucklingDB.Mvcc.Store
import DucklingDB.Transaction.Spec

/-!
# The transaction coordinator

`internal/kv/txn`: the transaction record, the coordinator that drives one transaction, and what it
does about conflicts. A coordinator is modelled with what its pointers lead to -- engine, clock and
timestamp cache -- as they are during a call, and every method returns its result together with the
coordinator after it: a method that fails may have changed something before.

Records are stored as JSON; `RecordCodec` is what is assumed of it. The identifier and the priority
that `Begin` draws at random are arguments. The branch for a resolver that neither retries nor fails
is left out, since no resolver ends so.
-/

namespace DucklingDB.Txn

open Hlc Mvcc Tscache

/-! ## Records -/

abbrev TxnStatus := Transaction.Status

inductive IsolationLevel where
  | SSI
  | SI
  deriving DecidableEq, Repr

/-- `Transaction`, the record of a transaction. -/
structure Transaction where
  id : TxnID
  status : TxnStatus := .pending
  isolation : IsolationLevel := .SSI
  readTimestamp : Timestamp := {}
  writeTimestamp : Timestamp := {}
  maxTimestamp : Timestamp := {}
  priority : Int32 := 0
  intentKeys : List Bytes := []
  lastHeartbeat : Timestamp := {}
  deriving DecidableEq

namespace Transaction

def isFinalized (t : Transaction) : Bool := t.status == .committed || t.status == .aborted

def addIntentKey (t : Transaction) (key : Bytes) : Transaction :=
  if key ∈ t.intentKeys then t else { t with intentKeys := t.intentKeys ++ [key] }

end Transaction

/-- What is assumed of `encoding/json` for records. -/
class RecordCodec where
  marshal : Transaction → Bytes
  unmarshal : Bytes → Option Transaction
  unmarshal_marshal : ∀ t, unmarshal (marshal t) = some t
  marshal_ne_nil : ∀ t, marshal t ≠ []

def txnRecordPrefix : Bytes := [0x00, 0x74, 0x78, 0x6e, 0x2d]

def txnRecordKey (id : TxnID) : Bytes := txnRecordPrefix ++ id.toList

/-! ## Errors -/

/-- The `Reason` of a retry error. -/
inductive RetryReason where
  /-- "transaction was aborted by another coordinator" -/
  | abortedByAnother
  /-- "SSI commit timestamp pushed from %s to %s" -/
  | pushed (read write : Timestamp)
  /-- "write-write conflict on %q with txn %x (priority %d ≤ %d)" -/
  | writeWrite (key : Bytes) (txn : TxnID) (priority blocker : Int32)
  /-- "read-write conflict with SSI txn %x (priority %d ≤ %d)" -/
  | readWrite (txn : TxnID) (priority blocker : Int32)
  deriving DecidableEq

structure TxnRetryError where
  txnID : TxnID
  reason : RetryReason
  suggestedMinPri : Int32 := 0
  deriving DecidableEq

inductive TxnError where
  /-- `ErrTxnFinalized`. -/
  | finalized
  | mvcc (err : MVCCError)
  /-- "txn record unmarshal" -/
  | unmarshal
  | retry (err : TxnRetryError)
  /-- "txn: resolve intent %q: %w" -/
  | resolveIntent (key : Bytes) (err : MVCCError)
  /-- "txn: read intent resolution exceeded %d attempts" -/
  | attempts (n : ℕ)
  /-- The given text, and the error it wraps. -/
  | wrapped (context : String) (err : TxnError)
  deriving DecidableEq

/-- The call failed with a `TxnRetryError`. -/
def TxnError.isRetry : TxnError → Bool
  | .retry _ => true
  | .wrapped _ err => err.isRetry
  | _ => false

structure TxnCoordSender where
  engine : Engine
  clock : Clock
  tscache : Option Cache
  txn : Transaction

/-- The result of a method, and the coordinator after it. -/
abbrev Result (α : Type) := Except TxnError α × TxnCoordSender

def maxWriteIntentResolutions : ℕ := 8

variable [MetadataCodec] [RecordCodec]

def loadTxnRecord (engine : Engine) (id : TxnID) : Except TxnError (Option Transaction) :=
  match mvccGet engine (txnRecordKey id) {} {} with
  | .error .keyNotFound => .ok none
  | .error err => .error (.mvcc err)
  | .ok data =>
    match RecordCodec.unmarshal data with
    | none => .error .unmarshal
    | some t => .ok (some t)

/-- Write a record in place. -/
def putTxnRecord (engine : Engine) (t : Transaction) : Except TxnError Engine :=
  match mvccPut engine (txnRecordKey t.id) {} (RecordCodec.marshal t) none with
  | .error err => .error (.mvcc err)
  | .ok engine => .ok engine

namespace TxnCoordSender

/-- Write the record `t`. -/
def putRecord (tc : TxnCoordSender) (t : Transaction) : Result Unit :=
  match putTxnRecord tc.engine t with
  | .error err => (.error err, tc)
  | .ok engine => (.ok (), { tc with engine := engine })

def writeTxnRecord (tc : TxnCoordSender) : Result Unit := tc.putRecord tc.txn

variable (tc : TxnCoordSender)

omit [MetadataCodec] [RecordCodec] in
def now : Timestamp × TxnCoordSender :=
  (tc.clock.now.1, { tc with clock := tc.clock.now.2 })

def «begin» (engine : Engine) (clock : Clock) (cache : Option Cache) (iso : IsolationLevel)
    (id : TxnID) (priority : Int32) : Result Unit :=
  let (ts, clock) := clock.now
  let tc : TxnCoordSender := {
    engine := engine, clock := clock, tscache := cache
    txn := {
      id := id, isolation := iso, readTimestamp := ts, writeTimestamp := ts
      maxTimestamp := { wallTime := ts.wallTime + clock.maxOffset, logical := ts.logical }
      priority := priority, lastHeartbeat := ts } }
  match tc.writeTxnRecord with
  | (.error err, tc) => (.error (.wrapped "txn: write initial record" err), tc)
  | (.ok (), tc) => (.ok (), tc)

/-! ## Conflicts -/

def finalizeForeignIntent (key : Bytes) (txnID : TxnID)
    (status : Mvcc.TxnStatus) (commitTS : Timestamp) : Result Unit :=
  match mvccResolveWriteIntent tc.engine key txnID status commitTS with
  | .error err => (.error (.wrapped "txn: resolve foreign intent" (.mvcc err)), tc)
  | .ok engine => (.ok (), { tc with engine := engine })

variable (blocker : Transaction)

def abortBlocker : Result Unit :=
  let (now, tc) := tc.now
  tc.putRecord { blocker with status := .aborted, lastHeartbeat := now }

/-- Abort the blocker, then its intent: what the winner of a priority fight does. -/
def abortAndFinalize (key : Bytes) (txnID : TxnID) :
    Result Unit :=
  match tc.abortBlocker blocker with
  | (.error err, tc) => (.error err, tc)
  | (.ok (), tc) => tc.finalizeForeignIntent key txnID .aborted {}

/-- `resolveForeignIntent`, for the intent of `txnID` on `key`. -/
def resolveForeignIntent (key : Bytes) (txnID : TxnID) : Result Unit :=
  match loadTxnRecord tc.engine txnID with
  | .error err => (.error (.wrapped "txn: load blocker record" err), tc)
  | .ok none => tc.finalizeForeignIntent key txnID .aborted {}
  | .ok (some blocker) =>
    match blocker.status with
    | .aborted => tc.finalizeForeignIntent key txnID .aborted {}
    | .committed => tc.finalizeForeignIntent key txnID .committed blocker.writeTimestamp
    | .pending =>
      if tc.txn.priority > blocker.priority then tc.abortAndFinalize blocker key txnID
      else
        (.error (.retry {
          txnID := tc.txn.id
          reason := .writeWrite key txnID tc.txn.priority blocker.priority
          suggestedMinPri := blocker.priority + 1 }), tc)

/-- Push the record of a pending blocker, if it is not there yet. -/
def pushBlockerRecord (pushTo : Timestamp) :
    Result Unit :=
  if blocker.writeTimestamp.less pushTo then
    let (now, tc) := tc.now
    match tc.putRecord { blocker with writeTimestamp := pushTo, lastHeartbeat := now } with
    | (.error err, tc) => (.error (.wrapped "txn: persist pushed blocker record" err), tc)
    | (.ok (), tc) => (.ok (), tc)
  else (.ok (), tc)

/-- The last part of `handleReadIntent`: push the record of a pending blocker, then its intent. -/
def pushBlocker (key : Bytes) (txnID : TxnID)
    (pushTo : Timestamp) : Result Unit :=
  match tc.pushBlockerRecord blocker pushTo with
  | (.error err, tc) => (.error err, tc)
  | (.ok (), tc) =>
    match mvccPushIntent tc.engine key txnID pushTo with
    | .error err => (.error (.wrapped "txn: push intent" (.mvcc err)), tc)
    | .ok engine => (.ok (), { tc with engine := engine })

/-- `handleReadIntent`, for the intent of `txnID` on `key`. -/
def handleReadIntent (key : Bytes) (txnID : TxnID) : Result Unit :=
  match loadTxnRecord tc.engine txnID with
  | .error err => (.error (.wrapped "txn: load blocker record" err), tc)
  | .ok none => tc.finalizeForeignIntent key txnID .aborted {}
  | .ok (some blocker) =>
    match blocker.status with
    | .aborted => tc.finalizeForeignIntent key txnID .aborted {}
    | .committed => tc.finalizeForeignIntent key txnID .committed blocker.writeTimestamp
    | .pending =>
      let pushTo := tc.txn.readTimestamp.next
      if blocker.isolation = .SSI ∧ blocker.readTimestamp.less pushTo then
        if tc.txn.priority > blocker.priority then tc.abortAndFinalize blocker key txnID
        else
          (.error (.retry {
            txnID := tc.txn.id
            reason := .readWrite txnID tc.txn.priority blocker.priority
            suggestedMinPri := blocker.priority + 1 }), tc)
      else tc.pushBlocker blocker key txnID pushTo

section

omit [MetadataCodec] [RecordCodec]

def bumpWriteTimestampTo (tc : TxnCoordSender) (ts : Timestamp) : TxnCoordSender :=
  if tc.txn.writeTimestamp.less ts then { tc with txn := { tc.txn with writeTimestamp := ts } }
    else tc

def pushPastCachedRead (tc : TxnCoordSender) (key : Bytes) : TxnCoordSender :=
  match tc.tscache with
  | none => tc
  | some cache =>
    let cached := cache.getMax key
    if tc.txn.writeTimestamp.lessEq cached then tc.bumpWriteTimestampTo cached.next else tc

end

/-! ## Reading and writing -/

variable (tc : TxnCoordSender)

variable (key : Bytes)

omit [MetadataCodec] [RecordCodec] in
/-- A read that found a value is put into the cache. `order` is the order in which the cache ranges
over its entries if it is full. -/
def registerRead (order : List Bytes) : TxnCoordSender :=
  { tc with tscache := tc.tscache.map fun cache ↦ cache.add key tc.txn.readTimestamp order }

/-- The loop of `Get`, with `n` attempts left. -/
def getLoop (tc : TxnCoordSender) (key : Bytes) (order : List Bytes) : ℕ → Result Bytes
  | 0 => (.error (.attempts maxWriteIntentResolutions), tc)
  | n + 1 =>
    match mvccGet tc.engine key tc.txn.readTimestamp
      { txn := some tc.txn.id, maxTimestamp := tc.txn.maxTimestamp } with
    | .ok val => (.ok val, tc.registerRead key order)
    | .error (.writeIntent blocked txnID _) =>
      match tc.handleReadIntent blocked txnID with
      | (.error err, tc) => (.error err, tc)
      | (.ok (), tc) => tc.getLoop key order n
    | .error err => (.error (.mvcc err), tc)

def get (order : List Bytes) : Result Bytes :=
  if tc.txn.isFinalized then (.error .finalized, tc)
  else tc.getLoop key order maxWriteIntentResolutions

/-- The loop of `writeLocked`, with `n` attempts left. Running out of them is not an error. -/
def writeLoop (tc : TxnCoordSender) (key : Bytes) (value : Option Bytes) : ℕ → Result Unit
  | 0 => (.ok (), tc)
  | n + 1 =>
    match mvccWrite tc.engine key tc.txn.writeTimestamp value (some tc.txn.id) with
    | .ok engine => (.ok (), { tc with engine := engine })
    | .error (.writeTooOld _ _ existing) =>
      (tc.bumpWriteTimestampTo existing.next).writeLoop key value n
    | .error (.writeIntent blocked txnID _) =>
      match tc.resolveForeignIntent blocked txnID with
      | (.error err, tc) => (.error err, tc)
      | (.ok (), tc) => tc.writeLoop key value n
    | .error err => (.error (.mvcc err), tc)

/-- `writeLocked`; no value means a deletion. -/
def writeLocked (value : Option Bytes) : Result Unit :=
  if tc.txn.isFinalized then (.error .finalized, tc)
  else
    match (tc.pushPastCachedRead key).writeLoop key value maxWriteIntentResolutions with
    | (.error err, tc) => (.error err, tc)
    | (.ok (), tc) =>
      match { tc with txn := tc.txn.addIntentKey key }.writeTxnRecord with
      | (.error err, tc) => (.error (.wrapped "txn: record update after write" err), tc)
      | (.ok (), tc) => (.ok (), tc)

def put (key value : Bytes) : Result Unit := tc.writeLocked key (some value)

def delete : Result Unit := tc.writeLocked key none

/-! ## Finishing -/

def refreshRecord : Result Unit :=
  match loadTxnRecord tc.engine tc.txn.id with
  | .error err => (.error (.wrapped "txn: refresh record" err), tc)
  | .ok none => (.ok (), tc)
  | .ok (some persisted) =>
    (.ok (), { tc with txn := { tc.txn with
      status := persisted.status
      writeTimestamp := persisted.writeTimestamp
      priority := persisted.priority } })

variable (tc : TxnCoordSender)

omit [MetadataCodec] [RecordCodec] in
def checkCommitIsolation : Option TxnError :=
  match tc.txn.isolation with
  | .SI => none
  | .SSI =>
    if tc.txn.readTimestamp.less tc.txn.writeTimestamp then
      some (.retry {
        txnID := tc.txn.id
        reason := .pushed tc.txn.readTimestamp tc.txn.writeTimestamp
        suggestedMinPri := tc.txn.priority })
    else none

/-- The loop of `resolveIntents`. -/
def resolveKeys (tc : TxnCoordSender) (status : Mvcc.TxnStatus) (commitTS : Timestamp) :
    List Bytes → Result Unit
  | [] => (.ok (), tc)
  | key :: keys =>
    match mvccResolveWriteIntent tc.engine key tc.txn.id status commitTS with
    | .error err => (.error (.resolveIntent key err), tc)
    | .ok engine => { tc with engine := engine }.resolveKeys status commitTS keys

def resolveIntents (status : Mvcc.TxnStatus) (commitTS : Timestamp) :
    Result Unit :=
  tc.resolveKeys status commitTS tc.txn.intentKeys

/-- The end of `Commit` and `Abort`: write the record with its final status, then resolve the
intents. -/
def finish (final : TxnStatus) (context : String) (status : Mvcc.TxnStatus)
    (commitTS : Timestamp) : Result Unit :=
  let (now, tc) := tc.now
  let tc := { tc with txn := { tc.txn with status := final, lastHeartbeat := now } }
  match tc.writeTxnRecord with
  | (.error err, tc) => (.error (.wrapped context err), tc)
  | (.ok (), tc) => tc.resolveIntents status commitTS

def commit : Result Unit :=
  if tc.txn.isFinalized then (.error .finalized, tc)
  else
    match tc.refreshRecord with
    | (.error err, tc) => (.error err, tc)
    | (.ok (), tc) =>
      if tc.txn.status = .aborted then
        (.error (.retry { txnID := tc.txn.id, reason := .abortedByAnother }), tc)
      else
        match tc.checkCommitIsolation with
        | some err => (.error err, tc)
        | none => tc.finish .committed "txn: commit record" .committed tc.txn.writeTimestamp

def abort : Result Unit :=
  if tc.txn.isFinalized then (.error .finalized, tc)
  else
    match tc.refreshRecord with
    | (.error err, tc) => (.error err, tc)
    | (.ok (), tc) => tc.finish .aborted "txn: abort record" .aborted {}

end TxnCoordSender

end DucklingDB.Txn
