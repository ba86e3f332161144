import DucklingDB.Kv.Coordinator

/-!
# Coordinators over one engine

Any number of coordinators over one engine, each with one of the clocks and at most one of the
timestamp caches. A call is one step. The state keeps what the clients saw besides: the transactions
in the order in which they began, for each its successful reads and writes in order, and the
timestamp it committed at once `Commit` has returned no error.

Identifiers are drawn at random from 128 bits; a draw that repeats an earlier one is no step here.
-/

namespace DucklingDB.Txn

open Hlc Mvcc Tscache Function

/-- What a transaction did, as its client saw it. -/
abbrev Op := DucklingDB.Transaction.Op Bytes Bytes

/-- A coordinator: the clock and the cache it was given, and its transaction. -/
structure Sender where
  clock : ℕ
  cache : Option ℕ
  txn : Transaction

structure System where
  engine : Engine := SortedMap.empty
  clocks : ℕ → Clock
  caches : ℕ → Cache
  senders : TxnID → Option Sender := fun _ ↦ none
  begun : List TxnID := []
  ops : TxnID → List Op := fun _ ↦ []
  commits : TxnID → Option Timestamp := fun _ ↦ none

/-- The calls on a coordinator. -/
inductive Call where
  | get (key : Bytes) (order : List Bytes)
  | put (key value : Bytes)
  | delete (key : Bytes)
  | commit
  | abort
  deriving DecidableEq

inductive Event where
  | begin (id : TxnID) (priority : Int32) (iso : IsolationLevel) (clock : ℕ) (cache : Option ℕ)
  | call (id : TxnID) (c : Call)
  deriving DecidableEq

/-- What a call returned. -/
inductive Answer where
  | value (result : Except TxnError Bytes)
  | done (result : Except TxnError Unit)
  deriving DecidableEq

/-- The error a call returned, if it did. -/
def Answer.error? : Answer → Option TxnError
  | .value (.error err) => some err
  | .done (.error err) => some err
  | _ => none

/-- What a result of `Get` says about the key: a value, nothing, or no answer at all. -/
def readResult : Except TxnError Bytes → Option (Option Bytes)
  | .ok value => some (some value)
  | .error (.mvcc .keyNotFound) => some none
  | .error _ => none

namespace System

/-- The coordinator with what its pointers lead to. -/
def attach (s : System) (x : Sender) : TxnCoordSender where
  engine := s.engine
  clock := s.clocks x.clock
  tscache := x.cache.map s.caches
  txn := x.txn

/-- The system after a method of the coordinator `x` of `id`. -/
def settle (s : System) (id : TxnID) (x : Sender) (tc : TxnCoordSender) : System :=
  { s with
    engine := tc.engine
    clocks := update s.clocks x.clock tc.clock
    caches :=
      match x.cache, tc.tscache with
      | some i, some cache => update s.caches i cache
      | _, _ => s.caches
    senders := update s.senders id (some { x with txn := tc.txn }) }

/-- Record what the client of `id` saw. -/
def log (s : System) (id : TxnID) (op : Op) : System :=
  { s with ops := update s.ops id (s.ops id ++ [op]) }

variable [MetadataCodec] [RecordCodec]

variable (s : System)

/-- A write, with what the client sees. -/
def write (id : TxnID) (x : Sender) (key : Bytes) (value : Option Bytes) :
    Answer × System :=
  match (s.attach x).writeLocked key value with
  | (.ok (), tc) => (.done (.ok ()), (s.settle id x tc).log id (.write key value))
  | (.error err, tc) => (.done (.error err), s.settle id x tc)

/-- A call on the coordinator `x` of `id`. -/
def call (id : TxnID) (x : Sender) : Call → Answer × System
  | .get key order =>
    let (result, tc) := (s.attach x).get key order
    let s := s.settle id x tc
    match readResult result with
    | some r => (.value result, s.log id (.read key r))
    | none => (.value result, s)
  | .put key value => s.write id x key (some value)
  | .delete key => s.write id x key none
  | .commit =>
    match (s.attach x).commit with
    | (.ok (), tc) =>
      let s := s.settle id x tc
      (.done (.ok ()), { s with commits := update s.commits id (some tc.txn.writeTimestamp) })
    | (.error err, tc) => (.done (.error err), s.settle id x tc)
  | .abort =>
    let (result, tc) := (s.attach x).abort
    (.done result, s.settle id x tc)

/-- `Begin`; a failed one leaves no coordinator behind. -/
def begin (id : TxnID) (priority : Int32) (iso : IsolationLevel) (clock : ℕ)
    (cache : Option ℕ) : Answer × System :=
  let (result, tc) :=
    TxnCoordSender.begin s.engine (s.clocks clock) (cache.map s.caches) iso id priority
  match result with
  | .ok () =>
    let s := s.settle id { clock := clock, cache := cache, txn := tc.txn } tc
    (.done (.ok ()), { s with begun := s.begun ++ [id] })
  | .error err =>
    (.done (.error err),
      { s with engine := tc.engine, clocks := update s.clocks clock tc.clock })

/-- One step. -/
def step : Event → Option (Answer × System)
  | .begin id priority iso clock cache =>
    if (s.senders id).isSome then none else some (s.begin id priority iso clock cache)
  | .call id c => (s.senders id).map fun x ↦ s.call id x c

/-- The system after the events of a run. -/
def run (s : System) : List Event → Option System
  | [] => some s
  | ev :: evs => (s.step ev).bind fun r ↦ r.2.run evs

end System

end DucklingDB.Txn
