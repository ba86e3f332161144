import DucklingDB.Mvcc.Codec

/-!
# Write batches

`BatchHandler.Batch` on batches of puts and deletes. A batch runs its requests in order and stops at
the first that fails; what the requests before it wrote stays (`Header.batch_eq_error_iff`).
-/

namespace DucklingDB.KvServer

open Hlc Mvcc

/-- `RequestUnion`, where it writes. -/
inductive Request where
  | put (key : Bytes) (value : Option Bytes)
  | delete (key : Bytes)
  deriving DecidableEq, Repr

/-- `BatchRequest` without a transaction; no header and no timestamp are the zero timestamp. -/
structure BatchRequest where
  timestamp : Timestamp := {}
  requests : List Request
  deriving DecidableEq

section Batch

variable [MetadataCodec]

/-- `executeSingle`; a put without a value stores an empty one. -/
def executeSingle (e : Engine) (ts : Timestamp) : Request → Except MVCCError Engine
  | .put key value => mvccPut e key ts (value.getD []) none
  | .delete key => mvccDelete e key ts none

/-- The loop of `Batch`. -/
def executeAll (e : Engine) (ts : Timestamp) : List Request → Engine × Option MVCCError
  | [] => (e, none)
  | r :: rs =>
    match executeSingle e ts r with
    | .error err => (e, some err)
    | .ok e => executeAll e ts rs

def batch (e : Engine) (b : BatchRequest) : Engine × Option MVCCError :=
  executeAll e b.timestamp b.requests

/-! ## Batches that fail -/

/-- `Header`, where it matters to a write. -/
structure Header where
  timestamp : Timestamp := {}
  txn : Option TxnID := none

namespace Header

/-- `executeSingle`, within a transaction or without one. -/
def executeSingle (h : Header) (e : Engine) : Request → Except MVCCError Engine
  | .put key value => mvccPut e key h.timestamp (value.getD []) h.txn
  | .delete key => mvccDelete e key h.timestamp h.txn

/-- `Batch`: nothing is taken back when a request fails. -/
def batch (h : Header) (e : Engine) : List Request → Engine × Option MVCCError
  | [] => (e, none)
  | r :: rs =>
    match h.executeSingle e r with
    | .error err => (e, some err)
    | .ok e => h.batch e rs

theorem batch_eq (e : Engine) (b : BatchRequest) :
    batch ⟨b.timestamp, none⟩ e b.requests = KvServer.batch e b := by
  rw [KvServer.batch]
  induction b.requests generalizing e with
  | nil => rfl
  | cons r rs ih =>
    have hr : executeSingle ⟨b.timestamp, none⟩ e r = KvServer.executeSingle e b.timestamp r := by
      cases r <;> rfl
    rw [batch, executeAll, hr]
    cases KvServer.executeSingle e b.timestamp r with
    | error err => rfl
    | ok e' => exact ih e'

variable {h : Header} {e e' : Engine} {r : Request}

/-- **A batch that fails leaves what the requests before the failing one have written**, and nothing
of that one and of those behind it. -/
theorem batch_eq_error_iff {rs : List Request} {err : MVCCError} : h.batch e rs = (e', some err) ↔
    ∃ done r rest, rs = done ++ r :: rest ∧ h.batch e done = (e', none) ∧
      h.executeSingle e' r = .error err := by
  constructor
  · intro hrs
    induction rs generalizing e with
    | nil => cases hrs
    | cons r rs ih =>
      rw [batch] at hrs
      cases hr : h.executeSingle e r with
      | error err' =>
        obtain ⟨rfl, rfl⟩ : e = e' ∧ err' = err := by simpa [hr] using hrs
        exact ⟨[], r, rs, rfl, rfl, hr⟩
      | ok e₁ =>
        obtain ⟨done, r', rest, rfl, hdone, hfail⟩ := ih (by simpa only [hr] using hrs)
        exact ⟨r :: done, r', rest, rfl, by rw [batch, hr]; exact hdone, hfail⟩
  · rintro ⟨done, r, rest, rfl, hdone, hfail⟩
    induction done generalizing e with
    | nil =>
      obtain rfl : e = e' := congrArg Prod.fst hdone
      rw [List.nil_append, batch, hfail]
    | cons r' done ih =>
      rw [batch] at hdone
      rw [List.cons_append, batch]
      cases hr : h.executeSingle e r' with
      | error err' => simp [hr] at hdone
      | ok e₁ => exact ih (by simpa only [hr] using hdone)

end Header

end Batch

namespace Header

/-- Two rows with one key. -/
def sameKey : List Request := [.put [0x61] (some [1]), .put [0x61] (some [2])]

/-- The batch reports an error, and the first of the rows is there. -/
theorem exists_partial_batch : (batch ⟨⟨10, 0⟩, none⟩ SortedMap.empty sameKey).2.isSome = true ∧
    (batch ⟨⟨10, 0⟩, none⟩ SortedMap.empty sameKey).1.get (Mvcc.encode ⟨[0x61], ⟨10, 0⟩⟩) ≠
      SortedMap.empty.get (Mvcc.encode ⟨[0x61], ⟨10, 0⟩⟩) := by
  decide +kernel

end Header

end DucklingDB.KvServer
