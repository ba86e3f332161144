import DucklingDB.Kv.Codec
import DucklingDB.Kv.Frame
import DucklingDB.Mvcc.Intent

/-!
# A write among rivals

`writeLocked` with steps of other coordinators between its calls into `mvcc`, each of which is one
step. All that these do to a write is to change the engine and the clock; that they do it by calls
of their own is not used.

The loop tries eight times and then goes on as if it had succeeded. So a write returns no error
without having laid an intent when its eighth attempt is turned away by a newer version, or by an
intent that it is allowed to remove; `write_lays_intent` says that there is no other way.
-/

namespace DucklingDB.Txn

open Hlc Mvcc SortedMap

/-- The calls of an attempt into `mvcc`: to write, to load the record of a blocker, to write the
record of one that has lost, and to remove its intent. -/
inductive Stage where
  | write
  | load
  | abort
  | finalize

/-- How an attempt ends: the intent is laid on the engine `before`, or the loop goes on, or the
write fails. -/
inductive AttemptEnd where
  | laid (before : Engine) (tc : TxnCoordSender)
  | again (tc : TxnCoordSender)
  | failed (err : TxnError) (tc : TxnCoordSender)

/-- What the other coordinators make of the engine and of the clock they share. -/
abbrev World := Engine × Clock → Engine × Clock

/-- What they do before each call of each attempt, and before the write of the record. -/
structure Rivals where
  before (attempt : ℕ) (stage : Stage) : World := id
  beforeRecord : World := id

/-- What the loop of `writeLocked` returns. -/
def AttemptEnd.result : AttemptEnd → Result Unit
  | .failed err tc => (.error err, tc)
  | .laid _ tc | .again tc => (.ok (), tc)

section Calls

variable [MetadataCodec] [RecordCodec]

namespace TxnCoordSender

variable (tc : TxnCoordSender)

omit [MetadataCodec] [RecordCodec] in
/-- The others take their turn. -/
def meet (w : World) : TxnCoordSender :=
  let (engine, clock) := w (tc.engine, tc.clock)
  { tc with engine := engine, clock := clock }

/-- `resolveForeignIntent`. -/
def resolveAmong (rivals : Stage → World) (key : Bytes) (txnID : TxnID) :
    Result Unit :=
  let tc := meet tc (rivals .load)
  let finalize (tc : TxnCoordSender) := (meet tc (rivals .finalize)).finalizeForeignIntent key txnID
  match loadTxnRecord tc.engine txnID with
  | .error err => (.error (.wrapped "txn: load blocker record" err), tc)
  | .ok none => finalize tc .aborted {}
  | .ok (some blocker) =>
    match blocker.status with
    | .aborted => finalize tc .aborted {}
    | .committed => finalize tc .committed blocker.writeTimestamp
    | .pending =>
      if tc.txn.priority > blocker.priority then
        match (meet tc (rivals .abort)).abortBlocker blocker with
        | (.error err, tc) => (.error err, tc)
        | (.ok (), tc) => finalize tc .aborted {}
      else
        (.error (.retry {
          txnID := tc.txn.id
          reason := .writeWrite key txnID tc.txn.priority blocker.priority
          suggestedMinPri := blocker.priority + 1 }), tc)

/-- One round of the loop of `writeLocked`. -/
def attempt (rivals : Stage → World) (key : Bytes) (value : Option Bytes) :
    AttemptEnd :=
  let tc := meet tc (rivals .write)
  match mvccWrite tc.engine key tc.txn.writeTimestamp value (some tc.txn.id) with
  | .ok engine => .laid tc.engine { tc with engine := engine }
  | .error (.writeTooOld _ _ existing) => .again (tc.bumpWriteTimestampTo existing.next)
  | .error (.writeIntent blocked txnID _) =>
    match tc.resolveAmong rivals blocked txnID with
    | (.error err, tc) => .failed err tc
    | (.ok (), tc) => .again tc
  | .error err => .failed (.mvcc err) tc

/-- The first `n` rounds. -/
def attempts (tc : TxnCoordSender) (rivals : Rivals) (key : Bytes) (value : Option Bytes) :
    ℕ → AttemptEnd
  | 0 => .again tc
  | n + 1 =>
    match tc.attempts rivals key value n with
    | .again tc => tc.attempt (rivals.before n) key value
    | ended => ended

variable (rivals : Rivals)

/-- The end of `writeLocked`, after its loop. -/
def afterLoop (key : Bytes) : AttemptEnd → Result Unit
  | .failed err tc => (.error err, tc)
  | .laid _ tc | .again tc =>
    match (meet { tc with txn := tc.txn.addIntentKey key } rivals.beforeRecord).writeTxnRecord with
    | (.error err, tc) => (.error (.wrapped "txn: record update after write" err), tc)
    | (.ok (), tc) => (.ok (), tc)

/-- The loop of `writeLocked`, if the transaction has not ended. -/
def writeAttempts (key : Bytes) (value : Option Bytes) (n : ℕ) :
    AttemptEnd :=
  if tc.txn.isFinalized then .failed .finalized tc
  else (tc.pushPastCachedRead key).attempts rivals key value n

/-- `writeLocked` among rivals. -/
def writeAmong (key : Bytes) (value : Option Bytes) : Result Unit :=
  afterLoop rivals key (tc.writeAttempts rivals key value maxWriteIntentResolutions)

variable {tc tc' : TxnCoordSender} {rivals : Rivals} {key : Bytes} {value : Option Bytes} {n : ℕ}

/-! ## Without rivals -/

theorem attempts_succ (n : ℕ) : tc.attempts {} key value (n + 1) =
    match tc.attempt (fun _ ↦ id) key value with
    | .again tc => tc.attempts {} key value n
    | ended => ended := by
  induction n with
  | zero =>
    change tc.attempt (fun _ ↦ id) key value = _
    cases tc.attempt (fun _ ↦ id) key value <;> rfl
  | succ n ih =>
    rw [attempts, ih]
    cases tc.attempt (fun _ ↦ id) key value <;> rfl

variable (tc : TxnCoordSender) {value : Option Bytes}

theorem writeLoop_eq (n : ℕ) : tc.writeLoop key value n = (tc.attempts {} key value n).result := by
  induction n generalizing tc with
  | zero => rfl
  | succ n ih =>
    have hmeet : meet tc id = tc := rfl
    rw [attempts_succ, writeLoop, attempt]
    rw [hmeet]
    cases mvccWrite tc.engine key tc.txn.writeTimestamp value (some tc.txn.id) with
    | ok engine => rfl
    | error err =>
      cases err with
      | writeTooOld key' requested existing => exact ih _
      | writeIntent blocked txnID timestamp =>
        dsimp only
        rw [show tc.resolveAmong (fun _ ↦ id) blocked txnID =
          tc.resolveForeignIntent blocked txnID from rfl]
        rcases tc.resolveForeignIntent blocked txnID with ⟨_ | _, tc'⟩
        · rfl
        · exact ih tc'
      | keyNotFound | metadata | key | uncertainty | intentValue => rfl

/-- **Without rivals this is `writeLocked`.** -/
theorem writeAmong_alone (key : Bytes) (value : Option Bytes) :
    tc.writeAmong {} key value = tc.writeLocked key value := by
  rw [writeAmong, writeAttempts, writeLocked]
  split
  · rfl
  · rw [writeLoop_eq]
    cases (tc.pushPastCachedRead key).attempts {} key value maxWriteIntentResolutions <;> rfl

/-! ## Among rivals -/

omit [RecordCodec] in
/-- There is no intent on the key, and a version at `ts` or above. -/
def Newer (e : Engine) (key : Bytes) (ts : Timestamp) : Prop :=
  ∃ md, loadMeta e key = .ok (some md) ∧ md.intent = none ∧ md.timestamp.isEmpty = false ∧
    ts.lessEq md.timestamp = true

/-- The transaction of `txnID` is pending and not to be beaten. -/
def Stronger (e : Engine) (txnID : TxnID) (priority : Int32) : Prop :=
  ∀ found, loadTxnRecord e txnID = .ok found →
    ∃ blocker, found = some blocker ∧ blocker.status = .pending ∧ ¬priority > blocker.priority

/-- An attempt of `tc` is not turned away by a newer version, nor by an intent that may be
removed. -/
structure Spared (tc : TxnCoordSender) (rivals : Stage → World) (key : Bytes)
    (value : Option Bytes) : Prop where
  newer : ¬Newer (meet tc (rivals .write)).engine key tc.txn.writeTimestamp
  blocker : ∀ blocked txnID ts,
      mvccWrite (meet tc (rivals .write)).engine key tc.txn.writeTimestamp value
      (some tc.txn.id) = .error (.writeIntent blocked txnID ts) →
    Stronger (meet (meet tc (rivals .write)) (rivals .load)).engine txnID tc.txn.priority

/-- The engine `before` has become `after` by an intent of transaction `id`. -/
structure Lays (id : TxnID) (key : Bytes) (value : Option Bytes) (before : Engine) (ts : Timestamp)
    (after : Engine) : Prop where
  call : mvccWrite before key ts value (some id) = .ok after
  /-- At the zero timestamp `MVCCPut` stores inline. -/
  intent : ts ≠ {} → (∃ m, metaOf after key = some m ∧ m.txn = some id ∧ m.txnTimestamp = ts) ∧
    version after key ts = some (encodeWrite value)

omit [RecordCodec] in
theorem lays_of_write {id : TxnID} {key : Bytes} {e e' : Engine} {ts : Timestamp}
    (h : mvccWrite e key ts value (some id) = .ok e') : Lays id key value e ts e' := by
  refine ⟨h, fun hts ↦ ?_⟩
  have hkey : encode ⟨key, ts⟩ ≠ encodeMeta key := by
    intro heq
    have hlen := congrArg List.length heq
    rw [encode_version hts, encodeMeta] at hlen
    simp [encodeTimestampDesc] at hlen
  rcases mvccWrite_cases e key ts value (some id) with
    herr | ⟨hzero, -⟩ | ⟨found, -, ⟨err, -, herr⟩ | ⟨-, m, hok⟩⟩
  · cases h.symm.trans herr
  · exact absurd hzero hts
  · cases h.symm.trans herr
  · obtain rfl := Except.ok.inj (h.symm.trans hok)
    refine ⟨⟨(m.own ts (some id)).omitEmpty, ?_, rfl, rfl⟩, ?_⟩
    · rw [metaOf, putMeta, get_insert_self, Option.bind_some, MetadataCodec.unmarshal_marshal]
    · rw [version, putMeta, get_insert_of_ne _ hkey, get_insert_self]

omit [RecordCodec] in
theorem newer_of_writeTooOld {e : Engine} {key key' : Bytes} {ts ts' existing : Timestamp}
    {id : TxnID}
    (h : mvccWrite e key ts value (some id) = .error (.writeTooOld key' ts' existing)) :
    Newer e key ts := by
  rcases mvccWrite_cases e key ts value (some id) with herr | ⟨-, m, hok⟩ | ⟨found, hload, hrest⟩
  · cases h.symm.trans herr
  · cases h.symm.trans hok
  · rcases hrest with ⟨err, hconf, herr⟩ | ⟨-, m, hok⟩
    · obtain rfl := Except.error.inj (h.symm.trans herr)
      rw [writeConflict] at hconf
      split at hconf
      · split at hconf
        · cases hconf
        · cases hconf
      · rename_i hintent
        split at hconf
        · rename_i hnewer
          obtain ⟨hne, hle⟩ := Bool.and_eq_true_iff.mp hnewer
          cases found with
          | none => exact absurd hne (by decide)
          | some md => exact ⟨md, hload, hintent, by simpa using hne, hle⟩
        · cases hconf
    · cases h.symm.trans hok

variable (tc : TxnCoordSender)

theorem resolveAmong_spec (rivals : Stage → World) (key : Bytes)
    (txnID : TxnID) : (tc.resolveAmong rivals key txnID).2.txn = tc.txn ∧
      ((tc.resolveAmong rivals key txnID).1 = .ok () →
        ¬Stronger (meet tc (rivals .load)).engine txnID tc.txn.priority) := by
  have hfinal (tc' : TxnCoordSender) (status : Mvcc.TxnStatus) (ts : Timestamp)
      (h : tc'.txn = tc.txn) :
      ((meet tc' (rivals .finalize)).finalizeForeignIntent key txnID status ts).2.txn = tc.txn :=
    (finalizeForeignIntent_txn ..).trans h
  rw [resolveAmong]
  rcases hfound : loadTxnRecord (meet tc (rivals .load)).engine txnID with err | found
  · exact ⟨rfl, by simp⟩
  · have hweak {P : Prop} (hno : ∀ blocker, found = some blocker → blocker.status = .pending →
        tc.txn.priority > blocker.priority) (_ : P) :
        ¬Stronger (meet tc (rivals .load)).engine txnID tc.txn.priority := fun hs ↦ by
      obtain ⟨blocker, hblocker, hpending, hle⟩ := hs found hfound
      exact hle (hno blocker hblocker hpending)
    rcases found with _ | blocker
    · exact ⟨hfinal _ _ _ rfl, hweak (by rintro _ ⟨⟩)⟩
    · dsimp only
      split
      · rename_i hst
        refine ⟨hfinal _ _ _ rfl, hweak fun b hb hp ↦ ?_⟩
        obtain rfl := Option.some.inj hb
        cases hp.symm.trans hst
      · rename_i hst
        refine ⟨hfinal _ _ _ rfl, hweak fun b hb hp ↦ ?_⟩
        obtain rfl := Option.some.inj hb
        cases hp.symm.trans hst
      · split
        · rename_i hwin
          have habort :
              ((meet (meet tc (rivals .load)) (rivals .abort)).abortBlocker blocker).2.txn =
                tc.txn := putRecord_txn ..
          rcases habt : (meet (meet tc (rivals .load)) (rivals .abort)).abortBlocker blocker with
            ⟨_ | _, tc'⟩ <;> rw [habt] at habort
          · exact ⟨habort, by simp⟩
          · exact ⟨hfinal _ _ _ habort, hweak fun b hb _ ↦ Option.some.inj hb ▸ hwin⟩
        · exact ⟨rfl, by simp⟩

/-- What is left after rounds of the loop by a write of the transaction `id`. -/
def Leaves (id : TxnID) (key : Bytes) (value : Option Bytes) : AttemptEnd → Prop
  | .laid before tc => ∃ ts, Lays id key value before ts tc.engine
  | .again tc => tc.txn.id = id
  | .failed _ _ => True

theorem attempt_spec (rivals : Stage → World) (key : Bytes)
    (value : Option Bytes) : Leaves tc.txn.id key value (tc.attempt rivals key value) ∧
      (Spared tc rivals key value → ∀ tc', tc.attempt rivals key value ≠ .again tc') := by
  have htxn : (meet tc (rivals .write)).txn = tc.txn := rfl
  rw [attempt]
  rw [htxn]
  cases hw : mvccWrite (meet tc (rivals .write)).engine key tc.txn.writeTimestamp value
    (some tc.txn.id) with
  | ok engine => exact ⟨⟨_, lays_of_write hw⟩, fun _ _ ↦ by simp⟩
  | error err =>
    cases err with
    | writeTooOld key' requested existing =>
      exact ⟨(bumpWriteTimestampTo_same _ _).id, fun hs ↦ absurd (newer_of_writeTooOld hw) hs.newer⟩
    | writeIntent blocked txnID ts =>
      obtain ⟨hres, hweak⟩ := resolveAmong_spec (meet tc (rivals .write)) rivals blocked txnID
      dsimp only
      rcases hr : (meet tc (rivals .write)).resolveAmong rivals blocked txnID with ⟨_ | _, tc'⟩ <;>
        rw [hr] at hres hweak
      · exact ⟨trivial, fun _ _ ↦ by simp⟩
      · exact ⟨congrArg Transaction.id hres,
          fun hs ↦ absurd (hs.blocker blocked txnID ts hw) (hweak rfl)⟩
    | keyNotFound | metadata | key | uncertainty | intentValue => exact ⟨trivial, fun _ _ ↦ by simp⟩

theorem attempts_leaves (rivals : Rivals) (key : Bytes) (value : Option Bytes)
    (n : ℕ) : Leaves tc.txn.id key value (tc.attempts rivals key value n) := by
  induction n with
  | zero => rfl
  | succ n ih =>
    rw [attempts]
    cases hn : tc.attempts rivals key value n with
    | laid before tc' => rwa [hn] at ih
    | failed err tc' => trivial
    | again tc₁ =>
      rw [hn] at ih
      have hid : tc₁.txn.id = tc.txn.id := ih
      exact hid ▸ (attempt_spec tc₁ (rivals.before n) key value).1

/-- **A write that returns no error has laid its intent**, unless its eighth attempt was turned away
by a newer version or by an intent that it may remove. -/
theorem write_lays_intent (tc : TxnCoordSender) (rivals : Rivals) (key : Bytes)
    (value : Option Bytes) (hspared : ∀ tc', tc.writeAttempts rivals key value 7 = .again tc' →
      tc'.Spared (rivals.before 7) key value)
    (hret : (tc.writeAmong rivals key value).1 = .ok ()) :
    ∃ before tc' ts, tc.writeAttempts rivals key value 8 = .laid before tc' ∧
      Lays tc.txn.id key value before ts tc'.engine := by
  rw [writeAmong, maxWriteIntentResolutions] at hret
  rw [writeAttempts] at hspared hret ⊢
  split at hret
  · exact absurd hret (by simp [afterLoop])
  · rename_i hfin
    rw [if_neg hfin] at hspared ⊢
    have hspec := attempts_leaves (tc.pushPastCachedRead key) rivals key value 8
    rw [(tc.pushPastCachedRead_same key).id] at hspec
    cases hend : (tc.pushPastCachedRead key).attempts rivals key value 8 with
    | laid before tc' =>
      rw [hend] at hspec
      obtain ⟨ts, hlays⟩ := hspec
      exact ⟨before, tc', ts, rfl, hlays⟩
    | failed err tc' =>
      rw [hend] at hret
      exact absurd hret (by simp [afterLoop])
    | again tc' =>
      rw [attempts] at hend
      split at hend
      · rename_i tc₇ h₇
        exact absurd hend ((attempt_spec ..).2 (hspared tc₇ h₇) tc')
      · rename_i hother
        exact absurd hend (hother tc')

end TxnCoordSender

end Calls

/-- A transaction of priority `5` that has just begun. -/
def beginner : TxnCoordSender :=
  (TxnCoordSender.begin empty (blank.clocks 0) none .SSI (txnId 9) 5).2

/-- A transaction begins and lays an intent. -/
def intrude (id : TxnID) : World := fun (e, c) ↦
  let record := mvccWrite e (txnRecordKey id) {} (some (RecordCodec.marshal { id := id })) none
  ((record.bind (mvccWrite · [0x6b] { wallTime := 20 } (some [0]) (some id))).toOption.getD e, c)

/-- There is a new intent before each of the first `n` attempts. -/
def rivalry (n : ℕ) : Rivals where
  before i stage :=
    match stage with
    | .write => if i < n then intrude (txnId (.ofNat (i + 1))) else id
    | _ => id

/-- Seven rivals in turn, and the eighth attempt lays the intent. -/
theorem write_lays_intent_rivals : ∃ before tc' ts,
    beginner.writeAttempts (rivalry 7) [0x6b] (some [9]) 8 = .laid before tc' ∧
      TxnCoordSender.Lays (txnId 9) [0x6b] (some [9]) before ts tc'.engine := by
  have hlast : (match beginner.writeAttempts (rivalry 7) [0x6b] (some [9]) 7 with
      | .again tc => (loadMeta tc.engine [0x6b]).toOption == some none &&
          (mvccWrite tc.engine [0x6b] tc.txn.writeTimestamp (some [9]) (some tc.txn.id)).isOk
      | _ => false) = true := by decide +kernel
  refine TxnCoordSender.write_lays_intent beginner (rivalry 7) [0x6b] (some [9]) (fun tc h ↦ ?_)
    (by decide +kernel)
  rw [h, Bool.and_eq_true, beq_iff_eq] at hlast
  obtain ⟨hmeta, hok⟩ := hlast
  -- nobody is in the way of the eighth attempt
  refine ⟨fun ⟨md, hmd, _⟩ ↦ ?_, fun blocked txnID ts hw ↦ ?_⟩
  · have hmd : loadMeta tc.engine [0x6b] = .ok (some md) := hmd
    rw [hmd] at hmeta
    cases hmeta
  · have hw : mvccWrite tc.engine [0x6b] tc.txn.writeTimestamp (some [9]) (some tc.txn.id) =
      .error (.writeIntent blocked txnID ts) := hw
    rw [hw] at hok
    cases hok

/-- Eight rivals in turn, and the write returns no error although it has written nothing. -/
theorem exists_write_without_intent :
    (beginner.writeAmong (rivalry 8) [0x6b] (some [9])).1 = .ok () ∧
      (∃ tc', beginner.writeAttempts (rivalry 8) [0x6b] (some [9]) 8 = .again tc') ∧
      intentOf (beginner.writeAmong (rivalry 8) [0x6b] (some [9])).2.engine [0x6b] = none := by
  have hagain : (match beginner.writeAttempts (rivalry 8) [0x6b] (some [9]) 8 with
      | .again _ => true
      | _ => false) = true := by decide +kernel
  refine ⟨by decide +kernel, ?_, by decide +kernel⟩
  split at hagain
  · rename_i tc' h
    exact ⟨tc', h⟩
  · cases hagain

end DucklingDB.Txn
