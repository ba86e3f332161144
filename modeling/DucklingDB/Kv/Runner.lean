import DucklingDB.Kv.Codec
import DucklingDB.Kv.Frame
import DucklingDB.Util.Causality

/-!
# Running a transaction until it commits

`RunTransaction` of `internal/kv/txn/runner.go`. Each attempt has a new identifier and a new random
priority; an attempt that ends in a `TxnRetryError` leaves a floor for the priority of the next one,
one above its own priority and at least what the error suggests. The floor is a 32-bit integer and
is only looked at if it is positive. `next_priority_iff` says when the next attempt is really ahead.
-/

namespace DucklingDB.Txn

open Hlc Mvcc Tscache TxnCoordSender Int32

def extractRetryError : TxnError → Option TxnRetryError
  | .retry err => some err
  | .wrapped _ err => extractRetryError err
  | _ => none

/-- `extractUncertaintyError`, of which only `ExistingTimestamp` is used. -/
def extractUncertaintyError : TxnError → Option Timestamp
  | .mvcc (.uncertainty _ _ _ existing) => some existing
  | .resolveIntent _ (.uncertainty _ _ _ existing) => some existing
  | .wrapped _ err => extractUncertaintyError err
  | _ => none

def bumpPriorityFloor (currentPriority suggested : Int32) : Int32 :=
  let bump := currentPriority + 1
  if suggested > bump then suggested else bump

/-- `p'` is not lower than `p`, and higher unless `p` is the highest priority. -/
def Advances (p p' : Int32) : Prop := p ≤ p' ∧ (p ≠ Int32.maxValue → p < p')

theorem eq_maxValue_iff (p : Int32) : p = Int32.maxValue ↔ p.toInt = 2 ^ 31 - 1 := by
  rw [← toInt_inj, toInt_maxValue]

theorem toInt_succ (p : Int32) : (p + 1).toInt =
    if p.toInt = 2 ^ 31 - 1 then -2 ^ 31 else p.toInt + 1 := by
  split <;> rename_i h
  · rw [(eq_maxValue_iff p).mpr h]
    rfl
  · exact Timestamp.logical_succ (mt (eq_maxValue_iff p).mp h)

theorem toInt_bumpPriorityFloor (p q : Int32) :
    (bumpPriorityFloor p q).toInt = max (p + 1).toInt q.toInt := by
  simp only [bumpPriorityFloor, gt_iff_lt, lt_iff_toInt_lt]
  split <;> omega

variable {p p' q u r : Int32}

theorem advances_iff (hp' : p'.toInt = max r.toInt (max (p + 1).toInt u.toInt)) :
    Advances p p' ↔ p ≠ Int32.maxValue ∨ u = Int32.maxValue ∨ r = Int32.maxValue := by
  have hr := r.toInt_lt
  have hu := u.toInt_lt
  simp only [Advances, ne_eq, eq_maxValue_iff, le_iff_toInt_le, lt_iff_toInt_lt]
  rw [toInt_succ] at hp'
  split at hp' <;> omega

theorem advances_blocker_iff (hp' : p'.toInt = max r.toInt (max (p + 1).toInt (q + 1).toInt)) :
    Advances q p' ↔ q ≠ Int32.maxValue ∨ p + 1 = Int32.maxValue ∨ r = Int32.maxValue := by
  have hr := r.toInt_lt
  have hp := (p + 1).toInt_lt
  simp only [Advances, ne_eq, eq_maxValue_iff, le_iff_toInt_le, lt_iff_toInt_lt]
  rw [toInt_succ q] at hp'
  split at hp' <;> omega

abbrev TxnFunc := TxnCoordSender → Result Unit

/-- What the loop carries from one attempt to the next. -/
structure Runner where
  engine : Engine
  clock : Clock
  cache : Option Cache
  nextPriorityFloor : Int32 := 0
  lastRetry : Option TxnRetryError := none

inductive RunError where
  | failed (err : TxnError)
  /-- `ErrTooManyRetries`, with the last retry error. -/
  | tooManyRetries (attempts : ℕ) (lastRetry : Option TxnRetryError)

/-- How an attempt ends: `RunTransaction` returns, or goes on in another state. -/
inductive Ending where
  | returned (result : Except RunError Unit) (engine : Engine)
  | uncertain (s : Runner)
  /-- Here with the retry error and the coordinator that met it. -/
  | retry (err : TxnRetryError) (tc : TxnCoordSender) (s : Runner)

section

variable [MetadataCodec] [RecordCodec]

def TxnCoordSender.applyPriorityFloor (tc : TxnCoordSender) (floor : Int32) : TxnCoordSender :=
  if tc.txn.priority < floor then
    { tc with txn := { tc.txn with priority := floor } }.writeTxnRecord.2
  else tc

namespace Runner

variable (s : Runner)

/-- The coordinator of an attempt, as the closure gets it. -/
def start (iso : IsolationLevel) (id : TxnID) (priority : Int32) : Result Unit :=
  match begin s.engine s.clock s.cache iso id priority with
  | (.error err, tc) => (.error err, tc)
  | (.ok (), tc) =>
    (.ok (), if s.nextPriorityFloor > 0 then tc.applyPriorityFloor s.nextPriorityFloor else tc)

/-- Advance the clock past `ts` and abort the attempt. -/
def restart (tc : TxnCoordSender) (ts : Timestamp) : Runner :=
  let tc := { tc with clock := (tc.clock.update ts).2 }.abort.2
  { s with engine := tc.engine, clock := tc.clock, cache := tc.tscache }

/-- The end of an attempt with an error that is not about uncertainty. -/
def giveUp (err : TxnError) (tc : TxnCoordSender) : Ending :=
  match extractRetryError err with
  | some retry => .retry retry tc { s.restart tc tc.txn.writeTimestamp with
      nextPriorityFloor := bumpPriorityFloor tc.txn.priority retry.suggestedMinPri
      lastRetry := some retry }
  | none => .returned (.error (.failed err)) tc.abort.2.engine

/-- Attempt number `n`, with the identifier and the priority it draws. -/
def attempt (iso : IsolationLevel) (fn : TxnFunc) (n : ℕ) (id : TxnID)
    (priority : Int32) : Ending :=
  match s.start iso id priority with
  | (.error err, tc) =>
    .returned (.error (.failed (.wrapped s!"txn: begin attempt {n}" err))) tc.engine
  | (.ok (), tc) =>
    match fn tc with
    | (.error err, tc) =>
      match extractUncertaintyError err with
      | some existing => .uncertain (s.restart tc existing)
      | none => s.giveUp err tc
    | (.ok (), tc) =>
      match tc.commit with
      | (.ok (), tc) => .returned (.ok ()) tc.engine
      | (.error err, tc) => s.giveUp err tc

/-- The loop of `RunTransaction`, with the given number of attempts left out of `maxRetries`. -/
def loop (s : Runner) (iso : IsolationLevel) (fn : TxnFunc) (draw : ℕ → TxnID × Int32)
    (maxRetries : ℕ) : ℕ → Except RunError Unit × Engine
  | 0 => (.error (.tooManyRetries maxRetries s.lastRetry), s.engine)
  | left + 1 =>
    let n := maxRetries - (left + 1)
    match s.attempt iso fn n (draw n).1 (draw n).2 with
    | .returned result engine => (result, engine)
    | .uncertain s => s.loop iso fn draw maxRetries left
    | .retry _ _ s => s.loop iso fn draw maxRetries left

def defaultMaxRetries : ℕ := 50

/-- `RunTransaction`, with the identifiers and priorities that its attempts draw. -/
def runTransaction (engine : Engine) (clock : Clock) (iso : IsolationLevel) (cache : Option Cache)
    (maxRetries : ℤ) (fn : TxnFunc) (draw : ℕ → TxnID × Int32) : Except RunError Unit × Engine :=
  let maxRetries := if maxRetries ≤ 0 then defaultMaxRetries else maxRetries.toNat
  loop { engine, clock, cache } iso fn draw maxRetries maxRetries

/-! ## The priority of the next attempt -/

variable {s s' : Runner} {iso : IsolationLevel} {fn : TxnFunc} {n : ℕ} {id : TxnID} {r : Int32}
  {err : TxnRetryError} {tc : TxnCoordSender}

theorem attempt_floor (h : s.attempt iso fn n id r = .retry err tc s') :
    s'.nextPriorityFloor = bumpPriorityFloor tc.txn.priority err.suggestedMinPri := by
  have hgive : ∀ e t, s.giveUp e t = .retry err tc s' →
      s'.nextPriorityFloor = bumpPriorityFloor tc.txn.priority err.suggestedMinPri := by
    intro e t he
    rw [giveUp] at he
    split at he
    · cases he
      rfl
    · cases he
  rw [attempt] at h
  split at h
  · cases h
  · split at h
    · split at h
      · cases h
      · exact hgive _ _ h
    · split at h
      · cases h
      · exact hgive _ _ h

theorem start_priority (h : s.start iso id r = (.ok (), tc)) (hr : 0 ≤ r.toInt) :
    tc.txn.priority.toInt = max r.toInt s.nextPriorityFloor.toInt := by
  rw [start] at h
  split at h
  · cases h
  · rename_i tc₀ hbegin
    have hdrawn : _ = r := (begin_isolation_priority s.engine s.clock s.cache iso id r).2
    simp only [hbegin] at hdrawn
    subst hdrawn
    obtain rfl := (Prod.mk.inj h).2
    simp only [gt_iff_lt, applyPriorityFloor, lt_iff_toInt_lt]
    have hz : (0 : Int32).toInt = 0 := rfl
    split_ifs
    · rw [writeTxnRecord, putRecord_txn]
      exact (max_eq_right (le_of_lt (by assumption))).symm
    all_goals omega

/-- The error comes from a write that lost the fight against a transaction of priority `q`. -/
def LostFight (err : TxnRetryError) (p q : Int32) : Prop :=
  ∃ (tc : TxnCoordSender) (key : Bytes) (txnID : TxnID) (blocker : Transaction),
    loadTxnRecord tc.engine txnID = .ok (some blocker) ∧ blocker.status = .pending ∧
    tc.txn.priority = p ∧ blocker.priority = q ∧ ¬p > q ∧
    (tc.resolveForeignIntent key txnID).1 = .error (.retry err)

theorem LostFight.suggestedMinPri {p q : Int32} (h : LostFight err p q) :
    err.suggestedMinPri = q + 1 := by
  obtain ⟨tc, key, txnID, blocker, hload, hst, rfl, rfl, hlost, herr⟩ := h
  simp only [resolveForeignIntent, hload, hst, if_neg hlost] at herr
  cases herr
  rfl

theorem next_priority_iff {id' : TxnID} {r' : Int32} {tc' : TxnCoordSender}
    (h : s.attempt iso fn n id r = .retry err tc s') (hr : 0 ≤ r')
    (hstart : s'.start iso id' r' = (.ok (), tc')) :
    (Advances tc.txn.priority tc'.txn.priority ∧
      ∀ q, LostFight err tc.txn.priority q → Advances q tc'.txn.priority) ↔
    (tc.txn.priority ≠ Int32.maxValue ∨ err.suggestedMinPri = Int32.maxValue ∨
      r' = Int32.maxValue) ∧ ∀ q, LostFight err tc.txn.priority q →
        q ≠ Int32.maxValue ∨ tc.txn.priority + 1 = Int32.maxValue ∨ r' = Int32.maxValue := by
  have hp' := start_priority hstart (Int32.le_iff_toInt_le.mp hr)
  rw [attempt_floor h, toInt_bumpPriorityFloor] at hp'
  refine and_congr (advances_iff hp') (forall_congr' fun q ↦ imp_congr_right fun hq ↦ ?_)
  exact advances_blocker_iff (hq.suggestedMinPri ▸ hp')

/-- An attempt that ends in a retry error, with its coordinator and that of the next attempt. -/
def attemptThenStart (s : Runner) (fn : TxnFunc) (id id' : TxnID) (p p' : Int32) :
    Option (TxnRetryError × TxnCoordSender × TxnCoordSender) :=
  match s.attempt .SSI fn 0 id p with
  | .retry err tc s =>
    match s.start .SSI id' p' with
    | (.ok (), tc') => some (err, tc, tc')
    | _ => none
  | _ => none

theorem attemptThenStart_spec {id' : TxnID} {p p' : Int32} {tc' : TxnCoordSender}
    (h : s.attemptThenStart fn id id' p p' = some (err, tc, tc')) :
    ∃ s', s.attempt .SSI fn 0 id p = .retry err tc s' ∧ s'.start .SSI id' p' = (.ok (), tc') := by
  rw [attemptThenStart] at h
  split at h
  · rename_i hattempt
    split at h
    · rename_i hstart
      cases h
      exact ⟨_, hattempt, hstart⟩
    · cases h
  · cases h

end Runner

end

/-- A transaction of priority `q` has an intent on a key. -/
def contended (q : Int32) : Runner :=
  let rival := (begin SortedMap.empty (blank.clocks 0) none .SSI (txnId 1) q).2
  let rival := (rival.put [0x6b] [1]).2
  { engine := rival.engine, clock := rival.clock, cache := none }

/-- Two attempts to write it that draw the priorities `p` and `p'`. -/
def contend (q p p' : Int32) : Option (TxnRetryError × TxnCoordSender × TxnCoordSender) :=
  (contended q).attemptThenStart (·.put [0x6b] [2]) (txnId 2) (txnId 3) p p'

theorem next_priority_after_fight : ∃ err tc tc', contend 7 5 3 = some (err, tc, tc') ∧
    Advances tc.txn.priority tc'.txn.priority := by
  have hval : (contend 7 5 3).map (fun x ↦ (x.1.suggestedMinPri, x.2.1.txn.priority)) =
      some (8, 5) := by decide +kernel
  obtain ⟨⟨err, tc, tc'⟩, hsome, hval⟩ := Option.map_eq_some_iff.mp hval
  obtain ⟨hmin, hp⟩ := Prod.mk.inj hval
  obtain ⟨s', hattempt, hstart⟩ := Runner.attemptThenStart_spec (contend.eq_def 7 5 3 ▸ hsome)
  refine ⟨err, tc, tc', hsome, ?_⟩
  refine ((Runner.next_priority_iff hattempt (by decide) hstart).mpr
    ⟨.inl ?_, fun q hq ↦ .inl ?_⟩).1
  · exact hp ▸ by decide
  · rintro rfl
    exact absurd (hq.suggestedMinPri.symm.trans hmin) (by decide)

/-- Against a blocker of the highest priority the floor overflows. -/
theorem exists_priority_below :
    (contend Int32.maxValue Int32.maxValue 0).map (fun x ↦ (x.1.reason, x.2.2.txn.priority)) =
      some (.writeWrite [0x6b] (txnId 1) Int32.maxValue Int32.maxValue, 0) ∧
    (contend Int32.maxValue 4 0).map (fun x ↦ (x.1.reason, x.2.2.txn.priority)) =
      some (.writeWrite [0x6b] (txnId 1) 4 Int32.maxValue, 5) := by
  decide +kernel

end DucklingDB.Txn
