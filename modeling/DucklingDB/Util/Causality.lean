import DucklingDB.Util.Hlc
import Mathlib.Algebra.Order.Ring.Int
import Mathlib.Data.List.Chain

/-!
# Causality of the clock

`Now` and `Update` are to return timestamps above every timestamp returned before, and `Update` one
above the remote timestamp it is given. Both add one to a logical component of 32 bits. `Update`
looks whether its result lies above the local state and falls back on `Next` if it does not, but
nothing compares it with the remote timestamp, and `Now` does not look at all. `strict_iff_hasRoom`
says when the additions do no harm, and `update_below_remote` is a call that returns a timestamp
below the remote one.
-/

namespace DucklingDB.Hlc

open Timestamp List Int64

theorem Timestamp.wallTime_next_le {t : Timestamp} (h : t.HasNext) :
    t.next.wallTime.toInt ≤ t.wallTime.toInt + 1 := by
  rw [next]
  split
  · rename_i hl
    exact (wallTime_succ (h.wallTime_ne hl)).le
  · exact (Int.lt_succ _).le

theorem Timestamp.next_le_of_lt {t u : Timestamp} (h : t < u) (hu : u.Nonneg) : t.next ≤ u := by
  have hl' := u.logical.toInt_lt
  have hw' := u.wallTime.toInt_lt
  have hnn := hu.2
  rw [lt_iff] at h
  rw [← not_lt, lt_iff, next]
  split <;> rename_i hl
  · have hmax : t.logical.toInt = 2 ^ 31 - 1 := hl ▸ Int32.toInt_maxValue
    have hw : t.wallTime ≠ Int64.maxValue := by
      intro hw
      have := hw ▸ toInt_maxValue
      omega
    have hz : (0 : Int32).toInt = 0 := rfl
    simp only [wallTime_succ hw, hz]
    omega
  · simp only [logical_succ hl]
    omega

/-- Nothing lies below a logical component that has wrapped. -/
theorem Timestamp.not_lt_wrapped (t : Timestamp) :
    ¬t < { t with logical := Int32.maxValue + 1 } := by
  rw [lt_iff]
  have hmin : (Int32.maxValue + 1).toInt = -2 ^ 31 := rfl
  have hle := t.logical.le_toInt
  simp only [hmin]
  omega

namespace Clock

def newClock (wall : ℕ → Int64) (maxOffset : Int64) : Clock := { wall, maxOffset }

variable (c : Clock)

/-- The latest of the three wall times. -/
def maxWall (remote : Timestamp) : Int64 :=
  let physical := c.wall c.reads
  let maxWall := if c.state.wallTime > physical then c.state.wallTime else physical
  if remote.wallTime > maxWall then remote.wallTime else maxWall

/-- The largest logical component that goes with it. -/
def maxLogical (remote : Timestamp) : Int32 :=
  let maxWall := c.maxWall remote
  let maxLogical :=
    if c.state.wallTime = maxWall ∧ c.state.logical > 0 then c.state.logical else 0
  if remote.wallTime = maxWall ∧ remote.logical > maxLogical then remote.logical else maxLogical

/-- The case distinction of `Update`. -/
def merged (remote : Timestamp) : Timestamp :=
  let physical := c.wall c.reads
  if physical > c.state.wallTime ∧ physical > remote.wallTime then
    { wallTime := physical, logical := 0 }
  else if c.state.wallTime > remote.wallTime ∧ c.state.wallTime > physical then
    { wallTime := c.state.wallTime, logical := c.state.logical + 1 }
  else if remote.wallTime > c.state.wallTime ∧ remote.wallTime > physical then
    { wallTime := remote.wallTime, logical := remote.logical + 1 }
  else { wallTime := c.maxWall remote, logical := c.maxLogical remote + 1 }

/-- The state that `Update` moves to and returns. -/
def updateState (remote : Timestamp) : Timestamp :=
  if ¬c.state.less (c.merged remote) then c.state.next else c.merged remote

def update (remote : Timestamp) : Timestamp × Clock :=
  (c.updateState remote, { c with reads := c.reads + 1, state := c.updateState remote })

/-! ## One call -/

theorem lt_nextState_iff :
    c.state < c.nextState ↔ c.state.wallTime < c.wall c.reads ∨ c.HasTick := by
  by_cases ht : c.HasTick
  · exact iff_of_true (lt_nextState ht) (.inr ht)
  · rw [nextState]
    split <;> rename_i hgt
    · exact iff_of_true ((lt_iff _ _).mpr (.inl (lt_iff_toInt_lt.mp hgt))) (.inl hgt)
    · rw [not_not.mp ht]
      exact iff_of_false c.state.not_lt_wrapped (not_or.mpr ⟨hgt, ht⟩)

variable {c : Clock} {r : Timestamp}

theorem wallTime_merged (c : Clock) (r : Timestamp) : (c.merged r).wallTime.toInt =
    max (c.wall c.reads).toInt (max c.state.wallTime.toInt r.wallTime.toInt) := by
  simp only [merged, maxWall, gt_iff_lt, lt_iff_toInt_lt]
  split_ifs <;> dsimp only <;> omega

theorem updateState_eq (c : Clock) (r : Timestamp) :
    c.updateState r = if c.state < c.merged r then c.merged r else c.state.next := by
  simp only [updateState, less_iff, ite_not]

section

variable (h : c.state.HasNext)
include h

theorem lt_updateState : c.state < c.updateState r := by
  rw [updateState_eq]
  split
  · assumption
  · exact lt_next h

theorem wallTime_le_updateState :
    (c.merged r).wallTime.toInt ≤ (c.updateState r).wallTime.toInt := by
  rw [updateState_eq]
  split
  · exact le_rfl
  · rename_i hlt
    have hnext := lt_next h
    rw [lt_iff] at hlt hnext
    omega

theorem updateState_wallTime_le : (c.updateState r).wallTime.toInt ≤
    max (c.wall c.reads).toInt (max (c.state.wallTime.toInt + 1) r.wallTime.toInt) := by
  rw [updateState_eq]
  split
  · rw [wallTime_merged]
    omega
  · have := wallTime_next_le h
    omega

end

/-- If no wall time is later than the remote one and the state is not above the remote timestamp,
the logical component of the remote timestamp is incremented. -/
theorem merged_of_le (h0 : c.state.Nonneg) (hr : r.Nonneg) (hp : ¬r.wallTime < c.wall c.reads)
    (hs : c.state ≤ r) : c.merged r = { r with logical := r.logical + 1 } := by
  have hz : (0 : Int32).toInt = 0 := rfl
  obtain ⟨-, h0⟩ := h0
  obtain ⟨-, hr⟩ := hr
  rw [← not_lt, lt_iff] at hs
  rw [lt_iff_toInt_lt] at hp
  have hw : c.maxWall r = r.wallTime := by
    simp only [maxWall, gt_iff_lt, lt_iff_toInt_lt, ← toInt_inj]
    split_ifs <;> omega
  have hl : c.maxLogical r = r.logical := by
    simp only [maxLogical, hw, gt_iff_lt, Int32.lt_iff_toInt_lt, ← toInt_inj,
      ← Int32.toInt_inj, true_and]
    split_ifs <;> omega
  simp only [merged, gt_iff_lt, lt_iff_toInt_lt]
  rw [if_neg (by omega), if_neg (by omega), hw, hl, ite_self]

/-- The result of `Update` lies above the remote timestamp unless the logical component of that is
at its end, and neither the physical clock nor the state is in its way. -/
theorem remote_lt_updateState_iff (hn : c.state.HasNext) (h0 : c.state.Nonneg) (hr : r.Nonneg) :
    r < c.updateState r ↔ r.wallTime < c.wall c.reads ∨ r ≤ c.state ∨
      r.logical ≠ Int32.maxValue := by
  by_cases hp : r.wallTime < c.wall c.reads
  · refine iff_of_true ((lt_iff _ _).mpr (.inl ?_)) (.inl hp)
    have hw := wallTime_le_updateState hn (r := r)
    rw [wallTime_merged] at hw
    rw [lt_iff_toInt_lt] at hp
    omega
  rw [or_iff_right hp]
  by_cases hs : r < c.state
  · exact iff_of_true (hs.trans (lt_updateState hn)) (.inl hs.le)
  have hs : c.state ≤ r := not_lt.mp hs
  rw [updateState_eq, merged_of_le h0 hr hp hs]
  by_cases hl : r.logical = Int32.maxValue
  · rw [or_iff_left (not_not.mpr hl), hl]
    split
    · rename_i hlt
      exact iff_of_false r.not_lt_wrapped fun hle ↦ r.not_lt_wrapped (hle.trans_lt hlt)
    · obtain heq | hlt := hs.eq_or_lt
      · exact iff_of_true (heq ▸ lt_next hn) heq.ge
      · exact iff_of_false (not_lt.mpr (next_le_of_lt hlt hr)) (not_le.mpr hlt)
  · have hlt : r < { r with logical := r.logical + 1 } :=
      (lt_iff _ _).mpr (.inr ⟨rfl, by rw [logical_succ hl]; exact Int.lt_succ _⟩)
    rw [if_pos (hs.trans_lt hlt)]
    exact iff_of_true hlt (.inr hl)

theorem nonneg_updateState (hn : c.state.HasNext) (h0 : c.state.Nonneg) (hr : r.Nonneg)
    (hlt : r < c.updateState r) : (c.updateState r).Nonneg := by
  have hw := wallTime_merged c r
  rw [updateState_eq] at hlt ⊢
  split at hlt
  · rename_i hs
    rw [if_pos hs]
    rw [lt_iff] at hlt hs
    obtain ⟨h0w, h0l⟩ := h0
    have hrl := hr.2
    by_cases hp : c.wall c.reads > c.state.wallTime ∧ c.wall c.reads > r.wallTime
    · rw [merged, if_pos hp]
      exact ⟨h0w.trans (lt_iff_toInt_lt.mp hp.1).le, le_rfl⟩
    · simp only [gt_iff_lt, lt_iff_toInt_lt] at hp
      constructor <;> omega
  · rw [if_neg (by assumption)]
    exact h0.next hn

/-! ## Sequences of calls -/

inductive Call
  | now
  | update (remote : Timestamp)

/-- What a call returns lies above the timestamp it was given. -/
def Call.Precedes : Call → Timestamp → Prop
  | now, _ => True
  | update r, t => r < t

/-- The remote timestamps that a call may be given. -/
def Call.InRange : Call → Prop
  | now => True
  | update r => r.Nonneg ∧ r.wallTime.toInt ≤ 2 ^ 62

def call (c : Clock) : Call → Timestamp × Clock
  | .now => c.now
  | .update r => c.update r

/-- The logical component that a call increments does not wrap, or its result does not depend on
it. -/
def HasRoom (c : Clock) : Call → Prop
  | .now => c.state.wallTime < c.wall c.reads ∨ c.HasTick
  | .update r => r.wallTime < c.wall c.reads ∨ r ≤ c.state ∨ r.logical ≠ Int32.maxValue

/-- A call, with the clock as it finds it and the timestamp it returns. -/
structure Answer where
  clock : Clock
  call : Call
  result : Timestamp

def answers (c : Clock) : List Call → List Answer
  | [] => []
  | k :: ks => ⟨c, k, (c.call k).1⟩ :: (c.call k).2.answers ks

variable {k : Call}

theorem call_state (c : Clock) (k : Call) : (c.call k).2.state = (c.call k).1 := by
  cases k <;> rfl

theorem call_wallTime_le (hn : c.state.HasNext) (hw : (c.wall c.reads).toInt ≤ 2 ^ 62)
    (hk : k.InRange) : (c.call k).1.wallTime.toInt ≤ max (2 ^ 62) (c.state.wallTime.toInt + 1) := by
  cases k with
  | now =>
    simp only [call, now, nextState]
    split <;> dsimp only <;> omega
  | update r =>
    have hle := updateState_wallTime_le hn (r := r)
    have hr := hk.2
    simp only [call, update]
    omega

theorem nonneg_call (hn : c.state.HasNext) (h0 : c.state.Nonneg) (hk : k.InRange)
    (hs : c.state < (c.call k).1) (hlt : k.Precedes (c.call k).1) : (c.call k).1.Nonneg := by
  cases k with
  | now => exact nonneg_nextState h0 hs
  | update r => exact nonneg_updateState hn h0 hk.1 hlt

theorem call_iff_hasRoom (hn : c.state.HasNext) (h0 : c.state.Nonneg) (hk : k.InRange) :
    c.state < (c.call k).1 ∧ k.Precedes (c.call k).1 ↔ c.HasRoom k := by
  cases k with
  | now => exact (and_iff_left trivial).trans c.lt_nextState_iff
  | update r =>
    exact (and_iff_right (lt_updateState hn)).trans (remote_lt_updateState_iff hn h0 hk.1)

theorem isChain_iff_hasRoom {ks : List Call} (hwall : ∀ n, (c.wall n).toInt ≤ 2 ^ 62)
    (hks : ∀ k ∈ ks, k.InRange) (hlen : ks.length < 2 ^ 62) (h0 : c.state.Nonneg)
    (hroom : c.state.wallTime.toInt + ks.length < 2 ^ 63) :
    (List.IsChain (· < ·) (c.state :: (c.answers ks).map Answer.result) ∧
      ∀ a ∈ c.answers ks, a.call.Precedes a.result) ↔
    ∀ a ∈ c.answers ks, a.clock.HasRoom a.call := by
  induction ks generalizing c with
  | nil => simp [answers]
  | cons k ks ih =>
    rw [length_cons] at hlen hroom
    push_cast at hroom
    have hn : c.state.HasNext := by
      intro he
      have := congrArg (fun t ↦ t.wallTime.toInt) he
      simp only [toInt_maxValue] at this
      omega
    have hk := hks k (.head _)
    have hstep := call_iff_hasRoom hn h0 hk
    have hle := call_wallTime_le hn (hwall _) hk
    rw [answers, map_cons, isChain_cons_cons, forall_mem_cons, forall_mem_cons,
      and_and_and_comm, hstep]
    refine and_congr_right fun hr ↦ ?_
    obtain ⟨hlt, hpre⟩ := hstep.mpr hr
    rw [← call_state]
    exact ih ((show (c.call k).2.wall = c.wall by cases k <;> rfl) ▸ hwall)
      (fun k' hk' ↦ hks k' (.tail _ hk')) (by omega)
      (call_state c k ▸ nonneg_call hn h0 hk hlt hpre) (by rw [call_state]; omega)

theorem state_lt_call (ht : c.HasTick) (hn : c.state.HasNext) : c.state < (c.call k).1 := by
  cases k with
  | now => exact lt_nextState ht
  | update r => exact lt_updateState hn

/-- The results of a new clock increase strictly and exceed the remote timestamps, if and only if
each call finds room in the logical component. -/
theorem strict_iff_hasRoom (wall : ℕ → Int64) (maxOffset : Int64) (ks : List Call)
    (hwall : ∀ n, (wall n).toInt ≤ 2 ^ 62) (hks : ∀ k ∈ ks, k.InRange) (hlen : ks.length < 2 ^ 62) :
    (((newClock wall maxOffset).answers ks).Pairwise (·.result < ·.result) ∧
      ∀ a ∈ (newClock wall maxOffset).answers ks, a.call.Precedes a.result) ↔
    ∀ a ∈ (newClock wall maxOffset).answers ks, a.clock.HasRoom a.call := by
  have hnew : (newClock wall maxOffset).state = {} := rfl
  have hzero : ({} : Timestamp).wallTime.toInt = 0 := rfl
  refine Iff.trans (and_congr_left' ?_) (isChain_iff_hasRoom hwall hks hlen (hnew ▸ by decide)
    (by rw [hnew, hzero]; omega))
  rw [← pairwise_map (f := Answer.result), ← isChain_iff_pairwise]
  cases ks with
  | nil => simp [answers]
  | cons k ks =>
    -- the zero state leaves room for the first call
    have hfirst := state_lt_call (c := newClock wall maxOffset) (k := k)
      (by rw [HasTick, hnew]; decide) (by rw [hnew]; decide)
    rw [answers, map_cons, isChain_cons_cons, and_iff_right hfirst]

theorem strict_of_ahead :
    ((newClock (fun _ ↦ 7) 0).answers [.now, .update ⟨9, 3⟩]).Pairwise (·.result < ·.result) :=
  ((strict_iff_hasRoom (fun _ ↦ 7) 0 [.now, .update ⟨9, 3⟩] (fun _ ↦ by decide)
    (by simp [Call.InRange]; decide) (by decide)).mpr (by simp [answers, HasRoom]; decide)).1

/-- A remote timestamp at the end of its logical component, and a clock that stands still at one. -/
theorem update_below_remote :
    ((newClock (fun _ ↦ 0) 0).answers [.update ⟨1, Int32.maxValue⟩]).map Answer.result =
      [⟨1, Int32.minValue⟩] ∧
    ((newClock (fun _ ↦ 0) 0).answers [.update ⟨1, Int32.maxValue - 1⟩, .now]).map Answer.result =
      [⟨1, Int32.maxValue⟩, ⟨1, Int32.minValue⟩] := by
  decide

end Clock

end DucklingDB.Hlc
