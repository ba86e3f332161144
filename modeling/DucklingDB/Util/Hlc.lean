import Mathlib.Data.Prod.Lex
import Mathlib.Order.Lattice

/-!
# Hybrid logical clocks

`Timestamp` and `Clock` of `internal/util/hlc`. The two components of a timestamp are the machine
integers of the source, so that `Next` and the logical counter of the clock overflow where Go's do.
Timestamps are ordered by wall time, then by the logical component; `Less` and `LessEq` decide that
order.
-/

namespace DucklingDB.Hlc

/-- A wall time in nanoseconds and a counter that breaks ties. -/
structure Timestamp where
  wallTime : Int64 := 0
  logical : Int32 := 0
  deriving DecidableEq, Repr, Inhabited

namespace Timestamp

variable (t : Timestamp)

/-- The zero timestamp marks an inline value. -/
def isEmpty : Bool := t.wallTime == 0 && t.logical == 0

def less (t other : Timestamp) : Bool :=
  if t.wallTime ≠ other.wallTime then t.wallTime < other.wallTime else t.logical < other.logical

def lessEq (t other : Timestamp) : Bool := t == other || t.less other

/-- `Next`: one tick of the logical component, carried into the wall time. -/
def next : Timestamp :=
  if t.logical = Int32.maxValue then { wallTime := t.wallTime + 1, logical := 0 }
  else { wallTime := t.wallTime, logical := t.logical + 1 }

/-! ## The order -/

/-- The components as integers. -/
def toPair : ℤ ×ₗ ℤ := toLex (t.wallTime.toInt, t.logical.toInt)

theorem toPair_injective : Function.Injective toPair := by
  rintro ⟨w, l⟩ ⟨w', l'⟩ h
  have h : (w.toInt, l.toInt) = (w'.toInt, l'.toInt) := congrArg ofLex h
  obtain ⟨hw, hl⟩ := Prod.mk.injEq _ _ _ _ ▸ h
  rw [Int64.toInt_inj] at hw
  rw [Int32.toInt_inj] at hl
  rw [hw, hl]

instance : LinearOrder Timestamp where
  le t u := t.toPair ≤ u.toPair
  lt t u := t.toPair < u.toPair
  le_refl _ := le_rfl
  le_trans _ _ _ := le_trans
  le_antisymm _ _ h h' := toPair_injective (le_antisymm h h')
  le_total _ _ := le_total _ _
  lt_iff_le_not_ge _ _ := lt_iff_le_not_ge
  toDecidableLE t u := inferInstanceAs (Decidable (t.toPair ≤ u.toPair))
  toDecidableLT t u := inferInstanceAs (Decidable (t.toPair < u.toPair))
  toDecidableEq := inferInstance

theorem lt_iff (t u : Timestamp) : t < u ↔ t.wallTime.toInt < u.wallTime.toInt ∨
    t.wallTime.toInt = u.wallTime.toInt ∧ t.logical.toInt < u.logical.toInt :=
  Prod.Lex.toLex_lt_toLex

@[simp] theorem less_iff (t u : Timestamp) : t.less u = true ↔ t < u := by
  rw [lt_iff, less]
  split <;> rename_i h
  · have hne : t.wallTime.toInt ≠ u.wallTime.toInt := fun he ↦ h (Int64.toInt_inj.mp he)
    simp [hne, Int64.lt_iff_toInt_lt]
  · rw [ne_eq, not_not] at h
    simp [h, Int32.lt_iff_toInt_lt]

@[simp] theorem lessEq_iff (t u : Timestamp) : t.lessEq u = true ↔ t ≤ u := by
  rw [lessEq, Bool.or_eq_true, beq_iff_eq, less_iff, le_iff_eq_or_lt]

@[simp] theorem isEmpty_iff : t.isEmpty = true ↔ t = {} := by
  cases t
  simp [isEmpty]

/-- Both components are non-negative. -/
def Nonneg : Prop := 0 ≤ t.wallTime.toInt ∧ 0 ≤ t.logical.toInt

instance (t : Timestamp) : Decidable t.Nonneg := inferInstanceAs (Decidable (_ ∧ _))

/-- `Next` does not overflow. -/
def HasNext : Prop :=
  t ≠ { wallTime := Int64.maxValue, logical := Int32.maxValue }

instance (t : Timestamp) : Decidable t.HasNext := inferInstanceAs (Decidable (_ ≠ _))

theorem wallTime_succ {w : Int64} (h : w ≠ Int64.maxValue) : (w + 1).toInt = w.toInt + 1 := by
  have hlt := w.toInt_lt
  have hle := w.le_toInt
  have hne : w.toInt ≠ 2 ^ 63 - 1 := fun he ↦
    h (Int64.toInt_inj.mp (he.trans Int64.toInt_maxValue.symm))
  rw [Int64.toInt_add]
  have h1 : (1 : Int64).toInt = 1 := rfl
  rw [h1]
  exact Int.bmod_eq_of_le_mul_two (by omega) (by omega)

theorem logical_succ {l : Int32} (h : l ≠ Int32.maxValue) : (l + 1).toInt = l.toInt + 1 := by
  have hlt := l.toInt_lt
  have hle := l.le_toInt
  have hne : l.toInt ≠ 2 ^ 31 - 1 := fun he ↦
    h (Int32.toInt_inj.mp (he.trans Int32.toInt_maxValue.symm))
  rw [Int32.toInt_add]
  have h1 : (1 : Int32).toInt = 1 := rfl
  rw [h1]
  exact Int.bmod_eq_of_le_mul_two (by omega) (by omega)

theorem HasNext.wallTime_ne {t : Timestamp} (h : t.HasNext) (hl : t.logical = Int32.maxValue) :
    t.wallTime ≠ Int64.maxValue := by
  rintro hw
  exact h (by rw [← hw, ← hl])

theorem le_maxValue (t : Timestamp) : t ≤ ⟨Int64.maxValue, Int32.maxValue⟩ := by
  rw [← not_lt, lt_iff]
  have hw := t.wallTime.toInt_lt
  have hl := t.logical.toInt_lt
  simp only [Int64.toInt_maxValue, Int32.toInt_maxValue]
  omega

theorem HasNext.mono {t u : Timestamp} (h : u.HasNext) (hle : t ≤ u) : t.HasNext := by
  rintro rfl
  exact h (le_antisymm u.le_maxValue hle)

theorem hasNext_of_lt {t u : Timestamp} (h : t < u) : t.HasNext := by
  rintro rfl
  exact h.not_ge u.le_maxValue

theorem lt_next {t : Timestamp} (h : t.HasNext) : t < t.next := by
  rw [lt_iff, next]
  split <;> rename_i hl
  · left
    rw [wallTime_succ (h.wallTime_ne hl)]
    exact Int.lt_succ _
  · right
    rw [logical_succ hl]
    exact ⟨rfl, Int.lt_succ _⟩

/-- There is nothing between a timestamp and the next one. -/
theorem Nonneg.next_le {t u : Timestamp} (hu : u.Nonneg) (h : t < u) : t.next ≤ u := by
  obtain ⟨-, hlogical⟩ := hu
  have hnext := hasNext_of_lt h
  rw [lt_iff] at h
  rw [← not_lt, lt_iff, next]
  split <;> rename_i hl
  · have h0 : (0 : Int32).toInt = 0 := rfl
    have hlt := u.logical.toInt_lt
    rw [hl, Int32.toInt_maxValue] at h
    rw [wallTime_succ (hnext.wallTime_ne hl), h0]
    omega
  · dsimp only
    rw [logical_succ hl]
    omega

theorem Nonneg.next {t : Timestamp} (h : t.Nonneg) (hn : t.HasNext) : t.next.Nonneg := by
  rw [Timestamp.next]
  split <;> rename_i hl
  · refine ⟨?_, le_rfl⟩
    rw [wallTime_succ (hn.wallTime_ne hl)]
    exact h.1.trans (le_of_lt (Int.lt_succ _))
  · refine ⟨h.1, ?_⟩
    rw [logical_succ hl]
    exact h.2.trans (le_of_lt (Int.lt_succ _))

theorem Nonneg.empty_le {t : Timestamp} (h : t.Nonneg) : {} ≤ t := by
  rw [← not_lt, lt_iff]
  obtain ⟨hw, hl⟩ := h
  have h0 : (0 : Int64).toInt = 0 := rfl
  have h0' : (0 : Int32).toInt = 0 := rfl
  simp only [h0, h0']
  omega

end Timestamp

/-- `Clock`. The readings of the wall clock are given in advance, `wall n` being the `n`-th; `reads`
of them have been used. -/
structure Clock where
  wall : ℕ → Int64
  maxOffset : Int64
  reads : ℕ := 0
  state : Timestamp := {}

namespace Clock

/-- The state that `Now` moves to and returns. -/
def nextState (c : Clock) : Timestamp :=
  if c.wall c.reads > c.state.wallTime then { wallTime := c.wall c.reads, logical := 0 }
  else { c.state with logical := c.state.logical + 1 }

def now (c : Clock) : Timestamp × Clock :=
  (c.nextState, { c with reads := c.reads + 1, state := c.nextState })

/-- The logical counter has room for another tick. -/
def HasTick (c : Clock) : Prop := c.state.logical ≠ Int32.maxValue

instance (c : Clock) : Decidable c.HasTick := inferInstanceAs (Decidable (_ ≠ _))

theorem lt_nextState {c : Clock} (h : c.HasTick) : c.state < c.nextState := by
  rw [Timestamp.lt_iff, nextState]
  split
  · rename_i hgt
    exact Or.inl (Int64.lt_iff_toInt_lt.mp hgt)
  · right
    rw [Timestamp.logical_succ h]
    exact ⟨rfl, Int.lt_succ _⟩

theorem nonneg_nextState {c : Clock} (hc : c.state.Nonneg) (h : c.state < c.nextState) :
    c.nextState.Nonneg := by
  rw [nextState] at h ⊢
  split at h <;> rename_i hgt
  · rw [if_pos hgt]
    exact ⟨hc.1.trans (Int64.lt_iff_toInt_lt.mp hgt).le, le_rfl⟩
  · rw [if_neg hgt]
    rw [Timestamp.lt_iff] at h
    exact ⟨hc.1, hc.2.trans (h.resolve_left (lt_irrefl _)).2.le⟩

end Clock

end DucklingDB.Hlc
