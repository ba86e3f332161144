import Mathlib.Init

/-!
# Crashes in the middle of a sequence of writes

A program changes a medium by a sequence of writes. A crash stops it before some write, or in the
middle of one: then the medium is left in one of the states that `torn` allows. `Keeps` says that a
property holds wherever the crash falls, the end of the sequence included.
-/

namespace DucklingDB

section Crash

variable {σ ε : Type} (apply : σ → ε → σ) (torn : σ → ε → σ → Prop)

/-- The states a crash during these writes can leave. -/
inductive Crash : σ → List ε → σ → Prop
  | stop (s : σ) (es : List ε) : Crash s es s
  | torn {s s' : σ} {e : ε} (es : List ε) (h : torn s e s') : Crash s (e :: es) s'
  | step {s s' : σ} {e : ε} {es : List ε} (h : Crash (apply s e) es s') : Crash s (e :: es) s'

/-- The property holds wherever a crash falls. -/
def Keeps (P : σ → Prop) (s : σ) (es : List ε) : Prop := ∀ s', Crash apply torn s es s' → P s'

variable {apply torn} {P Q : σ → Prop} {s : σ} {es es' : List ε}

theorem Keeps.mono (h : Keeps apply torn P s es) (hPQ : ∀ s, P s → Q s) : Keeps apply torn Q s es :=
  fun s' hs' ↦ hPQ s' (h s' hs')

theorem Keeps.start (h : Keeps apply torn P s es) : P s := h s (Crash.stop s es)

theorem keeps_nil (h : P s) : Keeps apply torn P s [] := by
  rintro s' ⟨⟩
  exact h

theorem keeps_cons {e : ε} (h : P s) (ht : ∀ s', torn s e s' → P s')
    (hes : Keeps apply torn P (apply s e) es) : Keeps apply torn P s (e :: es) := by
  intro s' hs'
  cases hs' with
  | stop => exact h
  | torn _ htorn => exact ht s' htorn
  | step hstep => exact hes s' hstep

theorem Keeps.tail {e : ε} (h : Keeps apply torn P s (e :: es)) :
    Keeps apply torn P (apply s e) es :=
  fun s' hs' ↦ h s' (Crash.step hs')

theorem Keeps.append (h : Keeps apply torn P s es)
    (h' : Keeps apply torn P (es.foldl apply s) es') : Keeps apply torn P s (es ++ es') := by
  induction es generalizing s with
  | nil => exact h'
  | cons e es ih =>
    refine keeps_cons h.start (fun s' hs' ↦ h s' (Crash.torn es hs')) ?_
    exact ih h.tail h'

theorem Keeps.last (h : Keeps apply torn P s es) : P (es.foldl apply s) := by
  induction es generalizing s with
  | nil => exact h.start
  | cons e es ih => exact ih h.tail

end Crash

end DucklingDB
