import Mathlib.Data.List.Induction
import Mathlib.Data.List.Infix

/-!
# Conditions along a run

A run applies a list of operations to a state, one after the other. `Along step P s ops` says that
each operation meets the condition `P` in the state it finds. `forall_prefix_iff_along` is the rule
for results of the form "the property holds after every step of the run exactly when every operation
meets the condition": an invariant `I` carries the property `G` through the operations that meet the
condition, and an operation that does not meet it breaks `G` at once.
-/

namespace DucklingDB

open List

variable {σ ω : Type} {step : σ → ω → σ} {P W : σ → ω → Prop} {s : σ} {ops : List ω}

/-- Each operation meets `P` in the state it finds. -/
def Along (step : σ → ω → σ) (P : σ → ω → Prop) (s : σ) : List ω → Prop
  | [] => True
  | op :: ops => P s op ∧ Along step P (step s op) ops

instance Along.decidable [∀ s op, Decidable (P s op)] :
    (s : σ) → (ops : List ω) → Decidable (Along step P s ops)
  | _, [] => inferInstanceAs (Decidable True)
  | s, op :: ops =>
    have : Decidable (Along step P (step s op) ops) := Along.decidable (step s op) ops
    inferInstanceAs (Decidable (_ ∧ _))

theorem along_append (s : σ) (ops ops' : List ω) :
    Along step P s (ops ++ ops') ↔ Along step P s ops ∧ Along step P (ops.foldl step s) ops' := by
  induction ops generalizing s with
  | nil => simp [Along]
  | cons op ops ih => rw [cons_append, Along, Along, ih, and_assoc, foldl_cons]

theorem along_concat (s : σ) (ops : List ω) (op : ω) :
    Along step P s (ops ++ [op]) ↔ Along step P s ops ∧ P (ops.foldl step s) op := by
  rw [along_append]
  exact and_congr_right fun _ ↦ and_iff_left trivial

theorem Along.of_prefix {past : List ω} (h : Along step P s ops) (hpast : past <+: ops) :
    Along step P s past := by
  obtain ⟨rest, rfl⟩ := hpast
  exact ((along_append s past rest).mp h).1

/-- **The invariant rule.** -/
theorem Along.invariant {I : σ → Prop} (h : Along step P s ops) (hI : I s)
    (hstep : ∀ s op, I s → P s op → I (step s op)) : I (ops.foldl step s) := by
  induction ops generalizing s with
  | nil => exact hI
  | cons op ops ih => exact ih h.2 (hstep s op hI h.1)

/-- **The property holds after every step exactly when every operation meets the condition.** -/
theorem forall_prefix_iff_along {I G : List ω → Prop} (hnil : I [])
    (hgood : ∀ past, I past → G past)
    (hstep : ∀ past op, I past → W (past.foldl step s) op → P (past.foldl step s) op →
      I (past ++ [op]))
    (honly : ∀ past op, I past → W (past.foldl step s) op → G (past ++ [op]) →
      P (past.foldl step s) op)
    (hW : Along step W s ops) :
    (∀ past, past <+: ops → G past) ↔ Along step P s ops := by
  -- the invariant is carried along with the condition
  suffices key : ((∀ past, past <+: ops → G past) → I ops ∧ Along step P s ops) ∧
      (Along step P s ops → I ops ∧ ∀ past, past <+: ops → G past) from
    ⟨fun h ↦ (key.1 h).2, fun h ↦ (key.2 h).2⟩
  induction ops using List.reverseRecOn with
  | nil => exact ⟨fun _ ↦ ⟨hnil, trivial⟩, fun _ ↦ ⟨hnil, by simpa using hgood [] hnil⟩⟩
  | append_singleton ops op ih =>
    obtain ⟨hW, hWop⟩ := (along_concat _ _ _).mp hW
    obtain ⟨ih₁, ih₂⟩ := ih hW
    rw [along_concat]
    constructor
    · intro h
      obtain ⟨hI, hP⟩ := ih₁ fun past hpast ↦ h past (hpast.trans (prefix_append _ _))
      have hPop := honly ops op hI hWop (h _ (prefix_refl _))
      exact ⟨hstep ops op hI hWop hPop, hP, hPop⟩
    · rintro ⟨hP, hPop⟩
      obtain ⟨hI, hG⟩ := ih₂ hP
      have hI' := hstep ops op hI hWop hPop
      refine ⟨hI', fun past hpast ↦ ?_⟩
      obtain rfl | hpast := prefix_concat_iff.mp hpast
      · exact hgood _ hI'
      · exact hG past hpast

end DucklingDB
