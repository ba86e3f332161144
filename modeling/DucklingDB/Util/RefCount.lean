import Mathlib.Algebra.GroupWithZero.Nat
import Mathlib.Data.List.Count
import Mathlib.Data.List.Nodup
import Mathlib.Logic.Function.Basic
import Mathlib.Order.Basic

/-!
# Reference counts

A pool of objects with reference counts. Allocation gives an object its first reference. The last
release closes it, and a release that was not paired with a reference is a panic, here `none`. The
counts are 32-bit integers.

The counts are right with respect to an account of who holds what: `Counted p own` says that the
object `i` has `own i` references and is closed exactly if that is zero. Each operation moves the
account along as long as there are less than `2 ^ 31` references, and a release that the account
covers does not panic.
-/

namespace DucklingDB

open Function List Nat

structure Pool (α : Type) where
  next : ℕ := 0
  content : ℕ → Option α := fun _ ↦ none
  refs : ℕ → Int32 := fun _ ↦ 0
  closed : ℕ → Bool := fun _ ↦ true

namespace Pool

variable {α : Type}

variable (p : Pool α)

/-- A new object, held once. -/
def alloc (a : α) : Pool α where
  next := p.next + 1
  content := update p.content p.next (some a)
  refs := update p.refs p.next 1
  closed := update p.closed p.next false

def allocAll (as : List α) : Pool α := as.foldl alloc p

def ref (i : ℕ) : Pool α := { p with refs := update p.refs i (p.refs i + 1) }

def refAll (is : List ℕ) : Pool α := is.foldl ref p

/-- A release; a negative count is a panic. -/
def unref (i : ℕ) : Option (Pool α) :=
  let n := p.refs i - 1
  if n < 0 then none
  else
    some
      { p with
        refs := update p.refs i n
        closed := if n = 0 then update p.closed i true else p.closed }

def unrefAll (p : Pool α) : List ℕ → Option (Pool α)
  | [] => some p
  | i :: is => (p.unref i).bind fun p ↦ p.unrefAll is

/-- Change the contents of the objects. -/
def map (f : α → α) : Pool α := { p with content := fun i ↦ (p.content i).map f }

/-- The counts are those of the account. -/
structure Counted (p : Pool α) (own : ℕ → ℕ) : Prop where
  refs_eq : ∀ i, (p.refs i).toInt = own i
  closed_iff : ∀ i, p.closed i = true ↔ own i = 0
  lt_next : ∀ i, own i ≠ 0 → i < p.next

theorem counted_empty : ({} : Pool α).Counted fun _ ↦ 0 where
  refs_eq _ := rfl
  closed_iff _ := ⟨fun _ ↦ rfl, fun _ ↦ rfl⟩
  lt_next _ h := absurd rfl h

section Operations

variable {p : Pool α} {own : ℕ → ℕ}

section

variable (h : p.Counted own)
include h

theorem Counted.congr {own' : ℕ → ℕ} (heq : ∀ i, own' i = own i) : p.Counted own' := funext heq ▸ h

theorem Counted.map (f : α → α) : (p.map f).Counted own := ⟨h.refs_eq, h.closed_iff, h.lt_next⟩

theorem Counted.own_next : own p.next = 0 := by
  by_contra hne
  exact Nat.lt_irrefl _ (h.lt_next _ hne)

theorem Counted.alloc (a : α) : (p.alloc a).Counted fun i ↦ own i + [p.next].count i where
  refs_eq i := by
    by_cases hi : i = p.next
    · subst hi
      simp [Pool.alloc, h.own_next]
    · simp [Pool.alloc, hi, h.refs_eq i, Ne.symm hi]
  closed_iff i := by
    by_cases hi : i = p.next
    · subst hi
      simp [Pool.alloc]
    · simp [Pool.alloc, hi, h.closed_iff i, Ne.symm hi]
  lt_next i hne := by
    by_cases hi : i = p.next
    · subst hi
      exact lt_succ_self _
    · refine lt_succ_of_lt (h.lt_next i fun h0 ↦ hne ?_)
      simp [h0, Ne.symm hi]

theorem Counted.allocAll (as : List α) :
    (p.allocAll as).Counted fun i ↦ own i + (List.range' p.next as.length).count i := by
  induction as generalizing p own with
  | nil => exact h.congr fun i ↦ by simp
  | cons a as ih =>
    refine (ih (h.alloc a)).congr fun i ↦ ?_
    rw [length_cons, List.range'_succ, ← singleton_append, count_append, Nat.add_assoc]
    rfl

end

variable {i : ℕ}

theorem content_allocAll_of_lt (p : Pool α) (as : List α) (hi : i < p.next) :
    (p.allocAll as).content i = p.content i := by
  induction as generalizing p with
  | nil => rfl
  | cons a as ih =>
    rw [allocAll, foldl_cons, ← allocAll, ih _ (lt_succ_of_lt hi)]
    exact update_of_ne (Nat.ne_of_lt hi) ..

theorem content_allocAll (p : Pool α) (as : List α) :
    (List.range' p.next as.length).map (p.allocAll as).content = as.map some := by
  induction as generalizing p with
  | nil => rfl
  | cons a as ih =>
    have hnext : (p.alloc a).next = p.next + 1 := rfl
    rw [length_cons, List.range'_succ, map_cons, map_cons, allocAll, foldl_cons,
      ← allocAll, ← hnext, ih, content_allocAll_of_lt _ _ (lt_succ_self p.next)]
    simp [alloc]

theorem toInt_add_one {n : Int32} {k : ℕ} (h : n.toInt = k) (hk : k + 1 < 2 ^ 31) :
    (n + 1).toInt = (k + 1 : ℕ) := by
  rw [Int32.toInt_add, h, Int.bmod_eq_of_le] <;> simp <;> omega

theorem toInt_sub_one {n : Int32} {k : ℕ} (h : n.toInt = k) (hk : k ≠ 0) :
    (n - 1).toInt = (k - 1 : ℕ) := by
  have hlt := n.toInt_lt
  rw [Int32.toInt_sub, h, Int.bmod_eq_of_le] <;> simp <;> omega

theorem Counted.ref (h : p.Counted own) (hi : own i ≠ 0) (hlt : own i + 1 < 2 ^ 31) :
    (p.ref i).Counted fun j ↦ own j + [i].count j where
  refs_eq j := by
    by_cases hj : j = i
    · subst hj
      simp only [Pool.ref, update_self, count_singleton_self]
      exact toInt_add_one (h.refs_eq j) hlt
    · simp [Pool.ref, hj, h.refs_eq j, Ne.symm hj]
  closed_iff j := by
    by_cases hj : j = i
    · subst hj
      simp [Pool.ref, h.closed_iff j, hi]
    · simp [Pool.ref, h.closed_iff j, Ne.symm hj]
  lt_next j hne := by
    by_cases hj : j = i
    · exact h.lt_next j (hj ▸ hi)
    · exact h.lt_next j fun h0 ↦ hne (by simp [h0, Ne.symm hj])

theorem Counted.refAll (h : p.Counted own) {is : List ℕ} (his : ∀ i ∈ is, own i ≠ 0)
    (hlt : ∀ i, own i + is.count i < 2 ^ 31) :
    (p.refAll is).Counted fun i ↦ own i + is.count i := by
  induction is generalizing p own with
  | nil => exact h
  | cons i is ih =>
    have hcount (j : ℕ) : own j + (i :: is).count j = own j + [i].count j + is.count j := by
      rw [← singleton_append, count_append, Nat.add_assoc]
    have hfirst : own i + 1 < 2 ^ 31 := by
      have := hlt i
      rw [hcount, count_singleton_self] at this
      omega
    have hstep := ih (h.ref (his i (.head _)) hfirst) (fun j hj ↦
      Nat.ne_of_gt (Nat.lt_of_lt_of_le (Nat.pos_of_ne_zero (his j (mem_cons_of_mem i hj)))
        (le_add_right _ _))) fun j ↦ hcount j ▸ hlt j
    exact hstep.congr hcount

theorem content_refAll (p : Pool α) (is : List ℕ) : (p.refAll is).content = p.content := by
  induction is generalizing p with
  | nil => rfl
  | cons i is ih =>
    rw [refAll, foldl_cons, ← refAll, ih]
    rfl

theorem Counted.exists_unref (h : p.Counted own) (hi : own i ≠ 0) :
    ∃ p', p.unref i = some p' ∧ p'.content = p.content ∧ p'.next = p.next ∧
      p'.Counted fun j ↦ own j - [i].count j := by
  have hrefs := toInt_sub_one (h.refs_eq i) hi
  have hnonneg : ¬p.refs i - 1 < 0 := by
    rw [Int32.lt_iff_toInt_lt, hrefs, Int32.toInt_zero]
    omega
  have hzero : p.refs i - 1 = 0 ↔ own i - 1 = 0 := by
    rw [← Int32.toInt_inj, hrefs, Int32.toInt_zero, Int.natCast_eq_zero]
  refine ⟨_, if_neg hnonneg, rfl, rfl, ⟨fun j ↦ ?_, fun j ↦ ?_, fun j hj ↦ ?_⟩⟩
  · by_cases hj : j = i
    · subst hj
      simp only [update_self, count_singleton_self]
      exact hrefs
    · simp [hj, h.refs_eq j, Ne.symm hj]
  · by_cases hj : j = i
    · subst hj
      have hclosed := h.closed_iff j
      by_cases hone : p.refs j - 1 = 0
      · simp only [hone, if_true, update_self, count_singleton_self, true_iff]
        exact hzero.mp hone
      · simp only [hone, if_false, hclosed, count_singleton_self]
        exact ⟨fun h0 ↦ absurd h0 hi, fun h0 ↦ absurd (hzero.mpr h0) hone⟩
    · by_cases hone : p.refs i - 1 = 0
      · simp [hone, hj, h.closed_iff j, Ne.symm hj]
      · simp [hone, h.closed_iff j, Ne.symm hj]
  · exact h.lt_next j fun h0 ↦ hj (by simp [h0])

/-- Releases that the account covers do not panic. -/
theorem Counted.exists_unrefAll (h : p.Counted own) (is : List ℕ) (his : ∀ i, is.count i ≤ own i) :
    ∃ p', p.unrefAll is = some p' ∧ p'.content = p.content ∧ p'.next = p.next ∧
      p'.Counted fun i ↦ own i - is.count i := by
  induction is generalizing p own with
  | nil => exact ⟨p, rfl, rfl, rfl, h⟩
  | cons i is ih =>
    have hcount (j : ℕ) : (i :: is).count j = [i].count j + is.count j := by
      rw [← singleton_append, count_append]
    have hi : own i ≠ 0 := by
      have hle := his i
      rw [hcount, count_singleton_self] at hle
      omega
    obtain ⟨p₁, hp₁, hcontent₁, hnext₁, hcounted₁⟩ := h.exists_unref hi
    obtain ⟨p₂, hp₂, hcontent₂, hnext₂, hcounted₂⟩ := ih hcounted₁ fun j ↦ by
      have hle := his j
      rw [hcount] at hle
      omega
    refine ⟨p₂, ?_, hcontent₂.trans hcontent₁, hnext₂.trans hnext₁, hcounted₂.congr fun j ↦ ?_⟩
    · rw [unrefAll, hp₁, Option.bind_some, hp₂]
    · rw [hcount, sub_add_eq]

end Operations

end Pool

end DucklingDB
