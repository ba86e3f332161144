import Mathlib.Data.List.AList
import Mathlib.Data.Finset.Card

/-!
# Go maps and majorities

A Go map is a finite association with pairwise distinct keys, which is what `AList` carries. Reading
an absent key yields the zero value of the element type, so every read names that value; ranging
over the values and counting those that satisfy a test is how the source tallies votes and
acknowledged indices, and `GoMap.card_support` says such a count is the number of keys behind it.

The second half is the arithmetic of majorities: two sets of members, each larger than half of the
membership list, meet. The list may repeat a member, which only makes a majority harder to reach.
-/

namespace DucklingDB

open List AList

/-- A Go map from `α` to `β`. The nil map is the empty one. -/
abbrev GoMap (α β : Type) := AList fun _ : α ↦ β

namespace GoMap

variable {α β : Type} [DecidableEq α]

variable (m : GoMap α β)

/-- `m[k]`, with the zero value of the element type for an absent key. -/
def get (k : α) (zero : β) : β := (m.lookup k).getD zero

variable (p : β → Bool)

/-- The number of entries a `range` loop over `m` counts. -/
def countValues : ℕ := m.entries.countP fun x ↦ p x.2

/-- The keys behind `countValues`. -/
def support : Finset α :=
  ((m.entries.filter fun x ↦ p x.2).map Sigma.fst).toFinset

@[simp] theorem get_insert_self (k : α) (v zero : β) : get (m.insert k v) k zero = v := by
  rw [get, lookup_insert, Option.getD_some]

theorem get_insert (k k' : α) (v zero : β) :
    get (m.insert k v) k' zero = if k' = k then v else get m k' zero := by
  by_cases h : k' = k
  · rw [if_pos h, h, get_insert_self]
  · rw [if_neg h, get, lookup_insert_ne h, get]

theorem mem_support {m : GoMap α β} {p : β → Bool} {k : α} :
    k ∈ support m p ↔ ∃ v, m.lookup k = some v ∧ p v = true := by
  simp only [support, mem_toFinset, mem_map, mem_filter]
  constructor
  · rintro ⟨⟨k', v⟩, ⟨hmem, hp⟩, rfl⟩
    exact ⟨v, mem_lookup_iff.mpr hmem, hp⟩
  · rintro ⟨v, hv, hp⟩
    exact ⟨⟨k, v⟩, ⟨mem_lookup_iff.mp hv, hp⟩, rfl⟩

/-- A count of values is a count of keys, because keys are distinct. -/
theorem card_support : (support m p).card = countValues m p := by
  rw [support, countValues, toFinset_card_of_nodup, length_map, countP_eq_length_filter]
  exact m.nodupKeys.sublist filter_sublist

/-- Setting a key changes nothing if and only if it had that value. -/
theorem lookup_insert_eq_iff {m : GoMap α β} {k : α} {v : β} :
    (∀ k', (m.insert k v).lookup k' = m.lookup k') ↔ m.lookup k = some v := by
  constructor
  · intro h
    rw [← h k, lookup_insert]
  · intro h k'
    by_cases heq : k' = k
    · rw [heq, lookup_insert, h]
    · rw [lookup_insert_ne heq]

theorem countValues_congr {m m' : GoMap α β} (h : ∀ k, m'.lookup k = m.lookup k)
    (p : β → Bool) : countValues m' p = countValues m p := by
  rw [← card_support, ← card_support]
  congr 1
  ext k
  rw [mem_support, mem_support, h k]

end GoMap

/-! ## Majorities -/

/-- The smallest number of members that is more than half of the list. -/
def majority {α : Type} (members : List α) : ℕ := members.length / 2 + 1

/-- A set of members large enough to decide. -/
def IsMajority {α : Type} [DecidableEq α] (members : List α) (Q : Finset α) : Prop :=
  Q ⊆ members.toFinset ∧ majority members ≤ Q.card

/-- **Two majorities meet.** -/
theorem IsMajority.exists_mem_inter {α : Type} [DecidableEq α] {members : List α}
    {Q₁ Q₂ : Finset α} (h₁ : IsMajority members Q₁) (h₂ : IsMajority members Q₂) :
    ∃ p, p ∈ Q₁ ∧ p ∈ Q₂ := by
  by_contra hno
  have hdisj : Disjoint Q₁ Q₂ := by
    rw [Finset.disjoint_left]
    exact fun p hp₁ hp₂ ↦ hno ⟨p, hp₁, hp₂⟩
  have hcard : (Q₁ ∪ Q₂).card = Q₁.card + Q₂.card := Finset.card_union_of_disjoint hdisj
  have hle : (Q₁ ∪ Q₂).card ≤ members.length :=
    (Finset.card_le_card (Finset.union_subset h₁.1 h₂.1)).trans (toFinset_card_le members)
  have h₁' := h₁.2
  have h₂' := h₂.2
  rw [majority] at h₁' h₂'
  omega

end DucklingDB
