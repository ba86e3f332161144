import Mathlib.Data.List.Lex
import Mathlib.Tactic.Positivity
import Mathlib.Tactic.Ring

/-!
# Byte strings

Keys and values are byte strings, ordered as Go's `bytes.Compare` orders them: lexicographically, a
proper prefix first. The file has what key encodings rest on: strings that lie between two strings
with a common prefix have that prefix too; fixed-width big-endian numbers are ordered as the numbers
are; complementing the bytes reverses the order of strings of one length.
-/

namespace DucklingDB

open List Nat

/-- Go's `[]byte`, where nothing depends on the difference between a nil slice and an empty one. -/
abbrev Bytes := List UInt8

instance instLinearOrderUInt8 : LinearOrder UInt8 where
  le_refl _ := UInt8.le_refl _
  le_trans _ _ _ := UInt8.le_trans
  le_antisymm _ _ := UInt8.le_antisymm
  le_total := UInt8.le_total
  lt_iff_le_not_ge a b := by
    rw [UInt8.lt_iff_toNat_lt, UInt8.le_iff_toNat_le, UInt8.le_iff_toNat_le]
    omega
  toDecidableLE := inferInstance
  toDecidableEq := inferInstance
  toDecidableLT := inferInstance

namespace Bytes

/-! ## Common prefixes -/

section Prefix

variable {α : Type} [LinearOrder α]

theorem append_lt_append_left (p a b : List α) : p ++ a < p ++ b ↔ a < b := by
  induction p with
  | nil => rfl
  | cons x p ih => rw [cons_append, cons_append, cons_lt_cons_iff]; simp [ih]

theorem append_le_append_left (p a b : List α) : p ++ a ≤ p ++ b ↔ a ≤ b := by
  rw [← not_lt, ← not_lt, append_lt_append_left]

/-- What lies between two strings with a common prefix has that prefix. -/
theorem isPrefix_of_between {p a b e : List α} (ha : p ++ a ≤ e) (hb : e ≤ p ++ b) : p <+: e := by
  induction p generalizing e with
  | nil => exact nil_prefix
  | cons x p ih =>
    cases e with
    | nil => exact absurd ha (not_le.mpr (nil_lt_cons x (p ++ a)))
    | cons y e =>
      rw [cons_append, ← not_lt, cons_lt_cons_iff, not_or] at ha hb
      have hxy : x = y := le_antisymm (not_lt.mp ha.1) (not_lt.mp hb.1)
      subst hxy
      rw [prefix_cons_inj]
      refine ih (not_lt.mp fun h ↦ ha.2 ⟨rfl, h⟩) (not_lt.mp fun h ↦ hb.2 ⟨rfl, h⟩)

theorem lt_append_of_ne_nil (p : List α) {a : List α} (ha : a ≠ []) : p < p ++ a := by
  obtain ⟨x, t, rfl⟩ := exists_cons_of_ne_nil ha
  have h := (append_lt_append_left p [] (x :: t)).mpr (nil_lt_cons x t)
  rwa [append_nil] at h

/-- Strings of one length compare at the first place where they differ. -/
theorem append_lt_append {a b c d : List α} (hlen : a.length = b.length) :
    a ++ c < b ++ d ↔ a < b ∨ a = b ∧ c < d := by
  induction a generalizing b with
  | nil =>
    rw [length_nil, eq_comm, length_eq_zero_iff] at hlen
    subst hlen
    simp
  | cons x a ih =>
    cases b with
    | nil => cases hlen
    | cons y b =>
      rw [length_cons, length_cons, add_right_cancel_iff] at hlen
      rw [cons_append, cons_append, cons_lt_cons_iff, cons_lt_cons_iff, ih hlen, List.cons.injEq]
      tauto

end Prefix

/-- Nothing lies between a string and the same string with a zero byte. -/
theorem append_zero_le {a b : Bytes} (h : a < b) : a ++ [0] ≤ b := by
  induction a generalizing b with
  | nil =>
    cases b with
    | nil => exact absurd h (lt_irrefl _)
    | cons y b =>
      rw [nil_append, ← not_lt, cons_lt_cons_iff, not_or]
      exact ⟨not_lt.mpr (UInt8.le_iff_toNat_le.mpr (zero_le _)),
        fun hlt ↦ absurd hlt.2 (not_lt_nil _)⟩
  | cons x a ih =>
    cases b with
    | nil => exact absurd h (not_lt_nil _)
    | cons y b =>
      rw [cons_append, ← not_lt, cons_lt_cons_iff, not_or]
      rcases cons_lt_cons_iff.mp h with hxy | ⟨rfl, hab⟩
      · exact ⟨not_lt.mpr hxy.le, fun heq ↦ absurd heq.1.symm hxy.ne⟩
      · exact ⟨lt_irrefl _, fun heq ↦ absurd heq.2 (not_lt.mpr (ih hab))⟩

/-! ## Big-endian numbers -/

/-- The `w` bytes of `n`, the most significant first. -/
def beBytes : ℕ → ℕ → Bytes
  | 0, _ => []
  | w + 1, n => UInt8.ofNat (n / 256 ^ w) :: beBytes w (n % 256 ^ w)

variable (b : Bytes)

/-- The number with these bytes. -/
def ofBeBytes : ℕ := b.foldl (fun n x ↦ n * 256 + x.toNat) 0

@[simp] theorem length_beBytes (w n : ℕ) : (beBytes w n).length = w := by
  induction w generalizing n with
  | zero => rfl
  | succ w ih => rw [beBytes, length_cons, ih]

theorem foldl_beBytes (w n a : ℕ) (hn : n < 256 ^ w) :
    (beBytes w n).foldl (fun n x ↦ n * 256 + x.toNat) a = a * 256 ^ w + n := by
  induction w generalizing n a with
  | zero =>
    rw [pow_zero, lt_one_iff] at hn
    simp [beBytes, hn]
  | succ w ih =>
    have hdiv : n / 256 ^ w < 256 := by
      rw [div_lt_iff_lt_mul (by positivity)]
      rwa [pow_succ, mul_comm] at hn
    have hbyte : (UInt8.ofNat (n / 256 ^ w)).toNat = n / 256 ^ w := by
      rw [UInt8.toNat_ofNat', mod_eq_of_lt hdiv]
    rw [beBytes, foldl_cons, ih _ _ (mod_lt _ (by positivity)), hbyte, pow_succ]
    calc (a * 256 + n / 256 ^ w) * 256 ^ w + n % 256 ^ w
        = a * (256 ^ w * 256) + (256 ^ w * (n / 256 ^ w) + n % 256 ^ w) := by ring
      _ = a * (256 ^ w * 256) + n := by rw [div_add_mod]

theorem ofBeBytes_beBytes {w n : ℕ} (hn : n < 256 ^ w) : ofBeBytes (beBytes w n) = n := by
  rw [ofBeBytes, foldl_beBytes w n 0 hn, zero_mul, zero_add]

theorem foldl_ofBeBytes (a : ℕ) :
    b.foldl (fun n x ↦ n * 256 + x.toNat) a = a * 256 ^ b.length + ofBeBytes b := by
  induction b generalizing a with
  | nil => simp [ofBeBytes]
  | cons x b ih =>
    have hx : ofBeBytes (x :: b) = (0 * 256 + x.toNat) * 256 ^ b.length + ofBeBytes b := ih _
    rw [foldl_cons, ih, hx, length_cons, pow_succ]
    ring

theorem ofBeBytes_cons (x : UInt8) (b : Bytes) :
    ofBeBytes (x :: b) = 256 ^ b.length * x.toNat + ofBeBytes b := by
  rw [ofBeBytes, foldl_cons, foldl_ofBeBytes]
  ring

theorem ofBeBytes_lt : ofBeBytes b < 256 ^ b.length := by
  induction b with
  | nil => exact one_pos
  | cons x b ih =>
    rw [ofBeBytes_cons, length_cons, pow_succ]
    calc 256 ^ b.length * x.toNat + ofBeBytes b < 256 ^ b.length * (x.toNat + 1) := by
          rw [mul_add_one]; omega
      _ ≤ 256 ^ b.length * 256 := mul_le_mul_left _ x.toNat_lt

theorem beBytes_ofBeBytes : beBytes b.length (ofBeBytes b) = b := by
  induction b with
  | nil => rfl
  | cons x b ih =>
    have hlt := ofBeBytes_lt b
    rw [ofBeBytes_cons, length_cons, beBytes, mul_add_div (by positivity), mul_add_mod,
      div_eq_of_lt hlt, mod_eq_of_lt hlt, ih, add_zero, UInt8.ofNat_toNat]

/-- Big-endian numbers of one width are ordered as the numbers are. -/
theorem beBytes_lt {w m n : ℕ} (hm : m < 256 ^ w) (hn : n < 256 ^ w) :
    beBytes w m < beBytes w n ↔ m < n := by
  induction w generalizing m n with
  | zero =>
    rw [pow_zero, lt_one_iff] at hm hn
    simp [beBytes, hm, hn]
  | succ w ih =>
    have hdiv : ∀ x, x < 256 ^ (w + 1) → x / 256 ^ w < 256 := fun x hx ↦ by
      rw [div_lt_iff_lt_mul (by positivity)]
      rwa [pow_succ, mul_comm] at hx
    have hbyte : ∀ x, x < 256 ^ (w + 1) → (UInt8.ofNat (x / 256 ^ w)).toNat = x / 256 ^ w :=
      fun x hx ↦ by rw [UInt8.toNat_ofNat', mod_eq_of_lt (hdiv x hx)]
    have hmod : ∀ x, x % 256 ^ w < 256 ^ w := fun x ↦ mod_lt _ (by positivity)
    rw [beBytes, beBytes, cons_lt_cons_iff, ih (hmod m) (hmod n), UInt8.lt_iff_toNat_lt,
      ← UInt8.toNat_inj, hbyte m hm, hbyte n hn]
    have hm' := div_add_mod m (256 ^ w)
    have hn' := div_add_mod n (256 ^ w)
    constructor
    · rintro (h | ⟨h, h'⟩)
      · exact lt_of_not_ge fun hle ↦ absurd h (not_lt.mpr (Nat.div_le_div_right hle))
      · rw [← hm', ← hn', h]
        omega
    · intro h
      rcases lt_or_eq_of_le (Nat.div_le_div_right (c := 256 ^ w) h.le) with hlt | heq
      · exact Or.inl hlt
      · refine Or.inr ⟨heq, ?_⟩
        rw [heq] at hm'
        omega

/-! ## Complements -/

/-- Every byte complemented. -/
def complement : Bytes := b.map (~~~ ·)

@[simp] theorem length_complement : (complement b).length = b.length := length_map _

@[simp] theorem complement_complement : complement (complement b) = b := by
  rw [complement, complement, map_map]
  exact (map_congr_left fun x _ ↦ UInt8.not_not).trans (map_id b)

/-- Complementing reverses the order of strings of one length. -/
theorem complement_lt {a b : Bytes} (hlen : a.length = b.length) :
    complement a < complement b ↔ b < a := by
  induction a generalizing b with
  | nil =>
    rw [length_nil, eq_comm, length_eq_zero_iff] at hlen
    subst hlen
    rfl
  | cons x a ih =>
    cases b with
    | nil => cases hlen
    | cons y b =>
      rw [length_cons, length_cons, add_right_cancel_iff] at hlen
      have hxy : (~~~ x) < (~~~ y) ↔ y < x := by
        rw [UInt8.lt_iff_toNat_lt, UInt8.lt_iff_toNat_lt, UInt8.toNat_not, UInt8.toNat_not]
        have := x.toNat_lt
        have := y.toNat_lt
        simp only [UInt8.size] at *
        omega
      have hinj : (~~~ x) = (~~~ y) ↔ y = x := by
        rw [UInt8.not_inj, eq_comm]
      change (~~~ x) :: complement a < (~~~ y) :: complement b ↔ _
      rw [cons_lt_cons_iff, cons_lt_cons_iff, ih hlen, hxy, hinj]

end Bytes

end DucklingDB
