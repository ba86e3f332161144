import DucklingDB.Util.Bytes
import Mathlib.Data.Nat.Notation

/-!
# Self-delimiting codes

A code for `α` turns a value into bytes such that a reader, given those bytes followed by anything,
gets the value and what follows. Codes compose: pairs, lists and options of coded values are coded,
and so is any type whose values are told apart by a coded image (`Wire.via`). They show that the
codecs assumed of the source's records exist.
-/

namespace DucklingDB

/-- A self-delimiting code. -/
structure Wire (α : Type) where
  put : α → Bytes
  get : Bytes → Option (α × Bytes)
  get_put : ∀ a rest, get (put a ++ rest) = some (a, rest)

namespace Wire

variable {α β : Type}

variable (w : Wire α)

/-- Decode all of the input. -/
def decode (b : Bytes) : Option α := (w.get b).map Prod.fst

theorem decode_put (a : α) : w.decode (w.put a) = some a := by
  have h := w.get_put a []
  rw [List.append_nil] at h
  rw [decode, h, Option.map_some]

/-- A code through an injection into a coded type, given with its partial inverse. -/
def via (w : Wire β) (f : α → β) (g : β → Option α) (h : ∀ a, g (f a) = some a) : Wire α where
  put a := w.put (f a)
  get b := (w.get b).bind fun x ↦ (g x.1).map fun a ↦ (a, x.2)
  get_put a rest := by rw [w.get_put, Option.bind_some, h, Option.map_some]

def byte : Wire UInt8 where
  put b := [b]
  get
    | [] => none
    | b :: rest => some (b, rest)
  get_put _ _ := rfl

def pair (v : Wire α) (w : Wire β) : Wire (α × β) where
  put x := v.put x.1 ++ w.put x.2
  get b := (v.get b).bind fun x ↦ (w.get x.2).map fun y ↦ ((x.1, y.1), y.2)
  get_put x rest := by
    rw [List.append_assoc, v.get_put, Option.bind_some, w.get_put, Option.map_some]

/-- `n` values in a row. -/
def getMany (w : Wire α) : ℕ → Bytes → Option (List α × Bytes)
  | 0, b => some ([], b)
  | n + 1, b => (w.get b).bind fun x ↦ (w.getMany n x.2).map fun y ↦ (x.1 :: y.1, y.2)

theorem getMany_put (as : List α) (rest : Bytes) :
    w.getMany as.length (as.flatMap w.put ++ rest) = some (as, rest) := by
  induction as with
  | nil => rfl
  | cons a as ih =>
    rw [List.flatMap_cons, List.append_assoc, List.length_cons, getMany, w.get_put,
      Option.bind_some, ih, Option.map_some]

/-- Numbers in unary, ended by a zero. -/
def getUnary : Bytes → Option (ℕ × Bytes)
  | [] => none
  | b :: rest => if b = 0 then some (0, rest) else (getUnary rest).map fun x ↦ (x.1 + 1, x.2)

def unary : Wire ℕ where
  put n := List.replicate n 1 ++ [0]
  get := getUnary
  get_put n rest := by
    induction n with
    | zero => rfl
    | succ n ih =>
      rw [List.replicate_succ, List.cons_append, List.cons_append, getUnary, if_neg (by decide), ih,
        Option.map_some]

def list : Wire (List α) where
  put as := unary.put as.length ++ as.flatMap w.put
  get b := (unary.get b).bind fun x ↦ w.getMany x.1 x.2
  get_put as rest := by
    rw [List.append_assoc, unary.get_put, Option.bind_some, w.getMany_put]

def option : Wire (Option α) :=
  w.list.via Option.toList
    (fun
      | [] => some none
      | [a] => some (some a)
      | _ => none)
    (fun a ↦ by cases a <;> rfl)

def bool : Wire Bool :=
  byte.via (fun b ↦ if b then 1 else 0) (fun b ↦ some (b == 1)) (fun b ↦ by cases b <;> rfl)

def vector (n : ℕ) : Wire (Vector α n) :=
  w.list.via Vector.toList
    (fun as ↦ if h : as.length = n then some (Vector.mk as.toArray (by simpa using h)) else none)
    (fun a ↦ by simp [Vector.toList])

end Wire

end DucklingDB
