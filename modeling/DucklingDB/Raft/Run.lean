import DucklingDB.Raft.Cluster

/-!
# Runs of a cluster

A run is an infinite sequence of clusters from the initial one in which every step is an event or
nothing at all; a finite run ends in a constant tail. Statements about several moments of one run
then simply name several times.

The events of a run may be restricted by a condition on the cluster they happen in. `Run cfg good`
is a run all of whose events meet `good`, and `AnyRun` is a run without a restriction.
-/

namespace DucklingDB.Raft

open Cluster

/-- A run whose events all meet `good`. -/
structure Run (cfg : Config) (good : Cluster → Action → Prop) where
  state : ℕ → Cluster
  /-- What happens at each time, if anything does. -/
  event : ℕ → Option Action
  zero : state 0 = init cfg
  idle : ∀ n, event n = none → state (n + 1) = state n
  next : ∀ n a, event n = some a →
    (state n).act cfg a = some (state (n + 1)) ∧ good (state n) a

/-- A run without restriction. -/
abbrev AnyRun (cfg : Config) := Run cfg fun _ _ ↦ True

variable {cfg : Config} {good good' : Cluster → Action → Prop}

variable (r : Run cfg good)

/-- A run that meets a condition meets a weaker one. -/
def Run.mono (h : ∀ c a, good c a → good' c a) : Run cfg good' where
  state := r.state
  event := r.event
  zero := r.zero
  idle := r.idle
  next n a ha := ⟨(r.next n a ha).1, h _ _ (r.next n a ha).2⟩

theorem Run.next_cases (n : ℕ) : r.state (n + 1) = r.state n ∨
    ∃ a, (r.state n).act cfg a = some (r.state (n + 1)) ∧ good (r.state n) a := by
  cases ha : r.event n with
  | none => exact Or.inl (r.idle n ha)
  | some a => exact Or.inr ⟨a, r.next n a ha⟩

/-- What holds initially and is kept by every event holds throughout. -/
theorem Run.invariant {I : Cluster → Prop} (h0 : I (init cfg))
    (hstep : ∀ c a c', I c → c.act cfg a = some c' → good c a → I c') (n : ℕ) : I (r.state n) := by
  induction n with
  | zero => exact r.zero ▸ h0
  | succ n ih =>
    rcases r.next_cases n with heq | ⟨a, ha, hgood⟩
    · exact heq ▸ ih
    · exact hstep _ a _ ih ha hgood

/-- What every event extends is extended between any two times. -/
theorem Run.extends {R : Cluster → Cluster → Prop} (hrefl : ∀ c, R c c)
    (htrans : ∀ c₁ c₂ c₃, R c₁ c₂ → R c₂ c₃ → R c₁ c₃)
    (hstep : ∀ c a c', c.act cfg a = some c' → R c c') {i j : ℕ} (hij : i ≤ j) :
    R (r.state i) (r.state j) := by
  induction j, hij using Nat.le_induction with
  | base => exact hrefl _
  | succ j _ ih =>
    rcases r.next_cases j with heq | ⟨a, ha, -⟩
    · exact heq ▸ ih
    · exact htrans _ _ _ ih (hstep _ a _ ha)

namespace Cluster

/-- The events can happen one after the other, each meeting `good`. -/
def Admits (cfg : Config) (good : Cluster → Action → Prop) (c : Cluster) : List Action → Prop
  | [] => True
  | a :: as => good c a ∧ match c.act cfg a with
    | none => False
    | some c' => c'.Admits cfg good as

instance decidableAdmits (cfg : Config) (good : Cluster → Action → Prop)
    [∀ c a, Decidable (good c a)] : (c : Cluster) → DecidablePred (c.Admits cfg good)
  | _, [] => inferInstanceAs (Decidable True)
  | c, a :: as => by
    unfold Admits
    cases c.act cfg a with
    | none => infer_instance
    | some c' =>
      have := decidableAdmits cfg good c' as
      infer_instance

/-- The states a sequence of events passes through, the last one for good. -/
def trace (cfg : Config) (c : Cluster) : List Action → ℕ → Cluster
  | [], _ => c
  | _ :: _, 0 => c
  | a :: as, n + 1 => match c.act cfg a with
    | none => c
    | some c' => c'.trace cfg as n

theorem trace_zero (c : Cluster) (as : List Action) : c.trace cfg as 0 = c := by
  cases as <;> rfl

variable {as : List Action}

theorem trace_idle {c : Cluster} (h : c.Admits cfg good as) {n : ℕ}
    (hn : as[n]? = none) : c.trace cfg as (n + 1) = c.trace cfg as n := by
  induction as generalizing c n with
  | nil => rfl
  | cons a as ih =>
    obtain ⟨-, hrest⟩ := h
    cases n with
    | zero => cases hn
    | succ n =>
      cases hact : c.act cfg a with
      | none =>
        rw [hact] at hrest
        exact hrest.elim
      | some c' =>
        rw [hact] at hrest
        simp only [trace, hact]
        exact ih hrest (by simpa using hn)

theorem trace_next {c : Cluster} (h : c.Admits cfg good as) {n : ℕ} {a : Action}
    (hn : as[n]? = some a) :
    (c.trace cfg as n).act cfg a = some (c.trace cfg as (n + 1)) ∧ good (c.trace cfg as n) a := by
  induction as generalizing c n with
  | nil => cases hn
  | cons b as ih =>
    obtain ⟨hgood, hrest⟩ := h
    cases hact : c.act cfg b with
    | none =>
      rw [hact] at hrest
      exact hrest.elim
    | some c' =>
      rw [hact] at hrest
      cases n with
      | zero =>
        cases hn
        refine ⟨?_, hgood⟩
        simp only [trace, hact, trace_zero]
      | succ n =>
        simp only [trace, hact]
        exact ih hrest (by simpa using hn)

end Cluster

/-- The run of a sequence of events. -/
def Run.ofActions (as : List Action) (h : (init cfg).Admits cfg good as) : Run cfg good where
  state := (init cfg).trace cfg as
  event n := as[n]?
  zero := trace_zero _ _
  idle _ hn := trace_idle h hn
  next _ _ hn := trace_next h hn

theorem Run.ofActions_state (as : List Action) (h : (init cfg).Admits cfg good as) (n : ℕ) :
    (Run.ofActions as h).state n = (init cfg).trace cfg as n := rfl

/-! ## Schedules

The pieces from which the runs on fixed clusters below are put together. -/

namespace Action

/-- A node of a cluster whose timeouts are all `electionTimeoutMin` times out. -/
def timeout (id : NodeId) : List Action := List.replicate electionTimeoutMin (.tick id 0)

/-- `c`, whose log ends at index `i` in term `t`, probes `v` for a candidacy in `T` and is
granted. -/
def probe (c v T i t : ℕ) : List Action :=
  [.deliver { type := .preVote, src := c, dst := v, term := T, index := i, logTerm := t } 0,
    .deliver { type := .preVoteResp, src := v, dst := c, term := T } 0]

/-- The vote request of `c` reaches `v`. -/
def requestVote (c v T i t : ℕ) : Action :=
  .deliver { type := .vote, src := c, dst := v, term := T, index := i, logTerm := t } 0

/-- The granting response of `v` reaches `c`. -/
def voteResp (c v T : ℕ) : Action :=
  .deliver { type := .voteResp, src := v, dst := c, term := T } 0

/-- An append of the leader `c` of `T` reaches `v`: the entries after index `i`, which has term
`t`. -/
def append (c v T i t commit : ℕ) (es : List Entry) : Action :=
  .deliver { type := .app, src := c, dst := v, term := T, index := i, logTerm := t, commit := commit
             entries := es } 0

/-- The acknowledgement of `i` by `v` reaches the leader `c` of `T`. -/
def ack (c v T i : ℕ) : Action :=
  .deliver { type := .appResp, src := v, dst := c, term := T, index := i } 0

/-- `c` times out and is elected in `T` with the vote of `v`. -/
def elect (c v T i t : ℕ) : List Action :=
  timeout c ++ probe c v T i t ++ [requestVote c v T i t, voteResp c v T]

end Action

/-- Three nodes with the shortest timeouts. -/
def threeNodes : Config := { peers := [1, 2, 3], ids := [1, 2, 3], ids_sub := fun _ h ↦ h }

end DucklingDB.Raft
