import Mathlib.Data.List.Infix
import Mathlib.Data.Finset.Basic
import Mathlib.Logic.Function.Basic
import Mathlib.Logic.Relation

/-!
# Replicated logs with elected leaders

An abstract machine for leader-based log replication: nodes hold a term and a log, vote in terms,
and a leader of a term extends its log while the others copy it. It says what such a protocol is
*for* without saying how a node finds out what it may do: there are no messages, and the steps are
guarded by what holds in the whole system.

## Leader logs

The log of the leader of a term only grows while the term lasts, so one list describes it for good.
`full T` is that list and `base T` its part from before the election. Both outlive the leadership,
which is what lets statements about term `T` be made long after its leader is gone.

Likewise `cand p T` is the log `p` campaigned with in `T`, `vote p T` the candidate `p` voted for
and `acked p T` the largest index `p` acknowledged to the leader of `T`. They are records of what
happened; a node consults only the entries about itself and its current term.
-/

namespace DucklingDB.Consensus

open Function

/-- Log entries carry the term of the leader that created them. -/
class HasTerm (E : Type*) where
  /-- The term of an entry. -/
  term : E → ℕ

open HasTerm (term)

/-- A family of sets of nodes any two of which meet. -/
structure QuorumSystem (N : Type*) where
  /-- The sets large enough to decide. -/
  IsQuorum : Finset N → Prop
  /-- Any two of them share a node. -/
  inter : ∀ {Q₁ Q₂ : Finset N}, IsQuorum Q₁ → IsQuorum Q₂ → ∃ p, p ∈ Q₁ ∧ p ∈ Q₂

section Machine

variable {N E : Type*} [HasTerm E]

/-- The term of the last entry, `0` for the empty log. -/
def lastTerm (l : List E) : ℕ := (l.getLast?.map term).getD 0

/-- `l` is at least as up to date as `l'`. -/
def UpToDate (l l' : List E) : Prop :=
  lastTerm l' < lastTerm l ∨ lastTerm l' = lastTerm l ∧ l'.length ≤ l.length

structure State (N E : Type*) where
  /-- The current term of each node. -/
  term : N → ℕ
  /-- The log of each node. -/
  log : N → List E
  /-- How far each node knows its log to be decided. -/
  commit : N → ℕ
  /-- The vote of a node in a term. -/
  vote : N → ℕ → Option N
  /-- The log a node campaigned with in a term. -/
  cand : N → ℕ → Option (List E)
  /-- The elected leader of a term. -/
  leader : ℕ → Option N
  /-- The leader's log when it was elected. -/
  base : ℕ → List E
  /-- The leader's log, with everything it added during its term. -/
  full : ℕ → List E
  /-- The largest index a node acknowledged to the leader of a term. -/
  acked : N → ℕ → ℕ

namespace State

/-- Nothing has happened. -/
def init : State N E where
  term _ := 0
  log _ := []
  commit _ := 0
  vote _ _ := none
  cand _ _ := none
  leader _ := none
  base _ := []
  full _ := []
  acked _ _ := 0

variable [DecidableEq N]

/-- Override a two-place function at one point. -/
def set₂ {β : Type*} (f : N → ℕ → β) (p : N) (T : ℕ) (b : β) : N → ℕ → β :=
  update f p (update (f p) T b)

theorem set₂_apply {β : Type*} (f : N → ℕ → β) (p q : N) (T U : ℕ) (b : β) :
    set₂ f p T b q U = if q = p ∧ U = T then b else f q U := by
  unfold set₂
  by_cases hq : q = p
  · subst hq
    rw [update_self, update_apply]
    simp
  · rw [update_of_ne hq]
    simp [hq]

end State

/-! ## Steps -/

variable [DecidableEq N]

open State (set₂)

/-- The steps of the machine. -/
inductive Step (S : QuorumSystem N) (s : State N E) : State N E → Prop
  /-- A node enters the next term and votes for itself. -/
  | campaign (p : N) :
      Step S s { s with
        term := update s.term p (s.term p + 1)
        vote := set₂ s.vote p (s.term p + 1) (some p)
        cand := set₂ s.cand p (s.term p + 1) (some (s.log p)) }
  /-- A node enters a later term. -/
  | adopt (p : N) (T : ℕ) (hT : s.term p < T) :
      Step S s { s with term := update s.term p T }
  /-- A node votes for a candidate of its term whose log is up to date. -/
  | vote (p c : N) (T : ℕ) (l : List E) (hT : s.term p = T)
      (hv : s.vote p T = none ∨ s.vote p T = some c) (hc : s.cand c T = some l)
      (hup : UpToDate l (s.log p)) :
      Step S s { s with vote := set₂ s.vote p T (some c) }
  /-- A candidate with the votes of a quorum leads its term. -/
  | elect (c : N) (T : ℕ) (Q : Finset N) (hQ : S.IsQuorum Q) (hv : ∀ q ∈ Q, s.vote q T = some c)
      (hT : s.term c = T) (hc : s.cand c T = some (s.log c)) (hno : s.leader T = none) :
      Step S s { s with
        leader := update s.leader T (some c)
        base := update s.base T (s.log c)
        full := update s.full T (s.log c) }
  /-- The leader of the current term adds entries. -/
  | propose (c : N) (T : ℕ) (es : List E) (hl : s.leader T = some c) (hT : s.term c = T)
      (hes : ∀ e ∈ es, term e = T) :
      Step S s { s with
        log := update s.log c (s.log c ++ es)
        full := update s.full T (s.full T ++ es) }
  /-- A node takes over a part of the leader's log that is no shorter than its own, or that reaches
  beyond the election and disagrees with its own. -/
  | accept (p : N) (T : ℕ) (l : List E) (hl : (s.leader T).isSome) (hT : s.term p = T)
      (hpre : l <+: s.full T)
      (hlen : (s.log p).length ≤ l.length ∨ (s.base T).length < l.length ∧ ¬l <+: s.log p) :
      Step S s { s with log := update s.log p l }
  /-- A node acknowledges an index up to which it agrees with the leader of its term. -/
  | ack (p : N) (T n : ℕ) (hl : (s.leader T).isSome) (hT : s.term p = T)
      (hn : n ≤ (s.full T).length) (hpre : (s.full T).take n <+: s.log p) :
      Step S s { s with acked := set₂ s.acked p T (max (s.acked p T) n) }
  /-- A node learns that an index is decided: a quorum acknowledged an entry of the leader's own
  term at or beyond it, and the node's log agrees up to there. -/
  | commit (p : N) (T n c : ℕ) (Q : Finset N) (hQ : S.IsQuorum Q) (hack : ∀ q ∈ Q, n ≤ s.acked q T)
      (hb : (s.base T).length < n) (hT : T ≤ s.term p) (hc : c ≤ n)
      (hpre : (s.full T).take c <+: s.log p) :
      Step S s { s with commit := update s.commit p (max (s.commit p) c) }

/-- Sequences of steps. -/
abbrev Steps (S : QuorumSystem N) : State N E → State N E → Prop := Relation.ReflTransGen (Step S)

end Machine

/-! ## Decided indices -/

variable {N E : Type*} {S : QuorumSystem N} {s : State N E}

/-- A quorum acknowledged `n` to the leader of `T`. -/
def Chosen (S : QuorumSystem N) (s : State N E) (T n : ℕ) : Prop :=
  ∃ Q, S.IsQuorum Q ∧ ∀ q ∈ Q, n ≤ s.acked q T

/-- A quorum has acknowledged `n` to the leader of `T` or may still do so. Unlike `Chosen` this can
only become false, which is why the invariants are conditional on it. -/
def Choosable (S : QuorumSystem N) (s : State N E) (T n : ℕ) : Prop :=
  ∃ Q, S.IsQuorum Q ∧ ∀ q ∈ Q, n ≤ s.acked q T ∨ s.term q ≤ T

theorem Chosen.choosable {T n : ℕ} (h : Chosen S s T n) : Choosable S s T n := by
  obtain ⟨Q, hQ, hack⟩ := h
  exact ⟨Q, hQ, fun q hq ↦ Or.inl (hack q hq)⟩

variable [HasTerm E]

/-- Every entry of the list sits in the log of its term's leader, below the same entries. -/
def Supported (s : State N E) (l : List E) : Prop :=
  ∀ i e, l[i]? = some e → (s.leader (term e)).isSome ∧ l.take (i + 1) <+: s.full (term e)

end DucklingDB.Consensus
