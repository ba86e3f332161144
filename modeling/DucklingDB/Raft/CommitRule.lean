import DucklingDB.Raft.RawNode
import Mathlib.Order.Bounds.Basic
import Mathlib.Data.Finset.Filter

/-!
# The commit rule

`maybeAdvanceCommit` scans the log downward from its end and stops at the first entry it may commit,
at the first entry of another term, or at the commit index. Because terms do not decrease along the
log, everything below an entry of an older term is of an older term too, so the early exits skip
nothing: the scan finds the largest index the rule allows.
-/

namespace DucklingDB.Raft

/-- Above the commit index every entry has a term, terms do not decrease, and none exceeds `T`. -/
structure RaftLog.TermsOrdered (l : RaftLog) (T : ℕ) : Prop where
  known : ∀ i, l.committed < i → i ≤ l.lastIndex → ∃ t, l.term i = .ok t
  mono : ∀ i j t u, l.committed < i → i ≤ j → j ≤ l.lastIndex →
    l.term i = .ok t → l.term j = .ok u → t ≤ u
  le : ∀ i t, l.committed < i → i ≤ l.lastIndex → l.term i = .ok t → t ≤ T

namespace RawNode

variable {rn : RawNode}

/-- The peers known to hold the log up to `n`. -/
def holders (rn : RawNode) (n : ℕ) : Finset NodeId :=
  rn.peers.toFinset.filter fun id ↦ n ≤ rn.matchIndex.get id 0

/-- The entries above the commit index that a leader may commit: of its own term, on a quorum. -/
structure Committable (rn : RawNode) (n : ℕ) : Prop where
  above : rn.log.committed < n
  le : n ≤ rn.log.lastIndex
  term : rn.log.term n = .ok rn.term
  quorum : rn.quorum ≤ (rn.holders n).card

/-- With one entry per peer, the loop over `matchIndex` counts the peers that hold the log to
`n`. -/
theorem countValues_eq_card_holders (hmatch : ∀ id, id ∈ rn.matchIndex ↔ id ∈ rn.peers) (n : ℕ) :
    rn.matchIndex.countValues (fun idx ↦ decide (idx ≥ n)) = (rn.holders n).card := by
  rw [← GoMap.card_support]
  congr 1
  ext id
  rw [GoMap.mem_support, holders, Finset.mem_filter, List.mem_toFinset, ← hmatch id,
    ← AList.lookup_isSome]
  constructor
  · rintro ⟨v, hv, hn⟩
    rw [GoMap.get, hv]
    exact ⟨rfl, of_decide_eq_true hn⟩
  · rintro ⟨hsome, hn⟩
    obtain ⟨v, hv⟩ := Option.isSome_iff_exists.mp hsome
    rw [GoMap.get, hv] at hn
    exact ⟨v, hv, decide_eq_true hn⟩

/-- What `maybeAdvanceCommit` should do: commit the largest committable entry, if there is one. -/
def CommitsLargest (rn rn' : RawNode) : Prop :=
  (∃ n, IsGreatest {n | rn.Committable n} n ∧
    rn' = { rn with log := { rn.log with committed := n } }) ∨
  (∀ n, ¬rn.Committable n) ∧ rn' = rn

/-- Below an entry of another term nothing is committable. -/
theorem TermsOrdered.not_committable_of_ne (h : rn.log.TermsOrdered rn.term) {n k t : ℕ}
    (hc : rn.log.committed < n) (hn : n ≤ rn.log.lastIndex) (ht : rn.log.term n = .ok t)
    (hne : t ≠ rn.term) (hk : k ≤ n) : ¬rn.Committable k := by
  intro hcan
  have hle : rn.term ≤ t := h.mono k n _ _ hcan.above hk hn hcan.term ht
  exact hne (le_antisymm (h.le n t hc hn ht) hle)

/-- The scan from `n`, when nothing above `n` is committable. -/
theorem advanceCommitFrom_commitsLargest (hterms : rn.log.TermsOrdered rn.term)
    (hmatch : ∀ id, id ∈ rn.matchIndex ↔ id ∈ rn.peers) :
    ∀ n ≤ rn.log.lastIndex, (∀ k, rn.Committable k → k ≤ n) →
      rn.CommitsLargest (rn.advanceCommitFrom n)
  | 0, _, habove => .inr ⟨fun k hk ↦ by
      have hle := habove k hk
      have hlt := hk.above
      omega, rfl⟩
  | n + 1, hn, habove => by
    rw [advanceCommitFrom]
    by_cases hc : n + 1 > rn.log.committed
    · obtain ⟨t, ht⟩ := hterms.known (n + 1) hc hn
      rw [if_pos hc, ht]
      dsimp only
      by_cases hne : t ≠ rn.term
      · rw [if_pos hne]
        exact .inr ⟨fun k hk ↦
          TermsOrdered.not_committable_of_ne hterms hc hn ht hne (habove k hk) hk, rfl⟩
      · rw [if_neg hne, countValues_eq_card_holders hmatch]
        have hterm : rn.log.term (n + 1) = .ok rn.term := by rw [ht, not_ne_iff.mp hne]
        split
        · rename_i hq
          refine .inl ⟨n + 1, ⟨⟨hc, hn, hterm, hq⟩, habove⟩, ?_⟩
          rw [RaftLog.commitTo, if_pos hc]
        · rename_i hq
          -- too few peers hold this entry; the scan goes on below it
          refine advanceCommitFrom_commitsLargest hterms hmatch n (by omega) fun k hk ↦ ?_
          have hle := habove k hk
          have hkn : k ≠ n + 1 := by
            rintro rfl
            exact hq hk.quorum
          omega
    · rw [if_neg hc]
      refine .inr ⟨fun k hk ↦ ?_, rfl⟩
      have hle := habove k hk
      have hlt := hk.above
      omega

/-- **The commit rule.** A leader whose log terms are ordered and whose `matchIndex` has an entry
for each peer commits the largest entry of its own term that a quorum holds, leaves everything as it
is when there is none, and never counts an entry of an older term as committed on its own. -/
theorem maybeAdvanceCommit_commitsLargest (hterms : rn.log.TermsOrdered rn.term)
    (hmatch : ∀ id, id ∈ rn.matchIndex ↔ id ∈ rn.peers) :
    rn.CommitsLargest rn.maybeAdvanceCommit ∧
    (rn.maybeAdvanceCommit.log.committed ≠ rn.log.committed →
      rn.log.term rn.maybeAdvanceCommit.log.committed = .ok rn.term) := by
  have hrule : rn.CommitsLargest rn.maybeAdvanceCommit :=
    advanceCommitFrom_commitsLargest hterms hmatch _ le_rfl fun k hk ↦ hk.le
  refine ⟨hrule, fun hmoved ↦ ?_⟩
  rcases hrule with ⟨n, hgreatest, heq⟩ | ⟨-, heq⟩
  · rw [heq]
    exact hgreatest.1.term
  · rw [heq] at hmoved
    exact absurd rfl hmoved

/-- Three peers, two of which hold the entry of term 2. -/
def leaderOfTwo : RawNode :=
  { id := 1, state := .leader, term := 2, peers := [1, 2, 3]
    matchIndex := AList.insert 3 1 (AList.insert 2 2 (AList.insert 1 2 ∅))
    log := { storage := {}, committed := 1
             unstable := [{ term := 1, index := 1 }, { term := 2, index := 2 }] }
    electionTimeout := 10 }

theorem maybeAdvanceCommit_commitsLargest_two :
    leaderOfTwo.CommitsLargest leaderOfTwo.maybeAdvanceCommit ∧
    leaderOfTwo.maybeAdvanceCommit.log.committed = 2 := by
  have hlast : ∀ i, leaderOfTwo.log.committed < i → i ≤ leaderOfTwo.log.lastIndex → i = 2 :=
    fun i hc hi ↦ le_antisymm hi hc
  have hterm : leaderOfTwo.log.term 2 = .ok 2 := rfl
  refine ⟨(maybeAdvanceCommit_commitsLargest ⟨?_, ?_, ?_⟩ ?_).1, by decide⟩
  · intro i hc hi
    obtain rfl := hlast i hc hi
    exact ⟨2, hterm⟩
  · intro i j t u hc hij hj ht hu
    obtain rfl := hlast j (hc.trans_le hij) hj
    obtain rfl := hlast i hc hij
    exact (Except.ok.inj (ht.symm.trans hu)).le
  · intro i t hc hi ht
    obtain rfl := hlast i hc hi
    exact (Except.ok.inj (ht.symm.trans hterm)).le
  · intro id
    simp only [leaderOfTwo, AList.mem_insert, List.mem_cons, List.not_mem_nil, AList.notMem_empty]
    grind

end RawNode

end DucklingDB.Raft
