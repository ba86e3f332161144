import DucklingDB.Consensus.Spec

/-!
# Invariants of log replication

Three groups of invariants, each used by the next. `Records` ties votes, candidacies and leaderships
together; it already gives one leader per term. `Logs` says that every log is made of leader logs,
which is log matching. `Safe` is the argument about decided indices.

The decided indices are where time enters: an index is decided once a quorum has acknowledged it,
but a later leader may have been elected before the last acknowledgement was made. Conditioning on
`Choosable` removes the time: whether a quorum *could still* acknowledge an index is known to every
voter at the moment it votes, and the answer never changes from no to yes.
-/

namespace DucklingDB.Consensus

open List Option

open HasTerm (term)
open State (set₂ set₂_apply)

section Lists

variable {α : Type*} {l l' : List α} {n : ℕ}

/-- Reading `n` entries is not affected by what is appended behind them. -/
theorem take_eq_of_extends (h : l <+: l') (hn : n ≤ l.length) : l'.take n = l.take n := by
  obtain ⟨t, rfl⟩ := h
  exact take_append_of_le_length hn

theorem take_mono {l : List α} {m n : ℕ} (h : m ≤ n) : l.take m <+: l.take n := by
  rw [← Nat.min_eq_left h, ← take_take]
  exact take_prefix _ _

theorem take_of_le_length (h : l' <+: l) (hn : n ≤ l'.length) : l.take n <+: l' := by
  rw [take_eq_of_extends h hn]
  exact take_prefix _ _

theorem le_length_of_take (hn : n ≤ l.length) (h : l.take n <+: l') : n ≤ l'.length := by
  have := h.length_le
  rwa [length_take, Nat.min_eq_left hn] at this

end Lists

section Records

variable {N E : Type*} {S : QuorumSystem N} {s : State N E}

/-- Votes, candidacies and leaderships. -/
structure Records (S : QuorumSystem N) (s : State N E) : Prop where
  vote_le : ∀ {p T c}, s.vote p T = some c → T ≤ s.term p
  vote_cand : ∀ {p T c}, s.vote p T = some c → (s.cand c T).isSome
  cand_vote : ∀ {c T l}, s.cand c T = some l → s.vote c T = some c
  leader_votes : ∀ {T c}, s.leader T = some c → ∃ Q, S.IsQuorum Q ∧ ∀ q ∈ Q, s.vote q T = some c
  leader_cand : ∀ {T c}, s.leader T = some c → s.cand c T = some (s.base T)

/-- **One leader per term**, for good: a second winner would share a voter with the first. -/
theorem Records.leader_eq (h : Records S s) {T : ℕ} {c d : N} {Q : Finset N}
    (hc : s.leader T = some c) (hQ : S.IsQuorum Q) (hd : ∀ q ∈ Q, s.vote q T = some d) : c = d := by
  obtain ⟨Q', hQ', hv⟩ := h.leader_votes hc
  obtain ⟨p, hp, hp'⟩ := S.inter hQ' hQ
  have := (hv p hp).symm.trans (hd p hp')
  exact Option.some.inj this

theorem Records.leader_le (h : Records S s) {T : ℕ} {c : N} (hc : s.leader T = some c) :
    T ≤ s.term c := h.vote_le (h.cand_vote (h.leader_cand hc))

end Records

section Invariants

variable {N E : Type*} [HasTerm E] {S : QuorumSystem N} {s : State N E} {T : ℕ}

/-- Logs consist of leader logs. -/
structure Logs (s : State N E) : Prop where
  base_full : ∀ {T}, (s.leader T).isSome → s.base T <+: s.full T
  full_term : ∀ {T}, (s.leader T).isSome → ∀ e ∈ (s.full T).drop (s.base T).length, term e = T
  cand_supported : ∀ {c T l}, s.cand c T = some l → Supported s l
  cand_term : ∀ {c T l}, s.cand c T = some l → ∀ e ∈ l, term e < T
  log_supported : ∀ p, Supported s (s.log p)
  log_term : ∀ p, ∀ e ∈ s.log p, term e ≤ s.term p
  leader_log : ∀ {T c}, s.leader T = some c → s.term c = T → s.log c = s.full T

/-- Acknowledged and decided indices. -/
structure Safe (S : QuorumSystem N) (s : State N E) : Prop where
  acked_leader : ∀ {p T}, s.acked p T ≠ 0 → (s.leader T).isSome
  acked_term : ∀ {p T}, s.acked p T ≠ 0 → T ≤ s.term p
  acked_le : ∀ p T, s.acked p T ≤ (s.full T).length
  acked_current : ∀ p, (s.full (s.term p)).take (s.acked p (s.term p)) <+: s.log p
  acked_log : ∀ {p T n}, (s.base T).length < n → n ≤ s.acked p T → Choosable S s T n →
    (s.full T).take n <+: s.log p
  vote_keeps : ∀ {p c T U n l}, s.vote p U = some c → s.cand c U = some l → T < U →
    (s.base T).length < n → n ≤ s.acked p T → Choosable S s T n → (s.full T).take n <+: l
  complete : ∀ {T U n}, (s.leader U).isSome → T < U → (s.base T).length < n → Choosable S s T n →
    (s.full T).take n <+: s.base U
  commit_chosen : ∀ p, s.commit p ≠ 0 → ∃ T n, Chosen S s T n ∧ (s.base T).length < n ∧
    T ≤ s.term p ∧ s.commit p ≤ n ∧ (s.full T).take (s.commit p) <+: s.log p

/-- The invariant of the machine. -/
structure Inv (S : QuorumSystem N) (s : State N E) : Prop where
  records : Records S s
  logs : Logs s
  safe : Safe S s

theorem inv_init (S : QuorumSystem N) : Inv S (State.init : State N E) where
  records := by
    constructor <;> simp [State.init]
  logs := by
    constructor <;> simp [State.init, Supported]
  safe := by
    constructor <;> simp [State.init]

/-! ## Consequences for one state -/

theorem Supported.anti {l l' : List E} (h : Supported s l') (hl : l <+: l') : Supported s l := by
  intro i e he
  have hi : i < l.length := (List.getElem?_eq_some_iff.mp he).1
  obtain ⟨t, rfl⟩ := hl
  have := h i e (by rw [getElem?_append_left hi]; exact he)
  rwa [take_append_of_le_length (by omega)] at this

theorem Logs.full_getElem_term (h : Logs s) (hT : (s.leader T).isSome) {i : ℕ} {e : E}
    (he : (s.full T)[i]? = some e) (hi : (s.base T).length ≤ i) : term e = T := by
  refine h.full_term hT e ?_
  have : ((s.full T).drop (s.base T).length)[i - (s.base T).length]? = some e := by
    rw [getElem?_drop, Nat.add_sub_cancel' hi, he]
  exact mem_of_getElem? this

theorem Logs.full_supported (hr : Records S s) (h : Logs s) (hT : (s.leader T).isSome) :
    Supported s (s.full T) := by
  intro i e he
  obtain ⟨c, hc⟩ := isSome_iff_exists.mp hT
  by_cases hi : i < (s.base T).length
  · have hpre := h.base_full hT
    have hbase : (s.base T)[i]? = some e := by
      rw [← he]
      obtain ⟨t, ht⟩ := hpre
      rw [← ht, getElem?_append_left hi]
    have := h.cand_supported (hr.leader_cand hc) i e hbase
    rwa [take_eq_of_extends hpre (by omega)]
  · have hte := h.full_getElem_term hT he (by omega)
    rw [hte]
    exact ⟨hT, take_prefix _ _⟩

theorem Logs.full_term_le (hr : Records S s) (h : Logs s) (hT : (s.leader T).isSome) :
    ∀ e ∈ s.full T, term e ≤ T := by
  intro e he
  obtain ⟨c, hc⟩ := isSome_iff_exists.mp hT
  rw [← prefix_iff_eq_append.mp (h.base_full hT), mem_append] at he
  rcases he with he | he
  · exact (h.cand_term (hr.leader_cand hc) e he).le
  · exact (h.full_term hT e he).le

/-- **Log matching.** Two supported logs with an entry of one term at one index agree up to
there. -/
theorem Supported.take_eq {l l' : List E} (h : Supported s l) (h' : Supported s l') {i : ℕ}
    {e e' : E} (he : l[i]? = some e) (he' : l'[i]? = some e') (ht : term e = term e') :
    l.take (i + 1) = l'.take (i + 1) := by
  have hp := (h i e he).2
  have hp' := (h' i e' he').2
  rw [← ht] at hp'
  have hi := (List.getElem?_eq_some_iff.mp he).1
  have hi' := (List.getElem?_eq_some_iff.mp he').1
  refine (List.prefix_of_prefix_length_le hp hp' ?_).eq_of_length ?_
  all_goals simp only [List.length_take]; omega

end Invariants

/-! ## What a step leaves alone

Records only accumulate, and a node acknowledges only to the leader of its current term. Everything
an invariant says about the past survives a step for these reasons. -/

section Extends

variable {N E : Type*} {S : QuorumSystem N} {s s' : State N E}

/-- The later state has seen everything the earlier one has. -/
structure Extends (s s' : State N E) : Prop where
  term_le : ∀ p, s.term p ≤ s'.term p
  vote : ∀ {p T c}, s.vote p T = some c → s'.vote p T = some c
  cand : ∀ {p T l}, s.cand p T = some l → s'.cand p T = some l
  leader : ∀ {T c}, s.leader T = some c → s'.leader T = some c
  base : ∀ {T}, (s.leader T).isSome → s'.base T = s.base T
  full : ∀ {T}, (s.leader T).isSome → s.full T <+: s'.full T
  acked_le : ∀ p T, s.acked p T ≤ s'.acked p T
  acked_new : ∀ {p T}, s'.acked p T ≠ s.acked p T → s.term p ≤ T

section

variable (h : Extends s s')
include h

theorem Extends.leader_isSome {T : ℕ} (hT : (s.leader T).isSome) : (s'.leader T).isSome := by
  obtain ⟨c, hc⟩ := isSome_iff_exists.mp hT
  rw [h.leader hc]
  rfl

variable {T n : ℕ}

theorem Extends.take_full (hT : (s.leader T).isSome) (hn : n ≤ (s.full T).length) :
    (s'.full T).take n = (s.full T).take n :=
  take_eq_of_extends (h.full hT) hn

theorem Extends.supported [HasTerm E] {l : List E} (hl : Supported s l) : Supported s' l := by
  intro i e he
  obtain ⟨hlead, hpre⟩ := hl i e he
  exact ⟨h.leader_isSome hlead, hpre.trans (h.full hlead)⟩

theorem Extends.chosen (hc : Chosen S s T n) : Chosen S s' T n := by
  obtain ⟨Q, hQ, hack⟩ := hc
  exact ⟨Q, hQ, fun q hq ↦ (hack q hq).trans (h.acked_le q T)⟩

/-- What can still be chosen could be chosen before. -/
theorem Extends.choosable (hc : Choosable S s' T n) : Choosable S s T n := by
  obtain ⟨Q, hQ, hack⟩ := hc
  refine ⟨Q, hQ, fun q hq ↦ ?_⟩
  by_cases heq : s'.acked q T = s.acked q T
  · rw [← heq]
    exact (hack q hq).imp_right fun hle ↦ (h.term_le q).trans hle
  · exact Or.inr (h.acked_new heq)

end

end Extends

end DucklingDB.Consensus
