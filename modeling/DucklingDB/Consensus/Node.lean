import DucklingDB.Consensus.Safety

/-!
# Steps of one node

Each step of the machine is taken by one node and leaves the term, the log and the votes of the
others alone. `ByNode S p s s'` collects what a sequence of steps of node `p` does: it is a run of
the machine, it extends the records, and it does not touch the other nodes. A refinement proof
composes the transitions of an implementation from these.

`Decided` is what one node can tell another about the commit index: it speaks about the log of a
leader instead of the log of the node that knows.
-/

namespace DucklingDB.Consensus

open List

open HasTerm (term)
open Function (update update_apply update_of_ne)
open State (set₂ set₂_apply)

section ByNode

variable {N E : Type*} [HasTerm E] [DecidableEq N] {S : QuorumSystem N} {s s' s'' : State N E}
  {p : N}

/-- Steps taken by node `p`. -/
structure ByNode (S : QuorumSystem N) (p : N) (s s' : State N E) : Prop where
  steps : Steps S s s'
  ext : Extends s s'
  term : ∀ q, q ≠ p → s'.term q = s.term q
  log : ∀ q, q ≠ p → s'.log q = s.log q
  commit : ∀ q, q ≠ p → s'.commit q = s.commit q
  vote : ∀ q, q ≠ p → s'.vote q = s.vote q
  leader : ∀ {q T}, q ≠ p → s'.leader T = some q → s.leader T = some q

section

omit [HasTerm E] [DecidableEq N]

theorem Extends.refl (s : State N E) : Extends s s :=
  ⟨fun _ ↦ le_rfl, id, id, id, fun _ ↦ rfl, fun _ ↦ prefix_refl _, fun _ _ ↦ le_rfl,
    fun h ↦ absurd rfl h⟩

theorem Extends.trans (h : Extends s s') (h' : Extends s' s'') : Extends s s'' := by
  refine ⟨fun q ↦ (h.term_le q).trans (h'.term_le q), fun hv ↦ h'.vote (h.vote hv),
    fun hc ↦ h'.cand (h.cand hc), fun hl ↦ h'.leader (h.leader hl),
    fun hT ↦ (h'.base (h.leader_isSome hT)).trans (h.base hT),
    fun hT ↦ (h.full hT).trans (h'.full (h.leader_isSome hT)),
    fun q T ↦ (h.acked_le q T).trans (h'.acked_le q T), ?_⟩
  intro q T hne
  by_cases heq : s'.acked q T = s.acked q T
  · exact (h.term_le q).trans (h'.acked_new (heq ▸ hne))
  · exact h.acked_new heq

end

namespace ByNode

theorem refl (s : State N E) (p : N) : ByNode S p s s :=
  ⟨.refl, .refl s, fun _ _ ↦ rfl, fun _ _ ↦ rfl, fun _ _ ↦ rfl, fun _ _ ↦ rfl, fun _ h ↦ h⟩

theorem trans (h : ByNode S p s s') (h' : ByNode S p s' s'') : ByNode S p s s'' :=
  ⟨h.steps.trans h'.steps, h.ext.trans h'.ext, fun q hq ↦ (h'.term q hq).trans (h.term q hq),
    fun q hq ↦ (h'.log q hq).trans (h.log q hq), fun q hq ↦ (h'.commit q hq).trans (h.commit q hq),
    fun q hq ↦ (h'.vote q hq).trans (h.vote q hq), fun hq hl ↦ h.leader hq (h'.leader hq hl)⟩

theorem inv (h : ByNode S p s s') (hs : Inv S s) : Inv S s' := hs.steps h.steps

section

variable (h : Inv S s)
include h

theorem campaign (p : N) : ByNode S p s { s with
      term := update s.term p (s.term p + 1)
      vote := set₂ s.vote p (s.term p + 1) (some p)
      cand := set₂ s.cand p (s.term p + 1) (some (s.log p)) } where
  steps := .single (.campaign p)
  ext := h.records.extends (.campaign p)
  term _ hq := update_of_ne hq _ _
  log _ _ := rfl
  commit _ _ := rfl
  vote _ hq := update_of_ne hq _ _
  leader _ hl := hl

variable {T : ℕ}

theorem adopt (hT : s.term p < T) : ByNode S p s { s with term := update s.term p T } where
  steps := .single (.adopt p T hT)
  ext := h.records.extends (.adopt p T hT)
  term _ hq := update_of_ne hq _ _
  log _ _ := rfl
  commit _ _ := rfl
  vote _ _ := rfl
  leader _ hl := hl

theorem castVote {c : N} {l : List E} (hT : s.term p = T)
    (hv : s.vote p T = none ∨ s.vote p T = some c) (hc : s.cand c T = some l)
    (hup : UpToDate l (s.log p)) :
    ByNode S p s { s with vote := set₂ s.vote p T (some c) } where
  steps := .single (.vote p c T l hT hv hc hup)
  ext := h.records.extends (.vote p c T l hT hv hc hup)
  term _ _ := rfl
  log _ _ := rfl
  commit _ _ := rfl
  vote _ hq := update_of_ne hq _ _
  leader _ hl := hl

theorem elect {Q : Finset N} (hQ : S.IsQuorum Q) (hv : ∀ q ∈ Q, s.vote q T = some p)
    (hT : s.term p = T) (hc : s.cand p T = some (s.log p)) (hno : s.leader T = none) :
    ByNode S p s { s with
      leader := update s.leader T (some p)
      base := update s.base T (s.log p)
      full := update s.full T (s.log p) } where
  steps := .single (.elect p T Q hQ hv hT hc hno)
  ext := h.records.extends (.elect p T Q hQ hv hT hc hno)
  term _ _ := rfl
  log _ _ := rfl
  commit _ _ := rfl
  vote _ _ := rfl
  leader {q U} hq hl := by
    simp only [update_apply] at hl
    split at hl
    · exact absurd (Option.some.inj hl).symm hq
    · exact hl

theorem propose {es : List E} (hl : s.leader T = some p) (hT : s.term p = T)
    (hes : ∀ e ∈ es, HasTerm.term e = T) :
    ByNode S p s { s with
      log := update s.log p (s.log p ++ es)
      full := update s.full T (s.full T ++ es) } where
  steps := .single (.propose p T es hl hT hes)
  ext := h.records.extends (Step.propose (S := S) p T es hl hT hes)
  term _ _ := rfl
  log _ hq := update_of_ne hq _ _
  commit _ _ := rfl
  vote _ _ := rfl
  leader _ hl := hl

theorem accept {l : List E} (hl : (s.leader T).isSome) (hT : s.term p = T) (hpre : l <+: s.full T)
    (hlen : (s.log p).length ≤ l.length ∨ (s.base T).length < l.length ∧ ¬l <+: s.log p) :
    ByNode S p s { s with log := update s.log p l } where
  steps := .single (.accept p T l hl hT hpre hlen)
  ext := h.records.extends (Step.accept (S := S) p T l hl hT hpre hlen)
  term _ _ := rfl
  log _ hq := update_of_ne hq _ _
  commit _ _ := rfl
  vote _ _ := rfl
  leader _ hl := hl

theorem ack {T n : ℕ} (hl : (s.leader T).isSome) (hT : s.term p = T) (hn : n ≤ (s.full T).length)
    (hpre : (s.full T).take n <+: s.log p) :
    ByNode S p s { s with acked := set₂ s.acked p T (max (s.acked p T) n) } where
  steps := .single (.ack p T n hl hT hn hpre)
  ext := h.records.extends (Step.ack (S := S) p T n hl hT hn hpre)
  term _ _ := rfl
  log _ _ := rfl
  commit _ _ := rfl
  vote _ _ := rfl
  leader _ hl := hl

theorem learn {T n c : ℕ} (hch : Chosen S s T n) (hb : (s.base T).length < n) (hT : T ≤ s.term p)
    (hc : c ≤ n) (hpre : (s.full T).take c <+: s.log p) :
    ByNode S p s { s with commit := update s.commit p (max (s.commit p) c) } := by
  obtain ⟨Q, hQ, hack⟩ := hch
  exact
    { steps := .single (.commit p T n c Q hQ hack hb hT hc hpre)
      ext := h.records.extends (Step.commit (S := S) p T n c Q hQ hack hb hT hc hpre)
      term := fun _ _ ↦ rfl
      log := fun _ _ ↦ rfl
      commit := fun _ hq ↦ update_of_ne hq _ _
      vote := fun _ _ ↦ rfl
      leader := fun _ hl ↦ hl }

end

end ByNode

end ByNode

/-! ## Decided indices of a leader's log -/

section Decided

variable {N E : Type*} [HasTerm E] {S : QuorumSystem N} {s s' : State N E} {p : N} {e : E}
  {T : ℕ} {i : ℕ}

/-- The first `c` entries of the log of the leader of `T` are decided. -/
def Decided (S : QuorumSystem N) (s : State N E) (T c : ℕ) : Prop :=
  ∃ U n, Chosen S s U n ∧ (s.base U).length < n ∧ U ≤ T ∧ c ≤ n ∧ (s.full U).take c <+: s.full T

omit [HasTerm E] in
theorem Decided.mono {T c c' : ℕ} (h : Decided S s T c) (hc : c' ≤ c) : Decided S s T c' := by
  obtain ⟨U, n, hch, hb, hU, hle, hpre⟩ := h
  exact ⟨U, n, hch, hb, hU, hc.trans hle, (take_mono hc).trans hpre⟩

theorem Decided.extends {T c : ℕ} (h : Decided S s T c) (hs : Inv S s) (hext : Extends s s')
    (hT : (s.leader T).isSome) : Decided S s' T c := by
  obtain ⟨U, n, hch, hb, hU, hle, hpre⟩ := h
  obtain ⟨hlead, hn⟩ := hs.chosen_leader hch (by omega)
  refine ⟨U, n, hext.chosen hch, by rwa [hext.base hlead], hU, hle, ?_⟩
  rw [hext.take_full hlead (hle.trans hn)]
  exact hpre.trans (hext.full hT)

theorem Inv.decided_of_leader (h : Inv S s) (hl : s.leader T = some p)
    (hT : s.term p = T) (h0 : s.commit p ≠ 0) : Decided S s T (s.commit p) := by
  obtain ⟨U, n, hch, hb, hU, hle, hpre⟩ := h.safe.commit_chosen p h0
  exact ⟨U, n, hch, hb, hT ▸ hU, hle, h.logs.leader_log hl hT ▸ hpre⟩

/-- What a node knows to be decided is part of the log of the leader of its term. -/
theorem Inv.commit_agrees (h : Inv S s) (hl : (s.leader T).isSome)
    (hT : s.term p = T) : (s.log p).take (s.commit p) <+: s.full T := by
  by_cases h0 : s.commit p = 0
  · rw [h0]
    exact nil_prefix
  · obtain ⟨U, n, hch, hb, hU, hle, hpre⟩ := h.safe.commit_chosen p h0
    obtain ⟨-, hn⟩ := h.chosen_leader hch (by omega)
    have heq : (s.log p).take (s.commit p) = (s.full U).take (s.commit p) := by
      have := take_eq_of_extends hpre (n := s.commit p) (by rw [length_take]; omega)
      rwa [take_take, Nat.min_self] at this
    rw [heq]
    rcases (hT ▸ hU : U ≤ T).lt_or_eq with hUT | hUT
    · exact (take_mono hle).trans
        ((h.safe.complete hl hUT hb hch.choosable).trans (h.logs.base_full hl))
    · rw [hUT]
      exact take_prefix _ _

/-- A node whose log ends in its current term holds a part of the leader's log. -/
theorem Inv.log_of_lastTerm (h : Inv S s) (hne : s.log p ≠ [])
    (hT : lastTerm (s.log p) = T) : s.log p <+: s.full T :=
  hT ▸ ((h.logs.log_supported p).last hne).2

/-- An entry of the current term makes the whole log a part of the leader's log. -/
theorem Inv.log_of_mem (h : Inv S s) (he : e ∈ s.log p)
    (hT : term e = s.term p) : s.log p <+: s.full (s.term p) := by
  have hne := ne_nil_of_mem he
  refine h.log_of_lastTerm hne (le_antisymm ?_ ?_)
  · obtain ⟨x, hx, hxt⟩ := getElem?_last hne
    exact hxt ▸ h.logs.log_term p x (mem_of_getElem? hx)
  · exact hT ▸ h.le_lastTerm (h.logs.log_supported p) he

/-- Entry `e` is decided for position `i` of the log. -/
def DecidedAt (S : QuorumSystem N) (s : State N E) (i : ℕ) (e : E) : Prop :=
  ∃ T n, Chosen S s T n ∧ (s.base T).length < n ∧ i < n ∧ (s.full T)[i]? = some e

theorem DecidedAt.extends (h : DecidedAt S s i e) (hs : Inv S s)
    (hext : Extends s s') : DecidedAt S s' i e := by
  obtain ⟨T, n, hch, hb, hi, he⟩ := h
  obtain ⟨hlead, -⟩ := hs.chosen_leader hch (by omega)
  refine ⟨T, n, hext.chosen hch, by rwa [hext.base hlead], hi, ?_⟩
  obtain ⟨t, ht⟩ := hext.full hlead
  rw [← ht, List.getElem?_append_left (List.getElem?_eq_some_iff.mp he).1, he]

/-- What is decided earlier is part of every later leader's log. -/
theorem Inv.decided_le (h : Inv S s) {T U n i : ℕ} (hch : Chosen S s T n)
    (hb : (s.base T).length < n) (hi : i < n) (he : (s.full T)[i]? = some e) (hTU : T ≤ U)
    (hU : (s.leader U).isSome) : (s.full U)[i]? = some e := by
  rcases hTU.eq_or_lt with rfl | hlt
  · exact he
  · obtain ⟨t, ht⟩ := (h.safe.complete hU hlt hb hch.choosable).trans (h.logs.base_full hU)
    have hlen := (List.getElem?_eq_some_iff.mp he).1
    rw [← ht, getElem?_append_left (by rw [length_take]; omega), getElem?_take_of_lt hi, he]

/-- **At most one entry is decided for a position.** -/
theorem DecidedAt.unique (h : Inv S s) {e e' : E} (he : DecidedAt S s i e)
    (he' : DecidedAt S s i e') : e = e' := by
  obtain ⟨T, n, hch, hb, hi, hget⟩ := he
  obtain ⟨T', n', hch', hb', hi', hget'⟩ := he'
  rcases le_total T T' with hle | hle
  · obtain ⟨hlead, -⟩ := h.chosen_leader hch' (by omega)
    exact Option.mem_unique (h.decided_le hch hb hi hget hle hlead) hget'
  · obtain ⟨hlead, -⟩ := h.chosen_leader hch (by omega)
    exact Option.mem_unique hget (h.decided_le hch' hb' hi' hget' hle hlead)

theorem Inv.decidedAt_of_commit (h : Inv S s) (hi : i < s.commit p)
    (he : (s.log p)[i]? = some e) : DecidedAt S s i e := by
  obtain ⟨T, n, hch, hb, -, hle, t, ht⟩ := h.safe.commit_chosen p (by omega)
  obtain ⟨-, hn⟩ := h.chosen_leader hch (by omega)
  refine ⟨T, n, hch, hb, by omega, ?_⟩
  rwa [← ht, getElem?_append_left (by rw [length_take]; omega), getElem?_take_of_lt hi] at he

end Decided

end DucklingDB.Consensus
