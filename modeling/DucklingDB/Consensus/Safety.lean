import DucklingDB.Consensus.Invariant

/-!
# Safety of log replication

Every step of the machine preserves the invariant. The one step with an argument of its own is the
vote: a candidate whose log is up to date in the sense of the voter holds every index the voter
acknowledged that may still be decided (`Inv.upToDate_keeps`).
-/

namespace DucklingDB.Consensus

open List Option Nat

open HasTerm (term)
open Function (update update_apply update_of_ne update_self)
open State (set₂ set₂_apply)

variable {N E : Type*} [HasTerm E] [DecidableEq N] {S : QuorumSystem N} {s s' : State N E}

omit [HasTerm E] [DecidableEq N] in
theorem prefix_update {α : Type*} [DecidableEq α] (f : α → List E) (a : α) (es : List E) (b : α) :
    f b <+: update f a (f a ++ es) b := by
  rw [update_apply]
  split
  · rename_i heq
    rw [heq]
    exact prefix_append _ _
  · exact prefix_refl _

theorem Records.extends (h : Records S s) (hs : Step S s s') : Extends s s' := by
  cases hs with
  | campaign p =>
    -- nobody has voted or campaigned in a term beyond its own
    have hfresh : ∀ {c}, s.vote p (s.term p + 1) = some c → False := fun hc ↦ by
      have := h.vote_le hc
      omega
    constructor <;> simp only [set₂_apply, update_apply]
    · intro q
      split <;> simp_all
    · intro q T c hc
      split
      · rename_i heq
        rw [heq.1, heq.2] at hc
        exact (hfresh hc).elim
      · exact hc
    · intro q T l hl
      split
      · rename_i heq
        rw [heq.1, heq.2] at hl
        exact (hfresh (h.cand_vote hl)).elim
      · exact hl
    all_goals simp
  | adopt p T hT =>
    constructor <;> simp only [update_apply]
    · intro q
      split <;> simp_all [le_of_lt]
    all_goals simp
  | vote p c T l hT hv hc hup =>
    constructor <;> simp only [set₂_apply]
    case vote =>
      intro q U d hd
      split
      · rename_i heq
        rw [heq.1, heq.2] at hd
        rcases hv with hv | hv
        · rw [hv] at hd; cases hd
        · rw [← hd, hv]
      · exact hd
    all_goals simp
  | elect c T Q hQ hv hT hc hno =>
    have hne : ∀ {U}, (s.leader U).isSome → U ≠ T := by
      rintro U hU rfl
      rw [hno] at hU
      cases hU
    constructor <;> simp only [update_apply]
    case leader =>
      intro U d hd
      rw [if_neg (hne (by rw [hd]; rfl))]
      exact hd
    case base => intro U hU; rw [if_neg (hne hU)]
    case full => intro U hU; rw [if_neg (hne hU)]
    all_goals simp
  | propose c T es hl hT hes =>
    constructor
    case full => exact fun _ ↦ prefix_update _ _ _ _
    all_goals simp
  | accept | commit => constructor <;> simp
  | ack p T n hl hT hn hpre =>
    constructor <;> simp only [set₂_apply]
    case acked_le => intro q U; split <;> simp_all
    case acked_new =>
      intro q U hne
      split at hne
      · rename_i heq
        rw [heq.1, heq.2, hT]
      · exact absurd rfl hne
    all_goals simp

/-! ## Votes and leaderships -/

theorem Records.step (h : Records S s) (hs : Step S s s') : Records S s' := by
  have hext := h.extends hs
  have hvotes : ∀ {T c}, s.leader T = some c → ∃ Q, S.IsQuorum Q ∧
      ∀ q ∈ Q, s'.vote q T = some c := by
    intro T c hc
    obtain ⟨Q, hQ, hv⟩ := h.leader_votes hc
    exact ⟨Q, hQ, fun q hq ↦ hext.vote (hv q hq)⟩
  cases hs with
  | campaign p =>
    refine ⟨?_, ?_, ?_, hvotes, fun hc ↦ hext.cand (h.leader_cand hc)⟩
    · intro q T c hc
      simp only [set₂_apply] at hc
      split at hc
      · rename_i heq
        simp [heq.1, heq.2]
      · exact (h.vote_le hc).trans (hext.term_le q)
    · intro q T c hc
      simp only [set₂_apply] at hc
      split at hc
      · rename_i heq
        cases hc
        simp [set₂_apply, heq.2]
      · obtain ⟨l, hl⟩ := isSome_iff_exists.mp (h.vote_cand hc)
        rw [hext.cand hl]
        rfl
    · intro c T l hl
      simp only [set₂_apply] at hl
      split at hl
      · rename_i heq
        simp [set₂_apply, heq.1, heq.2]
      · exact hext.vote (h.cand_vote hl)
  | adopt p T hT =>
    exact ⟨fun hc ↦ (h.vote_le hc).trans (hext.term_le _), h.vote_cand, h.cand_vote, hvotes,
      h.leader_cand⟩
  | vote p c T l hT hv hc hup =>
    refine ⟨?_, ?_, fun hl ↦ hext.vote (h.cand_vote hl), hvotes, h.leader_cand⟩
    · intro q U d hd
      simp only [set₂_apply] at hd
      split at hd
      · rename_i heq
        rw [heq.1, heq.2, hT]
      · exact h.vote_le hd
    · intro q U d hd
      simp only [set₂_apply] at hd
      split at hd
      · rename_i heq
        cases hd
        rw [heq.2, hc]
        rfl
      · exact h.vote_cand hd
  | elect c T Q hQ hv hT hc hno =>
    refine ⟨h.vote_le, h.vote_cand, h.cand_vote, ?_, ?_⟩
    · intro U d hd
      simp only [update_apply] at hd
      split at hd
      · rename_i heq
        cases hd
        exact ⟨Q, hQ, by rwa [heq]⟩
      · exact h.leader_votes hd
    · intro U d hd
      simp only [update_apply] at hd ⊢
      split at hd
      · rename_i heq
        cases hd
        rw [if_pos heq, heq, hc]
      · rename_i hne
        rw [if_neg hne]
        exact h.leader_cand hd
  | propose | accept | ack | commit =>
    exact ⟨h.vote_le, h.vote_cand, h.cand_vote, hvotes, h.leader_cand⟩

/-! ## Logs -/

theorem Logs.step (hr : Records S s) (h : Logs s) (hs : Step S s s') : Logs s' := by
  have hext := hr.extends hs
  have hsup : ∀ {l : List E}, Supported s l → Supported s' l := hext.supported
  -- a node that leads does not enter a later term
  have hleader : ∀ {p T}, s.term p < T → ∀ {U c}, s.leader U = some c → update s.term p T c = U →
      s.log c = s.full U := by
    intro p T hT U c hc hU
    rw [update_apply] at hU
    split at hU
    · rename_i heq
      have := hr.leader_le hc
      rw [heq] at this
      omega
    · exact h.leader_log hc hU
  cases hs with
  | campaign p =>
    refine ⟨h.base_full, h.full_term, ?_, ?_, fun q ↦ hsup (h.log_supported q),
      fun q e he ↦ (h.log_term q e he).trans (hext.term_le q), hleader (lt_succ_self _)⟩
    · intro c T l hl
      simp only [set₂_apply] at hl
      split at hl
      · cases hl
        exact hsup (h.log_supported p)
      · exact hsup (h.cand_supported hl)
    · intro c T l hl e he
      simp only [set₂_apply] at hl
      split at hl
      · rename_i heq
        cases hl
        have := h.log_term p e he
        omega
      · exact h.cand_term hl e he
  | adopt p T hT =>
    exact ⟨h.base_full, h.full_term, h.cand_supported, h.cand_term, h.log_supported,
      fun q e he ↦ (h.log_term q e he).trans (hext.term_le q), hleader hT⟩
  | vote | ack | commit =>
    exact ⟨h.base_full, h.full_term, h.cand_supported, h.cand_term, h.log_supported, h.log_term,
      h.leader_log⟩
  | elect c T Q hQ hv hT hc hno =>
    refine ⟨?_, ?_, fun hl ↦ hsup (h.cand_supported hl), h.cand_term,
      fun q ↦ hsup (h.log_supported q), h.log_term, ?_⟩
    · intro U hU
      simp only [update_apply] at hU ⊢
      split
      · exact prefix_refl _
      · rename_i hne
        rw [if_neg hne] at hU
        exact h.base_full hU
    · intro U hU e he
      simp only [update_apply] at hU he
      split at he
      · simp at he
      · rename_i hne
        rw [if_neg hne] at hU
        exact h.full_term hU e he
    · intro U d hd hU
      simp only [update_apply] at hd ⊢
      split at hd
      · rename_i heq
        cases hd
        rw [if_pos heq]
      · rename_i hne
        rw [if_neg hne]
        exact h.leader_log hd hU
  | propose c T es hl hT hes =>
    have hlT : (s.leader T).isSome := by rw [hl]; rfl
    have hlog : s.log c = s.full T := h.leader_log hl hT
    have hbase : ∀ {U}, (s.leader U).isSome → s.base U <+: update s.full T (s.full T ++ es) U := by
      intro U hU
      exact (h.base_full hU).trans (hext.full hU)
    have hterm : ∀ {U}, (s.leader U).isSome →
        ∀ x ∈ (update s.full T (s.full T ++ es) U).drop (s.base U).length, term x = U := by
      intro U hU x hx
      simp only [update_apply] at hx
      split at hx
      · rename_i heq
        subst heq
        rw [drop_append_of_le_length (h.base_full hU).length_le, mem_append] at hx
        rcases hx with hx | hx
        · exact h.full_term hU x hx
        · exact hes x hx
      · exact h.full_term hU x hx
    refine ⟨hbase, hterm, fun hl ↦ hsup (h.cand_supported hl), h.cand_term, ?_, ?_, ?_⟩
    · intro q
      simp only [update_apply]
      split
      · rw [hlog]
        intro i x hx
        rw [getElem?_append] at hx
        split at hx
        · rename_i hi
          have := hsup (h.full_supported hr hlT) i x hx
          rwa [take_append_of_le_length (by omega)]
        · rename_i hi
          -- a new entry
          rw [hes x (mem_of_getElem? hx)]
          refine ⟨hlT, ?_⟩
          simp only [update_self]
          exact take_prefix _ _
      · exact hsup (h.log_supported q)
    · intro q x hx
      simp only [update_apply] at hx
      split at hx
      · rename_i heq
        rcases mem_append.mp hx with hx | hx
        · rw [heq]
          exact h.log_term c x hx
        · rw [hes x hx, ← hT, heq]
      · exact h.log_term q x hx
    · intro U d hd hU
      simp only [update_apply]
      by_cases hdc : d = c
      · subst hdc
        rw [if_pos rfl, hlog, ← hU, hT, if_pos rfl]
      · rw [if_neg hdc, if_neg, h.leader_log hd hU]
        rintro rfl
        rw [hl] at hd
        exact hdc (Option.some.inj hd).symm
  | accept p T l hl hT hpre hlen =>
    refine ⟨h.base_full, h.full_term, h.cand_supported, h.cand_term, ?_, ?_, ?_⟩
    · intro q
      simp only [update_apply]
      split
      · exact (h.full_supported hr hl).anti hpre
      · exact h.log_supported q
    · intro q e he
      simp only [update_apply] at he
      split at he
      · rename_i heq
        rw [heq, hT]
        exact h.full_term_le hr hl e (hpre.subset he)
      · exact h.log_term q e he
    · intro U d hd hU
      simp only [update_apply]
      split
      · rename_i heq
        -- the leader has nothing to take over from itself
        have hUT : U = T := by rw [← hU, heq, hT]
        have hlog : s.log p = s.full T := h.leader_log (by rw [← hUT, ← heq]; exact hd) hT
        rw [hUT]
        rcases hlen with hlen | ⟨-, hno⟩
        · exact hpre.eq_of_length (le_antisymm hpre.length_le (hlog ▸ hlen))
        · exact absurd (hlog ▸ hpre) hno
      · exact h.leader_log hd hU

/-! ## The vote -/

omit [DecidableEq N]

variable {l : List E}

theorem getElem?_last (h : l ≠ []) : ∃ e, l[l.length - 1]? = some e ∧ term e = lastTerm l := by
  refine ⟨l.getLast h, ?_, ?_⟩
  · rw [getElem?_eq_getElem (by have := length_pos_iff.mpr h; omega), getLast_eq_getElem]
  · rw [lastTerm, getLast?_eq_some_getLast h]
    rfl

/-- A supported log is a part of the log of the leader of its last term. -/
theorem Supported.last (h : Supported s l) (hne : l ≠ []) :
    (s.leader (lastTerm l)).isSome ∧ l <+: s.full (lastTerm l) := by
  obtain ⟨e, he, ht⟩ := getElem?_last hne
  have hlen : l.length - 1 + 1 = l.length := by
    have := length_pos_iff.mpr hne
    omega
  obtain ⟨hlead, hpre⟩ := h _ e he
  rw [hlen, take_length, ht] at hpre
  exact ⟨ht ▸ hlead, hpre⟩

/-- A supported log whose last entry was created by the leader of `T` reaches beyond what that
leader started from. -/
theorem Inv.base_length_lt (h : Inv S s) (hl : Supported s l) (hne : l ≠ []) :
    (s.base (lastTerm l)).length < l.length := by
  obtain ⟨hlead, hpre⟩ := hl.last hne
  by_contra hle
  obtain ⟨e, he, ht⟩ := getElem?_last hne
  obtain ⟨c, hc⟩ := isSome_iff_exists.mp hlead
  have hsub : l <+: s.base (lastTerm l) :=
    prefix_of_prefix_length_le hpre (h.logs.base_full hlead) (by omega)
  have := h.logs.cand_term (h.records.leader_cand hc) e (hsub.subset (mem_of_getElem? he))
  omega

/-- A supported log that contains an entry of term `T` ends in a term no earlier than `T`. -/
theorem Inv.le_lastTerm (h : Inv S s) (hl : Supported s l) {e : E} (he : e ∈ l) :
    term e ≤ lastTerm l := by
  obtain ⟨hlead, hpre⟩ := hl.last (ne_nil_of_mem he)
  exact h.logs.full_term_le h.records hlead e (hpre.subset he)

variable {T n : ℕ}

/-- **An up-to-date log keeps what may be decided.** The log is at least as up to date as one that
holds the first `n` entries of the leader of `T`, the last of them created by that leader itself. -/
theorem Inv.upToDate_keeps (h : Inv S s) {l' : List E} (hl : Supported s l) (hl' : Supported s l')
    (hup : UpToDate l l') (hT : (s.leader T).isSome) (hb : (s.base T).length < n)
    (hn : n ≤ (s.full T).length) (hc : Choosable S s T n) (hpre : (s.full T).take n <+: l') :
    (s.full T).take n <+: l := by
  have hlen' : n ≤ l'.length := le_length_of_take hn hpre
  have hne' : l' ≠ [] := by
    rintro rfl
    simp only [length_nil] at hlen'
    omega
  -- the `n`-th entry is of term `T`, so the last term is at least `T`
  obtain ⟨e, he⟩ : ∃ e, (s.full T)[n - 1]? = some e := ⟨_, getElem?_eq_getElem (by omega)⟩
  have hte : term e = T := h.logs.full_getElem_term hT he (by omega)
  have hmem : e ∈ l' := by
    refine hpre.subset (mem_of_getElem? (i := n - 1) ?_)
    rw [getElem?_take_of_lt (by omega), he]
  have hTW : T ≤ lastTerm l' := hte ▸ h.le_lastTerm hl' hmem
  obtain ⟨hlead', hpre'⟩ := hl'.last hne'
  rcases hup with hlt | ⟨heq, hlen⟩
  · -- a later leader wrote the end of `l`, and that leader has the entries
    have hne : l ≠ [] := by
      rintro rfl
      simp [lastTerm] at hlt
    obtain ⟨hlead, hprel⟩ := hl.last hne
    have hcomplete := h.safe.complete hlead (by omega) hb hc
    have hle := le_length_of_take hn hcomplete
    have hbl := h.base_length_lt hl hne
    exact prefix_of_prefix_length_le (hcomplete.trans (h.logs.base_full hlead)) hprel
      (by simp only [length_take]; omega)
  · -- both end in the same leader's log
    have hne : l ≠ [] := by
      rintro rfl
      simp only [length_nil, le_zero, length_eq_zero_iff] at hlen
      exact hne' hlen
    obtain ⟨-, hprel⟩ := hl.last hne
    rw [heq] at hpre'
    exact hpre.trans (prefix_of_prefix_length_le hpre' hprel hlen)

/-! ## Acknowledged and decided indices -/

theorem Inv.chosen_leader (h : Inv S s) (hc : Chosen S s T n) (hn : 0 < n) :
    (s.leader T).isSome ∧ n ≤ (s.full T).length := by
  obtain ⟨Q, hQ, hack⟩ := hc
  obtain ⟨q, hq, -⟩ := S.inter hQ hQ
  have := hack q hq
  exact ⟨h.safe.acked_leader (p := q) (by omega), this.trans (h.safe.acked_le q T)⟩

/-- A voter of a later term has acknowledged whatever a quorum may still acknowledge in an earlier
one. -/
theorem Inv.voter_acked (h : Inv S s) {U : ℕ} {c : N} {Q : Finset N} (hQ : S.IsQuorum Q)
    (hv : ∀ q ∈ Q, s.vote q U = some c) (hTU : T < U) (hc : Choosable S s T n) :
    ∃ q ∈ Q, n ≤ s.acked q T := by
  obtain ⟨Q', hQ', hack⟩ := hc
  obtain ⟨q, hq, hq'⟩ := S.inter hQ hQ'
  refine ⟨q, hq, (hack q hq').resolve_right fun hle ↦ ?_⟩
  have := h.records.vote_le (hv q hq)
  omega

variable {p : N}

section

variable (h : Inv S s) (hext : Extends s s')
include h hext

theorem Inv.acked_extends (hb : (s'.base T).length < n) (hn : n ≤ s.acked p T) :
    (s.base T).length < n ∧ (s'.full T).take n = (s.full T).take n := by
  have hlead := h.safe.acked_leader (p := p) (T := T) (by omega)
  exact ⟨hext.base hlead ▸ hb, hext.take_full hlead (hn.trans (h.safe.acked_le p T))⟩

/-- What a node knows to be decided it still knows after a step that only extends its log. -/
theorem Inv.commit_extends (hlog : s.log p <+: s'.log p) (h0 : s.commit p ≠ 0) :
    ∃ T n, Chosen S s' T n ∧ (s'.base T).length < n ∧ T ≤ s'.term p ∧ s.commit p ≤ n ∧
      (s'.full T).take (s.commit p) <+: s'.log p := by
  obtain ⟨T, n, hch, hb, hT, hle, hpre⟩ := h.safe.commit_chosen p h0
  obtain ⟨hlead, hn⟩ := h.chosen_leader hch (by omega)
  refine ⟨T, n, hext.chosen hch, by rwa [hext.base hlead], hT.trans (hext.term_le p), hle, ?_⟩
  rw [hext.take_full hlead (hle.trans hn)]
  exact hpre.trans hlog

/-- Completeness of the earlier leaders survives a step that elects nobody. -/
theorem Inv.complete_extends {U : ℕ} (hU : (s.leader U).isSome) (hTU : T < U)
    (hb : (s'.base T).length < n) (hc : Choosable S s' T n) : (s'.full T).take n <+: s'.base U := by
  have hc' := hext.choosable hc
  obtain ⟨c, hlc⟩ := isSome_iff_exists.mp hU
  obtain ⟨Q, hQ, hv⟩ := h.records.leader_votes hlc
  obtain ⟨q, -, hq⟩ := h.voter_acked hQ hv hTU hc'
  obtain ⟨hb', htake⟩ := h.acked_extends hext hb hq
  rw [htake, hext.base hU]
  exact h.safe.complete hU hTU hb' hc'

theorem Inv.vote_keeps_extends {c : N} {U : ℕ} (hv : s.vote p U = some c)
    (hl : s'.cand c U = some l) (hTU : T < U) (hb : (s'.base T).length < n) (hn : n ≤ s.acked p T)
    (hc : Choosable S s' T n) : (s'.full T).take n <+: l := by
  obtain ⟨hb', htake⟩ := h.acked_extends hext hb hn
  obtain ⟨l', hl'⟩ := isSome_iff_exists.mp (h.records.vote_cand hv)
  have : l' = l := mem_unique (hext.cand hl') hl
  rw [htake]
  exact h.safe.vote_keeps hv (this ▸ hl') hTU hb' hn (hext.choosable hc)

end

variable [DecidableEq N]

section

variable (h : Inv S s)
include h

theorem Inv.acked_update (hT : s.term p < T) (q : N) :
    (s.full (update s.term p T q)).take (s.acked q (update s.term p T q)) <+: s.log q := by
  rw [update_apply]
  split
  · rename_i heq
    have : s.acked q T = 0 := by
      by_contra h0
      have := h.safe.acked_term h0
      rw [heq] at this
      omega
    rw [this]
    exact nil_prefix
  · exact h.safe.acked_current q

theorem Safe.campaign (p : N) (s' : State N E) (hs' : s' = { s with
      term := update s.term p (s.term p + 1)
      vote := set₂ s.vote p (s.term p + 1) (some p)
      cand := set₂ s.cand p (s.term p + 1) (some (s.log p)) }) (hs : Step S s s') : Safe S s' := by
  have hext := h.records.extends hs
  subst hs'
  refine ⟨h.safe.acked_leader, fun h0 ↦ (h.safe.acked_term h0).trans (hext.term_le _),
    h.safe.acked_le, h.acked_update (lt_succ_self _),
    fun hb hn hc ↦ h.safe.acked_log hb hn (hext.choosable hc), ?_, h.complete_extends hext,
    fun q h0 ↦ h.commit_extends hext (prefix_refl _) h0⟩
  intro q c T U n l hv hl hTU hb hn hc
  simp only [set₂_apply] at hv
  split at hv
  · rename_i heq
    cases hv
    simp only [set₂_apply, heq.2, and_self, ↓reduceIte] at hl
    cases hl
    rw [heq.1] at hn
    exact h.safe.acked_log hb hn (hext.choosable hc)
  · exact h.vote_keeps_extends hext hv hl hTU hb hn hc

theorem Safe.adopt (p : N) (T : ℕ) (hT : s.term p < T) :
    Safe S { s with term := update s.term p T } := by
  have hext := h.records.extends (Step.adopt p T hT)
  exact ⟨h.safe.acked_leader, fun h0 ↦ (h.safe.acked_term h0).trans (hext.term_le _),
    h.safe.acked_le, h.acked_update hT, fun hb hn hc ↦ h.safe.acked_log hb hn (hext.choosable hc),
    h.vote_keeps_extends hext, h.complete_extends hext,
    fun q h0 ↦ h.commit_extends hext (prefix_refl _) h0⟩

theorem Safe.vote {c : N} (hT : s.term p = T)
    (hv : s.vote p T = none ∨ s.vote p T = some c) (hc : s.cand c T = some l)
    (hup : UpToDate l (s.log p)) : Safe S { s with vote := set₂ s.vote p T (some c) } := by
  have hext := h.records.extends (Step.vote (S := S) p c T l hT hv hc hup)
  refine ⟨h.safe.acked_leader, h.safe.acked_term, h.safe.acked_le, h.safe.acked_current,
    fun hb hn hch ↦ h.safe.acked_log hb hn (hext.choosable hch), ?_, h.complete_extends hext,
    fun q h0 ↦ h.commit_extends hext (prefix_refl _) h0⟩
  intro q d U V n m hv' hl hUV hb hn hch
  simp only [set₂_apply] at hv'
  split at hv'
  · -- the new vote: the voter holds what it acknowledged, hence so does the candidate
    rename_i heq
    cases hv'
    have hm : l = m := mem_unique hc (heq.2 ▸ hl)
    subst hm
    rw [heq.1] at hn
    have hch' := hext.choosable hch
    have h0 : s.acked p U ≠ 0 := (hn.trans_lt' ((zero_le _).trans_lt hb)).ne'
    have hlead := h.safe.acked_leader h0
    exact h.upToDate_keeps (h.logs.cand_supported hc) (h.logs.log_supported p) hup hlead hb
      (hn.trans (h.safe.acked_le p U)) hch' (h.safe.acked_log hb hn hch')
  · exact h.vote_keeps_extends hext hv' hl hUV hb hn hch

theorem Safe.elect {c : N} {Q : Finset N} (hQ : S.IsQuorum Q)
    (hv : ∀ q ∈ Q, s.vote q T = some c) (hT : s.term c = T) (hc : s.cand c T = some (s.log c))
    (hno : s.leader T = none) :
    Safe S { s with
      leader := update s.leader T (some c)
      base := update s.base T (s.log c)
      full := update s.full T (s.log c) } := by
  have hext := h.records.extends (Step.elect c T Q hQ hv hT hc hno)
  have hack0 : ∀ q, s.acked q T = 0 := by
    intro q
    by_contra h0
    have := h.safe.acked_leader h0
    rw [hno] at this
    cases this
  refine ⟨fun h0 ↦ hext.leader_isSome (h.safe.acked_leader h0), h.safe.acked_term, ?_, ?_, ?_,
    h.vote_keeps_extends hext, ?_, fun q h0 ↦ h.commit_extends hext (prefix_refl _) h0⟩
  · intro q U
    simp only [update_apply]
    split
    · rename_i heq
      rw [heq, hack0 q]
      exact zero_le _
    · exact h.safe.acked_le q U
  · intro q
    simp only [update_apply]
    split
    · rename_i heq
      rw [heq, hack0 q]
      exact nil_prefix
    · exact h.safe.acked_current q
  · intro q U n hb hn hch
    obtain ⟨hb', htake⟩ := h.acked_extends hext hb hn
    rw [htake]
    exact h.safe.acked_log hb' hn (hext.choosable hch)
  · intro U V n hV hUV hb hch
    by_cases hVT : V = T
    · -- the new leader: some voter acknowledged the index
      subst hVT
      obtain ⟨q, hq, hn⟩ := h.voter_acked hQ hv hUV (hext.choosable hch)
      simp only [update_self]
      exact h.vote_keeps_extends hext (hv q hq) hc hUV hb hn hch
    · refine h.complete_extends hext ?_ hUV hb hch
      simpa only [update_apply, if_neg hVT] using hV

theorem Safe.propose {c : N} {es : List E} (hl : s.leader T = some c)
    (hT : s.term c = T) (hes : ∀ e ∈ es, term e = T) :
    Safe S { s with
      log := update s.log c (s.log c ++ es)
      full := update s.full T (s.full T ++ es) } := by
  have hext := h.records.extends (Step.propose (S := S) c T es hl hT hes)
  have hlog : ∀ q, s.log q <+: update s.log c (s.log c ++ es) q := prefix_update _ _ _
  have hfull : ∀ U, s.full U <+: update s.full T (s.full T ++ es) U := prefix_update _ _ _
  refine ⟨h.safe.acked_leader, h.safe.acked_term,
    fun q U ↦ (h.safe.acked_le q U).trans (hfull U).length_le, ?_, ?_, h.vote_keeps_extends hext,
    h.complete_extends hext, fun q h0 ↦ h.commit_extends hext (hlog q) h0⟩
  · intro q
    simp only
    rw [take_eq_of_extends (hfull _) (h.safe.acked_le q _)]
    exact (h.safe.acked_current q).trans (hlog q)
  · intro q U n hb hn hch
    obtain ⟨hb', htake⟩ := h.acked_extends hext hb hn
    rw [htake]
    exact (h.safe.acked_log hb' hn (hext.choosable hch)).trans (hlog q)

theorem Safe.accept (hl : (s.leader T).isSome) (hT : s.term p = T)
    (hpre : l <+: s.full T)
    (hlen : (s.log p).length ≤ l.length ∨ (s.base T).length < l.length ∧ ¬l <+: s.log p) :
    Safe S { s with log := update s.log p l } := by
  have hext := h.records.extends (Step.accept (S := S) p T l hl hT hpre hlen)
  -- a part of the leader's log that the node holds is a part of what it takes over
  have hkeep : ∀ n, n ≤ (s.full T).length → (s.full T).take n <+: s.log p →
      (s.full T).take n <+: l := by
    intro n hn hp
    refine take_of_le_length hpre ?_
    rcases hlen with hlen | ⟨-, hno⟩
    · exact (le_length_of_take hn hp).trans hlen
    · by_contra hlt
      refine hno (List.IsPrefix.trans ?_ hp)
      exact prefix_of_prefix_length_le hpre (List.take_prefix _ _) (by rw [length_take]; omega)
  -- and what was decided or acknowledged in an earlier term is part of the leader's log
  have hearlier : ∀ U n m, U < T → n ≤ m → (s.base U).length < m → Choosable S s U m →
      m ≤ (s.full U).length → (s.full U).take n <+: s.log p → (s.full U).take n <+: l := by
    intro U n m hUT hnm hb hch hm hp
    have hcomp := h.safe.complete hl hUT hb hch
    have hmb := le_length_of_take hm hcomp
    have hn := le_length_of_take (hnm.trans hm) hp
    refine prefix_of_prefix_length_le
      ((take_mono hnm).trans (hcomp.trans (h.logs.base_full hl))) hpre ?_
    rw [length_take]
    rcases hlen with hlen | ⟨hlt, -⟩ <;> omega
  refine ⟨h.safe.acked_leader, h.safe.acked_term, h.safe.acked_le, ?_, ?_,
    h.vote_keeps_extends hext, h.complete_extends hext, ?_⟩
  · intro q
    simp only [update_apply]
    split
    · rename_i heq
      subst heq
      rw [hT]
      exact hkeep _ (h.safe.acked_le q T) (hT ▸ h.safe.acked_current q)
    · exact h.safe.acked_current q
  · intro q U n hb hn hch
    have hch' := hext.choosable hch
    have hold := h.safe.acked_log hb hn hch'
    simp only [update_apply]
    split
    · rename_i heq
      subst heq
      have hle := hn.trans (h.safe.acked_le q U)
      have h0 : s.acked q U ≠ 0 := (hn.trans_lt' ((zero_le _).trans_lt hb)).ne'
      rcases (hT ▸ h.safe.acked_term h0 : U ≤ T).lt_or_eq with hUT | hUT
      · exact hearlier U n n hUT le_rfl hb hch' hle hold
      · subst hUT
        exact hkeep n hle hold
    · exact hold
  · intro q h0
    by_cases hqp : q = p
    · subst hqp
      obtain ⟨U, n, hch, hb, hU, hle, hp⟩ := h.safe.commit_chosen q h0
      obtain ⟨-, hn⟩ := h.chosen_leader hch (by omega)
      refine ⟨U, n, hch, hb, hU, hle, ?_⟩
      simp only [update_self]
      rcases (hT ▸ hU : U ≤ T).lt_or_eq with hUT | hUT
      · exact hearlier U _ n hUT hle hb hch.choosable hn hp
      · subst hUT
        exact hkeep _ (hle.trans hn) hp
    · refine h.commit_extends hext ?_ h0
      simp only [update_of_ne hqp]
      exact prefix_refl _

theorem Safe.ack (hl : (s.leader T).isSome) (hT : s.term p = T)
    (hn : n ≤ (s.full T).length) (hpre : (s.full T).take n <+: s.log p) :
    Safe S { s with acked := set₂ s.acked p T (max (s.acked p T) n) } := by
  have hext := h.records.extends (Step.ack (S := S) p T n hl hT hn hpre)
  refine ⟨?_, ?_, ?_, ?_, ?_, ?_, h.complete_extends hext,
    fun q h0 ↦ h.commit_extends hext (prefix_refl _) h0⟩
  · intro q U h0
    simp only [set₂_apply] at h0
    split at h0
    · rename_i heq
      rw [heq.2]
      exact hl
    · exact h.safe.acked_leader h0
  · intro q U h0
    simp only [set₂_apply] at h0
    split at h0
    · rename_i heq
      rw [heq.1, heq.2, hT]
    · exact h.safe.acked_term h0
  · intro q U
    simp only [set₂_apply]
    split
    · rename_i heq
      rw [heq.2]
      exact max_le (h.safe.acked_le p T) hn
    · exact h.safe.acked_le q U
  · intro q
    simp only [set₂_apply]
    split
    · rename_i heq
      rw [heq.2]
      rcases le_total (s.acked p T) n with hle | hle
      · rw [max_eq_right hle, heq.1]
        exact hpre
      · rw [max_eq_left hle, heq.1, ← hT]
        exact h.safe.acked_current p
    · exact h.safe.acked_current q
  · intro q U m hb hm hch
    simp only [set₂_apply] at hm
    split at hm
    · rename_i heq
      rcases le_max_iff.mp hm with hm | hm
      · rw [heq.1, heq.2]
        rw [heq.2] at hb hch
        exact h.safe.acked_log hb hm (hext.choosable hch)
      · rw [heq.1, heq.2]
        exact (take_mono hm).trans hpre
    · exact h.safe.acked_log hb hm (hext.choosable hch)
  · intro q d U V m l hv hl' hUV hb hm hch
    refine h.vote_keeps_extends hext hv hl' hUV hb ?_ hch
    simp only [set₂_apply] at hm
    split at hm
    · -- a node that has voted in a later term does not acknowledge in this one
      rename_i heq
      have := h.records.vote_le hv
      rw [heq.1, hT] at this
      omega
    · exact hm

theorem Safe.commit {c : ℕ} {Q : Finset N} (hQ : S.IsQuorum Q)
    (hack : ∀ q ∈ Q, n ≤ s.acked q T) (hb : (s.base T).length < n) (hT : T ≤ s.term p) (hc : c ≤ n)
    (hpre : (s.full T).take c <+: s.log p) :
    Safe S { s with commit := update s.commit p (max (s.commit p) c) } := by
  refine ⟨h.safe.acked_leader, h.safe.acked_term, h.safe.acked_le, h.safe.acked_current,
    h.safe.acked_log, h.safe.vote_keeps, h.safe.complete, ?_⟩
  intro q h0
  by_cases hqp : q = p
  · subst hqp
    simp only [update_self] at h0 ⊢
    rcases le_total (s.commit q) c with hle | hle
    · rw [max_eq_right hle]
      exact ⟨T, n, ⟨Q, hQ, hack⟩, hb, hT, hc, hpre⟩
    · rw [max_eq_left hle] at h0 ⊢
      exact h.safe.commit_chosen q h0
  · simp only [update_of_ne hqp] at h0 ⊢
    exact h.safe.commit_chosen q h0

/-- **Every step preserves the invariant.** -/
theorem Inv.step (hs : Step S s s') : Inv S s' := by
  refine ⟨h.records.step hs, h.logs.step h.records hs, ?_⟩
  cases hs with
  | campaign p => exact Safe.campaign h p _ rfl (Step.campaign p)
  | adopt p T hT => exact Safe.adopt h p T hT
  | vote p c T l hT hv hc hup => exact Safe.vote h hT hv hc hup
  | elect c T Q hQ hv hT hc hno => exact Safe.elect h hQ hv hT hc hno
  | propose c T es hl hT hes => exact Safe.propose h hl hT hes
  | accept p T l hl hT hpre hlen => exact Safe.accept h hl hT hpre hlen
  | ack p T n hl hT hn hpre => exact Safe.ack h hl hT hn hpre
  | commit p T n c Q hQ hack hb hT hc hpre => exact Safe.commit h hQ hack hb hT hc hpre

theorem Inv.steps (hs : Steps S s s') : Inv S s' := by
  induction hs with
  | refl => exact h
  | tail _ hstep ih => exact ih.step hstep

end

theorem Steps.commit_le (hs : Steps S s s') (p : N) : s.commit p ≤ s'.commit p := by
  induction hs with
  | refl => exact le_rfl
  | tail _ hstep ih =>
    refine ih.trans ?_
    cases hstep with
    | commit q T n c Q hQ hack hb hT hc hpre =>
      simp only [update_apply]
      split
      · rename_i heq
        rw [heq]
        exact le_max_left _ _
      · exact le_rfl
    | _ => exact le_rfl

end DucklingDB.Consensus
