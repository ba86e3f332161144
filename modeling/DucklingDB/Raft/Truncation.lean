import DucklingDB.Raft.Run
import DucklingDB.Raft.Shape
import DucklingDB.Util.Along

/-!
# What an append may cut

`RaftLog.append` cuts the unstable entries at the first received index, whether or not the entry
there conflicts. A message that repeats a prefix of what the node has therefore takes the rest away,
the committed part included. `Fits` says of a message that it does no such harm; as long as every
message fits, the commit index stays inside the log and entries that match remove nothing.
-/

namespace DucklingDB.Raft

open List LSMLogStorage

namespace RaftLog

variable {l : RaftLog} {es : List Entry} {f k : ℕ}

/-- The commit index lies inside the log, and the unstable entries are numbered consecutively. -/
structure Covered (l : RaftLog) : Prop where
  committed_le : l.committed ≤ l.lastIndex
  numbered : ∃ k, Contiguous k l.unstable
  snap_le : l.storage.loadSnapshotMeta.index ≤ l.applied

/-! ## Appending -/

theorem lastIndex_of_getLast {e : Entry} (h : l.unstable.getLast? = some e) :
    l.lastIndex = e.index := by
  rw [lastIndex, h]

/-- Whatever is cut, the new entries are the end of the log. -/
theorem append_unstable (l : RaftLog) (es : List Entry) :
    ∃ kept, (l.append es).unstable = kept ++ es := by
  rw [append]
  split
  · rename_i hnil
    exact ⟨l.unstable, by rw [head?_eq_none_iff.mp hnil, append_nil]⟩
  · split
    · split <;> exact ⟨_, rfl⟩
    · exact ⟨_, rfl⟩

theorem lastIndex_append (hne : es ≠ []) (hes : Contiguous f es) :
    (l.append es).lastIndex + 1 = f + es.length := by
  obtain ⟨kept, hkept⟩ := append_unstable l es
  have hlast : (l.append es).unstable.getLast? = some (es.getLast hne) := by
    rw [hkept, getLast?_append_of_ne_nil _ hne, getLast?_eq_some_getLast hne]
  have hpos : 0 < es.length := length_pos_of_ne_nil hne
  have hget : es[es.length - 1]? = some (es.getLast hne) := by
    rw [← getLast?_eq_getElem?, getLast?_eq_some_getLast hne]
  rw [lastIndex_of_getLast hlast, hes _ _ hget]
  omega

/-- Entries that attach to the log leave the unstable ones consecutive. -/
theorem numbered_append (hc : Contiguous k l.unstable) (hes : Contiguous f es)
    (hf : f ≤ l.lastIndex + 1) : ∃ k', Contiguous k' (l.append es).unstable := by
  rw [append]
  split
  · exact ⟨k, hc⟩
  · rename_i e he
    have hei : e.index = f := by
      rw [head?_eq_getElem?] at he
      rw [hes 0 e he, Nat.add_zero]
    split
    · rename_i first last hfirst hlast
      have hfi : first.index = k := by
        rw [head?_eq_getElem?] at hfirst
        rw [hc 0 first hfirst, Nat.add_zero]
      have hla : last.index + 1 = k + l.unstable.length := by
        rw [getLast?_eq_getElem?] at hlast
        have := (List.getElem?_eq_some_iff.mp hlast).1
        rw [hc _ last hlast]
        omega
      have hll := lastIndex_of_getLast hlast
      split
      · by_cases hfk : k ≤ f
        · refine ⟨k, (hc.take _).append ?_⟩
          have hlen : (l.unstable.take (e.index - first.index)).length = f - k := by
            rw [length_take, hei, hfi]
            omega
          rwa [hlen, show k + (f - k) = f by omega]
        · refine ⟨f, ?_⟩
          rw [hei, hfi, Nat.sub_eq_zero_of_le (by omega), take_zero, nil_append]
          exact hes
      · refine ⟨k, hc.append ?_⟩
        rwa [show k + l.unstable.length = f by omega]
    · rename_i hno
      have hnil : l.unstable = [] := by
        by_contra hne
        exact hno _ _ (head?_eq_some_head hne) (getLast?_eq_some_getLast hne)
      refine ⟨f, ?_⟩
      rwa [hnil, nil_append]

/-! ## The covered logs -/

namespace Covered

section

variable (h : l.Covered)
include h

theorem of_append (hes : Contiguous f es) (hf : f ≤ l.lastIndex + 1)
    (hend : l.committed + 1 ≤ f + es.length) : (l.append es).Covered := by
  obtain ⟨k, hc⟩ := h.numbered
  obtain ⟨u, hu⟩ := l.append_eq es
  refine ⟨?_, numbered_append hc hes hf, ?_⟩
  · rw [append_committed]
    by_cases hne : es = []
    · rw [hne, append]
      exact h.committed_le
    · have := lastIndex_append (l := l) hne hes
      omega
  · rw [hu]
    exact h.snap_le

theorem extend (hes : Contiguous (l.lastIndex + 1) es) : (l.append es).Covered :=
  h.of_append hes le_rfl (by have := h.committed_le; omega)

theorem commitTo {n : ℕ} (hn : n ≤ l.lastIndex) : (l.commitTo n).Covered := by
  rw [commitTo_eq]
  exact ⟨max_le h.committed_le hn, h.numbered, h.snap_le⟩

theorem truncate {s : LSMLogStorage} (hs : LSMLogStorage.Truncates l.storage s)
    (hsnap : s.loadSnapshotMeta.index ≤ l.applied) : RaftLog.Covered { l with storage := s } := by
  refine ⟨h.committed_le.trans ?_, h.numbered, hsnap⟩
  simp only [lastIndex]
  split
  · exact le_rfl
  · have := hs.lastIndex_le
    split <;> split <;> omega

theorem restore {snap : Snapshot} (hnew : l.committed < snap.metadata.index) :
    (l.restore snap).1.Covered := by
  obtain ⟨k, hc⟩ := h.numbered
  rw [RaftLog.restore, if_neg (not_le.mpr hnew)]
  obtain ⟨n, hn⟩ : ∃ n, l.unstable.dropWhile (·.index ≤ snap.metadata.index) = l.unstable.drop n :=
    ⟨_, dropWhile_eq_drop_findIdx_not⟩
  have hrest := hc.drop n
  refine ⟨?_, ⟨k + n, by simp only [hn]; exact hrest⟩, h.snap_le.trans (le_max_left _ _)⟩
  simp only [lastIndex]
  split
  · rename_i e he
    obtain ⟨first, hfirst⟩ : ∃ first, (l.unstable.dropWhile
        (·.index ≤ snap.metadata.index)).head? = some first := by
      cases hd : l.unstable.dropWhile (·.index ≤ snap.metadata.index) with
      | nil => cases hd ▸ he
      | cons x xs => exact ⟨x, rfl⟩
    have hgt : ¬first.index ≤ snap.metadata.index := by
      have hfail := head?_dropWhile_not (fun x : Entry ↦ decide (x.index ≤ snap.metadata.index))
        l.unstable
      rw [hfirst] at hfail
      simpa using hfail
    rw [hn] at hfirst he
    rw [head?_eq_getElem?] at hfirst
    have hfi := hrest 0 first hfirst
    have hle := (hrest.index_mem (mem_of_getLast? he)).1
    omega
  · split
    · exact le_rfl
    · omega

end

end Covered

end RaftLog

/-! ## Moves -/

namespace RawNode

variable {sent : Message → Prop} {ok : RawNode → Message → Prop} {rn rn' : RawNode}

theorem Move.log_covered (h : Move sent ok rn rn') (hc : rn.log.Covered) : rn'.log.Covered := by
  cases h with
  | win hst hq => exact hc.extend (.cons rfl (.nil _))
  | grant m hm hty hT hg hok =>
    rw [grantVote, if_pos hty]
    exact hc
  | propose es hst => exact hc.extend (propEntries_contiguous rn es)
  | commit n hst hn hc' ht hq => exact hc.commitTo hn
  | heartbeat m hm hty hT => exact hc.commitTo (min_le_right _ _)
  | snapshot data =>
    obtain ⟨s, hs, ht, hle⟩ := createSnapshot_truncates hc.snap_le data
    rw [hs]
    exact hc.truncate ht hle
  | compact =>
    exact hc.truncate (truncates_compact (compactableIndex_le rn _))
      (by rw [compact_meta]; exact hc.snap_le)
  | _ => exact hc

theorem Moves.log_covered (h : Moves sent ok rn rn') (hc : rn.log.Covered) : rn'.log.Covered := by
  induction h with
  | refl => exact hc
  | tail _ hmove ih => exact hmove.log_covered ih

theorem Finish.log_covered {okLog : RaftLog → Message → Prop} (h : Finish sent okLog rn rn')
    (hc : rn.log.Covered) (hsent : ∀ m, sent m → m.type ≠ .app) : rn'.log.Covered := by
  cases h with
  | keep => exact hc
  | accept m hm hty => exact absurd hty (hsent m hm)
  | restore m hm hty hT hst hnew hok => exact hc.restore hnew
  | covered m hm hty hT => exact hc

/-! ## Acting on an append -/

/-- The entries of a message are those of the log. -/
def Matches (l : RaftLog) (m : Message) : Prop :=
  ∀ e ∈ m.entries, e.index ≤ l.lastIndex ∧ l.term e.index = .ok e.term

instance (l : RaftLog) (m : Message) : Decidable (Matches l m) := List.decidableBAll _ _

variable (rn : RawNode) {m : Message}

/-- An append that the node accepts attaches to its log, and if it carries entries it reaches the
end of the log, or the commit index if it is not a repetition. -/
def Fits (m : Message) : Prop :=
  rn.Accepts m → m.index ≤ rn.log.lastIndex ∧
    (m.entries ≠ [] → rn.log.committed ≤ m.index + m.entries.length ∧
      (Matches rn.log m → rn.log.lastIndex ≤ m.index + m.entries.length))

instance (rn : RawNode) (m : Message) : Decidable (rn.Fits m) :=
  inferInstanceAs (Decidable (_ → _))

theorem appendedLog_covered {l : RaftLog} (h : l.Covered)
    (hnum : Contiguous (m.index + 1) m.entries) (hidx : m.index ≤ l.lastIndex)
    (hend : m.entries ≠ [] → l.committed ≤ m.index + m.entries.length) :
    (appendedLog l m).Covered := by
  have hcommit : ∀ l' : RaftLog, l'.Covered →
      (if m.commit > l'.committed then l'.commitTo (min m.commit l'.lastIndex)
      else l').Covered := by
    intro l' h'
    split
    · exact h'.commitTo (min_le_right _ _)
    · exact h'
  refine hcommit (if m.entries = [] then l else l.append m.entries) ?_
  split
  · exact h
  · rename_i hne
    exact h.of_append hnum (by omega) (by have := hend hne; omega)

/-- A follower's log changes by the appends it accepts and by nothing else in an append. -/
theorem step_app_log (rnd : ℕ) (hty : m.type = .app) :
    (rn.step rnd m).log = if rn.Accepts m then appendedLog rn.log m else rn.log := by
  have key : ∀ rn₁ : RawNode, rn₁.log = rn.log →
      (rn₁.term = rn.term ∨ rn₁.term = m.term ∧ rn.term < m.term) →
      (rn₁.stepApp rnd m).log = if rn.Accepts m then appendedLog rn.log m else rn.log := by
    intro rn₁ hlog hterm
    have hprev : (rn₁.becomeFollower rnd m.term m.src).matchesPrev m = rn.matchesPrev m := by
      rw [matchesPrev, matchesPrev, becomeFollower, hlog]
    rw [stepApp]
    split
    · rename_i hlt
      rw [if_neg (fun hacc : rn.Accepts m ↦ by have := hacc.2.1; omega)]
      exact hlog
    · rename_i hge
      simp only [hprev]
      split
      · rename_i hno
        rw [if_neg (fun hacc : rn.Accepts m ↦ by rw [hacc.2.2] at hno; cases hno)]
        exact hlog
      · rename_i hyes
        rw [if_pos ⟨hty, by omega, by simpa using hyes⟩]
        exact congrArg (appendedLog · m) hlog
  rw [step]
  cases hT : rn.handleTerm rnd m with
  | none =>
    -- the early return is for votes only
    rw [handleTerm] at hT
    simp [hty] at hT
    split at hT <;> cases hT
  | some rn₁ =>
    simp only [dispatch, hty]
    obtain ⟨rfl, -⟩ | ⟨hlt, rfl⟩ := handleTerm_cases hT
    · exact key _ rfl (.inl rfl)
    · exact key _ rfl (.inr ⟨rfl, hlt⟩)

/-! ## Runs -/

/-- A call of `Tick` or `Step`. -/
inductive Input where
  | tick (rnd : ℕ)
  | step (m : Message) (rnd : ℕ)

/-- The node after a call. -/
def call : Input → RawNode
  | .tick rnd => rn.tick rnd
  | .step m rnd => rn.step rnd m

/-- The node after a sequence of calls. -/
def calls (inputs : List Input) : RawNode := inputs.foldl call rn

/-- A message fits the node that steps on it. -/
def FitsInput : Input → Prop
  | .tick _ => True
  | .step m _ => rn.Fits m

instance (rn : RawNode) : (i : Input) → Decidable (rn.FitsInput i)
  | .tick _ => inferInstanceAs (Decidable True)
  | .step m _ => inferInstanceAs (Decidable (rn.Fits m))

theorem tick_covered {rn : RawNode} (h : rn.log.Covered) (rnd : ℕ) : (rn.tick rnd).log.Covered := by
  obtain ⟨rn₀, hbegin, hmoves⟩ : ∃ rn₀, Begins rn rn₀ ∧
      Moves (fun _ ↦ True) (fun _ _ ↦ True) rn₀ (rn.tick rnd) := tick_moves rnd
  refine hmoves.log_covered ?_
  rw [hbegin.log]
  exact h

theorem step_covered {rn : RawNode} (h : rn.log.Covered) (hnum : m.WellNumbered)
    (hfit : rn.Fits m) (rnd : ℕ) : (rn.step rnd m).log.Covered := by
  by_cases hty : m.type = .app
  · rw [step_app_log rn rnd hty]
    split
    · rename_i hacc
      obtain ⟨hidx, hend⟩ := hfit hacc
      exact appendedLog_covered h (hnum hty) hidx fun hne ↦ (hend hne).1
    · exact h
  · obtain ⟨rn₀, rn₁, hbegin, hmoves, hfinish⟩ : ∃ rn₀ rn₁, Begins rn rn₀ ∧
        Moves (· = m) (fun _ _ ↦ True) rn₀ rn₁ ∧
        Finish (· = m) (fun _ _ ↦ True) rn₁ (rn.step rnd m) :=
      step_moves rfl (fun _ _ ↦ trivial) trivial
    have hc : rn₁.log.Covered := hmoves.log_covered (by rw [hbegin.log]; exact h)
    exact hfinish.log_covered hc fun m' hm' ↦ hm' ▸ hty

theorem call_covered {rn : RawNode} (h : rn.log.Covered) {i : Input}
    (hnum : ∀ m rnd, i = .step m rnd → m.WellNumbered) (hfit : rn.FitsInput i) :
    (rn.call i).log.Covered := by
  cases i with
  | tick rnd => exact tick_covered h rnd
  | step m rnd => exact step_covered h (hnum m rnd rfl) hfit rnd

/-- Entries that match remove nothing if the message fits. -/
theorem step_matches {rn : RawNode} (hty : m.type = .app) (hfit : rn.Fits m)
    (hmatch : Matches rn.log m) (rnd : ℕ) {i : ℕ} (hend : m.index + m.entries.length < i)
    (hi : i ≤ rn.log.lastIndex) :
    i ≤ (rn.step rnd m).log.lastIndex ∧ (rn.step rnd m).log.term i = rn.log.term i := by
  rw [step_app_log rn rnd hty]
  split
  · rename_i hacc
    by_cases hne : m.entries = []
    · rw [appendedLog, if_pos hne]
      rw [RaftLog.commitTo_eq]
      split <;> exact ⟨hi, rfl⟩
    · have := ((hfit hacc).2 hne).2 hmatch
      omega
  · exact ⟨hi, rfl⟩

/-- **Committed entries are not cut**, and neither is what follows entries that match, in every run
of a node whose messages all fit. -/
theorem committed_not_cut {rn : RawNode} (h : rn.log.Covered) {inputs : List Input}
    (hnum : ∀ m rnd, Input.step m rnd ∈ inputs → m.WellNumbered)
    (hfit : Along call FitsInput rn inputs) :
    (∀ past, past <+: inputs → (rn.calls past).log.committed ≤ (rn.calls past).log.lastIndex) ∧
    ∀ past m rnd, past ++ [.step m rnd] <+: inputs → m.type = .app →
      Matches (rn.calls past).log m → ∀ i, m.index + m.entries.length < i →
        i ≤ (rn.calls past).log.lastIndex →
        i ≤ (rn.calls (past ++ [.step m rnd])).log.lastIndex ∧
          (rn.calls (past ++ [.step m rnd])).log.term i = (rn.calls past).log.term i := by
  constructor
  · intro past hpast
    have hall : Along call (fun rn i ↦ (∀ m rnd, i = .step m rnd → m.WellNumbered) ∧ rn.FitsInput i)
        rn past := by
      have hfit' := hfit.of_prefix hpast
      have hnum' : ∀ m rnd, Input.step m rnd ∈ past → m.WellNumbered :=
        fun m rnd hm ↦ hnum m rnd (hpast.subset hm)
      clear hfit hnum hpast h
      induction past generalizing rn with
      | nil => trivial
      | cons i past ih =>
        exact ⟨⟨fun m rnd hi ↦ hnum' m rnd (hi ▸ mem_cons_self), hfit'.1⟩,
          ih hfit'.2 fun m rnd hm ↦ hnum' m rnd (.tail _ hm)⟩
    have hcov : (rn.calls past).log.Covered :=
      hall.invariant (I := fun rn ↦ rn.log.Covered) h fun rn i hc hi ↦ call_covered hc hi.1 hi.2
    exact hcov.committed_le
  · intro past m rnd hpast hty hmatch i hend hi
    have hstep : rn.calls (past ++ [.step m rnd]) = (rn.calls past).step rnd m := by
      rw [calls, foldl_append]
      rfl
    rw [hstep]
    exact step_matches hty ((along_concat _ _ _).mp (hfit.of_prefix hpast)).2 hmatch rnd hend hi

end RawNode

/-- Two appends that extend the log of a fresh node and a repetition of the second. -/
def fittingInputs : List RawNode.Input :=
  [.tick 0,
    .step { type := .app, src := 1, dst := 2, term := 1
            entries := [{ term := 1, index := 1 }, { term := 1, index := 2 }] } 0,
    .step { type := .app, src := 1, dst := 2, term := 1, index := 2, logTerm := 1, commit := 2
            entries := [{ term := 1, index := 3 }] } 0,
    .step { type := .app, src := 1, dst := 2, term := 1, index := 2, logTerm := 1, commit := 2
            entries := [{ term := 1, index := 3 }] } 0]

theorem wellNumbered_fittingInputs (m : Message) (rnd : ℕ)
    (hm : RawNode.Input.step m rnd ∈ fittingInputs) : m.WellNumbered := by
  intro hty i x hx
  simp only [fittingInputs, mem_cons, RawNode.Input.step.injEq, reduceCtorEq, false_or,
    not_mem_nil, or_false] at hm
  obtain ⟨rfl, -⟩ | ⟨rfl, -⟩ | ⟨rfl, -⟩ := hm <;>
    rcases i with _ | _ | _ <;> simp at hx <;> simp [← hx]

theorem committed_not_cut_fittingInputs :
    ((newRawNode 2 [1, 2, 3] {} 0).calls fittingInputs).log.committed ≤
      ((newRawNode 2 [1, 2, 3] {} 0).calls fittingInputs).log.lastIndex := by
  have hfit : Along RawNode.call RawNode.FitsInput (newRawNode 2 [1, 2, 3] {} 0) fittingInputs := by
    decide +kernel
  exact (RawNode.committed_not_cut ⟨le_rfl, ⟨0, .nil 0⟩, le_rfl⟩
    wellNumbered_fittingInputs hfit).1 _
    (prefix_refl _)

/-! ## A cut -/

/-- Node `1` is elected in term `1` and replicates its first entry and two proposals to node `2`,
which learns that the second entry is committed. -/
def replicatedPair : List Action :=
  Action.elect 1 2 1 0 0 ++
  [.append 1 2 1 0 0 0 [{ term := 1, index := 1 }], .ack 1 2 1 1,
    .propose 1 (some [1]) 0, .append 1 2 1 1 1 1 [{ term := 1, index := 2, data := some [1] }],
    .ack 1 2 1 2, .propose 1 (some [2]) 0,
    .append 1 2 1 2 1 2 [{ term := 1, index := 3, data := some [2] }]]

/-- The first append of `replicatedPair`, delivered once more. -/
def repeatedAppend : Message :=
  { type := .app, src := 1, dst := 2, term := 1, entries := [{ term := 1, index := 1 }] }

/-- An append that only repeats what the node has: it was sent by the leader of its term, its entry
matches, and it cuts the log below the commit index. -/
theorem exists_cut :
    ∃ c, (Cluster.init threeNodes).run threeNodes replicatedPair = some c ∧ repeatedAppend ∈ c.net ∧
      RawNode.Matches (c.nodes 2).log repeatedAppend ∧ (c.nodes 2).log.lastIndex = 3 ∧
      ((c.nodes 2).step 0 repeatedAppend).log.lastIndex = 1 ∧
      ((c.nodes 2).step 0 repeatedAppend).log.committed = 2 := by
  decide +kernel

end DucklingDB.Raft
