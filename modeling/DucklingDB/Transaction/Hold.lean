import DucklingDB.Transaction.Atomicity

/-!
# A transaction holds its intents

Once a transaction has written a key, its intent on the key stays while its record is pending: it
may be pushed, but only the end of the transaction, and a rival that has aborted the record before,
take it away (`Holds`). That needs neither that intents are rewritten in place nor anything of the
other transactions. It needs of the transaction itself that it does not write after it was aborted,
since that makes the record pending again while the intent may be gone (`Spares`).

Two things follow. A transaction that holds an intent at its read timestamp reads its own write. And
of two transactions that have both written a key, before either of them has committed, one has been
aborted: the second one could not have laid its intent otherwise (`Contested`).
-/

namespace DucklingDB.Transaction

open Function List Option State

variable {ι κ τ ν : Type*} [DecidableEq ι] [DecidableEq κ] [LinearOrder τ]

/-- There is an intent of `t` on `k` if `t` has written `k` and its record is pending. -/
def Holds (t : ι) (k : κ) (s : State ι κ τ ν) : Prop :=
  ∀ x, s.txns t = some x → lastWrite x.ops k ≠ none → x.record.status = .pending →
    (s.cells k).owner = some t

/-- `t` does not write after it was aborted. -/
def Spares (t : ι) (s : State ι κ τ ν) : Move ι κ τ ν → Prop
  | .write t' _ _ => t' = t → ∀ x, s.txns t = some x → x.record.status ≠ .aborted
  | _ => True

section Holds

variable {s s' : State ι κ τ ν} {mv : Move ι κ τ ν} {t : ι} {k : κ} {w : Option ν} {x : Txn κ τ ν}

omit [DecidableEq ι] [DecidableEq κ] [LinearOrder τ] in
theorem spares_of_ne (h : ∀ t k w, mv ≠ .write t k w) : Spares t s mv := by
  cases mv with
  | write _ _ _ => exact absurd rfl (h _ _ _)
  | _ => trivial

variable {t' : ι}

section

variable (h : Holds t k s)
include h

omit [LinearOrder τ] in
theorem Holds.setTxn {y y' : Txn κ τ ν} (hy : s.txns t' = some y)
    (hops : lastWrite y'.ops k = lastWrite y.ops k)
    (hst : y'.record.status = .pending → y.record.status = .pending) :
    Holds t k (s.setTxn t' y') := by
  intro x hx hw hp
  rcases update_txn hx with ⟨rfl, rfl⟩ | ⟨-, hx⟩
  · exact h y hy (hops ▸ hw) (hst hp)
  · exact h x hx hw hp

section

omit [DecidableEq ι] [LinearOrder τ]

/-- A step that changes the cells: the intent of `t` on `k` stays if there is one. -/
theorem Holds.setCells {cells : κ → Cell ι τ ν}
    (hc : ∀ x, s.txns t = some x → x.record.status = .pending → (s.cells k).owner = some t →
      (cells k).owner = some t) :
    Holds t k { s with cells := cells } :=
  fun x hx hw hp ↦ hc x hx hp (h x hx hw hp)

theorem Holds.setCell {k' : κ} {c : Cell ι τ ν}
    (hc : k' = k → ∀ x, s.txns t = some x → x.record.status = .pending →
      (s.cells k).owner = some t → c.owner = some t) :
    Holds t k (s.setCell k' c) := by
  refine h.setCells fun x hx hp hown ↦ ?_
  by_cases heq : k = k'
  · subst heq
    rw [update_self]
    exact hc rfl x hx hp hown
  · rw [update_of_ne heq]
    exact hown

end

omit [LinearOrder τ] in
theorem Holds.finish {f : κ → Cell ι τ ν → Cell ι τ ν} {y : Txn κ τ ν} {c : Copy τ}
    (hy : s.txns t' = some y) (hend : c.status ≠ .pending) :
    Holds t k ((s.setTxn t' { y with record := c, held := c }).mapOwned t' f) := by
  have h' : Holds t k (s.setTxn t' { y with record := c, held := c }) :=
    h.setTxn hy rfl fun hp ↦ absurd hp hend
  refine h'.setCells fun x hx hp hown ↦ ?_
  rw [setTxn_cells] at hown ⊢
  have hno : (s.cells k).owner ≠ some t' := by
    rw [hown]
    intro heq
    obtain rfl := Option.some.inj heq
    obtain rfl := mem_unique hx (update_self ..)
    exact hend hp
  rw [if_neg hno, hown]

/-- **A step leaves the intents of a pending transaction in place.** -/
theorem Holds.step (hinv : Inv s) (hs : Step s mv s') (hsp : Spares t s mv) : Holds t k s' := by
  by_cases hm : mv.IsMinor
  · obtain ⟨t', y, y', hy, rfl, hev, -, hst, -⟩ := hs.minor hinv hm
    exact h.setTxn hy (hev k).lastWrite hst
  cases hs with
  | start ht =>
    intro x hx hw hp
    rcases update_txn hx with ⟨-, rfl⟩ | ⟨-, hx⟩
    · exact absurd rfl hw
    · exact h x hx hw hp
  | @push k' t' ts w' y hi _ _ _ =>
    refine h.setCell fun heq _ _ _ hown ↦ ?_
    subst heq
    rw [← hown, push_eq hi]
    simp [Cell.owner, hi]
  | @clean k' t' ts y prev hi hy ha _ =>
    refine h.setCell fun heq x hx hp hown ↦ ?_
    subst heq
    -- the owner is aborted, and `t` is not
    obtain ⟨ts', hi'⟩ := owner_eq_some.mp hown
    obtain ⟨rfl, -⟩ := Prod.mk.inj (mem_unique hi hi')
    obtain rfl := mem_unique hx hy
    cases hp.symm.trans ha
  | @write t' y k' w' hy hh hadm =>
    intro x hx hw hp
    rw [setCell_cells, update_apply]
    rcases update_txn hx with ⟨rfl, rfl⟩ | ⟨hne, hx⟩
    · split
      · rfl
      · rename_i hkk
        have hr := (hinv.txn hy).pending hh (hsp rfl y hy)
        exact h y hy (by rwa [lastWrite_concat_write_of_ne (Ne.symm hkk)] at hw) hr
    · have hown := h x hx hw hp
      split
      · -- there is no room for an intent of another transaction
        rename_i hkk
        subst hkk
        obtain ⟨ts, hi⟩ := owner_eq_some.mp hown
        rcases hadm with ⟨hnone, -⟩ | ⟨ts', hi'⟩
        · cases hnone.symm.trans hi
        · exact absurd (congrArg Prod.fst (mem_unique hi hi')) hne
      · exact hown
  | commit hy _ _ | abort hy _ _ => exact h.finish hy (by simp)
  | bump _ _ _ | refresh _ _ | kill _ _ | pushRecord _ _ _ | read _ _ _ => exact absurd trivial hm

/-- **A run leaves the intents of a pending transaction in place.** -/
theorem Holds.steps {G : State ι κ τ ν → Move ι κ τ ν → Prop} (hinv : Inv s) (hs : Steps G s s')
    (hG : ∀ s mv, G s mv → Spares t s mv) : Holds t k s' := by
  induction hs with
  | refl => exact h
  | tail hrun hg hstep ih => exact ih.step (hinv.steps hrun) hstep (hG _ _ hg)

end

theorem Step.holds (hs : Step s (.write t k w) s') :
    Holds t k s' ∧ ∃ x, s'.txns t = some x ∧ lastWrite x.ops k = some w := by
  cases hs with
  | write hx _ _ =>
    refine ⟨fun _ _ _ _ ↦ ?_, _, update_self .., lastWrite_concat_write w⟩
    rw [setCell_cells, update_self]
    rfl

omit [DecidableEq ι] in
/-- **A transaction reads its own write** if it holds the intent at or below its read timestamp. -/
theorem Inv.shows_own (hinv : Inv s) (hx : s.txns t = some x) {ts : τ}
    (hi : (s.cells k).intent = some (t, ts)) (hle : ts ≤ x.read) {r : Option ν}
    (hs : (s.cells k).Shows (some t) x.read r) : lastWrite x.ops k = some r := by
  obtain ⟨hst, y, v, hy, -, hv, hver, hge⟩ := (hinv.cell k).intent hi
  obtain rfl := mem_unique hx hy
  rw [hv]
  obtain ⟨-, ⟨hnone, -⟩ | ⟨-, ⟨u, hu, hur, hmax⟩ | ⟨hnone, -⟩⟩⟩ := hs
  · cases hst.symm.trans hnone
  · -- the newest version at the read timestamp is the intent
    obtain rfl : u = ts := le_antisymm (hu.trans hge) (hmax ts v hle hver)
    exact hver.symm.trans hur
  · cases (hnone ts hle).symm.trans hver

/-! ## Two writers of one key -/

/-- `k` is read, and written later. -/
def Updates (k : κ) (ops : List (Op κ ν)) : Prop :=
  ∃ ops₁ w ops₂, ops = ops₁ ++ .write k w :: ops₂ ∧ reads ops₁ k = true

variable {ops : List (Op κ ν)}

omit [DecidableEq ι] [DecidableEq κ] [LinearOrder τ] in
theorem concat_eq_split {op op' : Op κ ν} {ops₁ ops₂ : List (Op κ ν)}
    (h : ops ++ [op] = ops₁ ++ op' :: ops₂) :
    ops = ops₁ ∧ op = op' ∨ ∃ ops₃, ops = ops₁ ++ op' :: ops₃ := by
  rcases eq_nil_or_concat ops₂ with rfl | ⟨ops₃, op'', rfl⟩
  · obtain ⟨hops, hop⟩ := append_inj' h rfl
    exact .inl ⟨hops, singleton_inj.mp hop⟩
  · rw [concat_eq_append, ← cons_append, ← append_assoc] at h
    exact .inr ⟨ops₃, (append_inj' h rfl).1⟩

section

omit [DecidableEq ι] [LinearOrder τ]

theorem updates_concat {op : Op κ ν} (h : Updates k (ops ++ [op])) :
    Updates k ops ∨ ∃ w, op = .write k w ∧ reads ops k = true := by
  obtain ⟨ops₁, w, ops₂, heq, hr⟩ := h
  obtain ⟨rfl, rfl⟩ | ⟨ops₃, rfl⟩ := concat_eq_split heq
  · exact .inr ⟨w, rfl, hr⟩
  · exact .inl ⟨ops₁, w, ops₃, rfl, hr⟩

theorem Updates.lastWrite_ne_none (h : Updates k ops) : lastWrite ops k ≠ none := by
  obtain ⟨ops₁, w, ops₂, rfl, -⟩ := h
  rw [append_cons, lastWrite_append, lastWrite_concat_write]
  cases lastWrite ops₂ k <;> simp

theorem Updates.ne_nil (h : Updates k ops) : ops ≠ [] := by
  rintro rfl
  exact h.lastWrite_ne_none rfl

end

variable {x' : Txn κ τ ν}

theorem Step.exists_old (hs : Step s mv s') (hno : ∀ r, mv ≠ .start t r)
    (hx' : s'.txns t = some x') : ∃ x, s.txns t = some x := by
  cases hs with
  | @start t' r _ =>
    rcases update_txn hx' with ⟨rfl, -⟩ | ⟨-, hx'⟩
    · exact absurd rfl (hno r)
    · exact ⟨x', hx'⟩
  | push _ _ _ _ | clean _ _ _ _ => exact ⟨x', hx'⟩
  | bump hy _ _ | refresh hy _ | kill hy _ | pushRecord hy _ _ | write hy _ _ | read hy _ _
  | commit hy _ _ | abort hy _ _ =>
    rcases update_txn hx' with ⟨rfl, -⟩ | ⟨-, hx'⟩
    · exact ⟨_, hy⟩
    · exact ⟨x', hx'⟩

/-- A transaction that has done something was there before the step. -/
theorem Step.exists_of_ops (hs : Step s mv s') (hx' : s'.txns t = some x') (hops : x'.ops ≠ []) :
    ∃ x, s.txns t = some x := by
  refine hs.exists_old ?_ hx'
  rintro r rfl
  cases hs with
  | start _ =>
    rcases update_txn hx' with ⟨-, rfl⟩ | ⟨hne, -⟩
    · exact hops rfl
    · exact hne rfl

/-- `x` may become `x'` without a write: it is not revived, and has written nothing. -/
structure Ages (x x' : Txn κ τ ν) : Prop where
  aborted : x.record.status = .aborted → x'.record.status = .aborted
  updates : ∀ {k}, Updates k x'.ops → Updates k x.ops
  lastWrite : ∀ k, lastWrite x'.ops k = lastWrite x.ops k

omit [DecidableEq ι] [LinearOrder τ] in
theorem Ages.refl (x : Txn κ τ ν) : Ages x x := ⟨fun h ↦ h, fun h ↦ h, fun _ ↦ rfl⟩

omit [LinearOrder τ] in
theorem ages_update {txns : ι → Option (Txn κ τ ν)} {y y' : Txn κ τ ν} (hx : txns t = some x)
    (ha : Ages x x') (hy : txns t' = some y) (hy' : update txns t (some x') t' = some y') :
    Ages y y' := by
  rcases update_txn hy' with ⟨rfl, rfl⟩ | ⟨-, hy'⟩
  · obtain rfl := mem_unique hx hy
    exact ha
  · obtain rfl := mem_unique hy hy'
    exact .refl y

/-- What a step does to a transaction, other than a write of its own. -/
theorem Step.ages (hs : Step s mv s') (hno : ∀ k w, mv ≠ .write t k w) (hx : s.txns t = some x)
    (hx' : s'.txns t = some x') : Ages x x' := by
  cases hs with
  | start ht =>
    obtain rfl := mem_unique (update_of_none ht hx) hx'
    exact .refl x
  | push _ _ _ _ | clean _ _ _ _ =>
    obtain rfl := mem_unique hx hx'
    exact .refl x
  | bump hy _ _ | refresh hy _ | pushRecord hy _ _ =>
    refine ages_update hy ?_ hx hx'
    exact ⟨fun h ↦ h, fun h ↦ h, fun _ ↦ rfl⟩
  | kill hy _ | abort hy _ _ =>
    refine ages_update hy ?_ hx hx'
    exact ⟨fun _ ↦ rfl, fun h ↦ h, fun _ ↦ rfl⟩
  | read hy _ _ =>
    refine ages_update hy ?_ hx hx'
    refine ⟨fun h ↦ h, fun h ↦ (updates_concat h).resolve_right ?_,
      fun k ↦ lastWrite_concat_read _ _⟩
    rintro ⟨_, heq, -⟩
    cases heq
  | commit hy _ hr =>
    refine ages_update hy ?_ hx hx'
    exact ⟨fun ha ↦ absurd (hr.symm.trans ha) (by simp), fun h ↦ h, fun _ ↦ rfl⟩
  | @write t' y k' w' hy _ _ =>
    have hne : t ≠ t' := by
      rintro rfl
      exact hno k' w' rfl
    obtain rfl := mem_unique ((update_of_ne hne ..).trans hx) hx'
    exact .refl x

/-- The last write of `k` stays the same until the next one. -/
theorem Step.lastWrite_eq (hs : Step s mv s') (hno : ∀ w, mv ≠ .write t k w)
    (hx : s.txns t = some x) :
    ∃ x', s'.txns t = some x' ∧ lastWrite x'.ops k = lastWrite x.ops k := by
  by_cases hw : ∃ k' w, mv = .write t k' w
  · obtain ⟨k', w, rfl⟩ := hw
    have hne : k' ≠ k := by
      rintro rfl
      exact hno w rfl
    cases hs with
    | write hy _ _ =>
      obtain rfl := mem_unique hx hy
      exact ⟨_, update_self .., lastWrite_concat_write_of_ne hne w⟩
  · push Not at hw
    obtain ⟨x', hx', -⟩ := hs.prefix hx
    exact ⟨x', hx', (hs.ages hw hx hx').lastWrite k⟩

/-- Of two transactions that have updated `k`, one has been aborted. -/
def Contested (t t' : ι) (k : κ) (s : State ι κ τ ν) : Prop :=
  ∀ x y, s.txns t = some x → s.txns t' = some y → Updates k x.ops → Updates k y.ops →
    x.record.status = .aborted ∨ y.record.status = .aborted

/-- `t` does not update `k` once `t'` has committed. -/
def Yields (t t' : ι) (k : κ) (s : State ι κ τ ν) : Move ι κ τ ν → Prop
  | .write t₁ k₁ _ => t₁ = t → k₁ = k → ∀ x, s.txns t = some x → reads x.ops k = true →
    ∀ y, s.txns t' = some y → y.record.status ≠ .committed
  | _ => True

omit [DecidableEq ι] [LinearOrder τ] in
theorem yields_of_ne (h : ∀ t k w, mv ≠ .write t k w) : Yields t t' k s mv := by
  cases mv with
  | write _ _ _ => exact absurd rfl (h _ _ _)
  | _ => trivial

section

variable (h : Contested t t' k s)
include h

omit [DecidableEq ι] [LinearOrder τ] in
theorem Contested.symm : Contested t' t k s := fun x y hx hy hux huy ↦ (h y x hy hx huy hux).symm

theorem Contested.write {k' : κ} (hh' : Holds t' k s) (hne : t ≠ t')
    (hs : Step s (.write t k' w) s') (hsp : Spares t s (.write t k' w))
    (hy : Yields t t' k s (.write t k' w)) : Contested t t' k s' := by
  cases hs with
  | @write _ x _ _ hx hh hadm =>
    intro x' y hx' hy' hux huy
    have hyt : s.txns t' = some y := (update_of_ne hne.symm ..).symm.trans hy'
    rcases update_txn hx' with ⟨-, rfl⟩ | ⟨hself, -⟩
    swap
    · exact absurd rfl hself
    right
    rcases updates_concat hux with hux | ⟨w', heq, hr⟩
    · exact (h x y hx hyt hux huy).resolve_left (hsp rfl x hx)
    · obtain ⟨rfl, -⟩ := Op.write.inj heq
      -- the other one has no intent any more
      have hnp : y.record.status ≠ .pending := by
        intro hp
        obtain ⟨ts, hi⟩ := owner_eq_some.mp (hh' y hyt huy.lastWrite_ne_none hp)
        rcases hadm with ⟨hnone, -⟩ | ⟨ts', hi'⟩
        · cases hnone.symm.trans hi
        · exact hne (congrArg Prod.fst (mem_unique hi' hi))
      cases hst : y.record.status with
      | pending => exact absurd hst hnp
      | committed => exact absurd hst (hy rfl rfl x hx hr y hyt)
      | aborted => rfl

/-- **Of two transactions that have updated a key, one has been aborted**, if neither does so after
the other one has committed. -/
theorem Contested.step (hh : Holds t k s) (hh' : Holds t' k s) (hne : t ≠ t') (hs : Step s mv s')
    (hsp : Spares t s mv) (hsp' : Spares t' s mv) (hy : Yields t t' k s mv)
    (hy' : Yields t' t k s mv) : Contested t t' k s' := by
  by_cases hw : ∃ k' w, mv = .write t k' w
  · obtain ⟨k', w, rfl⟩ := hw
    exact h.write hh' hne hs hsp hy
  by_cases hw' : ∃ k' w, mv = .write t' k' w
  · obtain ⟨k', w, rfl⟩ := hw'
    exact (h.symm.write hh hne.symm hs hsp' hy').symm
  push Not at hw hw'
  intro x' y' hx' hy' hux huy
  obtain ⟨x, hx⟩ := hs.exists_of_ops hx' hux.ne_nil
  obtain ⟨y, hyt⟩ := hs.exists_of_ops hy' huy.ne_nil
  have hax := hs.ages hw hx hx'
  have hay := hs.ages hw' hyt hy'
  exact (h x y hx hyt (hax.updates hux) (hay.updates huy)).imp hax.aborted hay.aborted

/-- **Of two transactions that have updated a key in a run, one has been aborted**, if neither did
so after the other one had committed. -/
theorem Contested.steps {G : State ι κ τ ν → Move ι κ τ ν → Prop} (hh : Holds t k s)
    (hh' : Holds t' k s) (hinv : Inv s) (hne : t ≠ t') (hs : Steps G s s')
    (hG : ∀ s mv, G s mv → (Spares t s mv ∧ Yields t t' k s mv) ∧ Spares t' s mv ∧
      Yields t' t k s mv) :
    Contested t t' k s' := by
  induction hs with
  | refl => exact h
  | tail hrun hg hstep ih =>
    obtain ⟨⟨hsp, hy⟩, hsp', hy'⟩ := hG _ _ hg
    exact ih.step (hh.steps hinv hrun fun s mv hg ↦ (hG s mv hg).1.1)
      (hh'.steps hinv hrun fun s mv hg ↦ (hG s mv hg).2.1) hne hstep hsp hsp' hy hy'

end

end Holds

end DucklingDB.Transaction
