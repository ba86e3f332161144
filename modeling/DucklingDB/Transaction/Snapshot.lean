import DucklingDB.Transaction.Atomicity

/-!
# Reads are repeatable

The committed versions of a cell are those that are not its intent (`Cell.Fixed`). A step adds a
committed version only by committing an intent, and none is lost (`Step.fixed_iff`). So what a
transaction has read stays as it was, if every intent of the others on a key it has read lies above
its read timestamp, and is committed no lower than it lies. That is the invariant `Shielded`; it
needs that writes are `Covered`: a write lands above the completed reads of the others, and does not
lower the write timestamp of the record.
-/

namespace DucklingDB.Transaction

open Function Option State

variable {ι κ τ ν : Type*}

/-- The cell has the committed version `v` at `u`. -/
structure Cell.Fixed (c : Cell ι τ ν) (u : τ) (v : Option ν) : Prop where
  version : c.versions u = some v
  intent : ∀ t, c.intent ≠ some (t, u)

/-! ## Committed versions -/

section Fixed

variable [DecidableEq κ] [LinearOrder τ] {txns : ι → Option (Txn κ τ ν)} {k : κ}
  {c : Cell ι τ ν} {t : ι} {ts u w : τ} {v : Option ν} {x : Txn κ τ ν}

section

omit [DecidableEq κ] [LinearOrder τ]

theorem fixed_iff (hi : c.intent = some (t, ts)) :
    c.Fixed u v ↔ u ≠ ts ∧ c.versions u = some v := by
  constructor
  · rintro ⟨hv, hno⟩
    exact ⟨fun heq ↦ hno t (heq ▸ hi), hv⟩
  · rintro ⟨hne, hv⟩
    refine ⟨hv, fun t' hi' ↦ hne ?_⟩
    exact (congrArg Prod.snd (mem_unique hi hi')).symm

theorem fixed_iff_of_none {st : Option τ} {f : τ → Option (Option ν)} :
    (⟨none, st, f⟩ : Cell ι τ ν).Fixed u v ↔ f u = some v :=
  ⟨fun h ↦ h.version, fun h ↦ ⟨h, by simp⟩⟩

end

theorem CellClean.fixed_push (h : CellClean txns k c) (hi : c.intent = some (t, ts))
    (hx : txns t = some x) (hw : ts < w) : (c.push w).Fixed u v ↔ c.Fixed u v := by
  rw [push_eq hi, fixed_iff (t := t) rfl, fixed_iff hi, relocate_eq_some]
  constructor
  · rintro ⟨hne, ⟨heq, -⟩ | ⟨-, hne', hu⟩⟩
    · exact absurd heq hne
    · exact ⟨hne', hu⟩
  · rintro ⟨hne, hu⟩
    have hne' : u ≠ w := ((h.room hi hx hne hu).1.trans hw).ne
    exact ⟨hne', .inr ⟨hne', hne, hu⟩⟩

omit [DecidableEq κ] in
theorem fixed_drop (hi : c.intent = some (t, ts)) (prev : Option τ) :
    (c.drop prev).Fixed u v ↔ c.Fixed u v := by
  rw [drop_eq hi, fixed_iff_of_none, fixed_iff hi, update_none_eq_some]

theorem CellClean.fixed_settle (h : CellClean txns k c) (hi : c.intent = some (t, ts))
    (hx : txns t = some x) : (c.settle x.record.write).Fixed u v ↔
      c.Fixed u v ∨ u = x.record.write ∧ c.versions ts = some v := by
  rw [settle_eq hi, fixed_iff_of_none, fixed_iff hi, relocate_eq_some]
  constructor
  · rintro (hnew | ⟨-, hne, hu⟩)
    · exact .inr hnew
    · exact .inl ⟨hne, hu⟩
  · rintro (⟨hne, hu⟩ | hnew)
    · exact .inr ⟨(h.room hi hx hne hu).2.1.ne, hne, hu⟩
    · exact .inl hnew

theorem CellClean.fixed_lay (h : CellClean txns k c) (hx : txns t = some x) (hc : c.Admits t ts)
    (hs : ∀ ts', c.intent = some (t, ts') → ts' = ts) (w : Option ν) :
    (c.lay t ts w).Fixed u v ↔ c.Fixed u v := by
  rw [fixed_iff (t := t) rfl]
  constructor
  · rintro ⟨hne, hu⟩
    rw [lay_of_ne hne] at hu
    exact ⟨hu, (h.lt_of_admits hx hc hs hne hu).2⟩
  · rintro ⟨hu, hno⟩
    have hne : u ≠ ts := by
      rintro rfl
      rcases hc with ⟨-, hlt⟩ | ⟨ts', hi⟩
      · obtain ⟨n, hn, hle⟩ := h.newest hu
        exact (hle.trans_lt (hlt n hn)).ne rfl
      · exact hno t (hs ts' hi ▸ hi)
    exact ⟨hne, (lay_of_ne hne).trans hu⟩

end Fixed

section Steps

variable [DecidableEq ι] [DecidableEq κ] [LinearOrder τ] {s s' : State ι κ τ ν} {mv : Move ι κ τ ν}
  {k : κ} {u : τ} {v : Option ν} {t r : ι}

/-- **A step adds a committed version only by committing an intent, and none is lost.** -/
theorem Step.fixed_iff (hs : Step s mv s') (h : Clean s) (hst : Strict s mv) :
    (s'.cells k).Fixed u v ↔
    (s.cells k).Fixed u v ∨ ∃ t x ts, mv = .commit t ∧ s.txns t = some x ∧ u = x.record.write ∧
      (s.cells k).intent = some (t, ts) ∧ (s.cells k).versions ts = some v := by
  -- a step that changes one cell
  have hone : ∀ {k' c}, (c.Fixed u v ↔ (s.cells k').Fixed u v) →
      ((update s.cells k' c k).Fixed u v ↔ (s.cells k).Fixed u v) := by
    intro k' c hc
    by_cases heq : k = k'
    · subst heq
      rw [update_self, hc]
    · rw [update_of_ne heq]
  cases hs with
  | start _ | bump _ _ _ | refresh _ _ | kill _ _ | pushRecord _ _ _ | read _ _ _ => simp
  | push hi hw hx _ => simpa using hone ((h _).fixed_push hi hx hw)
  | clean hi _ _ _ => simpa using hone (fixed_drop hi _)
  | write hx _ hc => simpa using hone ((h _).fixed_lay hx hc (fun ts' ↦ hst _ ts' hx) _)
  | @commit t x hx hh hr =>
    rw [mapOwned_cells, setTxn_cells]
    split <;> rename_i hown
    · obtain ⟨ts, hi⟩ := owner_eq_some.mp hown
      rw [(h k).fixed_settle hi hx]
      refine or_congr_right ⟨fun ⟨hu, hv⟩ ↦ ⟨t, x, ts, rfl, hx, hu, hi, hv⟩, ?_⟩
      rintro ⟨t', x', ts', heq, hx', hu, hi', hv⟩
      obtain ⟨rfl, rfl⟩ := Prod.mk.inj (mem_unique hi hi')
      obtain rfl := mem_unique hx hx'
      exact ⟨hu, hv⟩
    · refine (or_iff_left ?_).symm
      rintro ⟨t', _, ts, heq, -, -, hi, -⟩
      obtain rfl := Move.commit.inj heq
      exact hown (owner_eq_some.mpr ⟨ts, hi⟩)
  | @abort t x prev hx hh _ =>
    rw [mapOwned_cells, setTxn_cells]
    split
    · rename_i hown
      obtain ⟨ts, hi⟩ := owner_eq_some.mp hown
      simpa using fixed_drop hi (prev k)
    · simp

/-! ## Shielded reads -/

/-- The transaction has read the key. -/
def Txn.Reads (x : Txn κ τ ν) (k : κ) : Prop := reads x.ops k = true

/-- Intents lie above the reads of others, and at or below what they are committed at. -/
structure Shielded (s : State ι κ τ ν) : Prop where
  le_record : ∀ {k t ts x}, (s.cells k).intent = some (t, ts) → s.txns t = some x →
    ts ≤ x.record.write
  lt_intent : ∀ {k t ts r y}, (s.cells k).intent = some (t, ts) → s.txns r = some y → y.Reads k →
    t ≠ r → y.read < ts

/-- A write lands above the reads of others, and does not lower the record's write timestamp. -/
def Covered (s : State ι κ τ ν) : Move ι κ τ ν → Prop
  | .write t k _ => ∀ x, s.txns t = some x → x.record.write ≤ x.held.write ∧
    ∀ r y, r ≠ t → s.txns r = some y → y.Reads k → y.read < x.held.write
  | _ => True

omit [DecidableEq ι] in
theorem covered_of_ne (h : ∀ t k w, mv ≠ .write t k w) : Covered s mv := by
  cases mv with
  | write _ _ _ => exact absurd rfl (h _ _ _)
  | _ => trivial

omit [DecidableEq ι] in
theorem shielded_init : Shielded ({} : State ι κ τ ν) := ⟨by simp, by simp⟩

theorem Shielded.setTxn (h : Shielded s) {x x' : Txn κ τ ν} (hx : s.txns t = some x)
    (hread : x'.read = x.read) (hreads : ∀ k, x'.Reads k → x.Reads k)
    (hle : x.record.write ≤ x'.record.write) : Shielded (s.setTxn t x') := by
  constructor
  · intro k t' ts y hi hy
    rcases update_txn hy with ⟨rfl, rfl⟩ | ⟨-, hy⟩
    · exact (h.le_record hi hx).trans hle
    · exact h.le_record hi hy
  · intro k t' ts r y hi hy hr hne
    rcases update_txn hy with ⟨rfl, rfl⟩ | ⟨-, hy⟩
    · rw [hread]
      exact h.lt_intent hi hx (hreads k hr) hne
    · exact h.lt_intent hi hy hr hne

omit [DecidableEq ι] in
/-- A step that changes cells: every intent is one of before, or a good one. -/
theorem Shielded.setCells (h : Shielded s) {cells : κ → Cell ι τ ν}
    (hc : ∀ {k t ts}, (cells k).intent = some (t, ts) → (s.cells k).intent = some (t, ts) ∨
      (∀ x, s.txns t = some x → ts ≤ x.record.write) ∧
        ∀ r y, s.txns r = some y → y.Reads k → t ≠ r → y.read < ts) :
    Shielded { s with cells := cells } := by
  constructor
  · intro k t ts x hi hx
    rcases hc hi with hi | ⟨hle, -⟩
    · exact h.le_record hi hx
    · exact hle x hx
  · intro k t ts r y hi hy hr hne
    rcases hc hi with hi | ⟨-, hlt⟩
    · exact h.lt_intent hi hy hr hne
    · exact hlt r y hy hr hne

omit [DecidableEq ι] in
theorem Shielded.setCell (h : Shielded s) {c : Cell ι τ ν}
    (hc : ∀ {t ts}, c.intent = some (t, ts) → (∀ x, s.txns t = some x → ts ≤ x.record.write) ∧
      ∀ r y, s.txns r = some y → y.Reads k → t ≠ r → y.read < ts) : Shielded (s.setCell k c) := by
  refine h.setCells fun {k' t ts} hi ↦ ?_
  by_cases heq : k' = k
  · subst heq
    rw [update_self] at hi
    exact .inr (hc hi)
  · rw [update_of_ne heq] at hi
    exact .inl hi

theorem Shielded.mapOwned (h : Shielded s) {f : κ → Cell ι τ ν → Cell ι τ ν}
    (hf : ∀ k, (s.cells k).owner = some t → (f k (s.cells k)).intent = none) :
    Shielded (s.mapOwned t f) := by
  refine h.setCells fun {k t' ts} hi ↦ .inl ?_
  split at hi
  · rename_i hown
    rw [hf k hown] at hi
    cases hi
  · exact hi

/-- **A covered step keeps the reads shielded.** -/
theorem Shielded.step (h : Shielded s) (hinv : Inv s) (hs : Step s mv s') (hc : Covered s mv) :
    Shielded s' := by
  cases hs with
  | @start t r ht =>
    constructor
    · intro k t' ts y hi hy
      rcases update_txn hy with ⟨rfl, rfl⟩ | ⟨-, hy⟩
      · obtain ⟨-, _, _, hx, -⟩ := (hinv.cell k).intent hi
        cases ht.symm.trans hx
      · exact h.le_record hi hy
    · intro k t' ts r' y hi hy hr hne
      rcases update_txn hy with ⟨rfl, rfl⟩ | ⟨-, hy⟩
      · obtain ⟨_, hr⟩ := reads_iff.mp hr
        cases hr
      · exact h.lt_intent hi hy hr hne
  | bump hx _ _ | refresh hx _ | kill hx _ =>
    refine h.setTxn hx ?_ ?_ ?_
    · rfl
    · exact fun _ h ↦ h
    · exact le_rfl
  | pushRecord hx _ hw =>
    refine h.setTxn hx ?_ ?_ ?_
    · rfl
    · exact fun _ h ↦ h
    · exact hw
  | @push k t ts w x hi hw hx hle =>
    refine h.setCell fun {t' ts'} hi' ↦ ?_
    rw [push_eq hi] at hi'
    obtain ⟨rfl, rfl⟩ := Prod.mk.inj (Option.some.inj hi')
    refine ⟨fun y hy ↦ ?_, fun r y hy hr hne ↦ (h.lt_intent hi hy hr hne).trans hw⟩
    obtain rfl := mem_unique hx hy
    exact hle
  | clean hi _ _ _ =>
    refine h.setCell fun hi' ↦ ?_
    rw [drop_eq hi] at hi'
    cases hi'
  | @write t x k w hx hh hadm =>
    obtain ⟨hle, hlt⟩ := hc x hx
    have h' : Shielded (s.setTxn t { x with record := x.held, ops := x.ops ++ [.write k w] }) :=
      h.setTxn hx rfl (fun _ hr ↦ reads_iff.mpr ((reads_iff.mp hr).imp fun _ hr ↦
        by simpa using hr)) hle
    refine h'.setCell fun {t' ts'} hi' ↦ ?_
    obtain ⟨rfl, rfl⟩ := Prod.mk.inj (Option.some.inj hi')
    refine ⟨fun y hy ↦ ?_, fun r y hy hr hne ↦ ?_⟩
    · rcases update_txn hy with ⟨-, rfl⟩ | ⟨hne, -⟩
      · exact le_rfl
      · exact absurd rfl hne
    · rcases update_txn hy with ⟨rfl, -⟩ | ⟨hne', hy⟩
      · exact absurd rfl hne
      · exact hlt r y hne' hy hr
  | @read t x k r hx hh hshow =>
    constructor
    · intro k' t' ts y hi hy
      rcases update_txn hy with ⟨rfl, rfl⟩ | ⟨-, hy⟩
      · have hle : ts ≤ x.record.write := h.le_record hi hx
        exact hle
      · exact h.le_record hi hy
    · intro k' t' ts r' y hi hy hr hne
      rcases update_txn hy with ⟨rfl, rfl⟩ | ⟨-, hy⟩
      · obtain ⟨r'', hr⟩ := reads_iff.mp hr
        rcases List.mem_append.mp hr with hr | hr
        · have hlt : x.read < ts := h.lt_intent hi hx (reads_iff.mpr ⟨r'', hr⟩) hne
          exact hlt
        · -- no intent of another transaction was in the way
          obtain ⟨rfl, -⟩ := Op.read.inj (List.mem_singleton.mp hr)
          exact (hshow.1 t' ts hi).resolve_left fun heq ↦ hne (Option.some.inj heq).symm
      · exact h.lt_intent hi hy hr hne
  | @commit t x hx hh hr =>
    have h' : Shielded (s.setTxn t { x with
        record := ⟨.committed, x.record.write⟩, held := ⟨.committed, x.record.write⟩ }) :=
      h.setTxn hx rfl (fun _ h ↦ h) le_rfl
    refine h'.mapOwned fun k hown ↦ ?_
    obtain ⟨ts, hi⟩ := owner_eq_some.mp hown
    simp only [settle_eq hi]
  | @abort t x prev hx hh _ =>
    have h' : Shielded (s.setTxn t { x with
        record := ⟨.aborted, x.record.write⟩, held := ⟨.aborted, x.record.write⟩ }) :=
      h.setTxn hx rfl (fun _ h ↦ h) le_rfl
    refine h'.mapOwned fun k hown ↦ ?_
    obtain ⟨ts, hi⟩ := owner_eq_some.mp hown
    simp only [drop_eq hi]

variable {G : State ι κ τ ν → Move ι κ τ ν → Prop}

/-- **A covered run keeps the reads shielded.** -/
theorem Shielded.steps (h : Shielded s) (hinv : Inv s)
    (hs : Steps G s s') (hG : ∀ s mv, G s mv → Covered s mv) : Shielded s' := by
  induction hs with
  | refl => exact h
  | tail hrun hg hstep ih => exact ih.step (hinv.steps hrun) hstep (hG _ _ hg)

/-- `t` has committed the write `v` of `k` at `u`. -/
def State.Wrote (s : State ι κ τ ν) (t : ι) (k : κ) (u : τ) (v : Option ν) : Prop :=
  ∃ x, s.txns t = some x ∧ x.record = ⟨.committed, u⟩ ∧ lastWrite x.ops k = some v

theorem Step.wrote (hs : Step s mv s') (hinv : Inv s) (h : s.Wrote t k u v) : s'.Wrote t k u v := by
  obtain ⟨x, hx, hr, hw⟩ := h
  exact ⟨x, hs.committed_stays hinv hx (by rw [hr]), hr, hw⟩

omit [DecidableEq ι] in
/-- A committed version was written by a committed transaction. -/
theorem Clean.wrote_of_fixed (h : Clean s) (hfix : (s.cells k).Fixed u v) :
    ∃ t, s.Wrote t k u v := by
  obtain ⟨t, x, hx, hr, hw⟩ :=
    ((h k).version hfix.version).resolve_left fun ⟨t, hi⟩ ↦ hfix.intent t hi
  exact ⟨t, x, hx, hr, hw⟩

/-- **No version at or below a completed read is committed by another transaction.** -/
theorem Shielded.fixed_of_step (h : Shielded s) (hc : Clean s) (hinv : Inv s) (hs : Step s mv s')
    (hst : Strict s mv) {y : Txn κ τ ν} (hy : s.txns r = some y) (hr : y.Reads k) (hle : u ≤ y.read)
    (hfix : (s'.cells k).Fixed u v) : (s.cells k).Fixed u v ∨ s'.Wrote r k u v := by
  refine ((hs.fixed_iff hc hst).mp hfix).imp_right ?_
  rintro ⟨t, x, ts, rfl, hx, rfl, hi, hv⟩
  by_cases heq : t = r
  · subst heq
    obtain ⟨-, x', v', hx', -, hw, hv', -⟩ := (hinv.cell k).intent hi
    obtain rfl := mem_unique hx hx'
    obtain rfl := mem_unique hv hv'
    cases hs with
    | commit hx'' _ _ =>
      obtain rfl := mem_unique hx hx''
      exact ⟨_, update_self .., rfl, hw⟩
  · have hlt := h.lt_intent hi hy hr heq
    exact absurd (hlt.trans_le (h.le_record hi hx)) (not_lt.mpr hle)

/-- A completed read. -/
def State.HasRead (s : State ι κ τ ν) (r : ι) (k : κ) (u : τ) : Prop :=
  ∃ y, s.txns r = some y ∧ y.read = u ∧ y.Reads k

theorem Step.hasRead (hs : Step s mv s') (h : s.HasRead r k u) : s'.HasRead r k u := by
  obtain ⟨y, hy, hread, hr⟩ := h
  obtain ⟨y', hy', hread', hops⟩ := hs.prefix hy
  exact ⟨y', hy', hread'.trans hread,
    reads_iff.mpr ((reads_iff.mp hr).imp fun _ hv ↦ hops.subset hv)⟩

/-- **In a covered run no version at or below a completed read is committed by another
transaction.** -/
theorem Shielded.fixed_of_steps (h : Shielded s)
    (hc : Clean s) (hinv : Inv s) (hs : Steps G s s') (hst : ∀ s mv, G s mv → Strict s mv)
    (hG : ∀ s mv, G s mv → Covered s mv) {R : τ} (hr : s.HasRead r k R) (hle : u ≤ R)
    (hfix : (s'.cells k).Fixed u v) : (s.cells k).Fixed u v ∨ s'.Wrote r k u v := by
  induction hs with
  | refl => exact .inl hfix
  | @tail s₁ s₂ mv hrun hg hstep ih =>
    have hinv₁ := hinv.steps hrun
    have hc₁ := hc.steps hinv hrun hst
    have h₁ := h.steps hinv hrun hG
    obtain ⟨y, hy, rfl, hr'⟩ := hrun.invariant (fun hr _ hstep ↦ hstep.hasRead hr) hr
    rcases h₁.fixed_of_step hc₁ hinv₁ hstep (hst _ _ hg) hy hr' hle hfix with hfix | hw
    · exact (ih hfix).imp_right fun hw ↦ hstep.wrote hinv₁ hw
    · exact .inr hw

end Steps

end DucklingDB.Transaction
