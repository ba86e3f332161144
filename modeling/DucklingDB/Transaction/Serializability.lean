import DucklingDB.Transaction.Snapshot
import DucklingDB.Transaction.Hold

/-!
# Serializability

If transactions commit at their read timestamps only (`Timely`), and read timestamps increase
(`Ahead`), then the committed transactions, in the order in which they began, are a serial
execution: executed one after the other, from an empty database, each of them reads what it has
read, and the database that comes out is that of the newest committed versions.

What makes it work is that a transaction that may still commit has read, of every key, its own last
write or the newest version committed before its read timestamp -- and that this stays the newest
one, since its reads are shielded (`Consistent`).
-/

namespace DucklingDB.Transaction

open Function List Option

variable {ι κ τ ν : Type*}

/-! ## Executing transactions one after the other -/

section Exec

variable [DecidableEq κ] [DecidableEq ν]

variable (db : κ → Option ν)

/-- Execute one operation; a read has to return what it is said to return. -/
def Op.apply : Op κ ν → Option (κ → Option ν)
  | .read k r => if db k = r then some db else none
  | .write k w => some (update db k w)

/-- Execute a transaction. -/
def exec (ops : List (Op κ ν)) : Option (κ → Option ν) := ops.foldlM Op.apply db

/-- Execute the transactions of `order` one after the other. -/
def execAll (ops : ι → List (Op κ ν)) (order : List ι) (db : κ → Option ν) :
    Option (κ → Option ν) :=
  order.foldlM (fun db t ↦ exec db (ops t)) db

/-- The database after the writes of `ops`. -/
def overlay (ops : List (Op κ ν)) (k : κ) : Option ν := (lastWrite ops k).getD (db k)

omit [DecidableEq ν] in
theorem overlay_concat_read (db : κ → Option ν) (ops : List (Op κ ν)) (k : κ) (r : Option ν) :
    overlay db (ops ++ [.read k r]) = overlay db ops := by
  funext k'
  rw [overlay, lastWrite_concat_read, overlay]

omit [DecidableEq ν] in
theorem overlay_concat_write (db : κ → Option ν) (ops : List (Op κ ν)) (k : κ) (w : Option ν) :
    overlay db (ops ++ [.write k w]) = update (overlay db ops) k w := by
  funext k'
  rw [overlay, update_apply]
  split
  · rename_i heq
    rw [heq, lastWrite_concat_write, getD_some]
  · rename_i hne
    rw [lastWrite_concat_write_of_ne (Ne.symm hne), overlay]

/-- **Executing a transaction succeeds** if its reads return what is there. -/
theorem exec_eq_some {db : κ → Option ν} {ops : List (Op κ ν)}
    (h : ∀ ops₁ k r ops₂, ops = ops₁ ++ .read k r :: ops₂ → overlay db ops₁ k = r) :
    exec db ops = some (overlay db ops) := by
  induction ops using List.reverseRecOn with
  | nil => rfl
  | append_singleton ops op ih =>
    have ih := ih fun ops₁ k r ops₂ heq ↦ h ops₁ k r (ops₂ ++ [op]) (by rw [heq]; simp)
    rw [exec] at ih
    rw [exec, foldlM_append, ih]
    cases op with
    | read k r =>
      have hr := h ops k r [] rfl
      simp [Op.apply, hr, overlay_concat_read]
    | write k w => simp [Op.apply, overlay_concat_write]

theorem execAll_concat (ops : ι → List (Op κ ν)) (order : List ι) (t : ι) (db : κ → Option ν) :
    execAll ops (order ++ [t]) db = (execAll ops order db).bind fun db ↦ exec db (ops t) := by
  rw [execAll, foldlM_append]
  simp [execAll]

end Exec

/-! ## The newest version -/

section Newest

variable [LinearOrder τ] {f g : τ → Option (Option ν)} {p q : τ → Prop} {r r' : Option ν}

theorem Newest.unique (h : Newest f p r) (h' : Newest f p r') : r = r' := by
  rcases h with ⟨u, hp, hu, hmax⟩ | ⟨hnone, rfl⟩ <;> rcases h' with
    ⟨u', hp', hu', hmax'⟩ | ⟨hnone', rfl⟩
  · obtain rfl := le_antisymm (hmax' u r hp hu) (hmax u' r' hp' hu')
    exact mem_unique hu hu'
  · cases (hnone' u hp).symm.trans hu
  · cases (hnone u' hp').symm.trans hu'
  · rfl

theorem Newest.congr (h : Newest f p r) (hfg : ∀ u v, p u ∧ f u = some v ↔ q u ∧ g u = some v) :
    Newest g q r := by
  rcases h with ⟨u, hp, hu, hmax⟩ | ⟨hnone, rfl⟩
  · obtain ⟨hq, hu'⟩ := (hfg u r).mp ⟨hp, hu⟩
    refine .inl ⟨u, hq, hu', fun u' v hq' hv ↦ ?_⟩
    obtain ⟨hp', hv'⟩ := (hfg u' v).mpr ⟨hq', hv⟩
    exact hmax u' v hp' hv'
  · refine .inr ⟨fun u hq ↦ eq_none_iff_forall_ne_some.mpr fun v hv ↦ ?_, rfl⟩
    obtain ⟨hp, hv'⟩ := (hfg u v).mpr ⟨hq, hv⟩
    cases (hnone u hp).symm.trans hv'

/-- The committed versions of a cell. -/
def Cell.settled (c : Cell ι τ ν) (u : τ) : Option (Option ν) :=
  if c.intent.map Prod.snd = some u then none else c.versions u

theorem settled_eq_some {c : Cell ι τ ν} {u : τ} {v : Option ν} :
    c.settled u = some v ↔ c.Fixed u v := by
  rw [Cell.settled]
  constructor
  · intro h
    split at h
    · cases h
    · rename_i hno
      refine ⟨h, fun t hi ↦ hno ?_⟩
      rw [hi, map_some]
  · rintro ⟨hv, hno⟩
    rw [if_neg, hv]
    intro hmap
    obtain ⟨⟨t, u'⟩, hi, rfl⟩ := map_eq_some_iff.mp hmap
    exact hno t hi

end Newest

/-! ## Read timestamps -/

variable [DecidableEq ι] [DecidableEq κ] [LinearOrder τ]

/-- Read timestamps increase. -/
def Ahead (s : State ι κ τ ν) : Move ι κ τ ν → Prop
  | .start _ r => ∀ t x, s.txns t = some x → x.read < r
  | _ => True

/-- Transactions commit at their read timestamp. -/
def Timely (s : State ι κ τ ν) : Move ι κ τ ν → Prop
  | .commit t => ∀ x, s.txns t = some x → x.record.write ≤ x.read
  | _ => True

/-- The order of the transactions is that of their read timestamps, at which they commit. -/
structure Ordered (s : State ι κ τ ν) : Prop where
  begun : ∀ {t}, t ∈ s.begun ↔ ∃ x, s.txns t = some x
  sorted : s.begun.Pairwise fun t t' ↦ ∀ x y, s.txns t = some x → s.txns t' = some y →
    x.read < y.read
  committed : ∀ {t x}, s.txns t = some x → x.record.status = .committed → x.record.write = x.read

section Ordered

variable {s s' : State ι κ τ ν} {mv : Move ι κ τ ν} {t t' : ι} {x y : Txn κ τ ν}

section

omit [DecidableEq ι] [DecidableEq κ]

/-- Who began earlier has the lower read timestamp. -/
theorem Ordered.split (h : Ordered s) {l₁ l₂ : List ι} (hl : s.begun = l₁ ++ t :: l₂)
    (hx : s.txns t = some x) :
    (∀ t' ∈ l₁, ∀ y, s.txns t' = some y → y.read < x.read) ∧
      ∀ t' ∈ l₂, ∀ y, s.txns t' = some y → x.read < y.read := by
  have hsorted := h.sorted
  rw [hl, pairwise_append] at hsorted
  obtain ⟨-, htail, hcross⟩ := hsorted
  exact ⟨fun t' ht' y hy ↦ hcross t' ht' t (.head _) y x hy hx,
    fun t' ht' y hy ↦ (pairwise_cons.mp htail).1 t' ht' x y hx hy⟩

theorem Ordered.eq_of_read (h : Ordered s) (hx : s.txns t = some x) (hy : s.txns t' = some y)
    (heq : y.read = x.read) : t' = t := by
  obtain ⟨l₁, l₂, hl⟩ := append_of_mem (h.begun.mpr ⟨x, hx⟩)
  obtain ⟨hlt₁, hlt₂⟩ := h.split hl hx
  have ht' := h.begun.mpr ⟨y, hy⟩
  rw [hl, mem_append, mem_cons] at ht'
  rcases ht' with ht' | rfl | ht'
  · exact absurd heq (hlt₁ t' ht' y hy).ne
  · rfl
  · exact absurd heq (hlt₂ t' ht' y hy).ne'

theorem Ordered.of_txns (h : Ordered s) (hb : s'.begun = s.begun)
    (hold : ∀ {t x'}, s'.txns t = some x' → ∃ x, s.txns t = some x ∧ x'.read = x.read)
    (hstay : ∀ {t x}, s.txns t = some x → ∃ x', s'.txns t = some x')
    (hcom : ∀ {t x'}, s'.txns t = some x' → x'.record.status = .committed →
      x'.record.write = x'.read) : Ordered s' := by
  refine ⟨fun {t} ↦ ?_, ?_, hcom⟩
  · rw [hb, h.begun]
    constructor
    · rintro ⟨x, hx⟩
      exact hstay hx
    · rintro ⟨x', hx'⟩
      obtain ⟨x, hx, -⟩ := hold hx'
      exact ⟨x, hx⟩
  · rw [hb]
    refine h.sorted.imp fun hlt x' y' hx' hy' ↦ ?_
    obtain ⟨x, hx, hxr⟩ := hold hx'
    obtain ⟨y, hy, hyr⟩ := hold hy'
    rw [hxr, hyr]
    exact hlt x y hx hy

end

/-- **A step keeps the order** if the new read timestamp is ahead, and a commit timely. -/
theorem Ordered.step (h : Ordered s) (hinv : Inv s) (hs : Step s mv s') (ha : Ahead s mv)
    (ht : Timely s mv) : Ordered s' := by
  by_cases hstart : ∃ t r, mv = .start t r
  · obtain ⟨t, r, rfl⟩ := hstart
    cases hs with
    | start hnone =>
      refine ⟨fun {t'} ↦ ?_, ?_, fun {t' x'} hx' hc ↦ ?_⟩
      · show t' ∈ s.begun ++ [t] ↔ _
        rw [mem_append, mem_singleton, h.begun, State.setTxn_txns]
        by_cases heq : t' = t
        · subst heq
          simp
        · simp [heq]
      · show (s.begun ++ [t]).Pairwise _
        rw [pairwise_append]
        refine ⟨?_, pairwise_singleton .., fun t₁ ht₁ t₂ ht₂ x' y' hx' hy' ↦ ?_⟩
        · refine h.sorted.imp_of_mem fun {t₁ t₂} ht₁ ht₂ hlt x' y' hx' hy' ↦ ?_
          obtain ⟨x, hx⟩ := h.begun.mp ht₁
          obtain ⟨y, hy⟩ := h.begun.mp ht₂
          obtain rfl := mem_unique (update_of_none hnone hx) hx'
          obtain rfl := mem_unique (update_of_none hnone hy) hy'
          exact hlt x y hx hy
        · obtain rfl := mem_singleton.mp ht₂
          obtain ⟨x, hx⟩ := h.begun.mp ht₁
          obtain rfl := mem_unique (update_of_none hnone hx) hx'
          rcases update_txn hy' with ⟨-, rfl⟩ | ⟨hne, -⟩
          · exact ha t₁ x hx
          · exact absurd rfl hne
      · rcases update_txn hx' with ⟨-, rfl⟩ | ⟨-, hx'⟩
        · cases hc
        · exact h.committed hx' hc
  · push Not at hstart
    -- no transaction is new
    have hold : ∀ {t x'}, s'.txns t = some x' → ∃ x, s.txns t = some x ∧ x'.read = x.read := by
      intro t x' hx'
      obtain ⟨x, hx⟩ := hs.exists_old (hstart t) hx'
      obtain ⟨x'', hx'', hread, -⟩ := hs.prefix hx
      obtain rfl := mem_unique hx' hx''
      exact ⟨x, hx, hread⟩
    refine h.of_txns (hs.begun_eq hstart) hold (fun hx ↦ ?_) fun {t x'} hx' hc ↦ ?_
    · obtain ⟨x', hx', -⟩ := hs.prefix hx
      exact ⟨x', hx'⟩
    · obtain ⟨x, hx, hread⟩ := hold hx'
      have hcom : s'.Committed t x'.record.write := ⟨x', hx', by rw [← hc]⟩
      rcases (hs.committed_iff hinv).mp hcom with ⟨y, hy, hr⟩ | ⟨rfl, y, hy, hw⟩
      · obtain rfl := mem_unique hx hy
        have hw := h.committed hx (by rw [hr])
        rw [hr] at hw
        exact hw.trans hread.symm
      · obtain rfl := mem_unique hx hy
        rw [hread, ← hw]
        exact le_antisymm (ht x hx) (hinv.txn hx).read_le_record

end Ordered

/-! ## Consistent reads -/

/-- What a transaction that has done `ops` reads of `k`: its own last write or, if there is none,
the newest version committed before its read timestamp. -/
def Explains (s : State ι κ τ ν) (x : Txn κ τ ν) (ops : List (Op κ ν)) (k : κ) (r : Option ν) :
    Prop :=
  lastWrite ops k = some r ∨ lastWrite ops k = none ∧ Newest (s.cells k).settled (· < x.read) r

/-- The reads of a transaction that may commit are explained. -/
def Consistent (s : State ι κ τ ν) : Prop :=
  ∀ t x, s.txns t = some x → x.record.status ≠ .aborted → x.record.write ≤ x.read →
    ∀ ops k r ops', x.ops = ops ++ .read k r :: ops' → Explains s x ops k r

section Consistent

variable {s s' : State ι κ τ ν} {mv : Move ι κ τ ν} {t : ι} {x x' : Txn κ τ ν} {k : κ}
  {r : Option ν}

/-- Without a write after an abort and with covered writes records move forward. -/
theorem Step.onward (hs : Step s mv s') (hinv : Inv s) (ha : Alive s mv) (hc : Covered s mv) :
    Onward s mv := by
  cases hs with
  | @write t x k w hx hh hadm =>
    intro y hy
    obtain rfl := mem_unique hx hy
    exact ⟨fun hne ↦ absurd ((hinv.txn hx).pending hh (ha x hx)) hne, (hc x hx).1⟩
  | start _ | bump _ _ _ | refresh _ _ | kill _ _ | pushRecord _ _ _ | push _ _ _ _ | clean _ _ _ _
  | read _ _ _ | commit _ _ _ | abort _ _ _ => trivial

theorem Step.ops_cases (hs : Step s mv s') (hx : s.txns t = some x) (hx' : s'.txns t = some x') :
    x'.ops = x.ops ∨ (∃ k w, x'.ops = x.ops ++ [.write k w]) ∨
      ∃ k r, mv = .read t k r ∧ x'.ops = x.ops ++ [.read k r] := by
  have hupd : ∀ {t₁ y y'}, s.txns t₁ = some y → s'.txns = update s.txns t₁ (some y') →
      t = t₁ ∧ x = y ∧ x' = y' ∨ x' = x := by
    intro t₁ y y' hy htxns
    rw [htxns] at hx'
    rcases update_txn hx' with ⟨rfl, rfl⟩ | ⟨-, hx'⟩
    · exact .inl ⟨rfl, mem_unique hx hy, rfl⟩
    · exact .inr (mem_unique hx' hx)
  cases hs with
  | start ht => exact .inl (by rw [mem_unique (update_of_none ht hx) hx'])
  | push _ _ _ _ | clean _ _ _ _ => exact .inl (by rw [mem_unique hx hx'])
  | bump hy _ _ | refresh hy _ | kill hy _ | pushRecord hy _ _ | commit hy _ _ | abort hy _ _ =>
    rcases hupd hy rfl with ⟨-, rfl, rfl⟩ | rfl <;> exact .inl rfl
  | write hy _ _ =>
    rcases hupd hy rfl with ⟨-, rfl, rfl⟩ | rfl
    · exact .inr (.inl ⟨_, _, rfl⟩)
    · exact .inl rfl
  | read hy _ _ =>
    rcases hupd hy rfl with ⟨rfl, rfl, rfl⟩ | rfl
    · exact .inr (.inr ⟨_, _, rfl, rfl⟩)
    · exact .inl rfl

omit [DecidableEq ι] in
theorem Explains.of_shows (hinv : Inv s) (hc : Clean s) (hk : Complete s) (hsh : Shielded s)
    (ho : Ordered s) (hx : s.txns t = some x) (hh : x.held.status = .pending)
    (hna : x.record.status ≠ .aborted) (hle : x.record.write ≤ x.read)
    (hs : (s.cells k).Shows (some t) x.read r) : Explains s x x.ops k r := by
  have hr := (hinv.txn hx).pending hh hna
  cases hw : lastWrite x.ops k with
  | some w =>
    -- the intent is where it was laid
    obtain ⟨ts, hi⟩ := (hk k).pending hx hh hr hw
    have hts : ts ≤ x.read := (hsh.le_record hi hx).trans hle
    exact .inl (hw ▸ hinv.shows_own hx hi hts hs)
  | none =>
    refine .inr ⟨hw, ?_⟩
    -- every intent belongs to another transaction and lies above
    have hi : ∀ t' ts', (s.cells k).intent = some (t', ts') → x.read < ts' := by
      intro t' ts' hi
      refine (hs.1 t' ts' hi).resolve_left fun heq ↦ ?_
      obtain rfl := Option.some.inj heq
      obtain ⟨-, y, w, hy, -, hyw, -⟩ := (hinv.cell k).intent hi
      obtain rfl := mem_unique hx hy
      cases hw.symm.trans hyw
    have hiff : ∀ u v, u ≤ x.read ∧ (s.cells k).versions u = some v ↔
        u < x.read ∧ (s.cells k).settled u = some v := by
      intro u v
      rw [settled_eq_some]
      constructor
      · rintro ⟨hu, hv⟩
        have hfix : (s.cells k).Fixed u v := ⟨hv, fun t' hi' ↦ absurd (hi t' u hi') (not_lt.mpr hu)⟩
        refine ⟨lt_of_le_of_ne hu fun heq ↦ ?_, hfix⟩
        -- nobody else has committed at the read timestamp
        obtain ⟨t', y, hy, hyr, -⟩ := hc.wrote_of_fixed hfix
        have hwr := ho.committed hy (by rw [hyr])
        rw [hyr] at hwr
        obtain rfl := ho.eq_of_read hx hy (hwr.symm.trans heq)
        obtain rfl := mem_unique hx hy
        rw [hyr] at hr
        cases hr
      · rintro ⟨hu, hfix⟩
        exact ⟨hu.le, hfix.version⟩
    obtain ⟨-, ⟨hst, rfl⟩ | ⟨-, hnew⟩⟩ := hs
    · refine .inr ⟨fun u hu ↦ eq_none_iff_forall_ne_some.mpr fun v hv ↦ ?_, rfl⟩
      obtain ⟨n, hn, -⟩ := (hc k).newest ((hiff u v).mpr ⟨hu, hv⟩).2
      cases hst.symm.trans hn
    · exact hnew.congr hiff

/-- A step leaves the committed versions below the read timestamp of a reader alone. -/
theorem Shielded.settled_iff (hsh : Shielded s) (hinv : Inv s) (hc : Clean s) (hs : Step s mv s')
    (hst : Strict s mv) (hx : s.txns t = some x) (hr : x.Reads k) (u : τ) (v : Option ν) :
    u < x.read ∧ (s.cells k).settled u = some v ↔ u < x.read ∧ (s'.cells k).settled u = some v := by
  refine and_congr_right fun hu ↦ ?_
  rw [settled_eq_some, settled_eq_some, hs.fixed_iff hc hst]
  refine (or_iff_left ?_).symm
  rintro ⟨t', y, ts, rfl, hy, rfl, hi, -⟩
  by_cases heq : t' = t
  · subst heq
    obtain rfl := mem_unique hx hy
    exact absurd (hinv.txn hx).read_le_record (not_le.mpr hu)
  · have hlt := (hsh.lt_intent hi hx hr heq).trans_le (hsh.le_record hi hy)
    exact absurd hlt (not_lt.mpr hu.le)

/-- **A step keeps the reads consistent.** -/
theorem Consistent.step (h : Consistent s) (hinv : Inv s) (hc : Clean s) (hk : Complete s)
    (hsh : Shielded s) (ho : Ordered s) (hs : Step s mv s') (hst : Strict s mv) (ha : Alive s mv)
    (hcov : Covered s mv) : Consistent s' := by
  intro t x' hx' hna hle ops k r ops' heq
  obtain ⟨x, hx⟩ := hs.exists_of_ops hx' (by rw [heq]; simp)
  obtain ⟨x'', hx'', hread, -⟩ := hs.prefix hx
  obtain rfl := mem_unique hx' hx''
  -- it could commit before the step, too
  obtain ⟨y, hy, hf⟩ := hs.forward hinv (hs.onward hinv ha hcov) hx
  obtain rfl := mem_unique hx' hy
  have hna₀ : x.record.status ≠ .aborted := fun hab ↦ hna ((hf.status (by simp [hab])).trans hab)
  have hle₀ : x.record.write ≤ x.read := hread ▸ hf.write.trans hle
  -- an old read
  have hold : ∀ ops₁ ops₂, x.ops = ops₁ ++ .read k r :: ops₂ → Explains s' x' ops₁ k r := by
    intro ops₁ ops₂ heq
    refine (h t x hx hna₀ hle₀ ops₁ k r ops₂ heq).imp_right fun ⟨hw, hnew⟩ ↦ ⟨hw, ?_⟩
    have hr : x.Reads k := reads_iff.mpr ⟨r, by rw [heq]; simp⟩
    rw [hread]
    exact hnew.congr (hsh.settled_iff hinv hc hs hst hx hr)
  rcases hs.ops_cases hx hx' with hops | ⟨k', w, hops⟩ | ⟨k', r', rfl, hops⟩
  · exact hold ops ops' (hops ▸ heq)
  · obtain ⟨-, hop⟩ | ⟨ops'', hops⟩ := concat_eq_split (hops.symm.trans heq)
    · cases hop
    · exact hold ops ops'' hops
  · obtain ⟨rfl, hop⟩ | ⟨ops'', hops⟩ := concat_eq_split (hops.symm.trans heq)
    · obtain ⟨rfl, rfl⟩ := Op.read.inj hop
      cases hs with
      | read hx₁ hh hshow =>
        obtain rfl := mem_unique hx hx₁
        have hexp := Explains.of_shows hinv hc hk hsh ho hx hh hna₀ hle₀ hshow
        rw [Explains, hread]
        exact hexp
    · exact hold ops ops'' hops

end Consistent

/-! ## The serial execution -/

/-- What the serial execution of a store rests on. -/
structure Serial (s : State ι κ τ ν) : Prop where
  inv : Inv s
  clean : Clean s
  complete : Complete s
  shielded : Shielded s
  ordered : Ordered s
  consistent : Consistent s

/-- One of `l` has the read timestamp `u`. -/
def ReadIn (s : State ι κ τ ν) (l : List ι) (u : τ) : Prop :=
  ∃ t ∈ l, ∃ x, s.txns t = some x ∧ x.read = u

section Serial

variable {s s' : State ι κ τ ν} {mv : Move ι κ τ ν} {t : ι} {x : Txn κ τ ν} {k : κ} {l₁ l₂ : List ι}
  {u : τ} {v : Option ν}

omit [DecidableEq ι] in
theorem serial_init : Serial ({} : State ι κ τ ν) :=
  ⟨inv_init, clean_init, complete_init, shielded_init, ⟨by simp, .nil, by simp⟩, by rintro _ _ ⟨⟩⟩

theorem Serial.step (h : Serial s) (hs : Step s mv s') (hst : Strict s mv) (ha : Alive s mv)
    (hc : Covered s mv) (hd : Ahead s mv) (ht : Timely s mv) : Serial s' :=
  ⟨h.inv.step hs, h.clean.step h.inv hs hst, h.complete.step h.clean h.inv hs hst ha,
    h.shielded.step h.inv hs hc, h.ordered.step h.inv hs hd ht,
    h.consistent.step h.inv h.clean h.complete h.shielded h.ordered hs hst ha hc⟩

theorem Serial.steps (h : Serial s) {G : State ι κ τ ν → Move ι κ τ ν → Prop} (hs : Steps G s s')
    (hG : ∀ s mv, G s mv → Strict s mv ∧ Alive s mv ∧ Covered s mv ∧ Ahead s mv ∧ Timely s mv) :
    Serial s' :=
  hs.invariant (fun hp hg hstep ↦
    have ⟨hst, ha, hc, hd, ht⟩ := hG _ _ hg
    hp.step hstep hst ha hc hd ht) h

section

omit [DecidableEq ι]

/-- A committed version is the last write of the transaction with its read timestamp. -/
theorem Serial.of_settled (h : Serial s) (hv : (s.cells k).settled u = some v) :
    ∃ t x, s.txns t = some x ∧ x.read = u ∧ x.record.status = .committed ∧
      lastWrite x.ops k = some v := by
  obtain ⟨t, x, hx, hr, hw⟩ := h.clean.wrote_of_fixed (settled_eq_some.mp hv)
  have hread := h.ordered.committed hx (by rw [hr])
  rw [hr] at hread
  exact ⟨t, x, hx, hread.symm, by rw [hr], hw⟩

/-- The versions of those who began before `t` are those below the read timestamp of `t`. -/
theorem Serial.lt_read_iff (h : Serial s) (hl : s.begun = l₁ ++ t :: l₂) (hx : s.txns t = some x)
    (u : τ) (v : Option ν) : u < x.read ∧ (s.cells k).settled u = some v ↔
      ReadIn s l₁ u ∧ (s.cells k).settled u = some v := by
  obtain ⟨hlt₁, hlt₂⟩ := h.ordered.split hl hx
  refine and_congr_left fun hv ↦ ⟨fun hu ↦ ?_, ?_⟩
  · obtain ⟨t', y, hy, rfl, -⟩ := h.of_settled hv
    have ht' := h.ordered.begun.mpr ⟨y, hy⟩
    rw [hl, mem_append, mem_cons] at ht'
    rcases ht' with ht' | rfl | ht'
    · exact ⟨t', ht', y, hy, rfl⟩
    · obtain rfl := mem_unique hx hy
      exact absurd hu (lt_irrefl _)
    · exact absurd hu (hlt₂ t' ht' y hy).not_gt
  · rintro ⟨t', ht', y, hy, rfl⟩
    exact hlt₁ t' ht' y hy

/-- A transaction that has committed no write of `k` adds nothing to its versions. -/
theorem Serial.readIn_concat_iff (h : Serial s) (hx : s.txns t = some x)
    (hno : x.record.status = .committed → lastWrite x.ops k = none) (u : τ) (v : Option ν) :
    ReadIn s l₁ u ∧ (s.cells k).settled u = some v ↔
      ReadIn s (l₁ ++ [t]) u ∧ (s.cells k).settled u = some v := by
  refine and_congr_left fun hv ↦ ⟨?_, ?_⟩
  · rintro ⟨t', ht', hy⟩
    exact ⟨t', mem_append_left _ ht', hy⟩
  · rintro ⟨t', ht', y, hy, rfl⟩
    rcases mem_append.mp ht' with ht' | ht'
    · exact ⟨t', ht', y, hy, rfl⟩
    · obtain rfl := mem_singleton.mp ht'
      obtain ⟨t'', z, hz, hread, hcom, hw⟩ := h.of_settled hv
      obtain rfl := h.ordered.eq_of_read hy hz hread
      obtain rfl := mem_unique hx hz
      cases (hno hcom).symm.trans hw

/-- The last write of a committed transaction is the newest version so far. -/
theorem Serial.newest_concat (h : Serial s) (hl : s.begun = l₁ ++ t :: l₂) (hx : s.txns t = some x)
    (hcom : x.record.status = .committed) (hw : lastWrite x.ops k = some v) :
    Newest (s.cells k).settled (ReadIn s (l₁ ++ [t])) v := by
  have hread := h.ordered.committed hx hcom
  obtain ⟨hver, hno⟩ := (h.complete k).committed hx hcom hw
  rw [hread] at hver hno
  refine .inl ⟨x.read, ⟨t, by simp, x, hx, rfl⟩, settled_eq_some.mpr ⟨hver, hno⟩, ?_⟩
  rintro _ v' ⟨t', ht', y, hy, rfl⟩ -
  rcases mem_append.mp ht' with ht' | ht'
  · exact ((h.ordered.split hl hx).1 t' ht' y hy).le
  · obtain rfl := mem_singleton.mp ht'
    obtain rfl := mem_unique hx hy
    exact le_rfl

end

variable [DecidableEq ν] {ops : ι → List (Op κ ν)} {com : ι → Bool}

omit [DecidableEq ι] in
/-- Those of the first transactions that have committed are a serial execution. -/
theorem Serial.execAll_of_begun (h : Serial s) (hops : ∀ t x, s.txns t = some x → ops t = x.ops)
    (hcom : ∀ t x, s.txns t = some x → (com t = true ↔ x.record.status = .committed))
    (hl : s.begun = l₁ ++ l₂) :
    ∃ db, execAll ops (l₁.filter com) (fun _ ↦ none) = some db ∧
      ∀ k, Newest (s.cells k).settled (ReadIn s l₁) (db k) := by
  induction l₁ using List.reverseRecOn generalizing l₂ with
  | nil => exact ⟨fun _ ↦ none, rfl, fun k ↦ .inr ⟨fun u ⟨t, ht, _⟩ ↦ absurd ht (by simp), rfl⟩⟩
  | append_singleton l₁ t ih =>
    rw [append_assoc, singleton_append] at hl
    obtain ⟨db, hdb, hnew⟩ := ih hl
    obtain ⟨x, hx⟩ := h.ordered.begun.mp (hl ▸ mem_append_right l₁ (.head _))
    rw [filter_append]
    by_cases hc : com t = true
    · have hst := (hcom t x hx).mp hc
      rw [filter_cons_of_pos hc, filter_nil, execAll_concat, hdb, bind_some, hops t x hx]
      refine ⟨overlay db x.ops, exec_eq_some fun ops₁ k r ops₂ heq ↦ ?_, fun k ↦ ?_⟩
      · -- what it has read is what is there
        have hexp := h.consistent t x hx (by rw [hst]; simp) (h.ordered.committed hx hst).le
          ops₁ k r ops₂ heq
        rw [overlay]
        rcases hexp with hw | ⟨hw, hr⟩
        · rw [hw, getD_some]
        · rw [hw, getD_none]
          exact (hnew k).unique (hr.congr (h.lt_read_iff hl hx))
      · rw [overlay]
        cases hw : lastWrite x.ops k with
        | some w => exact h.newest_concat hl hx hst hw
        | none => exact (hnew k).congr (h.readIn_concat_iff hx fun _ ↦ hw)
    · rw [filter_cons_of_neg hc, filter_nil, append_nil]
      have hst : x.record.status ≠ .committed := fun hst ↦ hc ((hcom t x hx).mpr hst)
      exact ⟨db, hdb, fun k ↦ (hnew k).congr (h.readIn_concat_iff hx fun hst' ↦ absurd hst' hst)⟩

omit [DecidableEq ι] in
/-- **The committed transactions, in the order in which they began, are a serial execution**, and
the database that comes out of it is that of the newest committed versions. -/
theorem Serial.execAll (h : Serial s) (hops : ∀ t x, s.txns t = some x → ops t = x.ops)
    (hcom : ∀ t x, s.txns t = some x → (com t = true ↔ x.record.status = .committed)) :
    ∃ db, Transaction.execAll ops (s.begun.filter com) (fun _ ↦ none) = some db ∧
      ∀ k, Newest (s.cells k).settled (fun _ ↦ True) (db k) := by
  obtain ⟨db, hdb, hnew⟩ := h.execAll_of_begun hops hcom (append_nil s.begun).symm
  refine ⟨db, hdb, fun k ↦ (hnew k).congr fun u v ↦ and_congr_left fun hv ↦
    ⟨fun _ ↦ trivial, fun _ ↦ ?_⟩⟩
  obtain ⟨t, x, hx, hread, -⟩ := h.of_settled hv
  exact ⟨t, h.ordered.begun.mpr ⟨x, hx⟩, x, hx, hread⟩

omit [DecidableEq ι] [DecidableEq κ] [DecidableEq ν] in
theorem Ordered.nodup (h : Ordered s) : s.begun.Nodup := by
  refine h.sorted.imp_of_mem fun {t t'} ht _ hlt heq ↦ ?_
  subst heq
  obtain ⟨x, hx⟩ := h.begun.mp ht
  exact lt_irrefl _ (hlt x x hx hx)

end Serial

end DucklingDB.Transaction
