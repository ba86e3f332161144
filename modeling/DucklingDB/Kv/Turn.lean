import DucklingDB.Kv.Moves

/-!
# Steps of the system as turns of the store

Every step of the coordinators over one engine is a *turn* of the store: quiet moves, and at most
one move of the calling transaction after them (`Turn`). `SysRel` relates the two states, and
`SysRel.step` finds the turn, for the steps that are `Orderly`: keys, identifiers and timestamps are
such that nothing collides or overflows.
-/

namespace DucklingDB.Txn

open Hlc Mvcc Tscache DucklingDB.Transaction Option Function

/-- The key and the value of a write. -/
def Call.written : Call → Option (Bytes × Option Bytes)
  | .put key value => some (key, some value)
  | .delete key => some (key, none)
  | _ => none

/-- The call neither answered nor did what it was called for. -/
def Answer.failed : Answer → Bool
  | .value result => (readResult result).isNone
  | .done (.ok ()) => false
  | .done (.error _) => true

namespace System

/-- The coordinators' copies of the records. -/
def mem (s : System) (id : TxnID) : Option Transaction := (s.senders id).map Sender.txn

/-- Nothing has happened yet. -/
structure Fresh (s : System) : Prop where
  engine : s.engine = SortedMap.empty
  senders : ∀ id, s.senders id = none
  begun : s.begun = []
  ops : ∀ id, s.ops id = []
  commits : ∀ id, s.commits id = none
  caches : ∀ i, (s.caches i).All Room

variable [MetadataCodec] [RecordCodec]

/-- A write to a key that collides with no other, below the last timestamp. -/
def OrderlyWrite (U : Set Bytes) (s : System) (k : Bytes) : Prop :=
  k ∈ U ∧ ∀ m ∈ metaOf s.engine k, m.timestamp.HasNext

/-- An event that is a turn of the store. -/
def Orderly (U : Set Bytes) (s : System) : Event → Prop
  | .begin id _ _ clock _ =>
    id.isZero = false ∧ Valid (s.clocks clock).now.1 ∧ (s.clocks clock).now.1.HasNext
  | .call _ (.get k _) => k ∈ U
  | .call _ (.put k _) => s.OrderlyWrite U k
  | .call _ (.delete k) => s.OrderlyWrite U k
  | .call _ .commit => True
  | .call _ .abort => True

/-- A transaction writes a key again only at the timestamp of the intent it already has there. -/
def Strict (s : System) : Event → Prop
  | .begin _ _ _ _ _ => True
  | .call id c => ∀ kv ∈ c.written, ∀ x ∈ s.senders id, x.txn.isFinalized = false →
    ∀ i ∈ intentOf s.engine kv.1, i.1 = id →
      i.2 = ((s.attach x).pushPastCachedRead kv.1).txn.writeTimestamp

/-- Every step of the run satisfies `P`. -/
def Along (P : System → Event → Prop) (s : System) : List Event → Prop
  | [] => True
  | ev :: evs => P s ev ∧ ∀ r ∈ s.step ev, r.2.Along P evs

section Decidable

variable {U : Set Bytes} [DecidablePred (· ∈ U)] {s : System} {k : Bytes} {ev : Event}

instance : Decidable (s.OrderlyWrite U k) := inferInstanceAs (Decidable (_ ∧ _))

instance : Decidable (s.Orderly U ev) :=
  match ev with
  | .begin _ _ _ _ _ => inferInstanceAs (Decidable (_ ∧ _ ∧ _))
  | .call _ (.get k _) => inferInstanceAs (Decidable (k ∈ U))
  | .call _ (.put k _) => inferInstanceAs (Decidable (s.OrderlyWrite U k))
  | .call _ (.delete k) => inferInstanceAs (Decidable (s.OrderlyWrite U k))
  | .call _ .commit => inferInstanceAs (Decidable True)
  | .call _ .abort => inferInstanceAs (Decidable True)

omit [DecidablePred (· ∈ U)] in
instance : Decidable (s.Strict ev) :=
  match ev with
  | .begin _ _ _ _ _ => inferInstanceAs (Decidable True)
  | .call _ _ => inferInstanceAs (Decidable (∀ _, _))

instance decidableAlong {P : System → Event → Prop} [∀ s ev, Decidable (P s ev)] :
    ∀ (s : System) (evs : List Event), Decidable (s.Along P evs)
  | _, [] => inferInstanceAs (Decidable True)
  | s, ev :: evs =>
    have : ∀ s, Decidable (Along P s evs) := fun s ↦ decidableAlong s evs
    inferInstanceAs (Decidable (P s ev ∧ ∀ r ∈ s.step ev, r.2.Along P evs))

end Decidable

end System

variable [MetadataCodec] [RecordCodec] {G : Store → Move TxnID Bytes Timestamp Bytes → Prop}
  {s s' : System}

/-- The system is the store `a`. -/
structure SysRel (U : Set Bytes) (s : System) (a : Store) : Prop where
  rel : Rel U s.engine s.mem s.ops a
  caches : ∀ i, (s.caches i).All Room
  begun : a.begun = s.begun
  mem_begun : ∀ {id}, id ∈ s.begun ↔ (s.senders id).isSome = true
  commits : ∀ {id c}, s.commits id = some c ↔ a.Committed id c

/-- A successful write, in the store `a₁` in which it lays its intent. -/
structure Writes (s s' : System) (a a₁ : Store) (id : TxnID) (c : Call) (k : Bytes)
    (value : Option Bytes) : Prop where
  written : c.written = some (k, value)
  quiet : Quiet id a a₁
  held : ∃ x x' x₁, s.senders id = some x ∧ s'.senders id = some x' ∧ a₁.txns id = some x₁ ∧
    x₁.held.write = x'.txn.writeTimestamp ∧
    (∀ i, x.cache = some i → ((s.caches i).getMax k).next ≤ x'.txn.writeTimestamp) ∧
    x.txn.writeTimestamp ≤ x'.txn.writeTimestamp ∧
    x.txn.isFinalized = false ∧ ((a₁.cells k).owner = some id → a₁.cells k = a.cells k ∧
      x'.txn.writeTimestamp = ((s.attach x).pushPastCachedRead k).txn.writeTimestamp)

/-- What a step of the system does to the store. -/
inductive Turn (s : System) (a : Store) : Event → Answer → System → Store → Prop
  | start {id priority iso clock cache s' a'} : Step a (.start id (s.clocks clock).now.1) a' →
      Turn s a (.begin id priority iso clock cache) (.done (.ok ())) s' a'
  | quiet {id c ans s' a'} : ans.failed = true → Quiet id a a' → Turn s a (.call id c) ans s' a'
  | refresh {id ans s' a'} : ans.failed = true → Step a (.refresh id) a' →
      Turn s a (.call id .commit) ans s' a'
  | read {id k order result r s' a₁ a'} : Quiet id a a₁ → readResult result = some r →
      Step a₁ (.read id k r) a' → Turn s a (.call id (.get k order)) (.value result) s' a'
  | write {id c k value s' a₁ a'} : Writes s s' a a₁ id c k value →
      Step a₁ (.write id k value) a' → Turn s a (.call id c) (.done (.ok ())) s' a'
  | commit {id x s' y a'} : s.senders id = some x → a.txns id = some y →
      (x.txn.isolation = .SSI → y.record.write ≤ y.read) → Step a (.commit id) a' →
      Turn s a (.call id .commit) (.done (.ok ())) s' a'
  | abort {id s' a'} : Step a (.abort id) a' → Turn s a (.call id .abort) (.done (.ok ())) s' a'

variable {a a' : Store}

section

omit [MetadataCodec] [RecordCodec]

/-- The moves of a turn satisfy `G` if its start, its write and its commit do, and all plain
moves. -/
theorem Turn.steps_of {ev : Event} {ans : Answer} (h : Turn s a ev ans s' a')
    (hG : ∀ a mv, mv.IsPlain → G a mv)
    (hs : ∀ {id priority iso clock cache}, ev = .begin id priority iso clock cache →
      G a (.start id (s.clocks clock).now.1))
    (hw : ∀ {id c k value a₁}, ev = .call id c → ans = .done (.ok ()) →
      Writes s s' a a₁ id c k value → G a₁ (.write id k value))
    (hc : ∀ {id x y}, s.senders id = some x → a.txns id = some y →
      (x.txn.isolation = .SSI → y.record.write ≤ y.read) → G a (.commit id)) : Steps G a a' := by
  have hquiet : ∀ {id : TxnID} {a₁ : Store}, Quiet id a a₁ → Steps G a a₁ :=
    fun hq ↦ hq.mono fun s mv hmv ↦ hG s mv hmv.isPlain
  cases h with
  | start hstep => exact .single (hs rfl) hstep
  | quiet _ hq => exact hquiet hq
  | @refresh id _ _ _ _ hstep => exact .single (hG _ (.refresh id) trivial) hstep
  | @read id k _ _ r _ _ _ hq _ hstep => exact (hquiet hq).tail (hG _ (.read id k r) trivial) hstep
  | write hwr hstep => exact (hquiet hwr.quiet).tail (hw rfl rfl hwr) hstep
  | commit hx hy hssi hstep => exact .single (hc hx hy hssi) hstep
  | @abort id _ _ hstep => exact .single (hG _ (.abort id) trivial) hstep

theorem Turn.of_written {id : TxnID} {c : Call}
    {kv : Bytes × Option Bytes} (h : Turn s a (.call id c) (.done (.ok ())) s' a')
    (hc : c.written = some kv) : ∃ k value a₁, Writes s s' a a₁ id c k value ∧
      Step a₁ (.write id k value) a' := by
  cases h with
  | write hw hstep => exact ⟨_, _, _, hw, hstep⟩
  | quiet hfail _ => exact absurd hfail (by simp [Answer.failed])
  | refresh hfail _ => exact absurd hfail (by simp [Answer.failed])
  | commit _ _ _ _ => exact absurd hc (by simp [Call.written])
  | abort _ => exact absurd hc (by simp [Call.written])

/-- The moves of a turn satisfy `G` if its write does, and all that are not writes. -/
theorem Turn.steps {ev : Event} {ans : Answer} (h : Turn s a ev ans s' a')
    (hG : ∀ a mv, (∀ t k w, mv ≠ .write t k w) → G a mv)
    (hw : ∀ {id c k value a₁}, ev = .call id c → ans = .done (.ok ()) →
      Writes s s' a a₁ id c k value → G a₁ (.write id k value)) : Steps G a a' := by
  refine h.steps_of (fun a mv hmv ↦ hG a mv ?_) (fun _ ↦ hG _ _ (by simp)) hw fun _ _ _ ↦
    hG _ _ (by simp)
  rintro t k w rfl
  exact hmv.elim

end

/-! ## The relation after a call -/

section SysRel

variable {U : Set Bytes} {s s' : System} {a a' : Store} {id : TxnID} {x : Sender}
  {tc : TxnCoordSender} {ans : Answer} {k : Bytes}

theorem SysRel.attach (h : SysRel U s a) (hx : s.senders id = some x) :
    RelAt U s.mem s.ops id (s.attach x) a := by
  have hmem : s.mem id = some (s.attach x).txn := by rw [System.mem, hx, map_some, System.attach]
  rw [RelAt, ← hmem, update_eq_self]
  exact h.rel

open Function (update update_of_ne update_self)

omit [MetadataCodec] [RecordCodec] in
@[simp] theorem settle_senders : (s.settle id x tc).senders =
    update s.senders id (some { x with txn := tc.txn }) := rfl

omit [MetadataCodec] [RecordCodec] in
theorem mem_settle : (s.settle id x tc).mem = update s.mem id (some tc.txn) := by
  funext id'
  by_cases heq : id' = id
  · subst heq
    rw [System.mem, settle_senders, update_self, update_self, map_some]
  · rw [System.mem, settle_senders, update_of_ne heq, update_of_ne heq, System.mem]

theorem SysRel.caches_settle (h : SysRel U s a) (id : TxnID) (x : Sender)
    (hcache : ∀ c, tc.tscache = some c → c.All Room) (i : ℕ) :
    ((s.settle id x tc).caches i).All Room := by
  rw [System.settle]
  cases hj : x.cache with
  | none => exact h.caches i
  | some j =>
    cases hc : tc.tscache with
    | none => exact h.caches i
    | some c =>
      by_cases heq : i = j
      · subst heq
        simp only [update_self]
        exact hcache c hc
      · simp only [update_of_ne heq]
        exact h.caches i

theorem SysRel.cache (h : SysRel U s a) (c : Cache) (hc : (s.attach x).tscache = some c) :
    c.All Room := by
  obtain ⟨i, -, rfl⟩ := map_eq_some_iff.mp hc
  exact h.caches i

omit [MetadataCodec] [RecordCodec] in
theorem isSome_senders_settle (hx : (s.senders id).isSome = true) (id' : TxnID) :
    ((s.settle id x tc).senders id').isSome = (s.senders id').isSome := by
  by_cases heq : id' = id
  · subst heq
    rw [settle_senders, update_self, hx, isSome_some]
  · rw [settle_senders, update_of_ne heq]

section

variable (h : SysRel U s a)
include h

section

variable (hx : s.senders id = some x)
include hx

theorem SysRel.settle (hrel : RelAt U s.mem s.ops id tc a')
    (hcache : ∀ c, tc.tscache = some c → c.All Room) (hbegun : a'.begun = a.begun)
    (hcom : ∀ {t c}, a'.Committed t c ↔ a.Committed t c) : SysRel U (s.settle id x tc) a' := by
  refine ⟨?_, h.caches_settle id x hcache, hbegun.trans h.begun, fun {t} ↦ ?_, fun {t c} ↦ ?_⟩
  · rw [mem_settle]
    exact hrel
  · rw [isSome_senders_settle (by rw [hx, isSome_some])]
    exact h.mem_begun
  · rw [hcom]
    exact h.commits

theorem SysRel.log {op : Op} (hrel : RelAt U s.mem (update s.ops id (s.ops id ++ [op])) id tc a')
    (hcache : ∀ c, tc.tscache = some c → c.All Room) (hbegun : a'.begun = a.begun)
    (hcom : ∀ {t c}, a'.Committed t c ↔ a.Committed t c) :
    SysRel U ((s.settle id x tc).log id op) a' := by
  refine ⟨?_, h.caches_settle id x hcache, hbegun.trans h.begun, fun {t} ↦ ?_, fun {t c} ↦ ?_⟩
  · have hmem : ((s.settle id x tc).log id op).mem = update s.mem id (some tc.txn) := mem_settle
    rw [hmem]
    exact hrel
  · rw [System.log, isSome_senders_settle (by rw [hx, isSome_some])]
    exact h.mem_begun
  · rw [hcom]
    exact h.commits

/-! ## The calls -/

variable {order : List Bytes}

theorem SysRel.registered (hreg : Registered (s.attach x) tc k order)
    (c : Cache) (hc : tc.tscache = some c) : c.All Room := by
  rcases hreg with heq | heq
  · exact h.cache c (heq ▸ hc)
  · obtain ⟨_, y, _, _, htr⟩ := (h.attach hx).self
    rw [heq] at hc
    obtain ⟨c', hc', rfl⟩ := map_eq_some_iff.mp hc
    refine (h.cache c' hc').add k ?_ order
    rw [htr.held_read]
    exact ⟨htr.valid_read.1, htr.hasNext⟩

theorem SysRel.get (hk : k ∈ U) (hs : s.call id x (.get k order) = (ans, s')) :
    ∃ a', SysRel U s' a' ∧ Turn s a (.call id (.get k order)) ans s' a' := by
  obtain ⟨result, tc, a₁, hget, hreg, hquiet, -, hrest⟩ := get_spec (h.attach hx) hk order
  simp only [System.call, hget] at hs
  have hcache := h.registered hx hreg
  rcases hrest with ⟨hr, hrel⟩ | ⟨r, a', hr, hstep, hrel⟩
  · simp only [hr, Prod.mk.injEq] at hs
    obtain ⟨rfl, rfl⟩ := hs
    exact ⟨a₁, h.settle hx hrel hcache hquiet.begun_eq (hquiet.committed_iff h.rel.inv),
      .quiet (by rw [Answer.failed, hr, isNone_none]) hquiet⟩
  · simp only [hr, Prod.mk.injEq] at hs
    obtain ⟨rfl, rfl⟩ := hs
    refine ⟨a', h.log hx hrel hcache ?_ fun {t c} ↦ ?_, .read hquiet hr hstep⟩
    · exact (hstep.begun_eq (by simp)).trans hquiet.begun_eq
    · rw [hstep.committed_iff (h.rel.inv.steps hquiet), hquiet.committed_iff h.rel.inv]
      simp

theorem SysRel.write {value : Option Bytes} (hgood : s.OrderlyWrite U k) {c : Call}
    (hc : c.written = some (k, value)) (hs : s.write id x k value = (ans, s')) :
    ∃ a', SysRel U s' a' ∧ Turn s a (.call id c) ans s' a' := by
  obtain ⟨hk, hnext⟩ := hgood
  have hstamp : ∀ u, (a.cells k).stamp = some u → u.HasNext := by
    intro u hu
    obtain ⟨m, hm, rfl⟩ := h.rel.rep.of_stamp hk hu
    exact hnext m hm
  rcases writeLocked_spec (h.attach hx) hk value h.cache hstamp with ⟨err, tc', a', hout, hr⟩ |
    ⟨tc', a₁, x₁, a', hout, hcache, hquiet, hx₁, hw, hmax, hle, ⟨hfin, hown⟩, hstep, hrel'⟩
  · simp only [System.write, hout, Prod.mk.injEq] at hs
    obtain ⟨rfl, rfl⟩ := hs
    refine ⟨a', h.settle hx hr.rel (fun c hc ↦ ?_) hr.quiet.begun_eq
      (hr.quiet.committed_iff h.rel.inv), .quiet rfl hr.quiet⟩
    exact h.cache c (hr.bumped.tscache ▸ hc)
  · simp only [System.write, hout, Prod.mk.injEq] at hs
    obtain ⟨rfl, rfl⟩ := hs
    refine ⟨a', h.log hx hrel' (fun c hc ↦ h.cache c (hcache ▸ hc)) ?_ fun {t c} ↦ ?_, ?_⟩
    · exact (hstep.begun_eq (by simp)).trans hquiet.begun_eq
    · rw [hstep.committed_iff (h.rel.inv.steps hquiet), hquiet.committed_iff h.rel.inv]
      simp
    · refine .write ⟨hc, hquiet, x, _, x₁, hx, update_self .., hx₁, hw, fun i hi ↦ ?_, hle, hfin,
        hown⟩ hstep
      exact hmax (s.caches i) (by rw [System.attach, hi, map_some])

theorem SysRel.commit (hs : s.call id x .commit = (ans, s')) :
    ∃ a', SysRel U s' a' ∧ Turn s a (.call id .commit) ans s' a' := by
  rcases commit_spec (h.attach hx) with ⟨err, tc', a', hout, hmove, hrel, hcache, -⟩ |
    ⟨tc', a', y, hout, hstep, hrel, hcache, hy, hw, hssi⟩
  · simp only [System.call, hout, Prod.mk.injEq] at hs
    obtain ⟨rfl, rfl⟩ := hs
    have hcache' : ∀ c, tc'.tscache = some c → c.All Room := fun c hc ↦ h.cache c (hcache ▸ hc)
    rcases hmove with rfl | hstep
    · exact ⟨a', h.settle hx hrel hcache' rfl Iff.rfl, .quiet rfl .refl⟩
    · refine ⟨a', h.settle hx hrel hcache' (hstep.begun_eq (by simp)) fun {t c} ↦ ?_,
        .refresh rfl hstep⟩
      rw [hstep.committed_iff h.rel.inv]
      simp
  · simp only [System.call, hout, Prod.mk.injEq] at hs
    obtain ⟨rfl, rfl⟩ := hs
    refine ⟨a', ⟨?_, h.caches_settle id x fun c hc ↦ h.cache c (hcache ▸ hc),
      (hstep.begun_eq (by simp)).trans h.begun, fun {t} ↦ ?_, fun {t c} ↦ ?_⟩,
      .commit hx hy hssi hstep⟩
    · show Rel U tc'.engine (s.settle id x tc').mem s.ops a'
      rw [mem_settle]
      exact hrel
    · show t ∈ s.begun ↔ ((s.settle id x tc').senders t).isSome = true
      rw [isSome_senders_settle (by rw [hx, isSome_some])]
      exact h.mem_begun
    · show update s.commits id (some tc'.txn.writeTimestamp) t = some c ↔ a'.Committed t c
      rw [hstep.committed_iff h.rel.inv, update_apply]
      by_cases heq : t = id
      · subst heq
        -- it had not committed before
        have hno : ¬ a.Committed t c := by
          rintro ⟨y', hy', hrec⟩
          cases hstep with
          | commit hx' _ hr =>
            rw [hy'] at hx'
            obtain rfl := Option.some.inj hx'
            rw [hrec] at hr
            cases hr
        simp [hno, hy, hw]
      · rw [if_neg heq, h.commits]
        simp [Ne.symm heq]

theorem SysRel.abort (hs : s.call id x .abort = (ans, s')) :
    ∃ a', SysRel U s' a' ∧ Turn s a (.call id .abort) ans s' a' := by
  rcases abort_spec (h.attach hx) with ⟨-, hout⟩ | ⟨tc', a', hout, hstep, hrel, hcache⟩
  · simp only [System.call, hout, Prod.mk.injEq] at hs
    obtain ⟨rfl, rfl⟩ := hs
    exact ⟨a, h.settle hx (h.attach hx) h.cache rfl Iff.rfl, .quiet rfl .refl⟩
  · simp only [System.call, hout, Prod.mk.injEq] at hs
    obtain ⟨rfl, rfl⟩ := hs
    refine ⟨a', h.settle hx hrel (fun c hc ↦ h.cache c (hcache ▸ hc)) (hstep.begun_eq (by simp))
      fun {t c} ↦ ?_, .abort hstep⟩
    rw [hstep.committed_iff h.rel.inv]
    simp

end

theorem SysRel.begin (hx : s.senders id = none) {priority : Int32} {iso : IsolationLevel}
    {clock : ℕ} {cache : Option ℕ} (hgood : s.Orderly U (.begin id priority iso clock cache))
    (hs : s.begin id priority iso clock cache = (ans, s')) :
    ∃ a', SysRel U s' a' ∧ Turn s a (.begin id priority iso clock cache) ans s' a' := by
  obtain ⟨hid, hvalid, hnext⟩ := hgood
  have hmem : s.mem id = none := by rw [System.mem, hx, map_none]
  obtain ⟨tc', a', hout, hstep, hrel, hcache⟩ := begin_spec h.rel hmem hid hvalid hnext
    (cache.map s.caches) iso priority
  simp only [System.begin, hout, Prod.mk.injEq] at hs
  obtain ⟨rfl, rfl⟩ := hs
  refine ⟨a', ⟨?_, h.caches_settle id _ fun c hc ↦ ?_, ?_, fun {t} ↦ ?_, fun {t c} ↦ ?_⟩,
    .start hstep⟩
  · show Rel U tc'.engine (s.settle id _ tc').mem s.ops a'
    rw [mem_settle]
    exact hrel
  · rw [hcache] at hc
    obtain ⟨i, -, rfl⟩ := map_eq_some_iff.mp hc
    exact h.caches i
  · cases hstep with
    | start _ => exact congrArg (· ++ [id]) h.begun
  · show t ∈ s.begun ++ [id] ↔ ((s.settle id _ tc').senders t).isSome = true
    rw [List.mem_append, List.mem_singleton, h.mem_begun, settle_senders]
    by_cases heq : t = id
    · subst heq
      simp
    · simp [heq]
  · show s.commits t = some c ↔ a'.Committed t c
    rw [hstep.committed_iff h.rel.inv, h.commits]
    simp

/-! ## Steps and runs -/

/-- **An orderly step is a turn of the store.** -/
theorem SysRel.step {ev : Event} (hgood : s.Orderly U ev) (hs : s.step ev = some (ans, s')) :
    ∃ a', SysRel U s' a' ∧ Turn s a ev ans s' a' := by
  cases ev with
  | begin id priority iso clock cache =>
    rw [System.step] at hs
    split at hs
    · cases hs
    · rename_i hnew
      rw [Bool.not_eq_true, isSome_eq_false_iff, isNone_iff_eq_none] at hnew
      exact h.begin hnew hgood (Option.some.inj hs)
  | call id c =>
    obtain ⟨x, hx, hs⟩ := map_eq_some_iff.mp hs
    cases c with
    | get k order => exact h.get hx hgood hs
    | put k v => exact h.write hx hgood rfl hs
    | delete k => exact h.write hx hgood rfl hs
    | commit => exact h.commit hx hs
    | abort => exact h.abort hx hs

end

omit [RecordCodec] in
theorem System.Orderly.key_mem {c : Call} (h : s.Orderly U (.call id c)) {kv : Bytes × Option Bytes}
    (hc : c.written = some kv) : kv.1 ∈ U := by
  cases c with
  | put k v => exact Option.some.inj hc ▸ h.1
  | delete k => exact Option.some.inj hc ▸ h.1
  | _ => exact absurd hc (by simp [Call.written])

theorem SysRel.strict (h : SysRel U s a) {c : Call} {value : Option Bytes} {a₁ : Store}
    (hgood : s.Orderly U (.call id c)) (hst : s.Strict (.call id c))
    (hw : Writes s s' a a₁ id c k value) : Transaction.Strict a₁ (.write id k value) := by
  intro x₁ ts hx₁ hi
  obtain ⟨x, x', x₁', hx, hx', hx₁', hheld, -, -, hfin, hown⟩ := hw.held
  obtain rfl := mem_unique hx₁ hx₁'
  obtain ⟨hcell, hts⟩ := hown (owner_eq_some.mpr ⟨ts, hi⟩)
  rw [hcell] at hi
  rw [hheld, hts]
  exact hst (k, value) hw.written x hx hfin (id, ts)
    ((h.rel.rep.intent k (hgood.key_mem hw.written)).trans hi) rfl

theorem SysRel.senders_mono (h : SysRel U s a) (h' : SysRel U s' a') {ev : Event}
    (hturn : Turn s a ev ans s' a') {t : TxnID} (ht : (s.senders t).isSome = true) :
    (s'.senders t).isSome = true := by
  obtain ⟨y, hy⟩ := isSome_iff_exists.mp ht
  obtain ⟨_, x, -, hx, -⟩ := (h.attach hy).self
  have hrun : Steps (fun _ _ ↦ True) a a' := hturn.steps (fun _ _ _ ↦ trivial) fun _ _ _ ↦ trivial
  obtain ⟨x', hx'⟩ : ∃ x', a'.txns t = some x' := by
    refine hrun.invariant (P := fun a ↦ ∃ x, a.txns t = some x) (fun hp _ hstep ↦ ?_) ⟨x, hx⟩
    obtain ⟨x, hx⟩ := hp
    obtain ⟨x', hx', -⟩ := hstep.prefix hx
    exact ⟨x', hx'⟩
  obtain ⟨_, m, -, hm, -⟩ := h'.rel.of_txns hx'
  obtain ⟨z, hz, -⟩ := map_eq_some_iff.mp hm
  rw [hz, isSome_some]

theorem sysRel_fresh (hU : UserKeys U) (hs : s.Fresh) : SysRel U s {} := by
  have hmem : ∀ id, s.mem id = none := fun id ↦ by rw [System.mem, hs.senders, map_none]
  refine ⟨⟨?_, inv_init, fun {id} _ ↦ ⟨rfl, hs.ops id⟩, fun {id m} hm ↦ ?_⟩, hs.caches,
    hs.begun.symm, fun {id} ↦ ?_, fun {id c} ↦ ?_⟩
  · rw [hs.engine]
    exact represents_empty hU
  · rw [hmem] at hm
    cases hm
  · rw [hs.begun, hs.senders]
    simp
  · rw [hs.commits]
    simp [State.Committed]

/-! ## Along runs -/

theorem along_append {P : System → Event → Prop} {evs evs' : List Event}
    (h : s.Along P (evs ++ evs')) (hrun : s.run evs = some s') :
    s.Along P evs ∧ s'.Along P evs' := by
  induction evs generalizing s with
  | nil =>
    obtain rfl := Option.some.inj hrun
    exact ⟨trivial, h⟩
  | cons ev evs ih =>
    obtain ⟨r, hr, hrun⟩ := bind_eq_some_iff.mp hrun
    obtain ⟨-, h₂⟩ := ih (h.2 r hr) hrun
    refine ⟨⟨h.1, fun r' hr' ↦ ?_⟩, h₂⟩
    obtain rfl := mem_unique hr hr'
    exact (ih (h.2 r hr) hrun).1

variable {evs : List Event}

theorem along_and {P Q : System → Event → Prop} :
    s.Along (fun s ev ↦ P s ev ∧ Q s ev) evs ↔ s.Along P evs ∧ s.Along Q evs := by
  induction evs generalizing s with
  | nil => exact ⟨fun _ ↦ ⟨trivial, trivial⟩, fun _ ↦ trivial⟩
  | cons ev evs ih =>
    constructor
    · rintro ⟨⟨hP, hQ⟩, hrest⟩
      exact ⟨⟨hP, fun r hr ↦ (ih.mp (hrest r hr)).1⟩, hQ, fun r hr ↦ (ih.mp (hrest r hr)).2⟩
    · rintro ⟨⟨hP, hrestP⟩, hQ, hrestQ⟩
      exact ⟨⟨hP, hQ⟩, fun r hr ↦ ih.mpr ⟨hrestP r hr, hrestQ r hr⟩⟩

/-- **An orderly run is a run of the store.** A property of the two that every orderly step keeps
holds after it. -/
theorem SysRel.run {P : System → Store → Prop} {Q : System → Event → Prop}
    (hQ : ∀ s ev, Q s ev → s.Orderly U ev)
    (hP : ∀ {s ev ans s' a a'}, SysRel U s a → P s a → Q s ev → s.step ev = some (ans, s') →
      SysRel U s' a' → Turn s a ev ans s' a' → P s' a')
    (h : SysRel U s a) (hp : P s a) (hgood : s.Along Q evs)
    (hrun : s.run evs = some s') : ∃ a', SysRel U s' a' ∧ P s' a' := by
  induction evs generalizing s a with
  | nil =>
    obtain rfl := Option.some.inj hrun
    exact ⟨a, h, hp⟩
  | cons ev evs ih =>
    obtain ⟨⟨ans, s₁⟩, hs₁, hrun⟩ := bind_eq_some_iff.mp hrun
    obtain ⟨a₁, h₁, hturn⟩ := h.step (hQ s ev hgood.1) hs₁
    exact ih h₁ (hP h hp hgood.1 hs₁ h₁ hturn) (hgood.2 _ hs₁) hrun

theorem SysRel.exists_run (h : SysRel U s a)
    (hgood : s.Along (fun s ev ↦ s.Orderly U ev) evs) (hrun : s.run evs = some s') :
    ∃ a', SysRel U s' a' := by
  obtain ⟨a', h', -⟩ := h.run (P := fun _ _ ↦ True) (fun _ _ hg ↦ hg) (fun _ _ _ _ _ _ ↦ trivial)
    trivial hgood hrun
  exact ⟨a', h'⟩

/-- A write finds the record as it was before the call. -/
theorem SysRel.record_before (h : SysRel U s a) {a₁ : Store} {id : TxnID} {c : Call} {k : Bytes}
    {value : Option Bytes} (hw : Writes s s' a a₁ id c k value)
    {x₁ : Transaction.Txn Bytes Timestamp Bytes} (hx₁ : a₁.txns id = some x₁) :
    ∃ p, recordOf s.engine id = some p ∧ x₁.record = ⟨p.status, p.writeTimestamp⟩ := by
  obtain ⟨x, -, -, hx, -⟩ := hw.held
  obtain ⟨p, y, hp, hy, htr⟩ := (h.attach hx).self
  obtain ⟨y', hy', hrec, -⟩ := hw.quiet.self hy
  obtain rfl := mem_unique hx₁ hy'
  exact ⟨p, hp, hrec.trans htr.record⟩

end SysRel

end DucklingDB.Txn
