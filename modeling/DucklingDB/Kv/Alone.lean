import DucklingDB.Kv.Atomicity
import DucklingDB.Kv.Frame

/-!
# A transaction that runs alone

A transaction that runs alone gets no retry error and commits, if it finds no intent of another
transaction and, under serializable isolation, writes a key only as long as the timestamp cache
knows of no read of it at the transaction's own read timestamp.

The first condition is how conflicts are resolved: the intent of a pending transaction of no lower
priority is not removed, however long its coordinator has been idle. The second one is what the
cache cannot tell: it holds timestamps without owners, and a `Get` that found a value pushes the
later `Put` of its own transaction, which then cannot commit.
-/

namespace DucklingDB.Txn

open Hlc Mvcc DucklingDB.Transaction Function TxnCoordSender Option

/-- The call failed with a `TxnRetryError`. -/
def Answer.isRetry (ans : Answer) : Bool := ans.error?.any TxnError.isRetry

/-- A call that reads or writes. -/
def Call.IsAccess : Call → Prop
  | .commit => False
  | .abort => False
  | _ => True

instance {c : Call} : Decidable c.IsAccess :=
  match c with
  | .get _ _ => isTrue trivial
  | .put _ _ => isTrue trivial
  | .delete _ => isTrue trivial
  | .commit => isFalse id
  | .abort => isFalse id

/-- A serializable transaction writes a key only if the cache knows of no read of it at its read
timestamp or above. -/
def System.Unread (s : System) : Event → Prop
  | .begin _ _ _ _ _ => True
  | .call id c => ∀ kv ∈ c.written, ∀ x ∈ s.senders id, x.txn.isolation = .SSI →
    ∀ i ∈ x.cache, (s.caches i).getMax kv.1 < x.txn.readTimestamp

instance {s : System} {ev : Event} : Decidable (s.Unread ev) :=
  match ev with
  | .begin _ _ _ _ _ => inferInstanceAs (Decidable True)
  | .call _ _ => inferInstanceAs (Decidable (∀ _, _))

section Alone

variable [MetadataCodec] [RecordCodec]

/-- The transaction of `x` is pending and, if serializable, not pushed; no other transaction has an
intent, and no version that is not its own lies at its read timestamp or above. -/
structure System.Solo (U : Set Bytes) (s : System) (id : TxnID) (x : Sender) (p : Transaction) :
    Prop where
  sender : s.senders id = some x
  record : recordOf s.engine id = some p
  held : x.txn.status = .pending
  pending : p.status = .pending
  timely : x.txn.isolation = .SSI →
    x.txn.writeTimestamp ≤ x.txn.readTimestamp ∧ p.writeTimestamp ≤ x.txn.readTimestamp
  free : ∀ k ∈ U, intentOf s.engine k = none ∧
      (∀ m, metaOf s.engine k = some m → m.timestamp < x.txn.readTimestamp) ∨
    ∃ its, intentOf s.engine k = some (id, its)

variable {U : Set Bytes} {mem : TxnID → Option Transaction} {ops : TxnID → List Op} {id : TxnID}
  {tc : TxnCoordSender} {s s' : System} {a : Store} {k : Bytes} {x : Sender} {p : Transaction}
  {ts ts' : Timestamp} {ans : Answer} {c : Call}

omit [MetadataCodec] [RecordCodec] in
theorem Transaction.isFinalized_of_pending {t : Transaction} (h : t.status = .pending) :
    t.isFinalized = false := by
  rw [Transaction.isFinalized, h]
  rfl

/-! ## Reading and writing where nothing is in the way -/

section

variable (h : RelAt U mem ops id tc a) (hk : k ∈ U) (hpend : tc.txn.status = .pending)
include h hk hpend

/-- A `Get` that meets no intent of another transaction changes nothing but the cache. -/
theorem get_free (hfree : (a.cells k).Admits id tc.txn.readTimestamp) (order : List Bytes) :
    (tc.get k order).2.engine = tc.engine ∧ (Answer.value (tc.get k order).1).isRetry = false := by
  have hget := h.rep.get hk h.valid_readTimestamp
    { txn := some tc.txn.id, maxTimestamp := tc.txn.maxTimestamp }
  rw [TxnCoordSender.get, Transaction.isFinalized_of_pending hpend, if_neg (by simp),
    maxWriteIntentResolutions, getLoop]
  rcases hget with ⟨t, its, hi, hne, -⟩ | ⟨u, -, -, -, hget⟩ | ⟨r, -, hget⟩
  · rw [h.id_eq] at hne
    rcases hfree with ⟨hnone, -⟩ | ⟨its', hown⟩
    · cases hnone.symm.trans hi
    · obtain rfl := congrArg Prod.fst (mem_unique hown hi)
      exact absurd rfl hne
  · simp only [hget]
    exact ⟨trivial, rfl⟩
  · cases r with
    | none =>
      simp only [hget, Option.elim]
      exact ⟨trivial, rfl⟩
    | some v =>
      simp only [hget, Option.elim]
      exact ⟨rfl, rfl⟩

/-- A write that is admitted succeeds, at the timestamp that `pushPastCachedRead` leaves. -/
theorem writeLocked_free (hcache : ∀ c, tc.tscache = some c → c.All Room)
    (hfree : (a.cells k).Admits id tc.txn.readTimestamp) (value : Option Bytes) :
    ∃ e' w, tc.writeLocked k value = (.ok (), { tc.pushPastCachedRead k with
        engine := e', txn := (tc.pushPastCachedRead k).txn.addIntentKey k }) ∧
      Represents U e' (update a.cells k ((a.cells k).lay id w value)) ∧
      recordOf e' id = some ((tc.pushPastCachedRead k).txn.addIntentKey k) := by
  obtain ⟨a₀, hr, hcells, -⟩ := pushPastCachedRead_spec h hpend hcache k
  obtain ⟨_, x, _, hx, htr⟩ := h.self
  have hle : tc.txn.readTimestamp ≤ (tc.pushPastCachedRead k).txn.writeTimestamp := by
    have hread := (h.inv.txn hx).read_le_held
    rw [htr.held, ← htr.held_read] at hread
    exact hread.trans hr.bumped.le
  have hadm : (a₀.cells k).Admits id (tc.pushPastCachedRead k).txn.writeTimestamp := by
    rw [hcells]
    exact hfree.imp_left fun ⟨hi, hlt⟩ ↦ ⟨hi, fun u hu ↦ (hlt u hu).trans_le hle⟩
  obtain ⟨e₁, hok, hrep, -⟩ :=
    hr.rel.rep.write hk htr.nonzero hr.rel.valid_writeTimestamp value hadm
  rw [hcells] at hrep
  have hid := hr.rel.id_eq
  obtain ⟨e', hok', hrep', hself, -⟩ :=
    hrep.putTxnRecord ((tc.pushPastCachedRead k).txn.addIntentKey k)
  rw [(Transaction.same_addIntentKey _ k).id, hid] at hself
  refine ⟨e', _, ?_, hrep', hself⟩
  rw [writeLocked, Transaction.isFinalized_of_pending hpend, if_neg (by simp),
    maxWriteIntentResolutions, writeLoop, hid, hok]
  simp only [writeTxnRecord, putRecord, hok']

end

section

omit [MetadataCodec] [RecordCodec]

theorem pushPastCachedRead_of_lt
    (hlt : ∀ c, tc.tscache = some c → c.getMax k < tc.txn.writeTimestamp) :
    tc.pushPastCachedRead k = tc := by
  rw [pushPastCachedRead]
  cases hc : tc.tscache with
  | none => rfl
  | some c =>
    simp only
    rw [if_neg]
    rw [Timestamp.lessEq_iff, not_le]
    exact hlt c hc

/-! ## The calls -/

theorem addIntentKey_status (t : Transaction) (key : Bytes) :
    (t.addIntentKey key).status = t.status ∧
    (t.addIntentKey key).writeTimestamp = t.writeTimestamp := by
  rw [Transaction.addIntentKey]
  split <;> exact ⟨rfl, rfl⟩

end

section

variable (hsolo : s.Solo U id x p)
include hsolo

section

variable (h : SysRel U s a)
include h

theorem System.Solo.admits (hk : k ∈ U) : (a.cells k).Admits id (s.attach x).txn.readTimestamp :=
  (h.rel.rep.admits_iff hk).mpr (hsolo.free k hk)

theorem System.Solo.get (hk : k ∈ U) (order : List Bytes) :
    (s.call id x (.get k order)).1.isRetry = false ∧
      (s.call id x (.get k order)).2.Solo U id x p := by
  obtain ⟨hengine, hretry⟩ :=
    get_free (h.attach hsolo.sender) hk hsolo.held (hsolo.admits h hk) order
  have htxn := (s.attach x).get_txn k order
  rw [System.call]
  rcases hget : (s.attach x).get k order with ⟨result, tc⟩
  rw [hget] at hengine hretry htxn
  have hengine : tc.engine = s.engine := hengine
  have htxn : tc.txn = x.txn := htxn
  -- with or without an answer, only the cache and the clock have changed
  have hsolo' : ∀ s' : System, s'.engine = tc.engine →
      s'.senders = (s.settle id x tc).senders → s'.Solo U id x p := by
    intro s' he hs'
    refine ⟨?_, ?_, hsolo.held, hsolo.pending, hsolo.timely, fun k hk ↦ ?_⟩
    · rw [hs', settle_senders, update_self, htxn]
    · rw [he, hengine]
      exact hsolo.record
    · rw [he, hengine]
      exact hsolo.free k hk
  dsimp only
  split
  · exact ⟨hretry, hsolo' _ rfl rfl⟩
  · exact ⟨hretry, hsolo' _ rfl rfl⟩

theorem System.Solo.write (hk : k ∈ U) (value : Option Bytes)
    (hun : x.txn.isolation = .SSI → ∀ i, x.cache = some i →
      (s.caches i).getMax k < x.txn.readTimestamp) :
    (s.write id x k value).1.isRetry = false ∧
      ∃ x' p', (s.write id x k value).2.Solo U id x' p' := by
  have hrel := h.attach hsolo.sender
  obtain ⟨e', w, hok, hrep, hrec⟩ :=
    writeLocked_free hrel hk hsolo.held h.cache (hsolo.admits h hk) value
  let t := ((s.attach x).pushPastCachedRead k).txn.addIntentKey k
  have hsame : x.txn.Same t :=
    ((s.attach x).pushPastCachedRead_same k).trans (Transaction.same_addIntentKey _ k)
  obtain ⟨a₀, hr, -⟩ := pushPastCachedRead_spec hrel hsolo.held h.cache k
  have hstatus : t.status = .pending := by
    rw [(addIntentKey_status _ k).1, hr.bumped.txn]
    exact hsolo.held
  -- a serializable transaction is not pushed
  have htimely : t.isolation = .SSI → t.writeTimestamp ≤ t.readTimestamp := by
    intro hssi
    have hssi : x.txn.isolation = .SSI := hsame.isolation.symm.trans hssi
    have hpush : (s.attach x).pushPastCachedRead k = s.attach x := by
      refine pushPastCachedRead_of_lt fun c hc ↦ ?_
      obtain ⟨i, hi, rfl⟩ := map_eq_some_iff.mp hc
      obtain ⟨_, y, _, hy, htr⟩ := hrel.self
      have hle := (h.rel.inv.txn hy).read_le_held
      rw [htr.held, ← htr.held_read] at hle
      exact (hun hssi i hi).trans_le hle
    rw [(addIntentKey_status _ k).2, hsame.readTimestamp, hpush]
    exact (hsolo.timely hssi).1
  rw [System.write, hok]
  refine ⟨rfl, { x with txn := t }, t, update_self .., hrec, hstatus, hstatus,
    fun hssi ↦ ⟨htimely hssi, htimely hssi⟩, fun k' hk' ↦ ?_⟩
  -- the key is its own now, and the others are as before
  refine (hrep.admits_iff hk').mp ?_
  by_cases heq : k' = k
  · subst heq
    rw [update_self]
    exact Or.inr ⟨w, rfl⟩
  · rw [update_of_ne heq]
    have hadm := hsolo.admits h hk'
    rw [show ({ x with txn := t } : Sender).txn.readTimestamp = x.txn.readTimestamp from
      hsame.readTimestamp]
    exact hadm

/-- A call of a lone transaction gets no retry error, and leaves it alone. -/
theorem System.Solo.step (hc : c.IsAccess) (hgood : s.Orderly U (.call id c))
    (hun : s.Unread (.call id c)) :
    ∃ ans s' x' p', s.step (.call id c) = some (ans, s') ∧ ans.isRetry = false ∧
      s'.Solo U id x' p' := by
  have hstep : s.step (.call id c) = some (s.call id x c) := by
    rw [System.step, hsolo.sender, map_some]
  cases c with
  | get k order =>
    obtain ⟨hretry, hsolo'⟩ := hsolo.get h hgood order
    exact ⟨_, _, x, p, hstep, hretry, hsolo'⟩
  | put k v =>
    obtain ⟨hretry, x', p', hsolo'⟩ :=
      hsolo.write h hgood.1 (some v) (hun (k, some v) rfl x hsolo.sender)
    exact ⟨_, _, x', p', hstep, hretry, hsolo'⟩
  | delete k =>
    obtain ⟨hretry, x', p', hsolo'⟩ := hsolo.write h hgood.1 none (hun (k, none) rfl x hsolo.sender)
    exact ⟨_, _, x', p', hstep, hretry, hsolo'⟩
  | commit => exact hc.elim
  | abort => exact hc.elim

theorem System.Solo.run {cs : List Call} (hcs : ∀ c ∈ cs, c.IsAccess)
    (hgood : s.Along (fun s ev ↦ s.Orderly U ev ∧ s.Unread ev) (cs.map (.call id))) :
    ∃ s' a' x' p', s.run (cs.map (.call id)) = some s' ∧ SysRel U s' a' ∧ s'.Solo U id x' p' ∧
      s.Along (fun s ev ↦ ∀ r ∈ s.step ev, r.1.isRetry = false) (cs.map (.call id)) := by
  induction cs generalizing s a x p with
  | nil => exact ⟨s, a, x, p, rfl, h, hsolo, trivial⟩
  | cons c cs ih =>
    obtain ⟨⟨hord, hun⟩, hrest⟩ := hgood
    obtain ⟨ans, s₁, x₁, p₁, hstep, hretry, hsolo₁⟩ := hsolo.step h (hcs c (.head _)) hord hun
    obtain ⟨a₁, h₁, -⟩ := h.step hord hstep
    obtain ⟨s', a', x', p', hrun, h', hsolo', halong⟩ :=
      ih hsolo₁ h₁ (fun c hc ↦ hcs c (.tail _ hc)) (hrest _ hstep)
    refine ⟨s', a', x', p', ?_, h', hsolo', fun r hr ↦ ?_, fun r hr ↦ ?_⟩
    · rw [List.map_cons, System.run, hstep, bind_some, hrun]
    · obtain rfl := mem_unique hstep hr
      exact hretry
    · obtain rfl := mem_unique hstep hr
      exact halong

/-- A lone transaction commits. -/
theorem System.Solo.commit : ∃ s', s.step (.call id .commit) = some (.done (.ok ()), s') := by
  rw [System.step, hsolo.sender, map_some, System.call]
  rcases commit_spec (h.attach hsolo.sender) with
    ⟨_, _, _, _, _, _, _, hreason⟩ | ⟨tc', _, _, hok, _⟩
  · rcases hreason with hfin | ⟨p', hp', hreason⟩
    · cases hfin.symm.trans (Transaction.isFinalized_of_pending hsolo.held)
    · obtain rfl := mem_unique hsolo.record hp'
      rcases hreason with hab | hpushed
      · cases hsolo.pending.symm.trans hab
      · exact absurd (fun hssi ↦ (hsolo.timely hssi).2) hpushed
  · rw [hok]
    exact ⟨_, rfl⟩

end

end

/-- `Begin` makes a transaction that is alone, if there are no intents and no later versions. -/
theorem SysRel.solo_begin (h : SysRel U s a) {priority : Int32} {iso : IsolationLevel} {clock : ℕ}
    {cache : Option ℕ} (hnew : s.senders id = none)
    (hgood : s.Orderly U (.begin id priority iso clock cache))
    (hint : ∀ k ∈ U, intentOf s.engine k = none)
    (hver : ∀ k ∈ U, ∀ u raw, Valid u → version s.engine k u = some raw →
      u < (s.clocks clock).now.1) :
    ∃ s' a' x p, s.step (.begin id priority iso clock cache) = some (.done (.ok ()), s') ∧
      SysRel U s' a' ∧ s'.Solo U id x p := by
  rcases hb : s.begin id priority iso clock cache with ⟨ans, s'⟩
  have hstep : s.step (.begin id priority iso clock cache) = some (ans, s') := by
    rw [System.step, hnew, isSome_none, if_neg (by simp), hb]
  obtain ⟨a', h', hturn⟩ := h.step hgood hstep
  cases hturn with
  | start hstart =>
    cases hstart with
    | start hnone =>
      obtain ⟨p, m, hp, hm, htr⟩ := h'.rel.of_txns (update_self id _ _)
      obtain ⟨x, hx, rfl⟩ := map_eq_some_iff.mp hm
      obtain ⟨hpst, hpw⟩ := Copy.mk.inj htr.record
      obtain ⟨hst, hw⟩ := Copy.mk.inj htr.held
      have hread : x.txn.readTimestamp = (s.clocks clock).now.1 := htr.held_read
      refine ⟨s', _, x, p, hstep, h', hx, hp, hst.symm, hpst.symm, fun _ ↦ ?_, fun k hk ↦ ?_⟩
      · rw [← hw, ← hpw, hread]
        exact ⟨le_rfl, le_rfl⟩
      · -- the cells are as before
        refine (h'.rel.rep.admits_iff hk).mp (Or.inl ⟨?_, fun u hu ↦ ?_⟩)
        · exact (h.rel.rep.intent k hk).symm.trans (hint k hk)
        · obtain ⟨w, hw⟩ := (h.rel.inv.cell k).stamp hu
          rw [hread]
          exact hver k hk u _ (h.rel.rep.valid hw) (h.rel.rep.version_of hk hw)

/-- **A transaction that runs alone commits.** Let a transaction begin, in a state that any orderly
run has led to, at a timestamp above all stored versions, with no intents stored, and let it make
any calls of `Get`, `Put` and `Delete`; if it is serializable, each write while the cache has no
read of the key at its read timestamp or above. Then no call gets a retry error, and `Commit`
returns no error. -/
theorem commits_alone {evs : List Event} {s₀ : System} (hU : UserKeys U) (hs : s₀.Fresh)
    (hgood₀ : s₀.Along (System.Orderly U) evs) (hrun₀ : s₀.run evs = some s) {priority : Int32}
    {iso : IsolationLevel} {clock : ℕ} {cache : Option ℕ} {cs : List Call}
    (hcs : ∀ c ∈ cs, c.IsAccess) (hnew : s.senders id = none)
    (hint : ∀ k ∈ U, intentOf s.engine k = none)
    (hver : ∀ k ∈ U, ∀ u raw, Valid u → version s.engine k u = some raw →
      u < (s.clocks clock).now.1)
    (hgood : s.Along (fun s ev ↦ s.Orderly U ev ∧ s.Unread ev)
      (.begin id priority iso clock cache :: cs.map (.call id))) :
    ∃ s' s'', s.run (.begin id priority iso clock cache :: cs.map (.call id)) = some s' ∧
      s.Along (fun s ev ↦ ∀ r ∈ s.step ev, r.1.isRetry = false)
        (.begin id priority iso clock cache :: cs.map (.call id)) ∧
      s'.step (.call id .commit) = some (.done (.ok ()), s'') := by
  obtain ⟨a, h⟩ := (sysRel_fresh hU hs).exists_run hgood₀ hrun₀
  obtain ⟨s₁, a₁, x₁, p₁, hbegin, h₁, hsolo₁⟩ := h.solo_begin hnew hgood.1.1 hint hver
  obtain ⟨s', a', x', p', hrun, h', hsolo', halong⟩ := hsolo₁.run h₁ hcs (hgood.2 _ hbegin)
  obtain ⟨s'', hcommit⟩ := hsolo'.commit h'
  refine ⟨s', s'', ?_, ⟨fun r hr ↦ ?_, fun r hr ↦ ?_⟩, hcommit⟩
  · rw [System.run, hbegin, bind_some, hrun]
  · obtain rfl := mem_unique hbegin hr
    rfl
  · obtain rfl := mem_unique hbegin hr
    exact halong

end Alone

/-! ## Runs -/

/-- Writes, a read of an own value, and a write of another key. -/
def loneCalls : List Call := [.put [0x61] [1], .get [0x61] [], .put [0x62] [2], .delete [0x62]]

theorem commits_alone_loneCalls : ∃ s' s'',
    blank.run (.begin (txnId 1) 1 .SSI 0 (some 0) :: loneCalls.map (.call (txnId 1))) = some s' ∧
    blank.Along (fun s ev ↦ ∀ r ∈ s.step ev, r.1.isRetry = false)
      (.begin (txnId 1) 1 .SSI 0 (some 0) :: loneCalls.map (.call (txnId 1))) ∧
    s'.step (.call (txnId 1) .commit) = some (.done (.ok ()), s'') := by
  have hgood : blank.Along (fun s ev ↦ s.Orderly letters ev ∧ s.Unread ev)
      (.begin (txnId 1) 1 .SSI 0 (some 0) :: loneCalls.map (.call (txnId 1))) := by decide +kernel
  have hgood₀ : blank.Along (System.Orderly letters) [] := trivial
  have hver : ∀ k ∈ letters, ∀ u raw, Valid u → version blank.engine k u = some raw →
      u < (blank.clocks 0).now.1 := fun k _ u raw _ h ↦ absurd h (by simp [version, blank])
  exact commits_alone userKeys_letters fresh_blank hgood₀ rfl (by decide) rfl (fun _ _ ↦ rfl)
    hver hgood

/-- In an empty system a serializable transaction writes a key, reads it and writes it again: it
cannot commit. And one of no higher priority cannot write a key on which an idle transaction has
left an intent, though it has begun later. -/
theorem exists_retry_alone :
    (∃ s r, blank.run [.begin (txnId 1) 1 .SSI 0 (some 0), .call (txnId 1) (.put [0x6b] [1]),
      .call (txnId 1) (.get [0x6b] []), .call (txnId 1) (.put [0x6b] [2])] = some s ∧
      s.step (.call (txnId 1) .commit) = some r ∧ r.1.isRetry = true) ∧
    ∃ s s' r, blank.run [.begin (txnId 1) 1 .SI 0 none, .call (txnId 1) (.put [0x6b] [1])] =
      some s ∧
      (metaOf s.engine [0x6b]).map (·.timestamp) = some ⟨10, 0⟩ ∧ (s.clocks 0).now.1 = ⟨20, 0⟩ ∧
      s.run [.begin (txnId 2) 1 .SI 0 none] = some s' ∧
      s'.step (.call (txnId 2) (.put [0x6b] [2])) = some r ∧ r.1.isRetry = true := by
  constructor
  · have hrun : ∃ s ∈ blank.run [.begin (txnId 1) 1 .SSI 0 (some 0),
        .call (txnId 1) (.put [0x6b] [1]),
        .call (txnId 1) (.get [0x6b] []), .call (txnId 1) (.put [0x6b] [2])],
        ∃ r ∈ s.step (.call (txnId 1) .commit), r.1.isRetry = true := by decide +kernel
    obtain ⟨s, hs, r, hr, hretry⟩ := hrun
    exact ⟨s, r, hs, hr, hretry⟩
  · have hrun : ∃ s ∈ blank.run [.begin (txnId 1) 1 .SI 0 none, .call (txnId 1) (.put [0x6b] [1])],
        ∃ s' ∈ s.run [.begin (txnId 2) 1 .SI 0 none],
        ∃ r ∈ s'.step (.call (txnId 2) (.put [0x6b] [2])), r.1.isRetry = true ∧
          (metaOf s.engine [0x6b]).map (·.timestamp) = some ⟨10, 0⟩ ∧
          (s.clocks 0).now.1 = ⟨20, 0⟩ := by
      decide +kernel
    obtain ⟨s, hs, s', hs', r, hr, hretry, hmeta, hnow⟩ := hrun
    exact ⟨s, s', r, hs, hmeta, hnow, hs', hr, hretry⟩

end DucklingDB.Txn
