import DucklingDB.Kv.System

/-!
# What a coordinator keeps

No method of a coordinator changes the identifier, the isolation level or the timestamps a
transaction reads at. Hence each coordinator of a run still has the isolation level that it was
begun with (`System.isolation_step`).
-/

namespace DucklingDB.Txn

open Hlc Mvcc Function TxnCoordSender

/-- `t'` is the transaction `t`, at a later time. -/
structure Transaction.Same (t t' : Transaction) : Prop where
  id : t'.id = t.id
  isolation : t'.isolation = t.isolation
  readTimestamp : t'.readTimestamp = t.readTimestamp
  maxTimestamp : t'.maxTimestamp = t.maxTimestamp

theorem Transaction.Same.refl (t : Transaction) : t.Same t := ⟨rfl, rfl, rfl, rfl⟩

theorem Transaction.Same.of_eq {t t' : Transaction} (h : t' = t) : t.Same t' := h ▸ .refl t

theorem Transaction.Same.trans {t t' t'' : Transaction} (h : t.Same t') (h' : t'.Same t'') :
    t.Same t'' :=
  ⟨h'.id.trans h.id, h'.isolation.trans h.isolation, h'.readTimestamp.trans h.readTimestamp,
    h'.maxTimestamp.trans h.maxTimestamp⟩

theorem Transaction.same_addIntentKey (t : Transaction) (key : Bytes) :
    t.Same (t.addIntentKey key) := by
  rw [addIntentKey]
  split <;> exact ⟨rfl, rfl, rfl, rfl⟩

namespace TxnCoordSender

theorem bumpWriteTimestampTo_same (tc : TxnCoordSender) (ts : Timestamp) :
    tc.txn.Same (tc.bumpWriteTimestampTo ts).txn := by
  rw [bumpWriteTimestampTo]
  split <;> exact ⟨rfl, rfl, rfl, rfl⟩

theorem pushPastCachedRead_same (tc : TxnCoordSender) (key : Bytes) :
    tc.txn.Same (tc.pushPastCachedRead key).txn := by
  rw [pushPastCachedRead]
  split
  · exact .refl _
  · dsimp only
    split
    · exact tc.bumpWriteTimestampTo_same _
    · exact .refl _

variable [MetadataCodec] [RecordCodec]

/-! ## Methods that do not touch the transaction -/

theorem putRecord_txn (tc : TxnCoordSender) (t : Transaction) :
    (tc.putRecord t).2.txn = tc.txn := by
  rw [putRecord]
  split <;> rfl

theorem txn_of_putRecord {tc tc' : TxnCoordSender} {t : Transaction} {r : Except TxnError Unit}
    (h : tc.putRecord t = (r, tc')) : tc'.txn = tc.txn := by
  rw [← tc.putRecord_txn t, h]

section

variable (tc : TxnCoordSender)
include tc

variable (key : Bytes)

omit [RecordCodec] in
theorem finalizeForeignIntent_txn (txnID : TxnID) (status : Mvcc.TxnStatus) (commitTS : Timestamp) :
    (tc.finalizeForeignIntent key txnID status commitTS).2.txn = tc.txn := by
  rw [finalizeForeignIntent]
  split <;> rfl

variable (blocker : Transaction)

theorem abortAndFinalize_txn (key : Bytes) (txnID : TxnID) :
    (tc.abortAndFinalize blocker key txnID).2.txn = tc.txn := by
  have h : (tc.abortBlocker blocker).2.txn = tc.txn := putRecord_txn ..
  rw [abortAndFinalize]
  rcases hput : tc.abortBlocker blocker with ⟨_ | _, tc'⟩ <;> rw [hput] at h
  · exact h
  · exact (finalizeForeignIntent_txn ..).trans h

theorem resolveForeignIntent_txn (txnID : TxnID) :
    (tc.resolveForeignIntent key txnID).2.txn = tc.txn := by
  rw [resolveForeignIntent]
  split
  · rfl
  · exact finalizeForeignIntent_txn ..
  · split
    · exact finalizeForeignIntent_txn ..
    · exact finalizeForeignIntent_txn ..
    · split
      · exact abortAndFinalize_txn ..
      · rfl

theorem pushBlockerRecord_txn (pushTo : Timestamp) :
    (tc.pushBlockerRecord blocker pushTo).2.txn = tc.txn := by
  rw [pushBlockerRecord]
  split
  · have h := putRecord_txn tc.now.2
      { blocker with writeTimestamp := pushTo, lastHeartbeat := tc.now.1 }
    dsimp only
    rcases hput : tc.now.2.putRecord { blocker with
      writeTimestamp := pushTo, lastHeartbeat := tc.now.1 }
      with ⟨_ | _, tc'⟩ <;> rw [hput] at h <;> exact h
  · rfl

theorem pushBlocker_txn (key : Bytes) (txnID : TxnID) (pushTo : Timestamp) :
    (tc.pushBlocker blocker key txnID pushTo).2.txn = tc.txn := by
  have h := tc.pushBlockerRecord_txn blocker pushTo
  rw [pushBlocker]
  rcases hput : tc.pushBlockerRecord blocker pushTo with ⟨_ | _, tc'⟩ <;> rw [hput] at h
  · exact h
  · dsimp only
    split <;> exact h

theorem handleReadIntent_txn (txnID : TxnID) : (tc.handleReadIntent key txnID).2.txn = tc.txn := by
  rw [handleReadIntent]
  split
  · rfl
  · exact finalizeForeignIntent_txn ..
  · split
    · exact finalizeForeignIntent_txn ..
    · exact finalizeForeignIntent_txn ..
    · dsimp only
      split
      · split
        · exact abortAndFinalize_txn ..
        · rfl
      · exact pushBlocker_txn ..

theorem getLoop_txn (order : List Bytes) (n : ℕ) : (tc.getLoop key order n).2.txn = tc.txn := by
  induction n generalizing tc with
  | zero => rfl
  | succ n ih =>
    rw [getLoop]
    split
    · rfl
    · rename_i blocked txnID _ _
      have h := tc.handleReadIntent_txn blocked txnID
      rcases hres : tc.handleReadIntent blocked txnID with ⟨_ | _, tc'⟩ <;> rw [hres] at h
      · exact h
      · exact (ih tc').trans h
    · rfl

theorem get_txn (order : List Bytes) : (tc.get key order).2.txn = tc.txn := by
  rw [get]
  split
  · rfl
  · exact getLoop_txn ..

omit [RecordCodec] in
theorem resolveKeys_txn (status : Mvcc.TxnStatus) (commitTS : Timestamp) (keys : List Bytes) :
    (tc.resolveKeys status commitTS keys).2.txn = tc.txn := by
  induction keys generalizing tc with
  | nil => rfl
  | cons key keys ih =>
    rw [resolveKeys]
    split
    · rfl
    · exact ih _

/-! ## Methods that change it -/

theorem writeLoop_same (key : Bytes) (value : Option Bytes) (n : ℕ) :
    tc.txn.Same (tc.writeLoop key value n).2.txn := by
  induction n generalizing tc with
  | zero => exact .refl _
  | succ n ih =>
    rw [writeLoop]
    split
    · exact .refl _
    · exact (tc.bumpWriteTimestampTo_same _).trans (ih _)
    · rename_i blocked txnID _ _
      have h := Transaction.Same.of_eq (tc.resolveForeignIntent_txn blocked txnID)
      rcases hres : tc.resolveForeignIntent blocked txnID with ⟨_ | _, tc'⟩ <;> rw [hres] at h
      · exact h
      · exact h.trans (ih tc')
    · exact .refl _

theorem writeLocked_same (key : Bytes) (value : Option Bytes) :
    tc.txn.Same (tc.writeLocked key value).2.txn := by
  rw [writeLocked]
  split
  · exact .refl _
  · have h := (tc.pushPastCachedRead_same key).trans
      ((tc.pushPastCachedRead key).writeLoop_same key value maxWriteIntentResolutions)
    rcases hloop : (tc.pushPastCachedRead key).writeLoop key value maxWriteIntentResolutions
      with ⟨_ | _, tc'⟩ <;> rw [hloop] at h
    · exact h
    · have hput : ({ tc' with txn := tc'.txn.addIntentKey key }.writeTxnRecord).2.txn =
          tc'.txn.addIntentKey key := putRecord_txn ..
      have hsame := h.trans (tc'.txn.same_addIntentKey key)
      rw [← hput] at hsame
      rcases hrec : { tc' with txn := tc'.txn.addIntentKey key }.writeTxnRecord with
        ⟨_ | _, tc''⟩ <;> rw [hrec] at hsame <;> simp only [hrec] <;> exact hsame

theorem refreshRecord_same : tc.txn.Same tc.refreshRecord.2.txn := by
  rw [refreshRecord]
  split
  · exact .refl _
  · exact .refl _
  · exact ⟨rfl, rfl, rfl, rfl⟩

theorem finish_same (final : TxnStatus) (context : String) (status : Mvcc.TxnStatus)
    (commitTS : Timestamp) : tc.txn.Same (tc.finish final context status commitTS).2.txn := by
  simp only [finish, now, writeTxnRecord]
  split <;> rename_i tc' hrec
  · have h := txn_of_putRecord hrec
    exact ⟨by rw [h], by rw [h], by rw [h], by rw [h]⟩
  · have h := (resolveKeys_txn tc' status commitTS tc'.txn.intentKeys).trans (txn_of_putRecord hrec)
    rw [resolveIntents]
    exact ⟨by rw [h], by rw [h], by rw [h], by rw [h]⟩

theorem commit_same : tc.txn.Same tc.commit.2.txn := by
  rw [commit]
  split
  · exact .refl _
  · have h := tc.refreshRecord_same
    rcases href : tc.refreshRecord with ⟨_ | _, tc'⟩ <;> rw [href] at h
    · exact h
    · dsimp only
      split
      · exact h
      · split
        · exact h
        · exact h.trans (finish_same ..)

theorem abort_same : tc.txn.Same tc.abort.2.txn := by
  rw [abort]
  split
  · exact .refl _
  · have h := tc.refreshRecord_same
    rcases href : tc.refreshRecord with ⟨_ | _, tc'⟩ <;> rw [href] at h
    · exact h
    · exact h.trans (finish_same ..)

end

theorem begin_isolation_priority (engine : Engine) (clock : Clock) (cache : Option Tscache.Cache)
    (iso : IsolationLevel) (id : TxnID) (priority : Int32) :
    (begin engine clock cache iso id priority).2.txn.isolation = iso ∧
      (begin engine clock cache iso id priority).2.txn.priority = priority := by
  simp only [begin, writeTxnRecord]
  split
  all_goals
    rename_i hrec
    rw [txn_of_putRecord hrec]
    exact ⟨rfl, rfl⟩

end TxnCoordSender

/-! ## The coordinators of a system -/

/-- A `Begin` asks for the isolation level `iso`. -/
def Event.At (iso : IsolationLevel) : Event → Prop
  | .begin _ _ iso' _ _ => iso' = iso
  | .call _ _ => True

instance {iso : IsolationLevel} {ev : Event} : Decidable (ev.At iso) :=
  match ev with
  | .begin _ _ iso' _ _ => inferInstanceAs (Decidable (iso' = iso))
  | .call _ _ => inferInstanceAs (Decidable True)

namespace System

variable [MetadataCodec] [RecordCodec] {s s' : System} {id : TxnID} {x x' : Sender} {ans : Answer}

theorem call_same (s : System) (id : TxnID) (x : Sender) (c : Call) : ∃ t, x.txn.Same t ∧
    (s.call id x c).2.senders = update s.senders id (some { x with txn := t }) := by
  have hwrite : ∀ key value, ∃ t, x.txn.Same t ∧ (s.write id x key value).2.senders =
      update s.senders id (some { x with txn := t }) := by
    intro key value
    refine ⟨_, (s.attach x).writeLocked_same key value, ?_⟩
    rw [write]
    rcases (s.attach x).writeLocked key value with ⟨_ | _, tc⟩ <;> rfl
  cases c with
  | get key order =>
    refine ⟨_, .of_eq ((s.attach x).get_txn key order), ?_⟩
    rw [call]
    rcases (s.attach x).get key order with ⟨result, tc⟩
    dsimp only
    split <;> rfl
  | put key value => exact hwrite key (some value)
  | delete key => exact hwrite key none
  | commit =>
    refine ⟨_, (s.attach x).commit_same, ?_⟩
    rw [call]
    rcases (s.attach x).commit with ⟨_ | _, tc⟩ <;> rfl
  | abort => exact ⟨_, (s.attach x).abort_same, rfl⟩

variable {iso : IsolationLevel}

theorem begin_isolation {priority : Int32} {clock : ℕ} {cache : Option ℕ}
    (h : s.begin id priority iso clock cache = (ans, s')) {t : TxnID}
    (hx : s'.senders t = some x') : s.senders t = some x' ∨ x'.txn.isolation = iso := by
  have hiso := (begin_isolation_priority s.engine (s.clocks clock) (cache.map s.caches)
    iso id priority).1
  rw [System.begin] at h
  rcases hbegin : TxnCoordSender.begin s.engine (s.clocks clock) (cache.map s.caches) iso
    id priority with ⟨_ | _, tc⟩ <;> rw [hbegin] at hiso <;> rw [hbegin] at h
  · obtain ⟨-, rfl⟩ := Prod.mk.inj h
    exact .inl hx
  · obtain ⟨-, rfl⟩ := Prod.mk.inj h
    have hx : update s.senders id (some ⟨clock, cache, tc.txn⟩) t = some x' := hx
    rw [update_apply] at hx
    split at hx
    · obtain rfl := Option.some.inj hx
      exact .inr hiso
    · exact .inl hx

/-- **A coordinator keeps the isolation level it was begun with.** -/
theorem isolation_step {ev : Event} (hev : ev.At iso)
    (h : ∀ id x, s.senders id = some x → x.txn.isolation = iso) (hs : s.step ev = some (ans, s'))
    (hx : s'.senders id = some x') : x'.txn.isolation = iso := by
  cases ev with
  | begin id' priority iso' clock cache =>
    obtain rfl : iso' = iso := hev
    rw [step] at hs
    split at hs
    · cases hs
    · rcases begin_isolation (Option.some.inj hs) hx with hx | hiso
      · exact h id x' hx
      · exact hiso
  | call id' c =>
    obtain ⟨x, hx₀, hs⟩ := Option.map_eq_some_iff.mp hs
    obtain ⟨t, hsame, hsend⟩ := s.call_same id' x c
    rw [hs] at hsend
    rw [hsend, update_apply] at hx
    split at hx
    · obtain rfl := Option.some.inj hx
      exact hsame.isolation.trans (h id' x hx₀)
    · exact h id x' hx

end System

end DucklingDB.Txn
