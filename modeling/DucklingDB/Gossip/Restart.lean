import DucklingDB.Gossip.Cluster

/-!
# Gossip after a restart

A node that restarts has a new store, whose sequence numbers start over at one, while its peers
still hold what it had published before, under the old numbers. `exchange_after_publish_iff` says
when a value that the node publishes then reaches a peer that holds an older info of the key: the
new number has to be above the old one if it is the node that opens the exchange, and above the
peer's mark for the node if it is the peer. Nothing makes the numbers of a new process larger than
those of the old one.
-/

namespace DucklingDB.Gossip

open InfoStore List Option

namespace InfoStore

variable {is : InfoStore} {info : Info} {k : String} {L : List PbInfo} {now : ℤ}

/-- The value under a key. -/
def valueOf (is : InfoStore) (k : String) : Option Bytes := (is.held k).map Info.value

theorem held_combine_of_ne (is : InfoStore) (hk : k ≠ info.key) :
    (is.combine info).1.held k = is.held k := by
  rcases is.combine_cases info with ⟨_, _, _, heq⟩ | ⟨_, heq⟩
  · rw [heq]
  · rw [heq, held_store, if_neg hk]

theorem held_combineAll_of_forall_ne (is : InfoStore) (h : ∀ p ∈ L, p.key ≠ k) :
    (is.combineAll L now).held k = is.held k := by
  induction L generalizing is with
  | nil => rfl
  | cons p L ih =>
    obtain ⟨hp, hL⟩ := forall_mem_cons.mp h
    rw [combineAll_cons, ih _ hL, held_combine_of_ne is hp.symm]

/-- A message with one info of the key, newer than what is held, puts it there; an older one does
not. -/
theorem held_combineAll_of_mem (hL : L.Pairwise fun a b ↦ a.key ≠ b.key) {p : PbInfo} (hp : p ∈ L)
    (hheld : is.held p.key = some info) : (is.combineAll L now).held p.key =
      some (if p.origStamp ≤ info.origStamp then info else p.toInfo now) := by
  induction L generalizing is with
  | nil => cases hp
  | cons q L ih =>
    obtain ⟨hq, hL⟩ := pairwise_cons.mp hL
    rw [combineAll_cons]
    rcases mem_cons.mp hp with rfl | hp
    · rw [held_combineAll_of_forall_ne _ fun q' hq' ↦ (hq q' hq').symm]
      rcases is.combine_cases (p.toInfo now) with ⟨existing, hex, hle, heq⟩ | ⟨hlt, heq⟩
      · obtain rfl : info = existing := mem_unique hheld hex
        have hle : p.origStamp ≤ info.origStamp := hle
        rw [heq, hheld, if_pos hle]
      · have hlt : ¬ p.origStamp ≤ info.origStamp := not_le.mpr (hlt info hheld)
        rw [heq, held_store, if_neg hlt]
        exact if_pos rfl
    · exact ih hL hp ((held_combine_of_ne is (hq p hp).symm).trans hheld)

/-- The infos of a store that satisfy a test, in some order, as they are sent. -/
def Sends (is : InfoStore) (f : Info → Bool) (L : List PbInfo) : Prop :=
  L.Perm (((is.infos.entries.map Sigma.snd).filter f).map Info.toProto)

/-- **What a store holds under a key after it has merged what another one sent.** -/
theorem Sends.held {s r : InfoStore} {f : Info → Bool} (h : s.Sends f L) (hs : s.WellFormed)
    {a b : Info} (ha : s.held k = some a) (hb : r.held k = some b)
    (now : ℤ) : (r.combineAll L now).held k =
      some (if f a = true ∧ b.origStamp < a.origStamp then a.toProto.toInfo now else b) := by
  have hkey : a.toProto.key = k := hs.keyed ha
  have hdistinct : L.Pairwise fun a b ↦ a.key ≠ b.key := by
    refine (h.pairwise_iff fun hne ↦ hne.symm).mpr ?_
    exact pairwise_map.mpr (hs.nodup_values.filter f)
  by_cases hf : f a = true
  · have hmem : a.toProto ∈ L := h.mem_iff.mpr
      (mem_map_of_mem (mem_filter.mpr ⟨mem_values.mpr ⟨k, ha⟩, hf⟩))
    rw [← hkey] at hb ⊢
    rw [held_combineAll_of_mem hdistinct hmem hb]
    by_cases hle : a.toProto.origStamp ≤ b.origStamp
    · rw [if_pos hle, if_neg fun hc ↦ absurd hc.2 (not_lt.mpr hle)]
    · rw [if_neg hle, if_pos ⟨hf, not_le.mp hle⟩]
  · rw [if_neg fun hc ↦ hf hc.1, held_combineAll_of_forall_ne r fun p hp hpk ↦ ?_, hb]
    obtain ⟨a', ha', rfl⟩ := mem_map.mp (h.mem_iff.mp hp)
    obtain ⟨hval, hf'⟩ := mem_filter.mp ha'
    obtain ⟨k', hk'⟩ := mem_values.mp hval
    obtain rfl : k' = k := (hs.keyed hk').symm.trans hpk
    exact hf (mem_unique hk' ha ▸ hf')

end InfoStore

/-! ## An exchange -/

/-- When the steps of an exchange happen. -/
structure Times where
  captured : ℤ
  received : ℤ
  answered : ℤ
  merged : ℤ

/-- `gossipWithPeer` on one side and `Gossip` on the other: the client sends what it holds and its
marks, the server merges that and answers, and the client merges the answer. -/
def Exchange (t : Times) (client server client' server' : InfoStore) : Prop :=
  ∃ sent answer : List PbInfo,
    sent.Perm ((client.allInfos t.captured).map Info.toProto) ∧
    server' = server.combineAll sent t.received ∧
    answer.Perm ((server'.delta client.highWater t.answered).map Info.toProto) ∧
    client' = client.combineAll answer t.merged

section Exchange

variable {t : Times} {node peer node' peer' : InfoStore} {k : String} {new old : Info}

/-- The node opens the exchange: the new value arrives if its number is above the old one. -/
theorem valueOf_exchange_client (h : Exchange t node peer node' peer') (hn : node.WellFormed)
    (hp : peer.WellFormed) (hnew : node.held k = some new) (hold : peer.held k = some old) :
    node'.valueOf k = some new.value ∧ peer'.valueOf k = some new.value ↔
      old.origStamp < new.origStamp ∧ new.expired t.captured = false ∨ old.value = new.value := by
  obtain ⟨sent, answer, hsent, rfl, hanswer, rfl⟩ := h
  have hpeer := InfoStore.Sends.held hsent hn hnew hold t.received
  have hnode := InfoStore.Sends.held hanswer (hp.combineAll sent t.received) hpeer hnew t.merged
  rw [valueOf, valueOf, hnode, hpeer, map_some, map_some]
  by_cases hok : (!new.expired t.captured) = true ∧ old.origStamp < new.origStamp
  · -- the peer has the new info, which is no news for the node
    have hright : old.origStamp < new.origStamp ∧ new.expired t.captured = false :=
      ⟨hok.2, by simpa using hok.1⟩
    rw [if_pos hok, if_neg fun hc ↦ absurd hc.2 (lt_irrefl _)]
    exact iff_of_true ⟨rfl, rfl⟩ (Or.inl hright)
  · have hno : ¬ (old.origStamp < new.origStamp ∧ new.expired t.captured = false) :=
      fun hc ↦ hok ⟨by simpa using hc.2, hc.1⟩
    rw [if_neg hok, or_iff_right hno]
    constructor
    · exact fun hc ↦ Option.some.inj hc.2
    · intro heq
      refine ⟨?_, congrArg some heq⟩
      split
      · exact congrArg some heq
      · rfl

/-- The peer opens the exchange: the new value arrives if its number is above the peer's mark. -/
theorem valueOf_exchange_server (h : Exchange t peer node peer' node') (hn : node.WellFormed)
    (hp : peer.WellFormed) (hnew : node.held k = some new) (hold : peer.held k = some old)
    (horig : old.nodeID = new.nodeID) :
    node'.valueOf k = some new.value ∧ peer'.valueOf k = some new.value ↔
      peer.mark new.nodeID < new.origStamp ∧ new.expired t.answered = false ∨
      old.value = new.value := by
  obtain ⟨sent, answer, hsent, rfl, hanswer, rfl⟩ := h
  have hnode := InfoStore.Sends.held hsent hp hold hnew t.received
  have hpeer := InfoStore.Sends.held hanswer (hn.combineAll sent t.received) hnode hold t.merged
  have hmark : old.origStamp ≤ peer.mark new.nodeID := horig ▸ hp.le_mark hold
  rw [valueOf, valueOf, hnode, hpeer, map_some, map_some]
  by_cases hnews : (!old.expired t.captured) = true ∧ new.origStamp < old.origStamp
  · -- the node goes back to its old info
    have hno : ¬ (peer.mark new.nodeID < new.origStamp ∧ new.expired t.answered = false) :=
      fun hc ↦ absurd (hmark.trans_lt hc.1) (not_lt.mpr hnews.2.le)
    rw [if_pos hnews, if_neg fun hc ↦ absurd hc.2 (lt_irrefl _), or_iff_right hno]
    exact ⟨fun hc ↦ Option.some.inj hc.1, fun heq ↦ ⟨congrArg some heq, congrArg some heq⟩⟩
  · have hanswered : (!new.expired t.answered &&
        decide (new.origStamp > GoMap.get peer.highWater new.nodeID 0)) = true ↔
        peer.mark new.nodeID < new.origStamp ∧ new.expired t.answered = false := by
      rw [Bool.and_eq_true, Bool.not_eq_true', decide_eq_true_iff, and_comm, gt_iff_lt, mark]
    rw [if_neg hnews]
    by_cases hok : peer.mark new.nodeID < new.origStamp ∧ new.expired t.answered = false
    · rw [if_pos ⟨hanswered.mpr hok, hmark.trans_lt hok.1⟩]
      exact iff_of_true ⟨rfl, rfl⟩ (Or.inl hok)
    · rw [if_neg fun hc ↦ hok (hanswered.mp hc.1), or_iff_right hok]
      exact ⟨fun hc ↦ Option.some.inj hc.2, fun heq ↦ ⟨rfl, congrArg some heq⟩⟩

end Exchange

namespace Cluster

/-- An exchange is a run of the cluster. -/
theorem exists_acts_of_exchange (c : Cluster) {i j : Int32} (hij : i ≠ j) {t : Times}
    {client' server' : InfoStore} (h : Exchange t (c.store i) (c.store j) client' server') :
    ∃ acts : List Action,
      (acts.foldl act c).store = (c.setStore j server' |>.setStore i client').store := by
  obtain ⟨sent, answer, hsent, rfl, hanswer, rfl⟩ := h
  let m : GossipMessage :=
    ⟨i, ((c.store i).allInfos t.captured).map Info.toProto, (c.store i).highWater⟩
  let reply :=
    (((c.store j).combineAll sent t.received).delta m.highWater t.answered).map Info.toProto
  refine ⟨[.capture i t.captured, .send (i, m.delta), .receive j m sent t.received,
    .answer j m t.answered, .merge (i, reply) answer t.merged], ?_⟩
  simp [act, setStore, m, reply, hsent, hanswer, Function.update_of_ne hij]

/-- Whatever happens, restarts included, the stores are well-formed. -/
theorem wellFormed_act {c : Cluster} (h : ∀ i, (c.store i).WellFormed) (a : Action) (i : Int32) :
    ((c.act a).store i).WellFormed := by
  have hset : ∀ n is, is.WellFormed → ((c.setStore n is).store i).WellFormed := fun n is his ↦
    forall_setStore his h i
  cases a with
  | draw n key val ttl now => exact hset n _ ⟨(h n).keyed, (h n).le_mark⟩
  | publish info =>
    rw [act]
    split
    · exact hset _ _ ((h _).store info)
    · exact h i
  | capture n now => exact h i
  | send draft =>
    rw [act]
    split <;> exact h i
  | receive j m order now =>
    rw [act]
    split
    · exact hset _ _ ((h _).combineAll _ _)
    · exact h i
  | answer j m now =>
    rw [act]
    split <;> exact h i
  | merge reply order now =>
    rw [act]
    split
    · exact hset _ _ ((h _).combineAll _ _)
    · exact h i
  | restart n => exact hset n _ wellFormed_new

theorem wellFormed_run (acts : List Action) (i : Int32) :
    ((acts.foldl act {}).store i).WellFormed := by
  induction acts using List.reverseRecOn generalizing i with
  | nil => exact wellFormed_new
  | append_singleton acts a ih =>
    rw [foldl_append]
    exact wellFormed_act ih a i

/-- **When a publication reaches a peer.** In a state that any run with restarts has reached, node
`n` publishes a value for a key of which peer `p` holds an older info of `n`, and the two have an
exchange. Both hold the new value afterwards exactly if the info has not expired and its number is
above that of the older info, or, when `p` opens the exchange, above the mark of `p` for `n`; or if
the value is the same. -/
theorem exchange_after_publish_iff (acts : List Action) {n p : Int32} {k : String} {old : Info}
    (hold : ((acts.foldl act {}).store p).held k = some old) (hn : old.nodeID = n) (val : Bytes)
    (ttl now : ℤ) (t : Times) (node' peer' : InfoStore) :
    let node := ((acts.foldl act {}).store n).addInfo k val ttl n now
    (Exchange t node.1 ((acts.foldl act {}).store p) node' peer' →
      (node'.valueOf k = some val ∧ peer'.valueOf k = some val ↔
        old.origStamp < node.2.origStamp ∧ node.2.expired t.captured = false ∨ old.value = val)) ∧
    (Exchange t ((acts.foldl act {}).store p) node.1 peer' node' →
      (node'.valueOf k = some val ∧ peer'.valueOf k = some val ↔
        ((acts.foldl act {}).store p).mark n < node.2.origStamp ∧
          node.2.expired t.answered = false ∨ old.value = val)) := by
  have hnew : (((acts.foldl act {}).store n).addInfo k val ttl n now).1.held k =
      some (((acts.foldl act {}).store n).addInfo k val ttl n now).2 := by
    rw [addInfo, held_store]
    exact if_pos rfl
  have hwf := (wellFormed_run acts n).addInfo k val ttl n now
  exact ⟨fun h ↦ valueOf_exchange_client h hwf (wellFormed_run acts p) hnew hold,
    fun h ↦ valueOf_exchange_server h hwf (wellFormed_run acts p) hnew hold hn⟩

/-- Node `1` publishes its liveness record twice, node `2` gets it, and node `1` restarts. -/
def restarted : List Action :=
  let info (stamp : ℕ) : Info := ⟨"node-liveness:1", [stamp.toUInt8], stamp, 1, 0, 0⟩
  let message : GossipMessage := ⟨1, [(info 2).toProto], AList.insert 1 2 ∅⟩
  [.draw 1 "node-liveness:1" [1] 0 0, .publish (info 1), .draw 1 "node-liveness:1" [2] 0 0,
    .publish (info 2), .capture 1 0, .send (1, message.delta), .receive 2 message message.delta 0,
    .restart 1]

theorem exchange_after_publish_iff_restarted :
    ((restarted.foldl act {}).store 2).held "node-liveness:1" =
      some ⟨"node-liveness:1", [2], 2, 1, 0, 0⟩ ∧
    let peer := (restarted.foldl act {}).store 2
    let node := ((restarted.foldl act {}).store 1).addInfo "node-liveness:1" [3] 0 1 0
    ∀ node' peer', (Exchange ⟨0, 0, 0, 0⟩ node.1 peer node' peer' →
      (node'.valueOf "node-liveness:1" = some [3] ∧ peer'.valueOf "node-liveness:1" = some [3] ↔
        2 < node.2.origStamp ∧ node.2.expired 0 = false ∨ ([2] : Bytes) = [3])) ∧
    (Exchange ⟨0, 0, 0, 0⟩ peer node.1 peer' node' →
      (node'.valueOf "node-liveness:1" = some [3] ∧ peer'.valueOf "node-liveness:1" = some [3] ↔
        peer.mark 1 < node.2.origStamp ∧ node.2.expired 0 = false ∨ ([2] : Bytes) = [3])) := by
  have hold : ((restarted.foldl act {}).store 2).held "node-liveness:1" =
      some ⟨"node-liveness:1", [2], 2, 1, 0, 0⟩ := by decide +kernel
  exact ⟨hold, fun node' peer' ↦
    exchange_after_publish_iff restarted hold rfl [3] 0 0 ⟨0, 0, 0, 0⟩ node' peer'⟩

/-- Whoever opens the exchange, both end up with the value from before the restart. -/
theorem exists_restart_lost :
    let peer := (restarted.foldl act {}).store 2
    let node := ((restarted.foldl act {}).store 1).addInfo "node-liveness:1" [3] 0 1 0
    (∃ node' peer', Exchange ⟨0, 0, 0, 0⟩ node.1 peer node' peer' ∧
      node'.valueOf "node-liveness:1" = some [2] ∧ peer'.valueOf "node-liveness:1" = some [2]) ∧
    ∃ node' peer', Exchange ⟨0, 0, 0, 0⟩ peer node.1 peer' node' ∧
      node'.valueOf "node-liveness:1" = some [2] ∧ peer'.valueOf "node-liveness:1" = some [2] := by
  refine ⟨⟨_, _, ⟨_, _, .refl _, rfl, .refl _, rfl⟩, ?_⟩, _, _, ⟨_, _, .refl _, rfl, .refl _, rfl⟩,
    ?_⟩ <;> decide +kernel

end Cluster

end DucklingDB.Gossip
