import Mathlib.Data.Finset.Card
import DistributedSync.Queue.Cluster

/-!
# Where a message is stored

The node that takes a message stores it and sends copies to the first `replication_factor - 1` of its peers.  The
ring is asked for the node that the message is assigned to, but the answer is only recorded: it has no influence on
where the copies go.  So the message ends up on as many nodes as it should, and the assigned one is among them
exactly if it is the node itself or one of these peers (`placement_iff`).
-/

namespace DistributedSync

namespace QueueCluster

variable {ν : Type}

/-- A copy of the message is on its way to `b`. -/
def InFlight (s : State ν) (id b : String) : Prop :=
  ∃ p ∈ s.network, p.target = b ∧ p.data.msgId = some id

/-- The nodes that store the message or are going to get a copy of it. -/
def Reaches (config : String → QueueConfig ν) (s : State ν) (a id b : String) : Prop :=
  id ∈ (s.node b).messages.keys ∨ InFlight s id b ∨ ((a, id) ∈ s.unsent ∧ b ∈ (config a).copyTargets)

structure Placed [Number ν] (config : String → QueueConfig ν) (s : State ν) : Prop where
  keyed : ∀ b, (s.node b).Keyed
  nodup : s.ids.Nodup
  stored : ∀ b, ∀ id ∈ (s.node b).messages.keys, id ∈ s.ids
  unsent : ∀ e ∈ s.unsent, ∃ msg, (e.1, msg) ∈ s.enqueued ∧ msg.msgId = e.2
  once : s.unsent.Nodup
  packets : ∀ p ∈ s.network, ∃ m, p.data = QueueMessage.toDict m ∧ m.msgId ≠ "" ∧ m.msgId ∈ s.ids
  named : ∀ e ∈ s.enqueued, e.2.msgId ≠ ""
  assigned : ∀ e ∈ s.enqueued, e.2.assignedNode = (config e.1).hashRing.getNode (config e.1).hash e.2.partitionKey
  home : ∀ e ∈ s.enqueued, e.2.msgId ∈ (s.node e.1).messages.keys
  places : ∀ e ∈ s.enqueued, ∀ b, Reaches config s e.1 e.2.msgId b ↔ b = e.1 ∨ b ∈ (config e.1).copyTargets

/-- The ids stored on the nodes when one of them may get one more. -/
theorem mem_keys_update (s : State ν) (a new : String) {n : QueueNode ν}
    (hn : ∀ id, id ∈ n.messages.keys ↔ id ∈ (s.node a).messages.keys ∨ id = new) (b id : String) :
    id ∈ (Function.update s.node a n b).messages.keys ↔ id ∈ (s.node b).messages.keys ∨ (id = new ∧ b = a) := by
  by_cases hb : b = a
  · subst hb
    rw [Function.update_self, hn, and_iff_left rfl]
  · rw [Function.update_of_ne hb]
    simp only [hb, and_false, or_false]

/-! ### Clusters whose nodes all know each other -/

/-- The nodes of a cluster, each with all the others as its peers, in any order. -/
structure FullMesh (ν : Type) where
  nodes : Finset String
  config : String → QueueConfig ν
  nodeId : ∀ a ∈ nodes, (config a).nodeId = a
  nodup : ∀ a ∈ nodes, (config a).peers.Nodup
  knows : ∀ a ∈ nodes, ∀ b, b ∈ (config a).peers ↔ b ∈ nodes ∧ b ≠ a

namespace FullMesh

variable {c : FullMesh ν} {a : String}

private theorem copyTargets_eq (hr : 1 ≤ (c.config a).replicationFactor) :
    (c.config a).copyTargets = (c.config a).peers.take ((c.config a).replicationFactor.toNat - 1) := by
  have hpos : (0 : Int) ≤ (c.config a).replicationFactor - 1 := by omega
  have hcount : ((c.config a).replicationFactor - 1).toNat = (c.config a).replicationFactor.toNat - 1 := by omega
  rw [QueueConfig.copyTargets, sliceTo, if_pos hpos, hcount]

private theorem mem_nodes_of_target (ha : a ∈ c.nodes) {b : String} (hb : b ∈ (c.config a).copyTargets) :
    b ∈ c.nodes ∧ b ≠ a :=
  (c.knows a ha b).1 (List.mem_of_mem_take hb)

private theorem card_targets (ha : a ∈ c.nodes) (hr : 1 ≤ (c.config a).replicationFactor) :
    (insert a (c.config a).copyTargets.toFinset).card = min (c.config a).replicationFactor.toNat c.nodes.card := by
  have hout : a ∉ (c.config a).copyTargets.toFinset := by
    intro hm
    exact (mem_nodes_of_target ha (List.mem_toFinset.1 hm)).2 rfl
  have hpeers : (c.config a).peers.length = c.nodes.card - 1 := by
    have hset : (c.config a).peers.toFinset = c.nodes.erase a := by
      ext b
      rw [List.mem_toFinset, c.knows a ha, Finset.mem_erase, and_comm]
    rw [← List.toFinset_card_of_nodup (c.nodup a ha), hset, Finset.card_erase_of_mem ha]
  have hpos : 0 < c.nodes.card := Finset.card_pos.2 ⟨a, ha⟩
  have hnodup : (c.config a).copyTargets.Nodup := (c.nodup a ha).sublist (List.take_sublist _ _)
  rw [Finset.card_insert_of_notMem hout, List.toFinset_card_of_nodup hnodup, copyTargets_eq hr, List.length_take,
    hpeers]
  omega

end FullMesh

/-! ### The copies of a message -/

variable [Number ν] {config : String → QueueConfig ν} {s s' : State ν}

theorem Placed.empty : Placed config ({} : State ν) where
  keyed b id msg h := by cases h
  nodup := List.nodup_nil
  stored b id h := by cases h
  unsent e h := by cases h
  once := List.nodup_nil
  packets p h := by cases h
  named e h := by cases h
  assigned e h := by cases h
  home e h := by cases h
  places e h := by cases h

/-- The ids tell the enqueued messages apart. -/
theorem Placed.eq_of_id (h : Placed config s) {e e' : String × QueueMessage ν} (he : e ∈ s.enqueued)
    (he' : e' ∈ s.enqueued) (hid : e.2.msgId = e'.2.msgId) : e = e' :=
  List.inj_on_of_nodup_map h.nodup he he' hid

/-- Nothing is known of a new id. -/
theorem Placed.unknown (h : Placed config s) {uuid : String} (hnew : uuid ∉ s.ids) (b : String) :
    uuid ∉ (s.node b).messages.keys ∧ (b, uuid) ∉ s.unsent ∧ ¬InFlight s uuid b := by
  refine ⟨fun hk => hnew (h.stored b uuid hk), fun hu => ?_, ?_⟩
  · obtain ⟨msg, hmsg, hid⟩ := h.unsent _ hu
    exact hnew (List.mem_map.2 ⟨_, hmsg, hid⟩)
  · rintro ⟨p, hp, -, hid⟩
    obtain ⟨m, hm, -, hknown⟩ := h.packets p hp
    rw [hm, QueueMessage.toDict, Option.some.injEq] at hid
    exact hnew (hid ▸ hknown)

theorem Placed.enqueue (h : Placed config s) (a : String) {uuid : String} (hne : uuid ≠ "") (hnew : uuid ∉ s.ids)
    (now : ν) (payload : Json ν) (partitionKey : String) :
    Placed config { s with
      node := Function.update s.node a (QueueNode.handleEnqueue (config a) (s.node a) uuid now payload partitionKey)
      unsent := s.unsent ++ [(a, uuid)]
      enqueued := s.enqueued ++ [(a, QueueNode.newMessage (config a) uuid now payload partitionKey)] } := by
  have hkeys := mem_keys_update s a uuid
    (n := QueueNode.handleEnqueue (config a) (s.node a) uuid now payload partitionKey)
    fun id => Dict.mem_keys_set.trans or_comm
  have hids : ∀ id, id ∈ (s.enqueued ++
      [(a, QueueNode.newMessage (config a) uuid now payload partitionKey)]).map (fun e => e.2.msgId) ↔
      id ∈ s.ids ∨ id = uuid := by
    intro id
    rw [List.map_append, List.mem_append]
    exact or_congr Iff.rfl List.mem_singleton
  refine ⟨fun b => ?_, ?_, fun b id hk => ?_, fun e he => ?_, ?_, fun p hp => ?_, fun e he => ?_, fun e he => ?_,
    fun e he => ?_, fun e he b => ?_⟩
  · exact forall_update h.keyed a ((h.keyed a).set rfl rfl) b
  · rw [State.ids, List.map_append]
    refine List.nodup_append.2 ⟨h.nodup, List.nodup_singleton _, fun x hx y hy => ?_⟩
    rw [List.mem_singleton.1 hy]
    rintro rfl
    exact hnew hx
  · rcases (hkeys b id).1 hk with hk | ⟨rfl, -⟩
    · exact (hids id).2 (Or.inl (h.stored b id hk))
    · exact (hids id).2 (Or.inr rfl)
  · rcases List.mem_append.1 he with he | he
    · obtain ⟨msg, hmsg, hid⟩ := h.unsent e he
      exact ⟨msg, List.mem_append_left _ hmsg, hid⟩
    · rw [List.mem_singleton.1 he]
      exact ⟨_, List.mem_append_right _ (List.mem_singleton_self _), rfl⟩
  · refine List.nodup_append.2 ⟨h.once, List.nodup_singleton _, fun x hx y hy => ?_⟩
    rw [List.mem_singleton.1 hy]
    rintro rfl
    exact (h.unknown hnew a).2.1 hx
  · obtain ⟨m, hm, hname, hknown⟩ := h.packets p hp
    exact ⟨m, hm, hname, (hids _).2 (Or.inl hknown)⟩
  · rcases List.mem_append.1 he with he | he
    · exact h.named e he
    · rw [List.mem_singleton.1 he]
      exact hne
  · rcases List.mem_append.1 he with he | he
    · exact h.assigned e he
    · rw [List.mem_singleton.1 he]
      rfl
  · rcases List.mem_append.1 he with he | he
    · exact (hkeys _ _).2 (Or.inl (h.home e he))
    · rw [List.mem_singleton.1 he]
      exact (hkeys _ _).2 (Or.inr ⟨rfl, rfl⟩)
  · rcases List.mem_append.1 he with he | he
    · -- nothing has changed for the other messages
      have hother : e.2.msgId ≠ uuid := by
        rintro heq
        exact hnew (heq ▸ List.mem_map_of_mem he)
      rw [← h.places e he b, Reaches, Reaches]
      refine or_congr ?_ (or_congr Iff.rfl (and_congr_left fun _ => ?_))
      · exact (hkeys b _).trans (or_iff_left fun hu => hother hu.1)
      · rw [List.mem_append, List.mem_singleton, Prod.mk.injEq]
        exact or_iff_left fun hu => hother hu.2
    · rw [List.mem_singleton.1 he]
      have hid : (QueueNode.newMessage (config a) uuid now payload partitionKey).msgId = uuid := rfl
      obtain ⟨hfresh, -, hflight⟩ := h.unknown hnew b
      simp only [hid, Reaches, hkeys, hfresh, false_or, true_and]
      refine or_congr Iff.rfl ?_
      constructor
      · rintro (hf | ⟨-, hb⟩)
        · exact absurd hf hflight
        · exact hb
      · intro hb
        exact Or.inr ⟨List.mem_append_right _ (List.mem_singleton_self _), hb⟩

/-- The copies of a message are those of the message that its node stores. -/
theorem Placed.copies_eq (h : Placed config s) {e : String × QueueMessage ν} (he : e ∈ s.enqueued) :
    ∃ m, m.msgId = e.2.msgId ∧
      copies config s e.1 e.2.msgId = (config e.1).copyTargets.map fun b => ⟨b, QueueMessage.toDict m⟩ := by
  obtain ⟨m, hm⟩ := Dict.mem_keys.1 (h.home e he)
  refine ⟨m, h.keyed e.1 _ m hm, ?_⟩
  rw [copies, hm]

/-- The copies are made: the nodes that were going to get one now have one in flight. -/
theorem Placed.sendCopies (h : Placed config s) {a id : String} (hunsent : (a, id) ∈ s.unsent) :
    Placed config
      { s with unsent := s.unsent.erase (a, id), network := s.network ++ copies config s a id } := by
  obtain ⟨msg, hmsg, hid⟩ := h.unsent _ hunsent
  obtain ⟨m, hm, hcopies⟩ := h.copies_eq hmsg
  simp only at hid hm hcopies
  rw [hid] at hm hcopies
  rw [hcopies]
  have hknown : id ∈ s.ids := List.mem_map.2 ⟨_, hmsg, hid⟩
  refine ⟨h.keyed, h.nodup, h.stored, fun e he => h.unsent e (List.mem_of_mem_erase he), h.once.erase _, ?_, h.named,
    h.assigned, h.home, fun e he b => ?_⟩
  · intro p hp
    rcases List.mem_append.1 hp with hp | hp
    · exact h.packets p hp
    · obtain ⟨b, -, rfl⟩ := List.mem_map.1 hp
      refine ⟨m, rfl, ?_, ?_⟩
      · rw [hm, ← hid]
        exact h.named _ hmsg
      · rw [hm]
        exact hknown
  · have hflight : ∀ id', InFlight { s with
        unsent := s.unsent.erase (a, id)
        network := s.network ++ (config a).copyTargets.map fun b => ⟨b, QueueMessage.toDict m⟩ } id' b ↔
        InFlight s id' b ∨ (id' = id ∧ b ∈ (config a).copyTargets) := by
      intro id'
      constructor
      · rintro ⟨p, hp, hb, hid'⟩
        rcases List.mem_append.1 hp with hp | hp
        · exact Or.inl ⟨p, hp, hb, hid'⟩
        · obtain ⟨c, hc, rfl⟩ := List.mem_map.1 hp
          obtain rfl : c = b := hb
          have hid' : m.msgId = id' := Option.some.inj hid'
          exact Or.inr ⟨hid'.symm.trans hm, hc⟩
      · rintro (⟨p, hp, hb, hid'⟩ | ⟨rfl, hb⟩)
        · exact ⟨p, List.mem_append_left _ hp, hb, hid'⟩
        · exact ⟨_, List.mem_append_right _ (List.mem_map_of_mem hb), rfl, congrArg some hm⟩
    rw [← h.places e he b, Reaches, Reaches, hflight]
    refine or_congr Iff.rfl ?_
    by_cases hthis : e.2.msgId = id
    · have heq : e = (a, msg) := h.eq_of_id he hmsg (hthis.trans hid.symm)
      have hgone : (a, id) ∉ s.unsent.erase (a, id) := h.once.not_mem_erase
      rw [heq]
      simp only [hid, hgone, hunsent, true_and, false_and, or_false]
    · have hkept : (e.1, e.2.msgId) ∈ s.unsent.erase (a, id) ↔ (e.1, e.2.msgId) ∈ s.unsent :=
        List.mem_erase_of_ne fun heq => hthis (Prod.mk.inj heq).2
      rw [hkept]
      simp only [hthis, false_and, or_false]

/-- A copy arrives: its target stores the message. -/
theorem Placed.receive (h : Placed config s) {i : Nat} {p : Packet ν} (hp : s.network[i]? = some p) (again : Bool)
    (uuid : String) (now : ν) :
    Placed config { s with
      node := Function.update s.node p.target ((s.node p.target).replicateEnqueue uuid now p.data)
      network := if again then s.network else s.network.eraseIdx i } := by
  obtain ⟨m, hm, hname, hknown⟩ := h.packets p (List.mem_of_getElem? hp)
  obtain ⟨msg, hmessages, hid, -⟩ := (s.node p.target).replicateEnqueue_toDict uuid now hname
  rw [← hm] at hmessages
  have hkeys := mem_keys_update s p.target m.msgId (n := (s.node p.target).replicateEnqueue uuid now p.data)
    fun id => by rw [hmessages, Dict.mem_keys_set, or_comm]
  -- only the copy that arrives may leave the network
  have hnetwork : ∀ q, q ∈ (if again then s.network else s.network.eraseIdx i) → q ∈ s.network := by
    intro q hq
    cases again with
    | true => exact hq
    | false => exact List.mem_of_mem_eraseIdx hq
  have hnetwork' : ∀ q ∈ s.network, q ∈ (if again then s.network else s.network.eraseIdx i) ∨ q = p := by
    intro q hq
    cases again with
    | true => exact Or.inl hq
    | false =>
      by_cases hqp : q = p
      · exact Or.inr hqp
      · refine Or.inl (List.mem_eraseIdx_iff_getElem?.2 ?_)
        obtain ⟨j, hj⟩ := List.mem_iff_getElem?.1 hq
        refine ⟨j, ?_, hj⟩
        rintro rfl
        exact hqp (Option.some.inj (hj.symm.trans hp))
  refine ⟨fun b => ?_, h.nodup, fun b id hk => ?_, h.unsent, h.once, fun q hq => h.packets q (hnetwork q hq), h.named,
    h.assigned, fun e he => (hkeys _ _).2 (Or.inl (h.home e he)), fun e he b => ?_⟩
  · exact forall_update h.keyed p.target ((h.keyed p.target).set hmessages hid) b
  · rcases (hkeys b id).1 hk with hk | ⟨rfl, -⟩
    · exact h.stored b id hk
    · exact hknown
  · rw [← h.places e he b, Reaches, Reaches]
    constructor
    · rintro (hk | ⟨q, hq, hb, hqid⟩ | hu)
      · rcases (hkeys b _).1 hk with hk | ⟨hthis, rfl⟩
        · exact Or.inl hk
        · refine Or.inr (Or.inl ⟨p, List.mem_of_getElem? hp, rfl, ?_⟩)
          rw [hm, hthis]
          rfl
      · exact Or.inr (Or.inl ⟨q, hnetwork q hq, hb, hqid⟩)
      · exact Or.inr (Or.inr hu)
    · rintro (hk | ⟨q, hq, hb, hqid⟩ | hu)
      · exact Or.inl ((hkeys b _).2 (Or.inl hk))
      · rcases hnetwork' q hq with hq | rfl
        · exact Or.inr (Or.inl ⟨q, hq, hb, hqid⟩)
        · rw [hm] at hqid
          exact Or.inl ((hkeys b _).2 (Or.inr ⟨(Option.some.inj hqid).symm, hb.symm⟩))
      · exact Or.inr (Or.inr hu)

variable [Sub ν]

/-- The own actions of a node add no message. -/
theorem Placed.act (h : Placed config s) (a : String) {action : QueueNode.Action ν} {n : QueueNode ν}
    (hown : QueueNode.isOwn action) (hn : QueueNode.step (config a) (s.node a) action = some n) :
    Placed config { s with
      node := Function.update s.node a n
      log := s.log ++ (s.node a).answers action } := by
  have hkeys : ∀ b id, id ∈ (Function.update s.node a n b).messages.keys ↔ id ∈ (s.node b).messages.keys := by
    intro b id
    by_cases hb : b = a
    · subst hb
      rw [Function.update_self]
      exact QueueNode.mem_keys_of_own hown hn
    · rw [Function.update_of_ne hb]
  refine ⟨fun b => ?_, h.nodup, fun b id hk => h.stored b id ((hkeys b id).1 hk), h.unsent, h.once, h.packets, h.named,
    h.assigned, fun e he => (hkeys _ _).2 (h.home e he), fun e he b => ?_⟩
  · exact forall_update h.keyed a ((h.keyed a).step hn) b
  · rw [← h.places e he b, Reaches, Reaches, hkeys]
    exact Iff.rfl

theorem Placed.step (h : Placed config s) {a : Action ν} (hstep : QueueCluster.step config s a = some s') :
    Placed config s' := by
  rcases step_cases hstep with ⟨a, uuid, now, payload, partitionKey, rfl, hne, hnew, rfl⟩ |
    ⟨a, msgId, rfl, hunsent, rfl⟩ | ⟨i, again, uuid, now, p, rfl, hp, rfl⟩ | ⟨a, action, n, rfl, hown, hn, rfl⟩
  · exact h.enqueue a hne hnew now payload partitionKey
  · exact h.sendCopies hunsent
  · exact h.receive hp again uuid now
  · exact h.act a hown hn

/-- The states that a cluster reaches. -/
abbrev Reach (config : String → QueueConfig ν) : State ν → Prop :=
  Transition.Reach (fun s a s' => QueueCluster.step config s a = some s') {}

theorem placed_of_reach (h : Reach config s) : Placed config s :=
  h.invariant .empty fun _ _ _ _ hs _ hstep => hs.step hstep

/-! ### Placement -/

/-- The nodes that store a message. -/
def FullMesh.storing (c : FullMesh ν) (s : State ν) (id : String) : Finset String :=
  c.nodes.filter fun b => id ∈ (s.node b).messages.keys

/-- The node that the ring assigns the partition key of a message to is the node that took it or is sent a copy. -/
def OwnerServed (cfg : QueueConfig ν) (a : String) (msg : QueueMessage ν) : Prop :=
  ∃ t ∈ cfg.hashRing.getNode cfg.hash msg.partitionKey, t = a ∨ t ∈ cfg.copyTargets

/-- Once its copies have been handled, a message is stored by the node that took it and by those that were sent
one. -/
theorem storing_eq {c : FullMesh ν} (h : Reach c.config s) {a : String} {msg : QueueMessage ν} (ha : a ∈ c.nodes)
    (hmsg : (a, msg) ∈ s.enqueued) (hsent : (a, msg.msgId) ∉ s.unsent)
    (hhandled : ∀ p ∈ s.network, p.data.msgId ≠ some msg.msgId) :
    c.storing s msg.msgId = insert a (c.config a).copyTargets.toFinset := by
  have hplaces := (placed_of_reach h).places _ hmsg
  have hreach : ∀ b, Reaches c.config s a msg.msgId b ↔ msg.msgId ∈ (s.node b).messages.keys := by
    intro b
    have hflight : ¬InFlight s msg.msgId b := by
      intro hf
      obtain ⟨p, hp, -, hid⟩ := hf
      exact hhandled p hp hid
    rw [Reaches]
    simp only [hflight, hsent, false_and, or_false]
  ext b
  have hb := hplaces b
  rw [hreach] at hb
  rw [FullMesh.storing, Finset.mem_filter, Finset.mem_insert, List.mem_toFinset, hb]
  refine and_iff_right_of_imp fun hm => ?_
  rcases hm with rfl | hm
  · exact ha
  · exact (FullMesh.mem_nodes_of_target ha hm).1

/-- A message is stored on the right number of nodes, and on the assigned one exactly if that is the node that took
it or one of the peers that are sent a copy. -/
theorem placement_iff {c : FullMesh ν} (h : Reach c.config s) {a : String} {msg : QueueMessage ν} (ha : a ∈ c.nodes)
    (hr : 1 ≤ (c.config a).replicationFactor) (hmsg : (a, msg) ∈ s.enqueued) (hsent : (a, msg.msgId) ∉ s.unsent)
    (hhandled : ∀ p ∈ s.network, p.data.msgId ≠ some msg.msgId) :
    ((c.storing s msg.msgId).card = min (c.config a).replicationFactor.toNat c.nodes.card ∧
        ∃ t ∈ msg.assignedNode, t ∈ c.storing s msg.msgId) ↔
      OwnerServed (c.config a) a msg := by
  have hassigned := (placed_of_reach h).assigned _ hmsg
  simp only at hassigned
  rw [storing_eq h ha hmsg hsent hhandled, OwnerServed, ← hassigned]
  simp only [FullMesh.card_targets ha hr, true_and, Finset.mem_insert, List.mem_toFinset]

private theorem nodup_peers {clusterNodes : List String} (hnodup : clusterNodes.Nodup) (replicationFactor : Int)
    (hash : String → Nat) : ∀ a ∈ clusterNodes.toFinset, (nodesOf clusterNodes replicationFactor hash a).peers.Nodup :=
  fun _ _ => hnodup.filter _

/-- Nodes that are configured with the same `cluster_nodes` all know each other. -/
def FullMesh.ofClusterNodes (clusterNodes : List String) (hnodup : clusterNodes.Nodup) (replicationFactor : Int)
    (hash : String → Nat) : FullMesh Int where
  nodes := clusterNodes.toFinset
  config := nodesOf clusterNodes replicationFactor hash
  nodeId _ _ := rfl
  nodup := nodup_peers hnodup replicationFactor hash
  knows a _ b := by
    have hpeers : (nodesOf clusterNodes replicationFactor hash a).peers = getPeerNodes clusterNodes a := rfl
    rw [hpeers, mem_getPeerNodes, List.mem_toFinset]

private theorem nodup_pair : ["a", "b"].Nodup := by decide

/-- The nodes `a` and `b`. -/
private def pair (replicationFactor : Int) (hash : String → Nat) : FullMesh Int :=
  .ofClusterNodes ["a", "b"] nodup_pair replicationFactor hash

private theorem mem_of_ids {s : State Int} {a id : String} (h : (a, id) ∈ s.enqueued.map fun e => (e.1, e.2.msgId)) :
    ∃ msg, (a, msg) ∈ s.enqueued ∧ msg.msgId = id := by
  obtain ⟨e, he, heq⟩ := List.mem_map.1 h
  obtain ⟨ha, hid⟩ := Prod.mk.inj heq
  subst ha
  exact ⟨e.2, he, hid⟩

/-- A message is enqueued at one of two nodes that store every message, and its copy arrives twice. -/
theorem placement_run : ∃ (s : State Int) (msg : QueueMessage Int), msg.msgId = "m" ∧
    Reach (pair 2 String.length).config s ∧ ("a", msg) ∈ s.enqueued ∧
    (((pair 2 String.length).storing s msg.msgId).card = min 2 (pair 2 String.length).nodes.card ∧
        (∃ t ∈ msg.assignedNode, t ∈ (pair 2 String.length).storing s msg.msgId) ↔
      OwnerServed ((pair 2 String.length).config "a") "a" msg) := by
  have hrun : (Transition.run (QueueCluster.step (pair 2 String.length).config) {} [
      .enqueue "a" "m" 1 .null "k", .sendCopies "a" "m", .receive 0 true "u" 2, .act "b" (.dequeue 3),
      .receive 0 false "u" 4]).map (fun s => (s.enqueued.map (fun e => (e.1, e.2.msgId)), s.unsent,
        s.network.map fun p => p.data.msgId)) = some ([("a", "m")], [], []) := by decide
  obtain ⟨s, hs, hobs⟩ := Option.map_eq_some_iff.1 hrun
  obtain ⟨henqueued, hobs⟩ := Prod.mk.inj hobs
  obtain ⟨hunsent, hnetwork⟩ := Prod.mk.inj hobs
  have hreach : Reach (pair 2 String.length).config s := Transition.reach_of_run hs
  obtain ⟨msg, hmsg, hid⟩ := mem_of_ids (s := s) (a := "a") (by rw [henqueued]; exact List.mem_singleton_self _)
  refine ⟨s, msg, hid, hreach, hmsg, placement_iff hreach (by decide) (by decide) hmsg ?_ ?_⟩
  · rw [hunsent]
    exact List.not_mem_nil
  · rw [List.map_eq_nil_iff.1 hnetwork]
    intro p hp
    cases hp

/-- The cluster after a message has been enqueued at the node `a` and its copies, if any, have been made. -/
private def entry (hash : String → Nat) (a : String) (unsent : List (String × String)) : State Int where
  node := Function.update (fun _ => {}) a
    (QueueNode.handleEnqueue ((pair 1 hash).config a) {} "m" 1 .null "k")
  unsent := unsent
  enqueued := [(a, QueueNode.newMessage ((pair 1 hash).config a) "m" 1 .null "k")]

/-- With a replication factor of one no copies are made. -/
private theorem entry_reach (hash : String → Nat) (a : String) : Reach (pair 1 hash).config (entry hash a []) := by
  have henqueue : QueueCluster.step (pair 1 hash).config {} (.enqueue a "m" 1 .null "k") =
      some (entry hash a [(a, "m")]) := rfl
  have hcopies : copies (pair 1 hash).config (entry hash a [(a, "m")]) a "m" = [] := by
    have htargets : ((pair 1 hash).config a).copyTargets = [] := rfl
    rw [copies, htargets]
    cases ((entry hash a [(a, "m")]).node a).messages.get? "m" with
    | none => rfl
    | some msg => rfl
  have hsend : QueueCluster.step (pair 1 hash).config (entry hash a [(a, "m")]) (.sendCopies a "m") =
      some (entry hash a []) := by
    have hmem : (a, "m") ∈ (entry hash a [(a, "m")]).unsent := List.mem_singleton_self _
    have hunsent : (entry hash a [(a, "m")]).unsent.erase (a, "m") = [] := List.erase_cons_head _ _
    rw [QueueCluster.step, if_pos hmem, hcopies, hunsent]
    rfl
  exact .tail (.tail .refl trivial henqueue) trivial hsend

private theorem hashRing_of_peer {cfg : QueueConfig Int} {peer : String} (h : cfg.peers = [peer]) :
    cfg.hashRing = (ConsistentHashRing.new.addNode cfg.hash cfg.nodeId).addNode cfg.hash peer := by
  rw [QueueConfig.hashRing, h, List.foldl_cons, List.foldl_nil]

/-- Whatever node of two the ring assigns the key to, a message that the other one takes is not stored on it when
there is one replica only. -/
theorem placed_elsewhere : ¬∃ hash : String → Nat, ConsistentHashRing.CollisionFree hash 150 {"a", "b"} ∧
    ∀ (s : State Int) (a : String) (msg : QueueMessage Int), Reach (pair 1 hash).config s →
      a ∈ (pair 1 hash).nodes → (a, msg) ∈ s.enqueued → (a, msg.msgId) ∉ s.unsent →
      (∀ p ∈ s.network, p.data.msgId ≠ some msg.msgId) →
        ((pair 1 hash).storing s msg.msgId).card = min 1 (pair 1 hash).nodes.card ∧
          ∃ t ∈ msg.assignedNode, t ∈ (pair 1 hash).storing s msg.msgId := by
  rintro ⟨hash, hfree, hall⟩
  have howner : ∀ a ∈ (pair 1 hash).nodes, ((pair 1 hash).config a).hashRing.getNode
      ((pair 1 hash).config a).hash "k" = some a := by
    intro a ha
    have hmsg : (a, QueueNode.newMessage ((pair 1 hash).config a) "m" 1 .null "k") ∈ (entry hash a []).enqueued :=
      List.mem_singleton_self _
    have hsent : (a, (QueueNode.newMessage ((pair 1 hash).config a) "m" 1 .null "k").msgId) ∉
        (entry hash a []).unsent := List.not_mem_nil
    have hhandled : ∀ p ∈ (entry hash a []).network,
        p.data.msgId ≠ some (QueueNode.newMessage ((pair 1 hash).config a) "m" 1 .null "k").msgId := by
      intro p hp
      cases hp
    obtain ⟨-, t, hassigned, hstored⟩ := hall _ a _ (entry_reach hash a) ha hmsg hsent hhandled
    rw [storing_eq (entry_reach hash a) ha hmsg hsent hhandled] at hstored
    have ht : t = a := by
      rcases Finset.mem_insert.1 hstored with ht | ht
      · exact ht
      · cases List.mem_toFinset.1 ht
    rw [ht] at hassigned
    exact hassigned
  have hnodes : (pair 1 hash).nodes = ["a", "b"].toFinset := rfl
  have hapart : ∀ k, ¬(ConsistentHashRing.Owns hash ConsistentHashRing.new.replicas "a" k ∧
      ConsistentHashRing.Owns hash ConsistentHashRing.new.replicas "b" k) := fun k =>
    hfree.not_owns (Finset.mem_insert_self _ _) (Finset.mem_insert_of_mem (Finset.mem_singleton_self _))
      (by decide : "a" ≠ "b") k
  have ha := howner "a" (by rw [hnodes]; decide)
  have hb := howner "b" (by rw [hnodes]; decide)
  rw [hashRing_of_peer (by rfl : ((pair 1 hash).config "a").peers = ["b"])] at ha
  rw [hashRing_of_peer (by rfl : ((pair 1 hash).config "b").peers = ["a"])] at hb
  have hcomm := ConsistentHashRing.getNode_addNode_comm _ hapart "k"
  have hab : some "a" = some "b" := ha.symm.trans (hcomm.trans hb)
  exact absurd hab (by decide)

end QueueCluster

end DistributedSync
