import DistributedSync.Queue.Durable

/-!
# What a message carries through the queue

A cluster of queue nodes with Redis: messages are enqueued, travel to other nodes in the dictionary of a `Message`,
are persisted, and come back by the recovery of a node that restarts.  All of this leaves the payload and the
partition key of a message as its constructor has made them (`Carries`).  But the constructor puts `{}` in the place of
a payload that is `null`, `false`, `0`, or empty, and the id in the place of an empty partition key; so what a dequeue
returns is what was enqueued just for the other ones (`payload_faithful_iff`).
-/

namespace DistributedSync

namespace DurableCluster

variable {ν : Type}

/-- An enqueue request, with the id of the message that was made for it. -/
structure Request (ν : Type) where
  id : String
  payload : Json ν
  partitionKey : String

/-- A `QUEUE_ENQUEUE` message on its way to a node. -/
structure Packet (ν : Type) where
  target : String
  message : Envelope String (MessageDict ν)

/-- The nodes, the enqueued messages whose copies have not been made yet (node and id), the copies in flight, the
requests so far, and the messages that dequeues have returned. -/
structure State (ν : Type) where
  node : String → DurableNode ν := fun _ => {}
  unsent : List (String × String) := []
  network : List (Packet ν) := []
  requests : List (Request ν) := []
  delivered : List (MessageDict ν) := []

def State.ids (s : State ν) : List String := s.requests.map (·.id)

/-- What happens in a cluster.  A copy is received once more when its sender will repeat it (`again`), and `act` is
an action of a node that concerns no other one. -/
inductive Action (ν : Type) where
  | enqueue (a uuid : String) (now : ν) (payload : Json ν) (partitionKey : String)
  | sendCopies (a msgId : String)
  | receive (i : Nat) (again : Bool) (uuid : String) (now : ν)
  | act (a : String) (action : DurableNode.Action ν)

/-- Actions that bring no new message to a node. -/
def isOwn : DurableNode.Action ν → Bool
  | .enqueue .. | .act (.replicate ..) => false
  | _ => true

/-- The copies of a message of the node `a`. -/
def copies (config : String → QueueConfig ν) (s : State ν) (a msgId : String) : List (Packet ν) :=
  match (s.node a).node.messages.get? msgId with
  | none => []
  | some msg =>
    let message : Message String (MessageDict ν) :=
      { msgType := .queueEnqueue
        senderId := (config a).nodeId
        data := msg.toDict }
    (config a).copyTargets.map fun b => ⟨b, message.toDict⟩

/-- The message in the answer to a dequeue. -/
def answers (s : DurableNode ν) : DurableNode.Action ν → List (MessageDict ν)
  | .act (.dequeue now) => ((s.node.dequeue now).2.map QueueMessage.toDict).toList
  | _ => []

/-- The copies that are still to be made when a node has acted: a restart ends its tasks. -/
def remaining (s : State ν) (a : String) : DurableNode.Action ν → List (String × String)
  | .restart => s.unsent.filter fun e => e.1 ≠ a
  | _ => s.unsent

variable [Number ν] (config : String → QueueConfig ν)

/-- `_handle_rpc` for messages of the queue; an ill-formed message raises and changes nothing. -/
def handleRpc [Sub ν] (cfg : QueueConfig ν) (n : DurableNode ν) (uuid : String) (now : ν)
    (message : Envelope String (MessageDict ν)) : DurableNode ν :=
  match Message.fromDict {} message with
  | .error _ => n
  | .ok m => if m.msgType = .queueEnqueue then (n.handle cfg (.replicate uuid now m.data)).getD n else n

/-- The steps of a cluster.  A drawn id is new and not empty. -/
def step [Sub ν] (s : State ν) : Action ν → Option (State ν)
  | .enqueue a uuid now payload partitionKey =>
    if uuid = "" ∨ uuid ∈ s.ids then none
    else some { s with
      node := Function.update s.node a ((s.node a).handleEnqueue
        ((s.node a).newMessage (config a) uuid now payload partitionKey))
      unsent := s.unsent ++ [(a, uuid)]
      requests := s.requests ++ [⟨uuid, payload, partitionKey⟩] }
  | .sendCopies a msgId =>
    if s.unsent.contains (a, msgId) then some { s with
      unsent := s.unsent.erase (a, msgId)
      network := s.network ++ copies config s a msgId }
    else none
  | .receive i again uuid now =>
    s.network[i]?.map fun p => { s with
      node := Function.update s.node p.target (handleRpc (config p.target) (s.node p.target) uuid now p.message)
      network := if again then s.network else s.network.eraseIdx i }
  | .act a action =>
    if isOwn action then
      (DurableNode.step (config a) (s.node a) action).map fun n => { s with
        node := Function.update s.node a n
        unsent := remaining s a action
        delivered := s.delivered ++ answers (s.node a) action }
    else none

/-! ### The invariant -/

/-- The message of a request, with the payload and the key that the constructor makes of those of the request. -/
def Carries (s : State ν) (msg : QueueMessage ν) : Prop :=
  ∃ r ∈ s.requests, msg.msgId = r.id ∧ msg.payload = payloadOr r.payload ∧
    msg.partitionKey = strOr r.partitionKey r.id

/-- All messages in the cluster carry what their requests have brought. -/
structure Carried (s : State ν) : Prop where
  nonempty : ∀ r ∈ s.requests, r.id ≠ ""
  distinct : s.ids.Nodup
  nodes : ∀ a, (s.node a).Holds (Carries s)
  network : ∀ p ∈ s.network, ∃ m : Message String (MessageDict ν), p.message = m.toDict ∧
    ∃ id, DurableNode.Written (Carries s) id m.data
  delivered : ∀ d ∈ s.delivered, ∃ id, DurableNode.Written (Carries s) id d

variable {config} {s s' : State ν}

/-- Nothing that happens to a message changes what it carries. -/
theorem lasting_carries (hne : ∀ r ∈ s.requests, r.id ≠ "") : Lasting (Carries s) where
  mark _ _ _ h := h
  retry msg h := by
    obtain ⟨r, hr, hid, hpayload, hkey⟩ := h
    refine ⟨r, hr, msg.retry_msgId.trans hid, ?_, ?_⟩
    · rw [QueueMessage.retry]
      split
      · exact hpayload
      · exact hpayload
    · rw [QueueMessage.retry]
      split
      · exact hkey
      · exact hkey
  reread msg uuid now msg' h hread := by
    obtain ⟨r, hr, hid, hpayload, hkey⟩ := h
    have hne' : r.id ≠ "" := hne r hr
    rw [QueueMessage.fromDict_toDict] at hread
    cases hread
    refine ⟨r, hr, ?_, ?_, ?_⟩
    · rw [hid, strOr_of_ne hne']
    · rw [hpayload, payloadOr_idem]
    · rw [hkey, strOr_of_ne (strOr_ne_empty hne')]

theorem Carried.empty : Carried ({} : State ν) where
  nonempty r hr := by cases hr
  distinct := List.nodup_nil
  nodes _ := DurableNode.Holds.empty
  network p hp := by cases hp
  delivered d hd := by cases hd

theorem Carried.copies (h : Carried s) (a msgId : String) : ∀ p ∈ copies config s a msgId,
    ∃ m : Message String (MessageDict ν), p.message = m.toDict ∧ ∃ id, DurableNode.Written (Carries s) id m.data := by
  intro p hp
  rw [DurableCluster.copies] at hp
  cases hm : (s.node a).node.messages.get? msgId with
  | none => simp [hm] at hp
  | some msg =>
    simp only [hm] at hp
    obtain ⟨b, -, rfl⟩ := List.mem_map.1 hp
    exact ⟨_, rfl, msg.msgId, msg, (h.nodes a).node.stored msgId msg hm, rfl, rfl⟩

/-- What a dequeue returns. -/
theorem Carried.answers (h : Carried s) (a : String) (action : DurableNode.Action ν) :
    ∀ d ∈ answers (s.node a) action, ∃ id, DurableNode.Written (Carries s) id d := by
  intro d hd
  unfold DurableCluster.answers at hd
  split at hd
  · next now =>
    have hdequeue := ((h.nodes a).node.dequeue (lasting_carries h.nonempty).mark now).2
    obtain ⟨msg, hmsg, rfl⟩ := Option.map_eq_some_iff.1 (Option.mem_toList.1 hd)
    exact ⟨msg.msgId, msg, hdequeue msg hmsg, rfl, rfl⟩
  · cases hd

theorem Carried.enqueue (h : Carried s) (a : String) {uuid : String} (hne : uuid ≠ "") (hnew : uuid ∉ s.ids) (now : ν)
    (payload : Json ν) (partitionKey : String) :
    Carried { s with
      node := Function.update s.node a ((s.node a).handleEnqueue
        ((s.node a).newMessage (config a) uuid now payload partitionKey))
      unsent := s.unsent ++ [(a, uuid)]
      requests := s.requests ++ [⟨uuid, payload, partitionKey⟩] } := by
  have hmono : ∀ msg, Carries s msg → ∃ r ∈ s.requests ++ [⟨uuid, payload, partitionKey⟩],
      msg.msgId = r.id ∧ msg.payload = payloadOr r.payload ∧ msg.partitionKey = strOr r.partitionKey r.id := by
    rintro msg ⟨r, hr, hcarry⟩
    exact ⟨r, List.mem_append_left _ hr, hcarry⟩
  refine ⟨fun r hr => ?_, ?_, ?_, fun p hp => ?_, fun d hd => ?_⟩
  · rcases List.mem_append.1 hr with hr | hr
    · exact h.nonempty r hr
    · rw [List.mem_singleton.1 hr]
      exact hne
  · rw [State.ids, List.map_append]
    exact h.distinct.append (List.nodup_singleton uuid) (List.disjoint_singleton.2 hnew)
  · refine QueueCluster.forall_update (fun b => (h.nodes b).mono hmono) a (((h.nodes a).mono hmono).enqueue ?_)
    exact ⟨⟨uuid, payload, partitionKey⟩, List.mem_append_right _ (List.mem_singleton_self _), rfl, rfl, rfl⟩
  · obtain ⟨m, hm, id, hwritten⟩ := h.network p hp
    exact ⟨m, hm, id, hwritten.mono hmono⟩
  · obtain ⟨id, hwritten⟩ := h.delivered d hd
    exact ⟨id, hwritten.mono hmono⟩

/-- What the constructor leaves as it is: a true or empty object payload, and a key that is not empty. -/
def Faithful (payload : Json ν) (partitionKey : String) : Prop :=
  (payload.truthy ∨ payload = .obj []) ∧ partitionKey ≠ ""

private theorem faithful_iff {payload : Json ν} {partitionKey id : String} (hid : id ≠ "") :
    payloadOr payload = payload ∧ strOr partitionKey id = partitionKey ↔ Faithful payload partitionKey := by
  have hpayload : payloadOr payload = payload ↔ payload.truthy ∨ payload = .obj [] := by
    by_cases h : payload.truthy
    · simp [payloadOr, h]
    · rw [payloadOr, if_neg h]
      exact ⟨fun he => Or.inr he.symm, fun he => (he.resolve_left h).symm⟩
  have hkey : strOr partitionKey id = partitionKey ↔ partitionKey ≠ "" := by
    by_cases h : partitionKey = ""
    · simp [strOr, h, hid]
    · simp [strOr, h]
  rw [Faithful, hpayload, hkey]

/-! ### Steps and deliveries -/

variable [Sub ν]

/-- What a node makes of a copy. -/
theorem Carried.handleRpc (h : Carried s) {p : Packet ν} (hp : p ∈ s.network) (uuid : String) (now : ν) :
    (DurableCluster.handleRpc (config p.target) (s.node p.target) uuid now p.message).Holds (Carries s) := by
  obtain ⟨m, hm, hwritten⟩ := h.network p hp
  rw [DurableCluster.handleRpc, hm, Message.fromDict_toDict]
  simp only
  split
  · cases hn : (s.node p.target).handle (config p.target) (.replicate uuid now m.data) with
    | none => exact h.nodes p.target
    | some n =>
      refine (h.nodes p.target).handle (lasting_carries h.nonempty) (fun uuid' now' d hd => ?_) hn
      cases hd
      exact hwritten
  · exact h.nodes p.target

theorem Carried.step (h : Carried s) {a : Action ν} (hstep : DurableCluster.step config s a = some s') :
    Carried s' := by
  cases a with
  | enqueue b uuid now payload partitionKey =>
    rw [DurableCluster.step] at hstep
    split at hstep
    · cases hstep
    · next hnew =>
      cases hstep
      exact h.enqueue b (fun he => hnew (Or.inl he)) (fun hid => hnew (Or.inr hid)) now payload partitionKey
  | sendCopies b msgId =>
    rw [DurableCluster.step, Option.ite_none_right_eq_some] at hstep
    obtain ⟨-, hstep⟩ := hstep
    cases hstep
    refine ⟨h.nonempty, h.distinct, h.nodes, fun p hp => ?_, h.delivered⟩
    rcases List.mem_append.1 hp with hp | hp
    · exact h.network p hp
    · exact h.copies b msgId p hp
  | receive i again uuid now =>
    obtain ⟨p, hp, rfl⟩ := Option.map_eq_some_iff.1 hstep
    refine ⟨h.nonempty, h.distinct, ?_, fun p' hp' => h.network p' ?_, h.delivered⟩
    · exact QueueCluster.forall_update h.nodes p.target (h.handleRpc (List.mem_of_getElem? hp) uuid now)
    · split at hp'
      · exact hp'
      · exact List.mem_of_mem_eraseIdx hp'
  | act b action =>
    rw [DurableCluster.step, Option.ite_none_right_eq_some] at hstep
    obtain ⟨hown, hstep⟩ := hstep
    obtain ⟨n, hn, rfl⟩ := Option.map_eq_some_iff.1 hstep
    have hnode : n.Holds (Carries s) := by
      refine (h.nodes b).step (lasting_carries h.nonempty).toReadable ?_ ?_ hn
      · rintro uuid now payload partitionKey rfl
        cases hown
      · rintro c rfl n hn
        refine (h.nodes b).handle (lasting_carries h.nonempty) ?_ hn
        rintro uuid now d rfl
        cases hown
    refine ⟨h.nonempty, h.distinct, QueueCluster.forall_update h.nodes b hnode, h.network, fun d hd => ?_⟩
    rcases List.mem_append.1 hd with hd | hd
    · exact h.delivered d hd
    · exact h.answers b action d hd

/-- What a dequeue returns for a request, wherever and however the message got there, is what the request brought just
if the constructor leaves that as it is. -/
theorem payload_faithful_iff {s : State ν} (h : Transition.Reach (fun s a s' => step config s a = some s') {} s)
    {r : Request ν} (hr : r ∈ s.requests) {d : MessageDict ν} (hd : d ∈ s.delivered) (hid : d.msgId = some r.id) :
    d.payload = some r.payload ∧ d.partitionKey = some r.partitionKey ↔ Faithful r.payload r.partitionKey := by
  have hcarried : Carried s := h.invariant .empty fun s a s' _ hs _ hstep => hs.step hstep
  obtain ⟨-, msg, ⟨r', hr', hid', hpayload, hkey⟩, -, rfl⟩ := hcarried.delivered d hd
  -- the ids tell the requests apart
  have hsame : r'.id = r.id := hid'.symm.trans (Option.some.inj hid)
  obtain rfl : r' = r := List.inj_on_of_nodup_map hcarried.distinct hr' hr hsame
  rw [← faithful_iff (hcarried.nonempty r' hr)]
  show some msg.payload = some r'.payload ∧ some msg.partitionKey = some r'.partitionKey ↔ _
  rw [hpayload, hkey, Option.some.injEq, Option.some.injEq]

/-- A message is dequeued at the node that got a copy of it, and at the node that recovered it from Redis. -/
theorem payload_faithful_run : ∃ s : State Int, s.delivered.map (·.msgId) = [some "m", some "m"] ∧
    ∀ d ∈ s.delivered, d.payload = some (.obj [("n", .num 0)]) ∧ d.partitionKey = some "k" := by
  let as : List (Action Int) := [.act "a" .connect, .act "a" .pong, .act "a" (.scan [] true),
    .enqueue "a" "m" 1 (.obj [("n", .num 0)]) "k", .act "a" (.land 0), .sendCopies "a" "m", .receive 0 false "u" 2,
    .act "b" (.act (.dequeue 3)), .act "a" .restart, .act "a" .connect, .act "a" .pong, .act "a" (.scan ["m"] true),
    .act "a" .read, .act "a" (.process "u" 4), .act "a" (.act (.dequeue 5))]
  have hrun : (Transition.run (step (QueueCluster.nodesOf ["a", "b"] 2 String.length)) {} as).map (fun s =>
      (s.delivered.map (·.msgId), s.requests)) = some ([some "m", some "m"], [⟨"m", .obj [("n", .num 0)], "k"⟩]) := by
    rfl
  obtain ⟨s, hs, hobs⟩ := Option.map_eq_some_iff.1 hrun
  obtain ⟨hids, hrequests⟩ := Prod.mk.inj hobs
  have hreach := Transition.reach_of_run hs
  have hr : ⟨"m", .obj [("n", .num 0)], "k"⟩ ∈ s.requests := by
    rw [hrequests]
    exact List.mem_singleton_self _
  refine ⟨s, hids, fun d hd => ?_⟩
  have hid : d.msgId = some "m" := by
    have hmem : d.msgId ∈ s.delivered.map (·.msgId) := List.mem_map_of_mem hd
    rw [hids] at hmem
    simpa using hmem
  exact (payload_faithful_iff hreach hr hd hid).2 ⟨Or.inl rfl, by decide⟩

/-- An empty partition key comes back as the id of the message. -/
theorem empty_key_replaced : ¬∀ s : State Int,
    Transition.Reach (fun s a s' => step (QueueCluster.nodesOf ["a", "b"] 2 String.length) s a = some s') {} s →
    ∀ r ∈ s.requests, ∀ d ∈ s.delivered, d.msgId = some r.id →
      d.payload = some r.payload ∧ d.partitionKey = some r.partitionKey := by
  intro hall
  have hrun : (Transition.run (step (QueueCluster.nodesOf ["a", "b"] 2 String.length)) {} [
      .enqueue "a" "m" 1 (.obj [("n", .num 0)]) "", .act "a" (.act (.dequeue 2))]).map (fun s =>
      (s.delivered.map (·.partitionKey), s.delivered.map (·.msgId), s.requests)) =
      some ([some "m"], [some "m"], [⟨"m", .obj [("n", .num 0)], ""⟩]) := by rfl
  obtain ⟨s, hs, hobs⟩ := Option.map_eq_some_iff.1 hrun
  simp only [Prod.mk.injEq] at hobs
  obtain ⟨hkeys, hids, hrequests⟩ := hobs
  obtain ⟨d, hd⟩ : ∃ d, s.delivered = [d] := List.length_eq_one_iff.1 (by simpa using congrArg List.length hids)
  rw [hd, List.map_singleton, List.cons.injEq] at hkeys hids
  have hsame := hall s (Transition.reach_of_run hs) ⟨"m", .obj [("n", .num 0)], ""⟩ (by simp [hrequests]) d
    (by simp [hd]) hids.1
  rw [hkeys.1] at hsame
  exact absurd hsame.2 (by decide)

end DurableCluster

end DistributedSync
