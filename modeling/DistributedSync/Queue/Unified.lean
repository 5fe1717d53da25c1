import DistributedSync.Queue.Node

/-!
# The queue of the unified node

`DistributedNode` of `main.py` keeps its own messages and pending list.  A copy from another node is listed
whatever its state, and no background task looks at the messages again: what a dequeue has taken from the list
comes back by another copy only.  So a stored message can still be delivered as long as it is listed
(`deliverable_iff`), and all unacknowledged ones can be in every state of a run just if no dequeue of the run takes
the last entry of an unacknowledged one (`unacknowledged_deliverable_iff`).
-/

namespace DistributedSync

namespace DistributedNode

/-- What the queue reads of the configuration. -/
structure Config where
  nodeId : String
  peers : List String
  queueReplicationFactor : Int
  hash : String → Nat

/-- The ring after `start`, which adds the node itself last. -/
def Config.hashRing (cfg : Config) : ConsistentHashRing :=
  (cfg.peers.foldl (fun r peer => r.addNode cfg.hash peer) ConsistentHashRing.new).addNode cfg.hash cfg.nodeId

/-- The messages and the pending list of the node, and the ids that have been acknowledged. -/
structure Queue (ν : Type) extends MessageStore ν where
  acked : List String := []

/-- The steps that touch the queue, and the elapse of time with the background tasks of the node. -/
inductive QueueAction (ν : Type) where
  | enqueue (uuid : String) (now : ν) (payload : Json ν) (partitionKey : String)
  | replicate (uuid : String) (now : ν) (d : MessageDict ν)
  | dequeue (now : ν)
  | ack (msgId : String)
  | idle

namespace Queue

variable {ν : Type}

/-- A message is stored and listed. -/
def insert (q : Queue ν) (msg : QueueMessage ν) : Queue ν :=
  { q with toMessageStore := (q.put msg).append msg.msgId }

/-- `_handle_queue_dequeue`. -/
def handleQueueDequeue (q : Queue ν) (now : ν) : Queue ν × Option (QueueMessage ν) :=
  ({ q with toMessageStore := (q.dequeue now).1 }, (q.dequeue now).2)

/-- `_handle_queue_ack`. -/
def handleQueueAck (q : Queue ν) (msgId : String) : Queue ν :=
  { toMessageStore := (q.ack msgId).1, acked := if (q.ack msgId).2 then msgId :: q.acked else q.acked }

/-! ### What a dequeue and an acknowledgement do -/

section

variable {q : Queue ν}

/-- An entry of the messages is replaced by one with the same id. -/
theorem msgId_set {d : Dict String (QueueMessage ν)} {id : String} {msg : QueueMessage ν}
    (hm : d.get? id = some msg) (msg' : QueueMessage ν) (hid : msg'.msgId = msg.msgId) (id' : String) :
    ((d.set id msg').get? id').map (·.msgId) = (d.get? id').map (·.msgId) := by
  rw [Dict.get?_set]
  by_cases h : id' = id
  · rw [if_pos h, h, hm, Option.map_some, Option.map_some, hid]
  · rw [if_neg h]

private theorem msgId_dequeue (q : MessageStore ν) (now : ν) (id : String) :
    ((q.dequeue now).1.messages.get? id).map (·.msgId) = (q.messages.get? id).map (·.msgId) := by
  cases h : q.pendingQueue with
  | nil => simp [MessageStore.dequeue, h]
  | cons head rest =>
    simp only [MessageStore.dequeue, h]
    cases hm : q.messages.get? head with
    | none => rfl
    | some msg => exact msgId_set hm { msg with state := .processing, processingStarted := some now } rfl id

private theorem msgId_ack (q : MessageStore ν) (msgId id : String) :
    ((q.ack msgId).1.messages.get? id).map (·.msgId) = (q.messages.get? id).map (·.msgId) := by
  rw [MessageStore.ack]
  cases hm : q.messages.get? msgId with
  | none => rfl
  | some msg => exact msgId_set hm { msg with state := .completed } rfl id

@[simp] theorem pendingQueue_dequeue (q : MessageStore ν) (now : ν) :
    (q.dequeue now).1.pendingQueue = q.pendingQueue.tail := by
  cases h : q.pendingQueue with
  | nil => simp [MessageStore.dequeue, h]
  | cons head rest =>
    simp only [MessageStore.dequeue, h, List.tail_cons]
    cases q.messages.get? head with
    | none => rfl
    | some msg => rfl

@[simp] theorem pendingQueue_ack (q : MessageStore ν) (msgId : String) :
    (q.ack msgId).1.pendingQueue = q.pendingQueue := by
  rw [MessageStore.ack]
  cases q.messages.get? msgId with
  | none => rfl
  | some msg => rfl

theorem pendingQueue_handleQueueDequeue (q : Queue ν) (now : ν) :
    (q.handleQueueDequeue now).1.pendingQueue = q.pendingQueue.tail := pendingQueue_dequeue _ now

theorem pendingQueue_handleQueueAck (q : Queue ν) (msgId : String) :
    (q.handleQueueAck msgId).pendingQueue = q.pendingQueue := pendingQueue_ack _ msgId

/-- A dequeue returns the message that is listed first. -/
theorem dequeue_of_head {q : MessageStore ν} {id : String} {rest : List String} {msg : QueueMessage ν}
    (h : q.pendingQueue = id :: rest) (hm : q.messages.get? id = some msg) (now : ν) :
    (q.dequeue now).2 = some { msg with state := .processing, processingStarted := some now } := by
  simp only [MessageStore.dequeue, h, hm]

/-- What a dequeue returns is stored under the id that is listed first. -/
theorem head_of_dequeue {q : MessageStore ν} {now : ν} {msg : QueueMessage ν} (h : (q.dequeue now).2 = some msg) :
    ∃ id ∈ q.pendingQueue, (q.messages.get? id).map (·.msgId) = some msg.msgId := by
  cases hq : q.pendingQueue with
  | nil => simp [MessageStore.dequeue, hq] at h
  | cons head rest =>
    refine ⟨head, List.mem_cons_self, ?_⟩
    simp only [MessageStore.dequeue, hq] at h
    cases hm : q.messages.get? head with
    | none => simp [hm] at h
    | some found =>
      simp only [hm, Option.some.injEq] at h
      rw [← h, Option.map_some]

/-- Every message is stored under its id. -/
def Keyed (q : Queue ν) : Prop := ∀ id msg, q.messages.get? id = some msg → msg.msgId = id

private theorem Keyed.of_msgId {q' : Queue ν} (h : q.Keyed)
    (hsame : ∀ id, (q'.messages.get? id).map (·.msgId) = (q.messages.get? id).map (·.msgId)) : q'.Keyed := by
  intro id msg hm
  have hid := hsame id
  rw [hm, Option.map_some] at hid
  obtain ⟨msg₀, hm₀, hid⟩ := Option.map_eq_some_iff.1 hid.symm
  rw [← hid]
  exact h id msg₀ hm₀

private theorem mem_keys_of_msgId {d d' : Dict String (QueueMessage ν)}
    (hsame : ∀ id, (d'.get? id).map (·.msgId) = (d.get? id).map (·.msgId)) {id : String} :
    id ∈ d'.keys ↔ id ∈ d.keys := by
  have hsome := congrArg Option.isSome (hsame id)
  rw [Option.isSome_map, Option.isSome_map] at hsome
  rw [Dict.mem_keys, Dict.mem_keys, ← Option.isSome_iff_exists, ← Option.isSome_iff_exists, hsome]

private theorem mem_keys_handleQueueDequeue {now : ν} {id : String} :
    id ∈ (q.handleQueueDequeue now).1.messages.keys ↔ id ∈ q.messages.keys :=
  mem_keys_of_msgId fun id => msgId_dequeue _ now id

private theorem mem_keys_handleQueueAck {msgId id : String} :
    id ∈ (q.handleQueueAck msgId).messages.keys ↔ id ∈ q.messages.keys :=
  mem_keys_of_msgId fun id => msgId_ack _ msgId id

end

/-! ### The node -/

variable [Number ν] (cfg : Config)

/-- `_handle_queue_enqueue`, with the copies that are sent. -/
def handleQueueEnqueue (q : Queue ν) (uuid : String) (now : ν) (payload : Json ν) (partitionKey : String) :
    Queue ν × List (String × MessageDict ν) :=
  let msg := QueueMessage.new uuid now payload partitionKey
  let msg := { msg with assignedNode := cfg.hashRing.getNode cfg.hash msg.partitionKey }
  (q.insert msg, (sliceTo cfg.peers (cfg.queueReplicationFactor - 1)).map fun peer => (peer, msg.toDict))

/-- The branch of `_handle_rpc` for copies; an ill-formed one raises and changes nothing. -/
def handleRpc (q : Queue ν) (uuid : String) (now : ν) (d : MessageDict ν) : Queue ν :=
  match QueueMessage.fromDict uuid now d with
  | .error _ => q
  | .ok qm => q.insert qm

def step (q : Queue ν) : QueueAction ν → Queue ν
  | .enqueue uuid now payload partitionKey => (q.handleQueueEnqueue cfg uuid now payload partitionKey).1
  | .replicate uuid now d => q.handleRpc uuid now d
  | .dequeue now => (q.handleQueueDequeue now).1
  | .ack msgId => q.handleQueueAck msgId
  | .idle => q

/-- The queue after a run. -/
def after (as : List (QueueAction ν)) : Queue ν := as.foldl (step cfg) {}

/-- The steps that the node takes without a new message or copy: dequeues, and the elapse of time. -/
def isOwn : QueueAction ν → Prop
  | .dequeue _ => True
  | .idle => True
  | _ => False

/-- Own steps of the node lead to a dequeue that returns the message. -/
def Deliverable (q : Queue ν) (id : String) : Prop :=
  ∃ as : List (QueueAction ν), (∀ a ∈ as, isOwn a) ∧
    ∃ now msg, ((as.foldl (step cfg) q).handleQueueDequeue now).2 = some msg ∧ msg.msgId = id

/-- The dequeue, if the step is one, does not take the last entry of an unacknowledged message. -/
def Spares (q : Queue ν) : QueueAction ν → Prop
  | .dequeue _ => ∀ id ∈ q.pendingQueue.head?, id ∉ q.acked → id ∈ q.pendingQueue.tail
  | _ => True

/-- The ids of the stored messages that have not been acknowledged are listed. -/
def AllListed (q : Queue ν) : Prop := ∀ id ∈ q.messages.keys, id ∉ q.acked → id ∈ q.pendingQueue

/-! ### What a step does -/

variable {cfg} {q : Queue ν}

variable (cfg q) in
theorem step_cases (a : QueueAction ν) :
    (∃ msg, step cfg q a = q.insert msg ∧ ¬isOwn a) ∨
      (∃ now, a = .dequeue now ∧ step cfg q a = (q.handleQueueDequeue now).1) ∨
      (∃ id, a = .ack id ∧ step cfg q a = q.handleQueueAck id) ∨ step cfg q a = q := by
  cases a with
  | enqueue uuid now payload partitionKey => exact Or.inl ⟨_, rfl, id⟩
  | replicate uuid now d =>
    cases hd : QueueMessage.fromDict uuid now d with
    | error e => exact Or.inr (Or.inr (Or.inr (by rw [step, handleRpc, hd])))
    | ok qm => exact Or.inl ⟨qm, by rw [step, handleRpc, hd], id⟩
  | dequeue now => exact Or.inr (Or.inl ⟨now, rfl, rfl⟩)
  | ack msgId => exact Or.inr (Or.inr (Or.inl ⟨msgId, rfl, rfl⟩))
  | idle => exact Or.inr (Or.inr (Or.inr rfl))

theorem Keyed.step (h : q.Keyed) (a : QueueAction ν) : (step cfg q a).Keyed := by
  rcases step_cases cfg q a with ⟨msg, hq, -⟩ | ⟨now, -, hq⟩ | ⟨msgId, -, hq⟩ | hq
  · rw [hq]
    intro id msg' hm
    have hset : (q.messages.set msg.msgId msg).get? id = some msg' := hm
    rw [Dict.get?_set] at hset
    by_cases hid : id = msg.msgId
    · rw [if_pos hid, Option.some.injEq] at hset
      rw [← hset, hid]
    · rw [if_neg hid] at hset
      exact h id msg' hset
  · rw [hq]
    exact h.of_msgId fun id => msgId_dequeue _ now id
  · rw [hq]
    exact h.of_msgId fun id => msgId_ack _ msgId id
  · rw [hq]
    exact h

/-! ### Delivery by own steps -/

/-- Own steps list nothing. -/
theorem pendingQueue_of_own {a : QueueAction ν} (ha : isOwn a) {id : String}
    (hid : id ∈ (step cfg q a).pendingQueue) : id ∈ q.pendingQueue := by
  cases a with
  | dequeue now =>
    rw [step, pendingQueue_handleQueueDequeue] at hid
    exact List.mem_of_mem_tail hid
  | idle => exact hid
  | enqueue uuid now payload partitionKey => cases ha
  | replicate uuid now d => cases ha
  | ack msgId => cases ha

/-- A message can still be delivered just if it is listed. -/
theorem deliverable_iff (hq : q.Keyed) {id : String} (hid : id ∈ q.messages.keys) :
    Deliverable cfg q id ↔ id ∈ q.pendingQueue := by
  constructor
  -- own steps list nothing, so what a later dequeue returns is listed from the beginning
  · intro h
    obtain ⟨as, hown, now, msg, hmsg, hkey⟩ := h
    clear hid
    induction as generalizing q with
    | nil =>
      obtain ⟨head, hhead, hstored⟩ := head_of_dequeue hmsg
      obtain ⟨found, hfound, hsame⟩ := Option.map_eq_some_iff.1 hstored
      have heq : head = id := by rw [← hq head found hfound, hsame, hkey]
      rw [← heq]
      exact hhead
    | cons a as ih =>
      have hlater := ih (hq.step a) (fun b hb => hown b (List.mem_cons_of_mem a hb)) hmsg
      exact pendingQueue_of_own (hown a List.mem_cons_self) hlater
  -- dequeues take the ids before it, and then the message
  · intro h
    obtain ⟨rest, hrest⟩ : ∃ rest, q.pendingQueue = rest := ⟨_, rfl⟩
    rw [hrest] at h
    induction rest generalizing q with
    | nil => cases h
    | cons head rest ih =>
      by_cases hhead : head = id
      · obtain ⟨msg, hm⟩ := Dict.mem_keys.1 hid
        rw [hhead] at hrest
        exact ⟨[], List.forall_mem_nil _, 0, _, dequeue_of_head hrest hm 0, hq id msg hm⟩
      · have hmem : id ∈ rest := by
          rcases List.mem_cons.1 h with heq | hmem
          · exact absurd heq.symm hhead
          · exact hmem
        have htail : (step cfg q (.dequeue 0)).pendingQueue = rest := by
          rw [step, pendingQueue_handleQueueDequeue, hrest, List.tail_cons]
        have hstored : id ∈ (step cfg q (.dequeue 0)).messages.keys := mem_keys_handleQueueDequeue.2 hid
        obtain ⟨as, hown, hreturn⟩ := ih (hq.step _) hstored hmem htail
        refine ⟨.dequeue 0 :: as, fun a ha => ?_, hreturn⟩
        rcases List.mem_cons.1 ha with heq | ha
        · rw [heq]
          exact trivial
        · exact hown a ha

/-! ### Runs -/

variable (cfg) in
theorem after_concat (as : List (QueueAction ν)) (a : QueueAction ν) :
    after cfg (as ++ [a]) = step cfg (after cfg as) a := by
  rw [after, List.foldl_append, List.foldl_cons, List.foldl_nil, after]

variable (cfg) in
theorem keyed_after (as : List (QueueAction ν)) : (after cfg as).Keyed := by
  induction as using List.reverseRecOn with
  | nil =>
    intro id msg hm
    cases hm
  | append_singleton as a ih =>
    rw [after_concat]
    exact ih.step a

theorem AllListed.step (h : q.AllListed) {a : QueueAction ν} (ha : q.Spares a) : (step cfg q a).AllListed := by
  rcases step_cases cfg q a with ⟨msg, hq, -⟩ | ⟨now, rfl, hq⟩ | ⟨msgId, -, hq⟩ | hq
  · rw [hq]
    intro id hid hacked
    have hset : id ∈ (q.messages.set msg.msgId msg).keys := hid
    have hlisted : (q.insert msg).pendingQueue = q.pendingQueue ++ [msg.msgId] := rfl
    rw [hlisted, List.mem_append, List.mem_singleton]
    rcases Dict.mem_keys_set.1 hset with heq | hid
    · exact Or.inr heq
    · exact Or.inl (h id hid hacked)
  · rw [hq]
    intro id hid hacked
    have hlisted := h id (mem_keys_handleQueueDequeue.1 hid) hacked
    rw [pendingQueue_handleQueueDequeue]
    cases hpending : q.pendingQueue with
    | nil =>
      rw [hpending] at hlisted
      cases hlisted
    | cons head rest =>
      rw [hpending] at hlisted
      rcases List.mem_cons.1 hlisted with heq | hrest
      · have hspare := ha head (by rw [hpending]; rfl) (by rw [← heq]; exact hacked)
        rw [hpending] at hspare
        rw [heq]
        exact hspare
      · exact hrest
  · rw [hq]
    intro id hid hacked
    have hbefore : id ∉ q.acked := by
      intro hmem
      refine hacked ?_
      rw [handleQueueAck]
      by_cases hknown : (q.ack msgId).2
      · rw [if_pos hknown]
        exact List.mem_cons_of_mem _ hmem
      · rw [if_neg hknown]
        exact hmem
    rw [pendingQueue_handleQueueAck]
    exact h id (mem_keys_handleQueueAck.1 hid) hbefore
  · rw [hq]
    exact h

/-- A dequeue that takes the last entry of an unacknowledged message leaves it unlisted. -/
theorem spares_of_allListed (hknown : ∀ id ∈ q.pendingQueue, id ∈ q.messages.keys) {a : QueueAction ν}
    (h : (step cfg q a).AllListed) : q.Spares a := by
  cases a with
  | dequeue now =>
    intro id hhead hacked
    have hid : id ∈ q.pendingQueue := List.mem_of_mem_head? hhead
    have hlisted := h id (mem_keys_handleQueueDequeue.2 (hknown id hid)) hacked
    rw [step, pendingQueue_handleQueueDequeue] at hlisted
    exact hlisted
  | enqueue uuid now payload partitionKey => exact trivial
  | replicate uuid now d => exact trivial
  | ack msgId => exact trivial
  | idle => exact trivial

variable (cfg) in
/-- The listed ids are those of stored messages. -/
theorem known_after (as : List (QueueAction ν)) {id : String} (h : id ∈ (after cfg as).pendingQueue) :
    id ∈ (after cfg as).messages.keys := by
  induction as using List.reverseRecOn with
  | nil => cases h
  | append_singleton as a ih =>
    rw [after_concat] at h ⊢
    rcases step_cases cfg (after cfg as) a with ⟨msg, hq, -⟩ | ⟨now, -, hq⟩ | ⟨msgId, -, hq⟩ | hq
    · rw [hq] at h ⊢
      have hlisted : id ∈ (after cfg as).pendingQueue ++ [msg.msgId] := h
      refine Dict.mem_keys_set.2 ?_
      rcases List.mem_append.1 hlisted with hold | hnew
      · exact Or.inr (ih hold)
      · exact Or.inl (List.mem_singleton.1 hnew)
    · rw [hq] at h ⊢
      rw [pendingQueue_handleQueueDequeue] at h
      exact mem_keys_handleQueueDequeue.2 (ih (List.mem_of_mem_tail h))
    · rw [hq] at h ⊢
      rw [pendingQueue_handleQueueAck] at h
      exact mem_keys_handleQueueAck.2 (ih h)
    · rw [hq] at h ⊢
      exact ih h

variable (cfg) in
/-- Every stored message that has not been acknowledged can still be delivered. -/
def AllDeliverable (q : Queue ν) : Prop := ∀ id ∈ q.messages.keys, id ∉ q.acked → Deliverable cfg q id

private theorem allDeliverable_iff (hq : q.Keyed) : AllDeliverable cfg q ↔ q.AllListed := by
  constructor
  · intro h id hid hacked
    exact (deliverable_iff hq hid).1 (h id hid hacked)
  · intro h id hid hacked
    exact (deliverable_iff hq hid).2 (h id hid hacked)

variable (cfg) in
/-- Every unacknowledged message can still be delivered in every state of a run just if no dequeue of the run takes
the last entry of a message that has not been acknowledged. -/
theorem unacknowledged_deliverable_iff (as : List (QueueAction ν)) :
    (∀ pre, pre <+: as → AllDeliverable cfg (after cfg pre)) ↔
      ∀ pre a, pre ++ [a] <+: as → (after cfg pre).Spares a := by
  constructor
  · intro h pre a hpre
    have hlisted := (allDeliverable_iff (keyed_after cfg _)).1 (h _ hpre)
    rw [after_concat] at hlisted
    exact spares_of_allListed (fun id => known_after cfg pre) hlisted
  · intro h pre hpre
    refine (allDeliverable_iff (keyed_after cfg pre)).2 ?_
    induction pre using List.reverseRecOn with
    | nil =>
      intro id hid
      cases hid
    | append_singleton pre a ih =>
      rw [after_concat]
      exact (ih ((List.prefix_append pre [a]).trans hpre)).step (h pre a hpre)

/-- The consumer that has dequeued the only message stops before it acknowledges. -/
theorem unacknowledged_lost : ¬∀ (cfg : Config) (as : List (QueueAction Int)), AllDeliverable cfg (after cfg as) := by
  intro h
  have hall := h ⟨"a", [], 2, String.length⟩ [.enqueue "m" 1 .null "k", .dequeue 2]
  have hlisted := (allDeliverable_iff (keyed_after _ _)).1 hall "m" (by decide) (by decide)
  exact absurd hlisted (by decide)

end Queue

end DistributedNode

end DistributedSync
