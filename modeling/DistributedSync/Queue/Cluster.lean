import DistributedSync.Queue.Redelivery

/-!
# A cluster of queue nodes

A node that has enqueued a message sends copies of it to the first of its peers, with the state that the message has
by then; a receiving node stores a copy and, when it is pending, puts it into its own `pending_queue`.  The sender
repeats a copy when no reply comes.

Without faults no message is delivered twice as long as no copy arrives in the state `pending`
(`delivered_at_most_once`).  Otherwise each node that got one delivers the message on its own.
-/

namespace DistributedSync

namespace QueueCluster

open QueueNode (Event)

variable {ν : Type}

/-- A copy of a message on its way to a node. -/
structure Packet (ν : Type) where
  target : String
  data : MessageDict ν

/-- The nodes, the enqueued messages whose copies have not been made yet (node and id), the copies in flight, the
messages enqueued so far with the nodes that took them, and the answers given so far. -/
structure State (ν : Type) where
  node : String → QueueNode ν := fun _ => {}
  unsent : List (String × String) := []
  network : List (Packet ν) := []
  enqueued : List (String × QueueMessage ν) := []
  log : List Event := []

/-- The ids drawn so far. -/
def State.ids (s : State ν) : List String := s.enqueued.map fun e => e.2.msgId

/-- What happens in a cluster.  A copy is received once more when its sender will repeat it (`again`), and `act` is
an action of a node that concerns no other one. -/
inductive Action (ν : Type) where
  | enqueue (a uuid : String) (now : ν) (payload : Json ν) (partitionKey : String)
  | sendCopies (a msgId : String)
  | receive (i : Nat) (again : Bool) (uuid : String) (now : ν)
  | act (a : String) (action : QueueNode.Action ν)

/-- The copies of a message of the node `a`. -/
def copies (config : String → QueueConfig ν) (s : State ν) (a msgId : String) : List (Packet ν) :=
  match (s.node a).messages.get? msgId with
  | none => []
  | some msg => (config a).copyTargets.map fun b => ⟨b, msg.toDict⟩

/-- The steps of a cluster.  A drawn id is new and not empty. -/
def step [Number ν] [Sub ν] (config : String → QueueConfig ν) (s : State ν) : Action ν → Option (State ν)
  | .enqueue a uuid now payload partitionKey =>
    if uuid = "" ∨ uuid ∈ s.ids then none
    else some { s with
      node := Function.update s.node a
        (QueueNode.handleEnqueue (config a) (s.node a) uuid now payload partitionKey)
      unsent := s.unsent ++ [(a, uuid)]
      enqueued := s.enqueued ++ [(a, QueueNode.newMessage (config a) uuid now payload partitionKey)] }
  | .sendCopies a msgId =>
    if (a, msgId) ∈ s.unsent then
      some { s with unsent := s.unsent.erase (a, msgId), network := s.network ++ copies config s a msgId }
    else none
  | .receive i again uuid now =>
    s.network[i]?.map fun p => { s with
      node := Function.update s.node p.target ((s.node p.target).replicateEnqueue uuid now p.data)
      network := if again then s.network else s.network.eraseIdx i }
  | .act a action =>
    if QueueNode.isOwn action then
      (QueueNode.step (config a) (s.node a) action).map fun n => { s with
        node := Function.update s.node a n
        log := s.log ++ (s.node a).answers action }
    else none

/-- The message of an element of a snapshot. -/
def current (n : QueueNode ν) : Snapshot ν → Option (QueueMessage ν)
  | .stored id => n.messages.get? id
  | .detached msg => some msg

/-- The ids in the queues are those of enqueued messages that have not been delivered, each in one place. -/
structure Single (s : State ν) : Prop where
  keyed : ∀ a, (s.node a).Keyed
  nodup : ∀ a, (s.node a).pendingQueue.Nodup
  apart : ∀ a b id, id ∈ (s.node a).pendingQueue → id ∈ (s.node b).pendingQueue → a = b
  issued : ∀ a, ∀ id ∈ (s.node a).pendingQueue, id ∈ s.ids
  logged : ∀ id, .delivered id ∈ s.log → id ∈ s.ids
  fresh : ∀ a, ∀ id ∈ (s.node a).pendingQueue, .delivered id ∉ s.log
  once : ∀ id, s.log.count (.delivered id) ≤ 1

/-! ### Ids in one queue -/

variable {s s' : State ν}

theorem Single.empty : Single ({} : State ν) where
  keyed a id msg h := by cases h
  nodup a := List.nodup_nil
  apart a b id h := by cases h
  issued a id h := by cases h
  logged id h := by cases h
  fresh a id h := by cases h
  once id := Nat.zero_le 1

/-- What holds of all nodes holds of them after one has been replaced by a node of which it holds. -/
theorem forall_update {β : Type} {P : β → Prop} {f : String → β} (h : ∀ b, P (f b)) (a : String) {n : β} (hn : P n)
    (b : String) : P (Function.update f a n b) :=
  (Function.forall_update_iff f fun _ n => P n).2 ⟨hn, fun b _ => h b⟩ b

private theorem pendingQueue_update {f : String → QueueNode ν} {a : String} {n : QueueNode ν}
    (h : n.pendingQueue = (f a).pendingQueue) (b : String) :
    (Function.update f a n b).pendingQueue = (f b).pendingQueue :=
  (Function.forall_update_iff f fun b n => n.pendingQueue = (f b).pendingQueue).2 ⟨h, fun _ _ => rfl⟩ b

/-- The queues and the deliveries stay as they are. -/
theorem Single.same (h : Single s) (hkeyed : ∀ a, (s'.node a).Keyed)
    (hqueue : ∀ a, (s'.node a).pendingQueue = (s.node a).pendingQueue) (hids : s'.ids = s.ids)
    (hlog : ∀ id, s'.log.count (.delivered id) = s.log.count (.delivered id)) : Single s' := by
  have hmem : ∀ id, .delivered id ∈ s'.log ↔ .delivered id ∈ s.log := by
    intro id
    rw [← List.count_pos_iff, ← List.count_pos_iff, hlog]
  refine ⟨hkeyed, fun a => ?_, fun a b id ha hb => ?_, fun a id hq => ?_, fun id hd => ?_, fun a id hq => ?_,
    fun id => ?_⟩
  · rw [hqueue]
    exact h.nodup a
  · rw [hqueue] at ha hb
    exact h.apart a b id ha hb
  · rw [hqueue] at hq
    rw [hids]
    exact h.issued a id hq
  · rw [hids]
    exact h.logged id ((hmem id).1 hd)
  · rw [hqueue] at hq
    rw [hmem]
    exact h.fresh a id hq
  · rw [hlog]
    exact h.once id

/-- The head of a queue is taken out, and delivered or not. -/
theorem Single.pop (h : Single s) {a id : String} {n : QueueNode ν} {answers : List Event} (hkeyed : n.Keyed)
    (hqueue : (s.node a).pendingQueue = id :: n.pendingQueue) (hanswers : answers = [] ∨ answers = [.delivered id]) :
    Single { s with node := Function.update s.node a n, log := s.log ++ answers } := by
  have hnodup := h.nodup a
  rw [hqueue] at hnodup
  obtain ⟨hout, hrest⟩ := List.nodup_cons.1 hnodup
  have hhead : id ∈ (s.node a).pendingQueue := by
    rw [hqueue]
    exact List.mem_cons_self
  -- the id is in no queue any more
  have hsub : ∀ b id', id' ∈ (Function.update s.node a n b).pendingQueue →
      id' ∈ (s.node b).pendingQueue ∧ id' ≠ id := by
    intro b id' hq
    by_cases hb : b = a
    · subst hb
      rw [Function.update_self] at hq
      refine ⟨?_, fun heq => hout (heq ▸ hq)⟩
      rw [hqueue]
      exact List.mem_cons_of_mem _ hq
    · rw [Function.update_of_ne hb] at hq
      refine ⟨hq, ?_⟩
      rintro rfl
      exact hb (h.apart b a _ hq hhead)
  have hmem : ∀ id', .delivered id' ∈ s.log ++ answers → .delivered id' ∈ s.log ∨ id' = id := by
    intro id' hd
    rcases List.mem_append.1 hd with hd | hd
    · exact Or.inl hd
    · rcases hanswers with rfl | rfl
      · cases hd
      · rw [List.mem_singleton, Event.delivered.injEq] at hd
        exact Or.inr hd
  refine ⟨fun b => ?_, fun b => ?_, fun b c id' hb hc => ?_, fun b id' hq => ?_, fun id' hd => ?_,
    fun b id' hq hd => ?_, fun id' => ?_⟩
  · exact forall_update h.keyed a hkeyed b
  · exact forall_update (P := fun n : QueueNode ν => n.pendingQueue.Nodup) h.nodup a hrest b
  · exact h.apart b c id' (hsub b id' hb).1 (hsub c id' hc).1
  · exact h.issued b id' (hsub b id' hq).1
  · rcases hmem id' hd with hd | rfl
    · exact h.logged id' hd
    · exact h.issued a _ hhead
  · obtain ⟨hq, hne⟩ := hsub b id' hq
    exact h.fresh b id' hq ((hmem id' hd).resolve_right hne)
  · rw [List.count_append]
    rcases hanswers with rfl | rfl
    · exact h.once id'
    · by_cases hid : id' = id
      · subst hid
        have hnone : s.log.count (.delivered id') = 0 := List.count_eq_zero.2 (h.fresh a id' hhead)
        rw [hnone, List.count_singleton_self]
      · have hother : [Event.delivered id].count (.delivered id') = 0 := by
          rw [List.count_eq_zero, List.mem_singleton, Event.delivered.injEq]
          exact hid
        rw [hother]
        exact h.once id'

/-! ### Deliveries -/

variable [Number ν] {config : String → QueueConfig ν}

/-- The copy that arrives, if any, is not pending. -/
def NoPendingCopy (s : State ν) : Action ν → Prop
  | .receive i _ uuid now => ∀ p ∈ s.network[i]?, ∀ msg ∈ (QueueMessage.fromDict uuid now p.data).toOption,
      msg.state ≠ .pending
  | _ => True

instance (s : State ν) : (a : Action ν) → Decidable (NoPendingCopy s a)
  | .receive i _ uuid now => inferInstanceAs (Decidable (∀ p ∈ s.network[i]?,
      ∀ msg ∈ (QueueMessage.fromDict uuid now p.data).toOption, msg.state ≠ .pending))
  | .act .. => isTrue trivial
  | .enqueue .. => isTrue trivial
  | .sendCopies .. => isTrue trivial

/-- A message with a new id goes to the end of a queue. -/
theorem Single.enqueue (h : Single s) (a : String) {uuid : String} (hnew : uuid ∉ s.ids) (now : ν) (payload : Json ν)
    (partitionKey : String) :
    Single { s with
      node := Function.update s.node a (QueueNode.handleEnqueue (config a) (s.node a) uuid now payload partitionKey)
      unsent := s.unsent ++ [(a, uuid)]
      enqueued := s.enqueued ++ [(a, QueueNode.newMessage (config a) uuid now payload partitionKey)] } := by
  have hout : ∀ b, uuid ∉ (s.node b).pendingQueue := fun b hq => hnew (h.issued b uuid hq)
  have hcases : ∀ b id, id ∈ (Function.update s.node a
      (QueueNode.handleEnqueue (config a) (s.node a) uuid now payload partitionKey) b).pendingQueue →
      id ∈ (s.node b).pendingQueue ∨ (id = uuid ∧ b = a) := by
    intro b id hq
    by_cases hb : b = a
    · subst hb
      rw [Function.update_self] at hq
      rcases List.mem_append.1 hq with hq | hq
      · exact Or.inl hq
      · exact Or.inr ⟨List.mem_singleton.1 hq, rfl⟩
    · rw [Function.update_of_ne hb] at hq
      exact Or.inl hq
  have hids : ∀ id, id ∈ s.ids → id ∈ (s.enqueued ++
      [(a, QueueNode.newMessage (config a) uuid now payload partitionKey)]).map fun e => e.2.msgId := by
    intro id hid
    rw [List.map_append]
    exact List.mem_append_left _ hid
  refine ⟨fun b => ?_, fun b => ?_, fun b c id hb hc => ?_, fun b id hq => ?_, fun id hd => ?_, fun b id hq hd => ?_,
    h.once⟩
  · exact forall_update h.keyed a ((h.keyed a).set rfl rfl) b
  · refine forall_update (P := fun n : QueueNode ν => n.pendingQueue.Nodup) h.nodup a ?_ b
    refine List.nodup_append.2 ⟨h.nodup a, List.nodup_singleton _, fun x hx y hy => ?_⟩
    rw [List.mem_singleton.1 hy]
    rintro rfl
    exact hout a hx
  · rcases hcases b id hb with hold | ⟨rfl, rfl⟩
    · rcases hcases c id hc with hold' | ⟨rfl, rfl⟩
      · exact h.apart b c id hold hold'
      · exact absurd hold (hout b)
    · rcases hcases c id hc with hold' | ⟨-, rfl⟩
      · exact absurd hold' (hout c)
      · rfl
  · rcases hcases b id hq with hq | ⟨rfl, -⟩
    · exact hids id (h.issued b id hq)
    · rw [State.ids, List.map_append]
      exact List.mem_append_right _ (List.mem_singleton_self _)
  · exact hids id (h.logged id hd)
  · rcases hcases b id hq with hq | ⟨rfl, -⟩
    · exact h.fresh b id hq hd
    · exact hnew (h.logged id hd)

/-- A copy that is not pending is stored, and nothing else. -/
theorem replicateEnqueue_pendingQueue {n : QueueNode ν} {uuid : String} {now : ν} {d : MessageDict ν}
    (h : ∀ msg ∈ (QueueMessage.fromDict uuid now d).toOption, msg.state ≠ .pending) :
    (n.replicateEnqueue uuid now d).pendingQueue = n.pendingQueue := by
  rw [QueueNode.replicateEnqueue]
  cases hd : QueueMessage.fromDict uuid now d with
  | error e => rfl
  | ok msg =>
    rw [hd] at h
    simp only [if_neg (h msg rfl)]
    rfl

variable [Sub ν]

/-- What a step did, and what it found. -/
theorem step_cases {s s' : State ν} {a : Action ν} (hstep : step config s a = some s') :
    (∃ b uuid now payload partitionKey, a = .enqueue b uuid now payload partitionKey ∧ uuid ≠ "" ∧ uuid ∉ s.ids ∧
      s' = { s with
        node := Function.update s.node b (QueueNode.handleEnqueue (config b) (s.node b) uuid now payload partitionKey)
        unsent := s.unsent ++ [(b, uuid)]
        enqueued := s.enqueued ++ [(b, QueueNode.newMessage (config b) uuid now payload partitionKey)] }) ∨
    (∃ b msgId, a = .sendCopies b msgId ∧ (b, msgId) ∈ s.unsent ∧
      s' = { s with
        unsent := s.unsent.erase (b, msgId)
        network := s.network ++ copies config s b msgId }) ∨
    (∃ i again uuid now p, a = .receive i again uuid now ∧ s.network[i]? = some p ∧
      s' = { s with
        node := Function.update s.node p.target ((s.node p.target).replicateEnqueue uuid now p.data)
        network := if again then s.network else s.network.eraseIdx i }) ∨
    ∃ b action n, a = .act b action ∧ QueueNode.isOwn action ∧ QueueNode.step (config b) (s.node b) action = some n ∧
      s' = { s with
        node := Function.update s.node b n
        log := s.log ++ (s.node b).answers action } := by
  cases a with
  | enqueue b uuid now payload partitionKey =>
    left
    rw [step] at hstep
    by_cases hused : uuid = "" ∨ uuid ∈ s.ids
    · rw [if_pos hused] at hstep
      cases hstep
    · rw [if_neg hused, Option.some.injEq] at hstep
      exact ⟨b, uuid, now, payload, partitionKey, rfl, fun he => hused (Or.inl he), fun hid => hused (Or.inr hid),
        hstep.symm⟩
  | sendCopies b msgId =>
    right; left
    rw [step] at hstep
    by_cases hunsent : (b, msgId) ∈ s.unsent
    · rw [if_pos hunsent, Option.some.injEq] at hstep
      exact ⟨b, msgId, rfl, hunsent, hstep.symm⟩
    · rw [if_neg hunsent] at hstep
      cases hstep
  | receive i again uuid now =>
    right; right; left
    obtain ⟨p, hp, rfl⟩ := Option.map_eq_some_iff.1 hstep
    exact ⟨i, again, uuid, now, p, rfl, hp, rfl⟩
  | act b action =>
    right; right; right
    rw [step] at hstep
    by_cases hown : QueueNode.isOwn action
    · rw [if_pos hown] at hstep
      obtain ⟨n, hn, rfl⟩ := Option.map_eq_some_iff.1 hstep
      exact ⟨b, action, n, rfl, hown, hn, rfl⟩
    · rw [if_neg hown] at hstep
      cases hstep

/-- The message of the next check has not timed out. -/
def NoTimeout (cfg : QueueConfig ν) (n : QueueNode ν) : Prop :=
  ∀ p ∈ n.pass, ∀ e ∈ p.rest.head?, ∀ msg ∈ current n e, ¬msg.timedOut p.now cfg.processingTimeout

instance (cfg : QueueConfig ν) (n : QueueNode ν) : Decidable (NoTimeout cfg n) :=
  inferInstanceAs (Decidable (∀ p ∈ n.pass, ∀ e ∈ p.rest.head?, ∀ msg ∈ current n e, _))

variable (config) in
/-- No copy is repeated, and no processing timeout elapses. -/
def FaultFree (s : State ν) : Action ν → Prop
  | .receive _ again _ _ => again = false
  | .act a .checkNext => NoTimeout (config a) (s.node a)
  | _ => True

variable (config) in
instance (s : State ν) : (a : Action ν) → Decidable (FaultFree config s a)
  | .receive _ again _ _ => inferInstanceAs (Decidable (again = false))
  | .act a .checkNext => inferInstanceAs (Decidable (NoTimeout (config a) (s.node a)))
  | .act _ (.enqueue ..) => isTrue trivial
  | .act _ (.replicate ..) => isTrue trivial
  | .act _ (.dequeue _) => isTrue trivial
  | .act _ (.ack _) => isTrue trivial
  | .act _ (.startPass _) => isTrue trivial
  | .enqueue .. => isTrue trivial
  | .sendCopies .. => isTrue trivial

/-- The own actions of a node change the queue by at most a delivery, unless a message times out. -/
theorem own_action {cfg : QueueConfig ν} {n n' : QueueNode ν} {action : QueueNode.Action ν} (hn : n.Keyed)
    (hown : QueueNode.isOwn action) (hno : action = .checkNext → NoTimeout cfg n)
    (hstep : QueueNode.step cfg n action = some n') :
    (n'.pendingQueue = n.pendingQueue ∧ ∀ id, .delivered id ∉ n.answers action) ∨
      ∃ id, n.pendingQueue = id :: n'.pendingQueue ∧
        (n.answers action = [] ∨ n.answers action = [.delivered id]) := by
  cases action with
  | enqueue => cases hown
  | replicate => cases hown
  | dequeue now =>
    obtain rfl : n.handleDequeue now = n' := Option.some.inj hstep
    rw [QueueNode.handleDequeue, QueueNode.answers, MessageStore.dequeue]
    cases hq : n.pendingQueue with
    | nil => exact Or.inl ⟨hq, fun id => List.not_mem_nil⟩
    | cons id rest =>
      right
      simp only
      cases hm : n.messages.get? id with
      | none => exact ⟨id, rfl, Or.inl rfl⟩
      | some msg =>
        refine ⟨id, rfl, Or.inr ?_⟩
        have hkey : msg.msgId = id := hn id msg hm
        simp only [Option.map_some, hkey]
        rfl
  | ack msgId =>
    obtain rfl : n.handleAck msgId = n' := Option.some.inj hstep
    left
    rw [QueueNode.handleAck, QueueNode.answers, MessageStore.ack]
    cases n.messages.get? msgId with
    | none => exact ⟨rfl, fun id => List.not_mem_nil⟩
    | some msg =>
      refine ⟨rfl, fun id hd => ?_⟩
      cases List.mem_singleton.1 hd
  | startPass now =>
    obtain ⟨-, rfl⟩ : n.pass = none ∧ n.startPass now = n' := by simpa [QueueNode.step] using hstep
    exact Or.inl ⟨rfl, fun id => List.not_mem_nil⟩
  | checkNext =>
    obtain ⟨p, hp, rfl⟩ := Option.map_eq_some_iff.1 hstep
    refine Or.inl ⟨?_, fun id => List.not_mem_nil⟩
    -- without a timeout the check leaves the message as it is
    rw [QueueNode.checkNext]
    have hkeep := hno rfl p hp
    cases hrest : p.rest with
    | nil => rfl
    | cons e rest =>
      rw [hrest] at hkeep
      have hmsg := hkeep e rfl
      cases e with
      | stored id =>
        simp only [QueueNode.check]
        cases hm : n.messages.get? id with
        | none => rfl
        | some msg =>
          simp only [if_neg (hmsg msg hm)]
      | detached msg =>
        simp only [QueueNode.check]
        rw [if_neg fun h => hmsg msg rfl h.1]

theorem Single.step (h : Single s) {a : Action ν} (hfault : FaultFree config s a) (hcopy : NoPendingCopy s a)
    (hstep : QueueCluster.step config s a = some s') : Single s' := by
  rcases step_cases hstep with ⟨a, uuid, now, payload, partitionKey, rfl, -, hnew, rfl⟩ | ⟨a, msgId, rfl, -, rfl⟩ |
    ⟨i, again, uuid, now, p, rfl, hp, rfl⟩ | ⟨a, action, n, rfl, hown, hn, rfl⟩
  · exact h.enqueue a hnew now payload partitionKey
  · exact h.same h.keyed (fun _ => rfl) rfl fun _ => rfl
  · have hqueue := replicateEnqueue_pendingQueue (n := s.node p.target) (hcopy p hp)
    refine h.same (fun b => ?_) (fun b => ?_) rfl fun _ => rfl
    · refine forall_update h.keyed p.target ?_ b
      rcases (s.node p.target).replicateEnqueue_messages uuid now p.data with hsame | ⟨msg, hset⟩
      · intro id msg hm
        rw [hsame] at hm
        exact h.keyed p.target id msg hm
      · exact (h.keyed p.target).set hset rfl
    · exact pendingQueue_update hqueue b
  · have hno : action = .checkNext → NoTimeout (config a) (s.node a) := by
      rintro rfl
      exact hfault
    have hkeyed := (h.keyed a).step hn
    rcases own_action (h.keyed a) hown hno hn with ⟨hqueue, hsilent⟩ | ⟨id, hqueue, hanswers⟩
    · refine h.same (fun b => ?_) (fun b => ?_) rfl fun id => ?_
      · exact forall_update h.keyed a hkeyed b
      · exact pendingQueue_update hqueue b
      · rw [List.count_append, List.count_eq_zero.2 (hsilent id), Nat.add_zero]
    · exact h.pop hkeyed hqueue hanswers

/-- Without faults, and with no pending copies, each message is delivered at most once by all the nodes together. -/
theorem delivered_at_most_once
    (h : Transition.ReachWhile (fun s a s' => QueueCluster.step config s a = some s')
      (fun s a => FaultFree config s a ∧ NoPendingCopy s a) {} s) (id : String) :
    s.log.count (.delivered id) ≤ 1 := by
  have hsingle : Single s := h.invariant .empty fun s a s' _ hs ha hstep => hs.step ha.1 ha.2 hstep
  exact hsingle.once id

/-- The nodes of `clusterNodes`, which all know each other. -/
def nodesOf (clusterNodes : List String) (replicationFactor : Int) (hash : String → Nat) (a : String) :
    QueueConfig Int where
  nodeId := a
  peers := getPeerNodes clusterNodes a
  replicationFactor := replicationFactor
  processingTimeout := 30
  hash := hash

/-- The message is delivered before its copy is made. -/
theorem delivered_at_most_once_run : ∃ s : State Int, s.log = [.delivered "m", .acknowledged "m"] ∧
    ((s.node "b").messages.get? "m").isSome ∧
    Transition.ReachWhile (fun s a s' => QueueCluster.step (nodesOf ["a", "b"] 2 String.length) s a = some s')
      (fun s a => FaultFree (nodesOf ["a", "b"] 2 String.length) s a ∧ NoPendingCopy s a) {} s ∧
    s.log.count (.delivered "m") ≤ 1 := by
  have hrun : (Transition.runWhile (QueueCluster.step (nodesOf ["a", "b"] 2 String.length))
      (fun s a => FaultFree (nodesOf ["a", "b"] 2 String.length) s a ∧ NoPendingCopy s a) {} [
      .enqueue "a" "m" 1 .null "k", .act "a" (.dequeue 2), .sendCopies "a" "m", .receive 0 false "u" 3,
      .act "b" (.dequeue 4), .act "a" (.startPass 5), .act "a" .checkNext, .act "a" (.ack "m")]).map (fun s =>
      (s.log, ((s.node "b").messages.get? "m").isSome)) = some ([.delivered "m", .acknowledged "m"], true) := by
    decide
  obtain ⟨s, hs, hobs⟩ := Option.map_eq_some_iff.1 hrun
  obtain ⟨hlog, hstored⟩ := Prod.mk.inj hobs
  have hreach := (Transition.ReachWhile.of_runWhile .refl hs).1
  exact ⟨s, hlog, hstored, hreach, delivered_at_most_once hreach "m"⟩

/-- A pending copy is delivered by the node that got it. -/
theorem delivered_twice : ¬∀ s : State Int,
    Transition.ReachWhile (fun s a s' => QueueCluster.step (nodesOf ["a", "b"] 2 String.length) s a = some s')
      (FaultFree (nodesOf ["a", "b"] 2 String.length)) {} s → ∀ id, s.log.count (.delivered id) ≤ 1 := by
  intro hall
  have hrun : (Transition.runWhile (QueueCluster.step (nodesOf ["a", "b"] 2 String.length))
      (FaultFree (nodesOf ["a", "b"] 2 String.length)) {} [
      .enqueue "a" "m" 1 .null "k", .sendCopies "a" "m", .receive 0 false "u" 2, .act "a" (.dequeue 3),
      .act "b" (.dequeue 3)]).map (fun s => s.log) = some [.delivered "m", .delivered "m"] := by decide
  obtain ⟨s, hs, hlog⟩ := Option.map_eq_some_iff.1 hrun
  have honce := hall s (Transition.ReachWhile.of_runWhile .refl hs).1 "m"
  rw [hlog] at honce
  exact absurd honce (by decide)

end QueueCluster

end DistributedSync
