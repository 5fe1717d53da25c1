import DistributedSync.Library.Clockwise
import DistributedSync.Queue.Redelivery
import DistributedSync.Queue.Unified

/-!
# Order and number of deliveries

A queue node hands out new messages in the order in which they have arrived, and leaves none out: the ids that have
arrived are the delivered ones, in the order of their first delivery, followed by the ones that wait
(`arrived_eq_delivered_append`).  A message is handed out `max_retries` times at most, and it is given up after
exactly that many (`delivered_at_most_max_retries`).

The queue of `DistributedNode` has no timeouts, and is first in, first out without any condition
(`queue_first_in_first_out`).
-/

namespace DistributedSync

namespace QueueNode

variable {ν : Type}

/-- A node with the ids that have been put into its queue as new messages, and the ids it has delivered. -/
structure Traced (ν : Type) where
  node : QueueNode ν := {}
  arrived : List String := []
  delivered : List String := []

variable (cfg : QueueConfig ν)

/-- The message that a step puts into the queue as a new one. -/
def brings [Number ν] : Action ν → Option (QueueMessage ν)
  | .enqueue uuid now payload partitionKey => some (newMessage cfg uuid now payload partitionKey)
  | .replicate uuid now d => (QueueMessage.fromDict uuid now d).toOption.filter fun msg => msg.state = .pending
  | _ => none

/-- The id of the message that the step delivers. -/
def delivers (s : QueueNode ν) : Action ν → List String
  | .dequeue now => ((s.dequeue now).2.map fun msg => msg.msgId).toList
  | _ => []

/-- The steps of a node, with the ids noted down. -/
def Traced.step [Number ν] [Sub ν] (t : Traced ν) (a : Action ν) : Option (Traced ν) :=
  (QueueNode.step cfg t.node a).map fun s =>
    ⟨s, t.arrived ++ ((brings cfg a).map fun msg => msg.msgId).toList, t.delivered ++ t.node.delivers a⟩

/-- The step changes only the messages, if anything. -/
structure Traced.Quiet (t t' : Traced ν) : Prop where
  arrived : t'.arrived = t.arrived
  delivered : t'.delivered = t.delivered

/-- What a step does to the messages, the queue and the notes. -/
inductive Traced.Turn [Number ν] (a : Action ν) (t t' : Traced ν) : Prop where
  | arrive (msg : QueueMessage ν) (hbrings : brings cfg a = some msg) (hnew : msg.msgId ∉ t.node.messages.keys)
      (hstate : msg.state = .pending) (hmessages : t'.node.messages = t.node.messages.set msg.msgId msg)
      (hqueue : t'.node.pendingQueue = t.node.pendingQueue ++ [msg.msgId])
      (harrived : t'.arrived = t.arrived ++ [msg.msgId]) (hdelivered : t'.delivered = t.delivered)
  | deliver (id : String) (msg : QueueMessage ν) (now : ν) (hm : t.node.messages.get? id = some msg)
      (hmessages : t'.node.messages =
        t.node.messages.set id { msg with state := .processing, processingStarted := some now })
      (hqueue : t.node.pendingQueue = id :: t'.node.pendingQueue)
      (harrived : t'.arrived = t.arrived) (hdelivered : t'.delivered = t.delivered ++ [id])
  | complete (id : String) (msg : QueueMessage ν) (hm : t.node.messages.get? id = some msg)
      (hmessages : t'.node.messages = t.node.messages.set id { msg with state := .completed })
      (hqueue : t'.node.pendingQueue = t.node.pendingQueue) (hquiet : t.Quiet t')
  | giveUp (id : String) (msg : QueueMessage ν) (hm : t.node.messages.get? id = some msg)
      (hstate : msg.state = .processing) (hmax : msg.maxRetries ≤ msg.retries + 1)
      (hmessages : t'.node.messages =
        t.node.messages.set id { msg with retries := msg.retries + 1, state := .deadLetter })
      (hqueue : t'.node.pendingQueue = t.node.pendingQueue) (hquiet : t.Quiet t')
  | again (id : String) (msg : QueueMessage ν) (hm : t.node.messages.get? id = some msg)
      (hstate : msg.state = .processing) (hmax : msg.retries + 1 < msg.maxRetries)
      (hmessages : t'.node.messages = t.node.messages.set id
        { msg with retries := msg.retries + 1, state := .pending, processingStarted := none })
      (hqueue : t'.node.pendingQueue = t.node.pendingQueue ++ [id]) (hquiet : t.Quiet t')
  | idle (hmessages : t'.node.messages = t.node.messages) (hqueue : t'.node.pendingQueue = t.node.pendingQueue)
      (hquiet : t.Quiet t')

variable {cfg}

private theorem Traced.Quiet.of_nil {t : Traced ν} {s : QueueNode ν} :
    t.Quiet ⟨s, t.arrived ++ [], t.delivered ++ []⟩ where
  arrived := List.append_nil _
  delivered := List.append_nil _

private theorem retry_of_le {msg : QueueMessage ν} (hmax : msg.maxRetries ≤ msg.retries + 1) :
    msg.retry = { msg with retries := msg.retries + 1, state := .deadLetter } := by
  rw [QueueMessage.retry]
  exact if_pos hmax

private theorem retry_of_lt {msg : QueueMessage ν} (hmax : msg.retries + 1 < msg.maxRetries) :
    msg.retry = { msg with retries := msg.retries + 1, state := .pending, processingStarted := none } := by
  rw [QueueMessage.retry]
  exact if_neg (Nat.not_le.2 hmax)

/-! ### Order and counts -/

/-- What holds in every state of a run. -/
structure Traced.InOrder (t : Traced ν) : Prop where
  arrived : t.arrived = t.delivered.eraseDups ++ t.node.pendingQueue.filter fun id => id ∉ t.delivered
  known : ∀ id ∈ t.delivered, id ∈ t.node.messages.keys
  taken : ∀ id msg, t.node.messages.get? id = some msg → msg.state = .processing → id ∈ t.delivered

/-- A message that is not delivered by the step is not under way after it if it was not before. -/
theorem Traced.InOrder.taken_set {t t' : Traced ν} (h : t.InOrder) {id : String} {msg : QueueMessage ν}
    (hmessages : t'.node.messages = t.node.messages.set id msg) (hstate : msg.state ≠ .processing)
    (hdelivered : t'.delivered = t.delivered) :
    ∀ id' msg', t'.node.messages.get? id' = some msg' → msg'.state = .processing → id' ∈ t'.delivered := by
  intro id' msg' hm' hstate'
  rw [hmessages, Dict.get?_set] at hm'
  rw [hdelivered]
  by_cases hid : id' = id
  · rw [if_pos hid, Option.some.injEq] at hm'
    rw [hm'] at hstate
    exact absurd hstate' hstate
  · rw [if_neg hid] at hm'
    exact h.taken id' msg' hm' hstate'

private theorem Traced.InOrder.known_set {t t' : Traced ν} (h : t.InOrder) {id : String} {msg : QueueMessage ν}
    (hmessages : t'.node.messages = t.node.messages.set id msg) (hdelivered : t'.delivered = t.delivered) :
    ∀ id' ∈ t'.delivered, id' ∈ t'.node.messages.keys := by
  intro id' hid'
  rw [hdelivered] at hid'
  rw [hmessages, Dict.mem_keys_set]
  exact Or.inr (h.known id' hid')

/-- How often a message has been delivered, by where it is. -/
structure Counted (msg : QueueMessage ν) (queued : Prop) (count : Nat) : Prop where
  queued : queued → count = msg.retries
  processing : msg.state = .processing → count = msg.retries + 1
  deadLetter : msg.state = .deadLetter → count = msg.maxRetries
  bounded : count ≤ msg.maxRetries

/-- A run has delivered only what is stored, and has counted it. -/
structure Traced.Counting (t : Traced ν) : Prop where
  known : ∀ id ∈ t.delivered, id ∈ t.node.messages.keys
  counted : ∀ id msg, t.node.messages.get? id = some msg →
    Counted msg (id ∈ t.node.pendingQueue) (t.delivered.count id)

/-- A step that replaces one message leaves the counts of the others alone. -/
theorem Traced.Counting.set {t t' : Traced ν} (h : t.Counting) {id : String} {msg : QueueMessage ν}
    (hmessages : t'.node.messages = t.node.messages.set id msg)
    (hknown : ∀ id' ∈ t'.delivered, id' ≠ id → id' ∈ t.delivered)
    (hothers : ∀ id', id' ≠ id → (id' ∈ t'.node.pendingQueue ↔ id' ∈ t.node.pendingQueue) ∧
      t'.delivered.count id' = t.delivered.count id')
    (hmsg : Counted msg (id ∈ t'.node.pendingQueue) (t'.delivered.count id)) : t'.Counting where
  known id' hid' := by
    rw [hmessages, Dict.mem_keys_set]
    by_cases hid : id' = id
    · exact Or.inl hid
    · exact Or.inr (h.known id' (hknown id' hid' hid))
  counted id' msg' hm' := by
    rw [hmessages, Dict.get?_set] at hm'
    by_cases hid : id' = id
    · rw [if_pos hid, Option.some.injEq] at hm'
      rw [← hm', hid]
      exact hmsg
    · rw [if_neg hid] at hm'
      obtain ⟨hqueue, hcount⟩ := hothers id' hid
      rw [propext hqueue, hcount]
      exact h.counted id' msg' hm'

/-! ### What a step does -/

variable [Number ν]

private theorem brings_replicate {uuid : String} {now : ν} {d : MessageDict ν} {msg : QueueMessage ν}
    (hd : QueueMessage.fromDict uuid now d = .ok msg) (hstate : msg.state = .pending) :
    brings cfg (.replicate uuid now d) = some msg := by
  simp only [brings, hd, Except.toOption, Option.filter, hstate, decide_true, if_true]

private theorem Traced.turn_dequeue {t : Traced ν} (hs : t.node.Consistent) (now : ν) :
    Turn cfg (.dequeue now) t
      ⟨t.node.handleDequeue now, t.arrived ++ [], t.delivered ++ t.node.delivers (.dequeue now)⟩ := by
  cases hq : t.node.pendingQueue with
  | nil =>
    have hsame : t.node.dequeue now = (t.node.toMessageStore, none) := by rw [MessageStore.dequeue, hq]
    rw [handleDequeue, delivers, hsame]
    exact .idle rfl rfl .of_nil
  | cons id rest =>
    have hmem : id ∈ t.node.pendingQueue := by
      rw [hq]
      exact List.mem_cons_self
    obtain ⟨msg, hm⟩ := Dict.mem_keys.1 (hs.known id hmem)
    have hstep : t.node.dequeue now = (⟨t.node.messages.set id
        { msg with state := .processing, processingStarted := some now }, rest⟩,
        some { msg with state := .processing, processingStarted := some now }) := by
      simp only [MessageStore.dequeue, hq, hm]
    rw [handleDequeue, delivers, hstep]
    have hid : msg.msgId = id := hs.keyed id msg hm
    refine .deliver id msg now hm rfl hq (List.append_nil _) ?_
    rw [Option.map_some, Option.toList_some, hid]

theorem Traced.InOrder.turn {t t' : Traced ν} {a : Action ν} (h : t.InOrder) (hs : t.node.Consistent)
    (hturn : Turn cfg a t t') : t'.InOrder := by
  cases hturn with
  | arrive msg hbrings hnew hstate hmessages hqueue harrived hdelivered =>
    have hpending : msg.state ≠ .processing := by rw [hstate]; simp
    have hfirst : msg.msgId ∉ t.delivered := fun hmem => hnew (h.known _ hmem)
    refine ⟨?_, h.known_set hmessages hdelivered, h.taken_set hmessages hpending hdelivered⟩
    rw [harrived, hdelivered, hqueue, List.filter_append, List.filter_cons_of_pos (by simpa using hfirst),
      List.filter_nil, ← List.append_assoc, ← h.arrived]
  | deliver id msg now hm hmessages hqueue harrived hdelivered =>
    have hout : id ∉ t'.node.pendingQueue := by
      have hnodup := hs.nodup
      rw [hqueue] at hnodup
      exact (List.nodup_cons.1 hnodup).1
    -- what is left of the queue does not hold the id, so the note of its delivery does not change the filter
    have hrest : (t'.node.pendingQueue.filter fun id' => id' ∉ t.delivered ++ [id]) =
        t'.node.pendingQueue.filter fun id' => id' ∉ t.delivered := by
      refine List.filter_congr fun id' hid' => ?_
      have hne : id' ≠ id := fun heq => hout (heq ▸ hid')
      simp [hne]
    have harrived₀ := h.arrived
    rw [hqueue] at harrived₀
    refine ⟨?_, fun id' hid' => ?_, fun id' msg' hm' hstate' => ?_⟩
    · rw [harrived, hdelivered, hrest, harrived₀]
      by_cases hmem : id ∈ t.delivered
      · rw [List.filter_cons_of_neg (by simpa using hmem), Clockwise.eraseDups_concat_of_mem hmem]
      · rw [List.filter_cons_of_pos (by simpa using hmem), Clockwise.eraseDups_concat_of_not_mem hmem,
          List.append_assoc, List.singleton_append]
    · rw [hmessages, Dict.mem_keys_set]
      rw [hdelivered, List.mem_append, List.mem_singleton] at hid'
      rcases hid' with hid' | rfl
      · exact Or.inr (h.known id' hid')
      · exact Or.inl rfl
    · rw [hdelivered, List.mem_append, List.mem_singleton]
      rw [hmessages, Dict.get?_set] at hm'
      by_cases hid : id' = id
      · exact Or.inr hid
      · rw [if_neg hid] at hm'
        exact Or.inl (h.taken id' msg' hm' hstate')
  | complete id msg hm hmessages hqueue hquiet =>
    have hstate : { msg with state := .completed : QueueMessage ν }.state ≠ .processing := by simp
    refine ⟨?_, h.known_set hmessages hquiet.delivered, h.taken_set hmessages hstate hquiet.delivered⟩
    rw [hquiet.arrived, hquiet.delivered, hqueue]
    exact h.arrived
  | giveUp id msg hm hstate hmax hmessages hqueue hquiet =>
    refine ⟨?_, h.known_set hmessages hquiet.delivered, h.taken_set hmessages (by simp) hquiet.delivered⟩
    rw [hquiet.arrived, hquiet.delivered, hqueue]
    exact h.arrived
  | again id msg hm hstate hmax hmessages hqueue hquiet =>
    have hdelivered : id ∈ t.delivered := h.taken id msg hm hstate
    refine ⟨?_, h.known_set hmessages hquiet.delivered, h.taken_set hmessages (by simp) hquiet.delivered⟩
    rw [hquiet.arrived, hquiet.delivered, hqueue, List.filter_append,
      List.filter_cons_of_neg (by simpa using hdelivered),
      List.filter_nil, List.append_nil]
    exact h.arrived
  | idle hmessages hqueue hquiet =>
    refine ⟨?_, fun id hid => ?_, fun id msg hm hstate => ?_⟩
    · rw [hquiet.arrived, hquiet.delivered, hqueue]
      exact h.arrived
    · rw [hquiet.delivered] at hid
      rw [hmessages]
      exact h.known id hid
    · rw [hmessages] at hm
      rw [hquiet.delivered]
      exact h.taken id msg hm hstate

variable (cfg) in
/-- A copy that arrives is one of a message that has not been tried before, as `_handle_enqueue` sends it. -/
def Untried (t : Traced ν) (a : Action ν) : Prop :=
  t.node.FreshCopy a ∧ ∀ msg ∈ brings cfg a, msg.retries = 0

instance (t : Traced ν) (a : Action ν) : Decidable (Untried cfg t a) :=
  inferInstanceAs (Decidable (t.node.FreshCopy a ∧ ∀ msg ∈ brings cfg a, msg.retries = 0))

theorem Traced.Counting.turn {t t' : Traced ν} {a : Action ν} (h : t.Counting) (hs : t.node.Consistent)
    (ha : Untried cfg t a) (hturn : Turn cfg a t t') : t'.Counting := by
  cases hturn with
  | arrive msg hbrings hnew hstate hmessages hqueue harrived hdelivered =>
    have hzero : t'.delivered.count msg.msgId = 0 := by
      rw [hdelivered]
      exact List.count_eq_zero.2 fun hmem => hnew (h.known _ hmem)
    have hretries : msg.retries = 0 := ha.2 msg hbrings
    refine h.set hmessages (fun id' hid' _ => hdelivered ▸ hid') (fun id' hid => ⟨?_, by rw [hdelivered]⟩) ?_
    · rw [hqueue, List.mem_append, List.mem_singleton]
      exact or_iff_left hid
    · rw [hzero]
      refine ⟨fun _ => hretries.symm, fun hp => ?_, fun hd => ?_, Nat.zero_le _⟩
      · rw [hstate] at hp
        cases hp
      · rw [hstate] at hd
        cases hd
  | deliver id msg now hm hmessages hqueue harrived hdelivered =>
    have hmem : id ∈ t.node.pendingQueue := by
      rw [hqueue]
      exact List.mem_cons_self
    have hout : id ∉ t'.node.pendingQueue := by
      have hnodup := hs.nodup
      rw [hqueue] at hnodup
      exact (List.nodup_cons.1 hnodup).1
    have hcount : t'.delivered.count id = msg.retries + 1 := by
      rw [hdelivered, List.count_append, List.count_singleton_self, (h.counted id msg hm).queued hmem]
    have hbound : msg.retries < msg.maxRetries := (hs.sound id msg hm).bounded (Or.inl hmem)
    refine h.set hmessages (fun id' hid' hne => ?_) (fun id' hne => ⟨?_, ?_⟩) ?_
    · rw [hdelivered, List.mem_append, List.mem_singleton] at hid'
      exact hid'.resolve_right hne
    · rw [hqueue, List.mem_cons]
      exact (or_iff_right hne).symm
    · rw [hdelivered, List.count_append, List.count_singleton, if_neg (by simpa using Ne.symm hne), Nat.add_zero]
    · rw [hcount]
      exact ⟨fun hq => absurd hq hout, fun _ => rfl, fun hd => (by cases hd), hbound⟩
  | complete id msg hm hmessages hqueue hquiet =>
    have hmsg := h.counted id msg hm
    refine h.set hmessages (fun id' hid' _ => hquiet.delivered ▸ hid')
      (fun id' _ => ⟨by rw [hqueue], by rw [hquiet.delivered]⟩) ?_
    rw [hqueue, hquiet.delivered]
    exact ⟨hmsg.queued, fun hp => (by cases hp), fun hd => (by cases hd), hmsg.bounded⟩
  | giveUp id msg hm hstate hmax hmessages hqueue hquiet =>
    have hmsg := h.counted id msg hm
    have hout : id ∉ t.node.pendingQueue := ((hs.sound id msg hm).processing hstate).2
    have hbound : msg.retries < msg.maxRetries := (hs.sound id msg hm).bounded (Or.inr (Or.inr hstate))
    have hcount : t.delivered.count id = msg.retries + 1 := hmsg.processing hstate
    refine h.set hmessages (fun id' hid' _ => hquiet.delivered ▸ hid')
      (fun id' _ => ⟨by rw [hqueue], by rw [hquiet.delivered]⟩) ?_
    rw [hqueue, hquiet.delivered]
    refine ⟨fun hq => absurd hq hout, fun hp => (by cases hp), fun _ => ?_, hmsg.bounded⟩
    show t.delivered.count id = msg.maxRetries
    omega
  | again id msg hm hstate hmax hmessages hqueue hquiet =>
    have hmsg := h.counted id msg hm
    refine h.set hmessages (fun id' hid' _ => hquiet.delivered ▸ hid')
      (fun id' hne => ⟨?_, by rw [hquiet.delivered]⟩) ?_
    · rw [hqueue, List.mem_append, List.mem_singleton]
      exact or_iff_left hne
    · rw [hquiet.delivered]
      exact ⟨fun _ => hmsg.processing hstate, fun hp => (by cases hp), fun hd => (by cases hd), hmsg.bounded⟩
  | idle hmessages hqueue hquiet =>
    refine ⟨fun id hid => ?_, fun id msg hm => ?_⟩
    · rw [hquiet.delivered] at hid
      rw [hmessages]
      exact h.known id hid
    · rw [hmessages] at hm
      rw [hqueue, hquiet.delivered]
      exact h.counted id msg hm

variable [Sub ν]

private theorem Traced.turn_checkNext {t : Traced ν} (hs : t.node.Consistent) {p : Pass ν} (hp : t.node.pass = some p) :
    Turn cfg .checkNext t ⟨QueueNode.checkNext cfg t.node p, t.arrived ++ [], t.delivered ++ []⟩ := by
  rw [QueueNode.checkNext]
  cases hrest : p.rest with
  | nil => exact .idle rfl rfl .of_nil
  | cons e rest =>
    have hmem : e ∈ p.rest := by
      rw [hrest]
      exact List.mem_cons_self
    obtain ⟨id, hid, rfl⟩ := hs.snapshot p hp e hmem
    obtain ⟨msg, hm⟩ := Dict.mem_keys.1 hid
    simp only [QueueNode.check, hm]
    by_cases hto : msg.timedOut p.now cfg.processingTimeout
    · have hstate : msg.state = .processing := state_of_timedOut hto
      rw [if_pos hto]
      rcases Nat.lt_or_ge (msg.retries + 1) msg.maxRetries with hmax | hmax
      · have hkey : [msg.msgId] = [id] := by rw [hs.keyed id msg hm]
        rw [retry_of_lt hmax, if_pos rfl]
        exact .again id msg hm hstate hmax rfl (congrArg (t.node.pendingQueue ++ ·) hkey) .of_nil
      · rw [retry_of_le hmax, if_neg (fun h => by cases h)]
        exact .giveUp id msg hm hstate hmax rfl rfl .of_nil
    · rw [if_neg hto]
      exact .idle rfl rfl .of_nil

private theorem Traced.turn_of_step {t t' : Traced ν} {a : Action ν} (hs : t.node.Consistent) (ha : t.node.FreshCopy a)
    (hstep : Traced.step cfg t a = some t') : Turn cfg a t t' := by
  obtain ⟨s', hs', rfl⟩ := Option.map_eq_some_iff.1 hstep
  cases a with
  | enqueue uuid now payload partitionKey =>
    obtain ⟨hnew, rfl⟩ : uuid ∉ t.node.messages.keys ∧ handleEnqueue cfg t.node uuid now payload partitionKey = s' := by
      simpa [QueueNode.step] using hs'
    exact .arrive _ rfl hnew rfl rfl rfl rfl (List.append_nil _)
  | replicate uuid now d =>
    obtain rfl : t.node.replicateEnqueue uuid now d = s' := Option.some.inj hs'
    cases hd : QueueMessage.fromDict uuid now d with
    | error e =>
      have hnone : brings cfg (.replicate uuid now d) = none := by
        simp only [brings, hd, Except.toOption, Option.filter_none]
      rw [replicateEnqueue, hd, hnone]
      exact .idle rfl rfl .of_nil
    | ok msg =>
      have hmsg : msg ∈ (QueueMessage.fromDict uuid now d).toOption := by
        rw [hd]
        rfl
      obtain ⟨hnew, hstate, -⟩ := ha msg hmsg
      have hbrings : brings cfg (.replicate uuid now d) = some msg := brings_replicate hd hstate
      rw [replicateEnqueue, hd, hbrings]
      simp only [if_pos hstate]
      exact .arrive msg hbrings hnew hstate rfl rfl rfl (List.append_nil _)
  | dequeue now =>
    obtain rfl : t.node.handleDequeue now = s' := Option.some.inj hs'
    exact turn_dequeue hs now
  | ack msgId =>
    obtain rfl : t.node.handleAck msgId = s' := Option.some.inj hs'
    rw [handleAck, MessageStore.ack]
    cases hm : t.node.messages.get? msgId with
    | none => exact .idle rfl rfl .of_nil
    | some msg => exact .complete msgId msg hm rfl rfl .of_nil
  | startPass now =>
    obtain ⟨-, rfl⟩ : t.node.pass = none ∧ t.node.startPass now = s' := by simpa [QueueNode.step] using hs'
    exact .idle rfl rfl .of_nil
  | checkNext =>
    obtain ⟨p, hp, rfl⟩ := Option.map_eq_some_iff.1 hs'
    exact turn_checkNext hs hp

/-! ### The order of the first deliveries -/

variable (cfg) in
/-- The traced nodes reached by steps that all meet `ok`, from an empty one. -/
abbrev Traced.ReachWhile (ok : Traced ν → Action ν → Prop) : Traced ν → Prop :=
  Transition.ReachWhile (fun t a t' => Traced.step cfg t a = some t') ok {}

theorem Traced.inOrder_of_reach {t : Traced ν} (h : ReachWhile cfg (fun t a => t.node.FreshCopy a) t) :
    t.node.Consistent ∧ t.InOrder := by
  refine h.invariant (I := fun t => t.node.Consistent ∧ t.InOrder)
    ⟨.empty, ⟨rfl, List.forall_mem_nil _, fun id msg hm => by cases hm⟩⟩ ?_
  rintro t a t' - ⟨hs, horder⟩ ha hstep
  have hturn := turn_of_step hs ha hstep
  obtain ⟨s', hs', rfl⟩ := Option.map_eq_some_iff.1 hstep
  exact ⟨hs.step cfg ha hs', horder.turn hs hturn⟩

/-- The messages that have arrived are the delivered ones, in the order of their first delivery, and after them those
that still wait for it. -/
theorem arrived_eq_delivered_append {t : Traced ν} (h : Traced.ReachWhile cfg (fun t a => t.node.FreshCopy a) t) :
    t.arrived.Nodup ∧
      t.arrived = t.delivered.eraseDups ++ t.node.pendingQueue.filter fun id => id ∉ t.delivered := by
  obtain ⟨hs, horder⟩ := Traced.inOrder_of_reach h
  refine ⟨?_, horder.arrived⟩
  rw [horder.arrived, List.nodup_append]
  refine ⟨Clockwise.nodup_eraseDups _, hs.nodup.filter _, fun id hid id' hid' => ?_⟩
  rintro rfl
  have hout : id ∉ t.delivered := by simpa using (List.mem_filter.1 hid').2
  exact hout (List.mem_eraseDups.1 hid)

/-- Three messages arrive, one as a copy, and the first one is handed out again before the last one is handed out. -/
theorem arrived_eq_delivered_append_run : ∃ t : Traced Int,
    t.delivered = ["m1", "m2", "m1"] ∧ t.node.pendingQueue = ["m3"] ∧
      t.arrived.Nodup ∧
      t.arrived = t.delivered.eraseDups ++ t.node.pendingQueue.filter fun id => id ∉ t.delivered := by
  have hrun : (Transition.runWhile (Traced.step (alone "n")) (fun t a => t.node.FreshCopy a) {} [
      .enqueue "m1" 1 .null "k", .enqueue "m2" 1 .null "k", .dequeue 2, .startPass 40, .checkNext,
      .replicate "u" 41 (QueueMessage.new "m3" 3 .null "k").toDict, .dequeue 41, .dequeue 42]).map (fun t =>
      (t.delivered, t.node.pendingQueue)) = some (["m1", "m2", "m1"], ["m3"]) := by decide
  obtain ⟨t, ht, hobs⟩ := Option.map_eq_some_iff.1 hrun
  obtain ⟨hdelivered, hqueue⟩ := Prod.mk.inj hobs
  exact ⟨t, hdelivered, hqueue, arrived_eq_delivered_append (Transition.ReachWhile.of_runWhile .refl ht).1⟩

/-! ### The number of deliveries -/

theorem Traced.counting_of_reach {t : Traced ν} (h : ReachWhile cfg (Untried cfg) t) :
    t.node.Consistent ∧ t.Counting := by
  refine h.invariant (I := fun t => t.node.Consistent ∧ t.Counting)
    ⟨.empty, ⟨List.forall_mem_nil _, fun id msg hm => by cases hm⟩⟩ ?_
  rintro t a t' - ⟨hs, hcounting⟩ ha hstep
  have hturn := turn_of_step hs ha.1 hstep
  obtain ⟨s', hs', rfl⟩ := Option.map_eq_some_iff.1 hstep
  exact ⟨hs.step cfg ha.1 hs', hcounting.turn hs ha hturn⟩

/-- A message is delivered `max_retries` times at most: once more than it has timed out when it is under way, and all
of the times when it has been given up. -/
theorem delivered_at_most_max_retries {t : Traced ν} (h : Traced.ReachWhile cfg (Untried cfg) t) {id : String}
    {msg : QueueMessage ν} (hm : t.node.messages.get? id = some msg) :
    t.delivered.count id ≤ msg.maxRetries ∧ (id ∈ t.node.pendingQueue → t.delivered.count id = msg.retries) ∧
      (msg.state = .processing → t.delivered.count id = msg.retries + 1) ∧
      (msg.state = .deadLetter → t.delivered.count id = msg.maxRetries) := by
  have hmsg := (Traced.counting_of_reach h).2.counted id msg hm
  exact ⟨hmsg.bounded, hmsg.queued, hmsg.processing, hmsg.deadLetter⟩

/-- A message times out three times and is given up. -/
theorem delivered_at_most_max_retries_run : ∃ (t : Traced Int) (msg : QueueMessage Int),
    t.node.messages.get? "m" = some msg ∧ msg.state = .deadLetter ∧ t.delivered = ["m", "m", "m"] ∧
      t.delivered.count "m" ≤ msg.maxRetries ∧ ("m" ∈ t.node.pendingQueue → t.delivered.count "m" = msg.retries) ∧
      (msg.state = .processing → t.delivered.count "m" = msg.retries + 1) ∧
      (msg.state = .deadLetter → t.delivered.count "m" = msg.maxRetries) := by
  have hrun : (Transition.runWhile (Traced.step (alone "n")) (Untried (alone "n")) {} [
      .enqueue "m" 1 .null "k", .dequeue 2, .startPass 40, .checkNext, .checkNext, .dequeue 41, .startPass 80,
      .checkNext, .checkNext, .dequeue 81, .startPass 120, .checkNext]).map (fun t =>
      ((t.node.messages.get? "m").map fun msg => msg.state, t.delivered)) =
      some (some .deadLetter, ["m", "m", "m"]) := by decide
  obtain ⟨t, ht, hobs⟩ := Option.map_eq_some_iff.1 hrun
  obtain ⟨hstate, hdelivered⟩ := Prod.mk.inj hobs
  obtain ⟨msg, hm, hdead⟩ := Option.map_eq_some_iff.1 hstate
  have hreach := (Transition.ReachWhile.of_runWhile .refl ht).1
  exact ⟨t, msg, hm, hdead, hdelivered, delivered_at_most_max_retries hreach hm⟩

end QueueNode

/-! ### The unified node -/

namespace DistributedNode.Queue

variable {ν : Type} [Number ν] (cfg : Config)

/-- The id that the step lists. -/
def lists : QueueAction ν → List String
  | .enqueue uuid _ _ _ => [uuid]
  | .replicate uuid now d => ((QueueMessage.fromDict uuid now d).toOption.map fun msg => msg.msgId).toList
  | _ => []

/-- The id of the message that the step returns. -/
def returns (q : Queue ν) : QueueAction ν → List String
  | .dequeue now => ((q.handleQueueDequeue now).2.map fun msg => msg.msgId).toList
  | _ => []

/-- The ids of the messages that the dequeues of a run return. -/
def returned : Queue ν → List (QueueAction ν) → List String
  | _, [] => []
  | q, a :: as => q.returns a ++ returned (step cfg q a) as

private theorem returned_append (q : Queue ν) (as bs : List (QueueAction ν)) :
    returned cfg q (as ++ bs) = returned cfg q as ++ returned cfg (as.foldl (step cfg) q) bs := by
  induction as generalizing q with
  | nil => rfl
  | cons a as ih => rw [List.cons_append, returned, returned, ih, List.foldl_cons, List.append_assoc]

variable {cfg}

/-- What a step lists goes to the end, and what it returns is taken from the front. -/
theorem pendingQueue_step {q : Queue ν} (hq : q.Keyed) (hknown : ∀ id ∈ q.pendingQueue, id ∈ q.messages.keys)
    (a : QueueAction ν) : q.pendingQueue ++ lists a = q.returns a ++ (step cfg q a).pendingQueue := by
  cases a with
  | enqueue uuid now payload partitionKey => rfl
  | replicate uuid now d =>
    simp only [lists, step, handleRpc, returns, List.nil_append]
    cases QueueMessage.fromDict uuid now d with
    | error e => exact List.append_nil _
    | ok msg => rfl
  | dequeue now =>
    have hqueue : (step cfg q (.dequeue now)).pendingQueue = q.pendingQueue.tail :=
      pendingQueue_handleQueueDequeue q now
    rw [hqueue]
    simp only [lists, List.append_nil, returns, handleQueueDequeue]
    cases hpending : q.pendingQueue with
    | nil =>
      have hempty : q.dequeue now = (q.toMessageStore, none) := by rw [MessageStore.dequeue, hpending]
      rw [hempty]
      rfl
    | cons id rest =>
      obtain ⟨msg, hm⟩ := Dict.mem_keys.1 (hknown id (by rw [hpending]; exact List.mem_cons_self))
      have hid : msg.msgId = id := hq id msg hm
      rw [dequeue_of_head hpending hm now, Option.map_some, Option.toList_some, hid]
      rfl
  | ack msgId =>
    simp only [lists, List.append_nil, step, pendingQueue_handleQueueAck, returns, List.nil_append]
  | idle => exact List.append_nil _

variable (cfg) in
/-- The queue of the node is first in, first out: the listed ids, copies included, come out one by one in the order in
which they were listed, whatever acknowledgements come in between. -/
theorem queue_first_in_first_out (as : List (QueueAction ν)) :
    as.flatMap lists = returned cfg {} as ++ (after cfg as).pendingQueue := by
  induction as using List.reverseRecOn with
  | nil => rfl
  | append_singleton as a ih =>
    have hstep : (after cfg as).pendingQueue ++ lists a =
        (after cfg as).returns a ++ (step cfg (after cfg as) a).pendingQueue :=
      pendingQueue_step (keyed_after cfg as) (fun id => known_after cfg as) a
    rw [List.flatMap_append, List.flatMap_singleton, ih, after_concat, returned_append, List.append_assoc, hstep,
      List.append_assoc]
    simp only [returned, List.append_nil]
    rfl

end DistributedNode.Queue

end DistributedSync
