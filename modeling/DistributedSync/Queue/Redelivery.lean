import DistributedSync.Queue.Invariant

/-!
# Late acknowledgements and retransmitted copies

An acknowledgement completes a message but leaves `pending_queue` alone.  A message whose id is not in the queue
then stays completed and is never delivered again (`acknowledged_not_delivered`); one that has gone back to the
queue after a timeout is, acknowledged or not.

A copy of an enqueued message that arrives again replaces the message and, when it is pending, queues it once more
(`further_copy_ignored_iff`).
-/

namespace DistributedSync

namespace QueueNode

/-! ### Acknowledged messages -/

/-- The answers that tell of a message. -/
inductive Event where
  | delivered (msgId : String)
  | acknowledged (msgId : String)
  deriving DecidableEq

section

variable {ν : Type}

/-- The answer of a handler, if it tells of a message. -/
def answers (s : QueueNode ν) : Action ν → List Event
  | .dequeue now => ((s.dequeue now).2.map fun msg => Event.delivered msg.msgId).toList
  | .ack msgId => if (s.ack msgId).2 then [.acknowledged msgId] else []
  | _ => []

/-- A node with the answers it has given so far. -/
structure Logged (ν : Type) where
  node : QueueNode ν := {}
  log : List Event := []

/-- The message is completed and not queued. -/
def Done (s : QueueNode ν) (id : String) : Prop :=
  id ∉ s.pendingQueue ∧ ∃ msg, s.messages.get? id = some msg ∧ msg.state = .completed

theorem Done.mem_keys {s : QueueNode ν} {id : String} (h : s.Done id) : id ∈ s.messages.keys := by
  obtain ⟨-, msg, hm, -⟩ := h
  exact Dict.mem_keys.2 ⟨msg, hm⟩

/-- What happens to another message does not matter. -/
theorem Done.of_other {s s' : QueueNode ν} {id id' : String} {msg : QueueMessage ν} (h : s.Done id) (hne : id ≠ id')
    (hmessages : s'.messages = s.messages.set id' msg) (hqueue : id ∈ s'.pendingQueue → id ∈ s.pendingQueue) :
    s'.Done id := by
  obtain ⟨hout, msg₀, hm, hstate⟩ := h
  refine ⟨fun hq => hout (hqueue hq), msg₀, ?_, hstate⟩
  rw [hmessages, Dict.get?_set_of_ne _ _ hne]
  exact hm

/-- A dequeue delivers the head of the queue. -/
theorem Done.dequeue {s : QueueNode ν} {id : String} (h : s.Done id) (hs : s.Consistent) (now : ν) :
    (s.handleDequeue now).Done id ∧ .delivered id ∉ s.answers (.dequeue now) := by
  rw [handleDequeue, answers, MessageStore.dequeue]
  cases hq : s.pendingQueue with
  | nil => exact ⟨h, List.not_mem_nil⟩
  | cons head rest =>
    have hne : id ≠ head := by
      rintro rfl
      rw [Done, hq] at h
      exact h.1 List.mem_cons_self
    have hmem : head ∈ s.pendingQueue := by
      rw [hq]
      exact List.mem_cons_self
    obtain ⟨msg, hm⟩ := Dict.mem_keys.1 (hs.known head hmem)
    simp only [hm]
    refine ⟨h.of_other hne rfl fun hr => ?_, fun hd => ?_⟩
    · rw [hq]
      exact List.mem_cons_of_mem _ hr
    · have hid : id = msg.msgId := by simpa using hd
      exact hne (hid.trans (hs.keyed head msg hm))

theorem Done.ack {s : QueueNode ν} {id : String} (h : s.Done id) (msgId : String) : (s.handleAck msgId).Done id := by
  rw [handleAck, MessageStore.ack]
  cases hm : s.messages.get? msgId with
  | none => exact h
  | some msg =>
    by_cases hid : id = msgId
    · subst hid
      exact ⟨h.1, _, Dict.get?_set_self _ _ _, rfl⟩
    · exact h.of_other hid rfl fun hq => hq

/-- No copy of another node arrives. -/
def Local : Action ν → Prop
  | .replicate .. => False
  | _ => True

instance : (a : Action ν) → Decidable (Local a)
  | .replicate .. => isFalse id
  | .enqueue .. => isTrue trivial
  | .dequeue _ => isTrue trivial
  | .ack _ => isTrue trivial
  | .startPass _ => isTrue trivial
  | .checkNext => isTrue trivial

/-- The message that is acknowledged, if any, is not in the queue. -/
def Prompt (s : QueueNode ν) : Action ν → Prop
  | .ack msgId => msgId ∉ s.pendingQueue
  | _ => True

instance (s : QueueNode ν) : (a : Action ν) → Decidable (s.Prompt a)
  | .ack msgId => inferInstanceAs (Decidable (msgId ∉ s.pendingQueue))
  | .replicate .. => isTrue trivial
  | .enqueue .. => isTrue trivial
  | .dequeue _ => isTrue trivial
  | .startPass _ => isTrue trivial
  | .checkNext => isTrue trivial

variable [Number ν]

private theorem Local.freshCopy {s : QueueNode ν} {a : Action ν} (h : Local a) : s.FreshCopy a := by
  cases a with
  | replicate => cases h
  | _ => trivial

variable [Sub ν] (cfg : QueueConfig ν)

theorem Done.checkNext {s : QueueNode ν} {id : String} (h : s.Done id) (hs : s.Consistent) {p : Pass ν}
    (hp : s.pass = some p) : (QueueNode.checkNext cfg s p).Done id := by
  rw [QueueNode.checkNext]
  cases hrest : p.rest with
  | nil => exact h
  | cons e rest =>
    have hmem : e ∈ p.rest := by
      rw [hrest]
      exact List.mem_cons_self
    obtain ⟨id', hid', rfl⟩ := hs.snapshot p hp e hmem
    obtain ⟨msg, hm⟩ := Dict.mem_keys.1 hid'
    simp only [QueueNode.check, hm]
    by_cases hto : msg.timedOut p.now cfg.processingTimeout
    · rw [if_pos hto]
      -- a completed message does not time out
      have hne : id ≠ id' := by
        rintro rfl
        obtain ⟨-, msg₀, hm₀, hstate⟩ := h
        obtain rfl : msg = msg₀ := Option.some.inj (hm.symm.trans hm₀)
        rw [state_of_timedOut hto] at hstate
        cases hstate
      by_cases hagain : msg.retry.state = .pending
      · rw [if_pos hagain]
        refine h.of_other hne rfl fun hq => ?_
        rcases List.mem_append.1 hq with hq | hq
        · exact hq
        · exact absurd ((List.mem_singleton.1 hq).trans (hs.keyed id' msg hm)) hne
      · rw [if_neg hagain]
        exact h.of_other hne rfl fun hq => hq
    · rw [if_neg hto]
      exact h

variable {cfg}

/-- A message that is done stays so and is not delivered. -/
theorem Done.step {s s' : QueueNode ν} {a : Action ν} {id : String} (h : s.Done id) (hs : s.Consistent)
    (ha : Local a) (hstep : QueueNode.step cfg s a = some s') : s'.Done id ∧ .delivered id ∉ s.answers a := by
  cases a with
  | replicate => cases ha
  | enqueue uuid now payload partitionKey =>
    obtain ⟨hnew, rfl⟩ : uuid ∉ s.messages.keys ∧ handleEnqueue cfg s uuid now payload partitionKey = s' := by
      simpa [QueueNode.step] using hstep
    have hne : id ≠ uuid := by
      rintro rfl
      exact hnew h.mem_keys
    refine ⟨h.of_other hne rfl fun hq => ?_, List.not_mem_nil⟩
    rcases List.mem_append.1 hq with hq | hq
    · exact hq
    · exact absurd (List.mem_singleton.1 hq) hne
  | dequeue now =>
    obtain rfl : s.handleDequeue now = s' := Option.some.inj hstep
    exact h.dequeue hs now
  | ack msgId =>
    obtain rfl : s.handleAck msgId = s' := Option.some.inj hstep
    refine ⟨h.ack msgId, fun hd => ?_⟩
    rw [answers] at hd
    by_cases hk : (s.ack msgId).2
    · rw [if_pos hk] at hd
      cases List.mem_singleton.1 hd
    · rw [if_neg hk] at hd
      cases hd
  | startPass now =>
    obtain ⟨-, rfl⟩ : s.pass = none ∧ s.startPass now = s' := by simpa [QueueNode.step] using hstep
    exact ⟨h, List.not_mem_nil⟩
  | checkNext =>
    obtain ⟨p, hp, rfl⟩ := Option.map_eq_some_iff.1 hstep
    exact ⟨h.checkNext cfg hs hp, List.not_mem_nil⟩

/-- A message that is acknowledged while it is not queued is done. -/
theorem done_of_acknowledged {s s' : QueueNode ν} {a : Action ν} {id : String} (ha : s.Prompt a)
    (hack : .acknowledged id ∈ s.answers a) (hstep : QueueNode.step cfg s a = some s') : s'.Done id := by
  cases a with
  | ack msgId =>
    obtain rfl : s.handleAck msgId = s' := Option.some.inj hstep
    rw [answers, MessageStore.ack] at hack
    rw [handleAck, MessageStore.ack]
    cases hm : s.messages.get? msgId with
    | none =>
      rw [hm] at hack
      cases hack
    | some msg =>
      rw [hm] at hack
      obtain rfl : id = msgId := by simpa using hack
      exact ⟨ha, _, Dict.get?_set_self _ _ _, rfl⟩
  | dequeue now =>
    have hd := Option.mem_toList.1 hack
    obtain ⟨msg, -, hmsg⟩ := Option.map_eq_some_iff.1 hd
    cases hmsg
  | _ => cases hack

/-- The steps of a node that notes down its answers. -/
def Logged.step (cfg : QueueConfig ν) (r : Logged ν) (a : Action ν) : Option (Logged ν) :=
  (QueueNode.step cfg r.node a).map fun s => ⟨s, r.log ++ r.node.answers a⟩

/-- After an acknowledgement the message is not delivered any more. -/
def Logged.InOrder (r : Logged ν) : Prop :=
  r.log.Pairwise fun e e' => ∀ id, e = .acknowledged id → e' ≠ .delivered id

theorem Logged.settled_of_reach {r : Logged ν}
    (h : Transition.ReachWhile (fun r a r' => Logged.step cfg r a = some r')
      (fun r a => Local a ∧ r.node.Prompt a) {} r) :
    r.node.Consistent ∧ r.InOrder ∧ ∀ id, .acknowledged id ∈ r.log → r.node.Done id := by
  refine h.invariant (I := fun r => r.node.Consistent ∧ r.InOrder ∧ ∀ id, .acknowledged id ∈ r.log → r.node.Done id)
    ⟨.empty, List.Pairwise.nil, fun id hm => by cases hm⟩ ?_
  rintro r a r' - ⟨hs, horder, hdone⟩ ⟨hlocal, hprompt⟩ hstep
  obtain ⟨s', hs', rfl⟩ := Option.map_eq_some_iff.1 hstep
  refine ⟨hs.step cfg hlocal.freshCopy hs', ?_, fun id hm => ?_⟩
  · refine List.pairwise_append.2 ⟨horder, ?_, fun e he e' he' id hack hd => ?_⟩
    · -- a handler gives one answer
      cases a with
      | dequeue now =>
        rw [answers]
        cases (r.node.dequeue now).2 with
        | none => exact List.Pairwise.nil
        | some msg => exact List.pairwise_singleton _ _
      | ack msgId =>
        rw [answers]
        cases (r.node.ack msgId).2 with
        | false => exact List.Pairwise.nil
        | true => exact List.pairwise_singleton _ _
      | _ => exact List.Pairwise.nil
    · rw [hack] at he
      rw [hd] at he'
      exact ((hdone id he).step hs hlocal hs').2 he'
  · rcases List.mem_append.1 hm with hm | hm
    · exact ((hdone id hm).step hs hlocal hs').1
    · exact done_of_acknowledged hprompt hm hs'

/-- When acknowledgements come only for messages that are not queued, no acknowledged message is delivered. -/
theorem acknowledged_not_delivered {r : Logged ν}
    (h : Transition.ReachWhile (fun r a r' => Logged.step cfg r a = some r')
      (fun r a => Local a ∧ r.node.Prompt a) {} r) {before after : List Event} {id : String}
    (hlog : r.log = before ++ .acknowledged id :: after) : .delivered id ∉ after := by
  intro hd
  have horder := (Logged.settled_of_reach h).2.1
  rw [Logged.InOrder, hlog, List.pairwise_append, List.pairwise_cons] at horder
  exact horder.2.1.1 _ hd id rfl rfl

end

/-- A message is delivered, times out and is delivered and acknowledged at last. -/
theorem acknowledged_not_delivered_run : ∃ r : Logged Int,
    r.log = [.delivered "m", .delivered "m"] ++ .acknowledged "m" :: [.acknowledged "m"] ∧
      Transition.ReachWhile (fun r a r' => Logged.step (alone "n") r a = some r')
        (fun r a => Local a ∧ r.node.Prompt a) {} r ∧ .delivered "m" ∉ [Event.acknowledged "m"] := by
  have hrun : (Transition.runWhile (Logged.step (alone "n")) (fun r a => Local a ∧ r.node.Prompt a) {} [
      .enqueue "m" 1 .null "k", .dequeue 2, .startPass 40, .checkNext, .checkNext, .dequeue 41, .ack "m",
      .dequeue 42, .ack "m"]).map (fun r => r.log) =
      some ([.delivered "m", .delivered "m"] ++ .acknowledged "m" :: [.acknowledged "m"]) := by decide
  obtain ⟨r, hr, hlog⟩ := Option.map_eq_some_iff.1 hrun
  have hreach := (Transition.ReachWhile.of_runWhile .refl hr).1
  exact ⟨r, hlog, hreach, acknowledged_not_delivered hreach hlog⟩

/-- The acknowledgement comes after the timeout has put the message back into the queue. -/
theorem acknowledged_delivered : ¬∀ r : Logged Int,
    Transition.ReachWhile (fun r a r' => Logged.step (alone "n") r a = some r') (fun _ a => Local a) {} r →
      ∀ before after id, r.log = before ++ .acknowledged id :: after → .delivered id ∉ after := by
  intro hall
  have hrun : (Transition.runWhile (Logged.step (alone "n")) (fun _ a => Local a) {} [
      .enqueue "m" 1 .null "k", .dequeue 2, .startPass 40, .checkNext, .ack "m", .dequeue 41]).map (fun r => r.log) =
      some ([.delivered "m"] ++ .acknowledged "m" :: [.delivered "m"]) := by decide
  obtain ⟨r, hr, hlog⟩ := Option.map_eq_some_iff.1 hrun
  have hreach := (Transition.ReachWhile.of_runWhile .refl hr).1
  exact hall r hreach _ _ _ hlog (List.mem_singleton_self _)

/-! ### Copies that arrive again -/

section

variable {ν : Type} [Number ν]

/-- The message that a copy brings, if the copy is well formed, is stored. -/
theorem replicateEnqueue_toDict (s : QueueNode ν) (uuid : String) (now : ν) {m : QueueMessage ν} (hid : m.msgId ≠ "") :
    ∃ msg, (s.replicateEnqueue uuid now m.toDict).messages = s.messages.set m.msgId msg ∧
      msg.msgId = m.msgId ∧ msg.state = m.state ∧
      (s.replicateEnqueue uuid now m.toDict).pendingQueue =
        if m.state = .pending then s.pendingQueue ++ [m.msgId] else s.pendingQueue := by
  have hor : strOr m.msgId uuid = m.msgId := if_neg hid
  rw [replicateEnqueue, QueueMessage.fromDict_toDict, hor]
  by_cases hstate : m.state = .pending
  · simp only [if_pos hstate]
    exact ⟨_, rfl, rfl, rfl, rfl⟩
  · simp only [if_neg hstate]
    exact ⟨_, rfl, rfl, rfl, rfl⟩

variable [Sub ν] {cfg : QueueConfig ν}

/-- A further copy changes nothing exactly if it brings no pending message and the message has not changed since. -/
theorem further_copy_ignored_iff {s₁ s₂ s s' : QueueNode ν} {m : QueueMessage ν} (hid : m.msgId ≠ "")
    {uuid uuid' : String} {now now' : ν}
    (hfirst : QueueNode.step cfg s₁ (.replicate uuid now m.toDict) = some s₂)
    (hrun : Transition.Reach (fun s a s' => QueueNode.step cfg s a = some s') s₂ s)
    (hagain : QueueNode.step cfg s (.replicate uuid' now' m.toDict) = some s') :
    (((s'.messages.get? m.msgId).map fun msg => msg.state) = ((s.messages.get? m.msgId).map fun msg => msg.state) ∧
        s'.pendingQueue = s.pendingQueue) ↔
      m.state ≠ .pending ∧ ((s.messages.get? m.msgId).map fun msg => msg.state) = some m.state := by
  have hknown : m.msgId ∈ s.messages.keys := by
    refine hrun.invariant (I := fun s => m.msgId ∈ s.messages.keys) ?_ fun s a s' _ hs _ hstep =>
      mem_keys_of_step hstep hs
    obtain rfl : s₁.replicateEnqueue uuid now m.toDict = s₂ := Option.some.inj hfirst
    obtain ⟨msg, hmessages, -⟩ := s₁.replicateEnqueue_toDict uuid now hid
    rw [hmessages]
    exact Dict.mem_keys_set.2 (Or.inl rfl)
  obtain rfl : s.replicateEnqueue uuid' now' m.toDict = s' := Option.some.inj hagain
  obtain ⟨msg, hmessages, -, hstate, hqueue⟩ := s.replicateEnqueue_toDict uuid' now' hid
  obtain ⟨old, hold⟩ := Dict.mem_keys.1 hknown
  rw [hmessages, hqueue, Dict.get?_set_self, hold, Option.map_some, Option.map_some, hstate, eq_comm, and_comm]
  refine and_congr_left fun _ => ?_
  by_cases hpending : m.state = .pending
  · rw [if_pos hpending]
    refine iff_of_false (fun h => ?_) fun h => h hpending
    have hlen := congrArg List.length h
    rw [List.length_append, List.length_singleton] at hlen
    omega
  · rw [if_neg hpending]
    exact iff_of_true rfl hpending

end

/-- A message that was delivered at the node where it was enqueued before the copies were made. -/
private def copied : QueueMessage Int :=
  { QueueMessage.new "m" 1 .null "k" with state := .processing, processingStarted := some 2 }

private def afterFirst : QueueNode Int := ({} : QueueNode Int).replicateEnqueue "u" 3 copied.toDict

/-- The copy of a delivered message arrives twice. -/
theorem further_copy_ignored_run :
    (((afterFirst.handleDequeue 4).replicateEnqueue "v" 5 copied.toDict).messages.get? "m").map (fun msg => msg.state) =
        ((afterFirst.handleDequeue 4).messages.get? "m").map (fun msg => msg.state) ∧
      ((afterFirst.handleDequeue 4).replicateEnqueue "v" 5 copied.toDict).pendingQueue =
        (afterFirst.handleDequeue 4).pendingQueue := by
  have hrun : Transition.Reach (fun s a s' => QueueNode.step (alone "n") s a = some s') afterFirst
      (afterFirst.handleDequeue 4) := .tail .refl trivial (rfl : QueueNode.step (alone "n") _ (.dequeue 4) = _)
  have hfirst : QueueNode.step (alone "n") {} (.replicate "u" 3 copied.toDict) = some afterFirst := rfl
  have hid : copied.msgId ≠ "" := by decide
  have hstate : copied.state ≠ .pending := by decide
  have hkept : ((afterFirst.handleDequeue 4).messages.get? "m").map (fun msg => msg.state) = some .processing := by
    decide
  exact (further_copy_ignored_iff hid hfirst hrun rfl).2 ⟨hstate, hkept⟩

/-- The copy of a pending message arrives again after the message has been delivered and acknowledged. -/
theorem further_copy_not_ignored : ¬∀ (s₁ s₂ s s' : QueueNode Int) (m : QueueMessage Int), m.msgId ≠ "" →
    Transition.Reach (fun s a s' => QueueNode.step (alone "n") s a = some s') {} s₁ →
    QueueNode.step (alone "n") s₁ (.replicate "u" 3 m.toDict) = some s₂ →
    Transition.Reach (fun s a s' => QueueNode.step (alone "n") s a = some s') s₂ s →
    QueueNode.step (alone "n") s (.replicate "v" 6 m.toDict) = some s' →
      ((s'.messages.get? m.msgId).map (fun msg => msg.state) = (s.messages.get? m.msgId).map (fun msg => msg.state)) ∧
        s'.pendingQueue = s.pendingQueue := by
  intro hall
  have hrun : ((Transition.run (QueueNode.step (alone "n"))
      (({} : QueueNode Int).replicateEnqueue "u" 3 (QueueMessage.new "m" 1 .null "k").toDict)
      [.dequeue 4, .ack "m"]).map fun s => (s.pendingQueue,
        (s.replicateEnqueue "v" 6 (QueueMessage.new "m" 1 .null "k").toDict).pendingQueue)) = some ([], ["m"]) := by
    decide
  obtain ⟨s, hs, hobs⟩ := Option.map_eq_some_iff.1 hrun
  obtain ⟨hbefore, hafter⟩ := Prod.mk.inj hobs
  have hsame := (hall {} _ s _ (QueueMessage.new "m" 1 .null "k") (by decide) .refl rfl
    (Transition.reach_of_run hs) rfl).2
  rw [hafter, hbefore] at hsame
  cases hsame

end QueueNode

end DistributedSync
