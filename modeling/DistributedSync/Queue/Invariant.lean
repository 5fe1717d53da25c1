import DistributedSync.Queue.Node

/-!
# The invariant of the queue node

What holds of a message depends on its state and on whether its id is in `pending_queue`
(`QueueMessage.Sound`).  A late acknowledgement leaves the id of a completed message in the queue, and the next
dequeue then takes the message up again; so the bound on the retries is kept for every id in the queue, whatever
the state of its message is.
-/

namespace DistributedSync

variable {ν : Type}

/-- What holds of a message whose id is in `pending_queue`, or is not. -/
structure QueueMessage.Sound (msg : QueueMessage ν) (queued : Prop) : Prop where
  pending : msg.state = .pending → queued
  processing : msg.state = .processing → msg.processingStarted ≠ none ∧ ¬queued
  deadLetter : msg.state = .deadLetter → msg.maxRetries ≤ msg.retries ∧ ¬queued
  bounded : queued ∨ msg.state = .pending ∨ msg.state = .processing → msg.retries < msg.maxRetries

namespace QueueMessage.Sound

variable {msg : QueueMessage ν} {queued : Prop}

theorem congr {queued' : Prop} (h : msg.Sound queued) (hiff : queued' ↔ queued) : msg.Sound queued' := by
  rw [propext hiff]
  exact h

/-- A new message is queued. -/
theorem of_pending (hstate : msg.state = .pending) (hretries : msg.retries < msg.maxRetries) (hqueued : queued) :
    msg.Sound queued where
  pending _ := hqueued
  processing h := by rw [hstate] at h; cases h
  deadLetter h := by rw [hstate] at h; cases h
  bounded _ := hretries

/-- A queued message is taken out and delivered. -/
theorem deliver (h : msg.Sound queued) (hqueued : queued) (now : ν) {queued' : Prop} (hout : ¬queued') :
    QueueMessage.Sound { msg with state := .processing, processingStarted := some now } queued' where
  pending h := by cases h
  processing _ := ⟨Option.some_ne_none _, hout⟩
  deadLetter h := by cases h
  bounded _ := h.bounded (Or.inl hqueued)

theorem complete (h : msg.Sound queued) : QueueMessage.Sound { msg with state := .completed } queued where
  pending h := by cases h
  processing h := by cases h
  deadLetter h := by cases h
  bounded hq := by
    rcases hq with hq | hs | hs
    · exact h.bounded (Or.inl hq)
    · cases hs
    · cases hs

/-- A message that has timed out is given up, or goes back to the queue. -/
theorem retry {queued' : Prop} (hqueued : queued' ↔ msg.retry.state = .pending) : msg.retry.Sound queued' := by
  rw [QueueMessage.retry] at hqueued ⊢
  by_cases hmax : msg.maxRetries ≤ msg.retries + 1
  · rw [if_pos hmax] at hqueued ⊢
    have hout : ¬queued' := fun hq => by cases hqueued.1 hq
    refine ⟨fun h => ?_, fun h => ?_, fun _ => ⟨hmax, hout⟩, fun h => ?_⟩
    · cases h
    · cases h
    · rcases h with hq | hs | hs
      · exact absurd hq hout
      · cases hs
      · cases hs
  · rw [if_neg hmax] at hqueued ⊢
    refine ⟨fun _ => hqueued.2 rfl, fun h => ?_, fun h => ?_, fun _ => Nat.not_le.1 hmax⟩
    · cases h
    · cases h

end QueueMessage.Sound

/-! ### The state of a node -/

namespace QueueNode

structure Consistent (s : QueueNode ν) : Prop where
  keyed : s.Keyed
  nodup : s.pendingQueue.Nodup
  known : ∀ id ∈ s.pendingQueue, id ∈ s.messages.keys
  sound : ∀ id msg, s.messages.get? id = some msg → msg.Sound (id ∈ s.pendingQueue)
  snapshot : ∀ p ∈ s.pass, ∀ e ∈ p.rest, ∃ id ∈ s.messages.keys, e = .stored id

theorem Consistent.empty : Consistent ({} : QueueNode ν) where
  keyed id msg h := by cases h
  nodup := List.nodup_nil
  known id h := by cases h
  sound id msg h := by cases h
  snapshot p h := by cases h

/-- An operation changes one message and its place in the queue. -/
theorem Consistent.update {s s' : QueueNode ν} (h : s.Consistent) (id : String) {msg : QueueMessage ν}
    (hmessages : s'.messages = s.messages.set id msg) (hkey : msg.msgId = id) (hnodup : s'.pendingQueue.Nodup)
    (hothers : ∀ id', id' ≠ id → (id' ∈ s'.pendingQueue ↔ id' ∈ s.pendingQueue))
    (hsound : msg.Sound (id ∈ s'.pendingQueue))
    (hpass : ∀ p ∈ s'.pass, ∀ e ∈ p.rest, ∃ id ∈ s.messages.keys, e = .stored id) : s'.Consistent where
  keyed := h.keyed.set hmessages hkey
  nodup := hnodup
  known id' hq := by
    rw [hmessages, Dict.mem_keys_set]
    by_cases hid : id' = id
    · exact Or.inl hid
    · exact Or.inr (h.known id' ((hothers id' hid).1 hq))
  sound id' msg' hm := by
    rw [hmessages, Dict.get?_set] at hm
    by_cases hid : id' = id
    · rw [if_pos hid, Option.some.injEq] at hm
      rw [← hm, hid]
      exact hsound
    · rw [if_neg hid] at hm
      exact (h.sound id' msg' hm).congr (hothers id' hid)
  snapshot p hp e he := by
    obtain ⟨id', hid', rfl⟩ := hpass p hp e he
    refine ⟨id', ?_, rfl⟩
    rw [hmessages, Dict.mem_keys_set]
    exact Or.inr hid'

/-- A new id is in no snapshot, so nothing is detached. -/
theorem store_pass {s : QueueNode ν} (h : s.Consistent) {msg : QueueMessage ν} (hnew : msg.msgId ∉ s.messages.keys) :
    ∀ p ∈ (s.store msg).pass, ∀ e ∈ p.rest, ∃ id ∈ s.messages.keys, e = .stored id := by
  intro p hp e he
  obtain ⟨p₀, hp₀, rfl⟩ := Option.map_eq_some_iff.1 hp
  obtain ⟨e₀, he₀, rfl⟩ := List.mem_map.1 he
  obtain ⟨id, hid, rfl⟩ := h.snapshot p₀ hp₀ e₀ he₀
  refine ⟨id, hid, ?_⟩
  rw [Dict.get?_eq_none hnew]
  rfl

/-- A new message is stored and queued. -/
theorem Consistent.enqueue {s : QueueNode ν} (h : s.Consistent) {msg : QueueMessage ν}
    (hnew : msg.msgId ∉ s.messages.keys) (hstate : msg.state = .pending) (hretries : msg.retries < msg.maxRetries) :
    ((s.store msg).requeue msg.msgId).Consistent := by
  have hqueue : ((s.store msg).requeue msg.msgId).pendingQueue = s.pendingQueue ++ [msg.msgId] := rfl
  refine h.update msg.msgId rfl rfl ?_ (fun id' hid => ?_) ?_ (store_pass h hnew)
  · rw [hqueue, List.nodup_append]
    refine ⟨h.nodup, List.nodup_singleton _, fun a ha b hb => ?_⟩
    rw [List.mem_singleton.1 hb]
    rintro rfl
    exact hnew (h.known _ ha)
  · rw [hqueue, List.mem_append, List.mem_singleton]
    exact ⟨fun hm => hm.resolve_right hid, Or.inl⟩
  · refine .of_pending hstate hretries ?_
    rw [hqueue]
    exact List.mem_append_right _ (List.mem_singleton_self _)

theorem Consistent.dequeue {s : QueueNode ν} (h : s.Consistent) (now : ν) : (s.handleDequeue now).Consistent := by
  rw [handleDequeue, MessageStore.dequeue]
  cases hq : s.pendingQueue with
  | nil => exact h
  | cons id rest =>
    have hnodup := h.nodup
    rw [hq] at hnodup
    obtain ⟨hout, hrest⟩ := List.nodup_cons.1 hnodup
    have hmem : id ∈ s.pendingQueue := by
      rw [hq]
      exact List.mem_cons_self
    obtain ⟨msg, hm⟩ := Dict.mem_keys.1 (h.known id hmem)
    simp only [hm]
    refine h.update id rfl (h.keyed id msg hm) hrest (fun id' hid => ?_) ?_ h.snapshot
    · rw [hq, List.mem_cons]
      exact ⟨Or.inr, fun hm => hm.resolve_left hid⟩
    · exact (h.sound id msg hm).deliver hmem now hout

theorem Consistent.ack {s : QueueNode ν} (h : s.Consistent) (msgId : String) : (s.handleAck msgId).Consistent := by
  rw [handleAck, MessageStore.ack]
  cases hm : s.messages.get? msgId with
  | none => exact h
  | some msg =>
    exact h.update msgId rfl (h.keyed msgId msg hm) h.nodup (fun _ _ => Iff.rfl)
      (h.sound msgId msg hm).complete h.snapshot

theorem Consistent.startPass {s : QueueNode ν} (h : s.Consistent) (now : ν) : (s.startPass now).Consistent :=
  { h with
    snapshot := fun p hp e he => by
      obtain rfl : ⟨now, s.messages.keys.map .stored⟩ = p := Option.some.inj hp
      obtain ⟨id, hid, rfl⟩ := List.mem_map.1 he
      exact ⟨id, hid, rfl⟩ }

variable [Number ν] [Sub ν] (cfg : QueueConfig ν)

theorem state_of_timedOut {msg : QueueMessage ν} {now processingTimeout : ν}
    (h : msg.timedOut now processingTimeout) : msg.state = .processing :=
  (of_decide_eq_true h).1

theorem Consistent.checkNext {s : QueueNode ν} (h : s.Consistent) {p : Pass ν} (hp : s.pass = some p) :
    (QueueNode.checkNext cfg s p).Consistent := by
  rw [QueueNode.checkNext]
  cases hrest : p.rest with
  | nil => exact { h with snapshot := fun p hp => by cases hp }
  | cons e rest =>
    have hkept : ∀ e ∈ p.rest, ∃ id ∈ s.messages.keys, e = .stored id := h.snapshot p hp
    rw [hrest] at hkept
    have hpass : ∀ p' ∈ some { p with rest := rest }, ∀ e ∈ p'.rest, ∃ id ∈ s.messages.keys, e = .stored id := by
      rintro p' ⟨⟩ e he
      exact hkept e (List.mem_cons_of_mem _ he)
    obtain ⟨id, hid, rfl⟩ := hkept e List.mem_cons_self
    obtain ⟨msg, hm⟩ := Dict.mem_keys.1 hid
    simp only [QueueNode.check, hm]
    by_cases hto : msg.timedOut p.now cfg.processingTimeout
    · rw [if_pos hto]
      have hkey := h.keyed id msg hm
      have hout := ((h.sound id msg hm).processing (state_of_timedOut hto)).2
      by_cases hagain : msg.retry.state = .pending
      · rw [if_pos hagain]
        have hmem : ∀ id', id' ∈ s.pendingQueue ++ [msg.msgId] ↔ id' ∈ s.pendingQueue ∨ id' = id := by
          intro id'
          rw [List.mem_append, List.mem_singleton, hkey]
        refine h.update id rfl (msg.retry_msgId.trans hkey) ?_ (fun id' hne => ?_) ?_ hpass
        · refine List.nodup_append.2 ⟨h.nodup, List.nodup_singleton _, fun a ha b hb => ?_⟩
          rw [List.mem_singleton.1 hb, hkey]
          rintro rfl
          exact hout ha
        · exact (hmem id').trans (or_iff_left hne)
        · exact .retry (iff_of_true ((hmem id).2 (Or.inr rfl)) hagain)
      · rw [if_neg hagain]
        exact h.update id rfl (msg.retry_msgId.trans hkey) h.nodup (fun _ _ => Iff.rfl)
          (.retry (iff_of_false hout hagain)) hpass
    · rw [if_neg hto]
      exact { h with snapshot := hpass }

/-- A copy that arrives has a new id, and its message is pending and may be tried again. -/
def FreshCopy (s : QueueNode ν) : Action ν → Prop
  | .replicate uuid now d => ∀ msg ∈ (QueueMessage.fromDict uuid now d).toOption,
      msg.msgId ∉ s.messages.keys ∧ msg.state = .pending ∧ msg.retries < msg.maxRetries
  | _ => True

instance (s : QueueNode ν) : (a : Action ν) → Decidable (s.FreshCopy a)
  | .replicate uuid now d => inferInstanceAs (Decidable (∀ msg ∈ (QueueMessage.fromDict uuid now d).toOption, _))
  | .enqueue .. => isTrue trivial
  | .dequeue _ => isTrue trivial
  | .ack _ => isTrue trivial
  | .startPass _ => isTrue trivial
  | .checkNext => isTrue trivial

theorem Consistent.step {s s' : QueueNode ν} {a : Action ν} (h : s.Consistent) (ha : s.FreshCopy a)
    (hstep : QueueNode.step cfg s a = some s') : s'.Consistent := by
  cases a with
  | enqueue uuid now payload partitionKey =>
    obtain ⟨hnew, rfl⟩ : uuid ∉ s.messages.keys ∧ handleEnqueue cfg s uuid now payload partitionKey = s' := by
      simpa [QueueNode.step] using hstep
    exact h.enqueue hnew rfl (by decide : 0 < 3)
  | replicate uuid now d =>
    obtain rfl : s.replicateEnqueue uuid now d = s' := Option.some.inj hstep
    rw [replicateEnqueue]
    cases hd : QueueMessage.fromDict uuid now d with
    | error e => exact h
    | ok msg =>
      have hmsg : msg ∈ (QueueMessage.fromDict uuid now d).toOption := by
        rw [hd]
        rfl
      obtain ⟨hnew, hstate, hretries⟩ := ha msg hmsg
      simp only [if_pos hstate]
      exact h.enqueue hnew hstate hretries
  | dequeue now =>
    obtain rfl : s.handleDequeue now = s' := Option.some.inj hstep
    exact h.dequeue now
  | ack msgId =>
    obtain rfl : s.handleAck msgId = s' := Option.some.inj hstep
    exact h.ack msgId
  | startPass now =>
    obtain ⟨-, rfl⟩ : s.pass = none ∧ s.startPass now = s' := by simpa [QueueNode.step] using hstep
    exact h.startPass now
  | checkNext =>
    obtain ⟨p, hp, rfl⟩ := Option.map_eq_some_iff.1 hstep
    exact h.checkNext cfg hp

/-- The nodes reached by steps that all meet `ok`, from an empty one. -/
abbrev ReachWhile (ok : QueueNode ν → Action ν → Prop) : QueueNode ν → Prop :=
  Transition.ReachWhile (fun s a s' => QueueNode.step cfg s a = some s') ok {}

variable {cfg} {s : QueueNode ν}

theorem consistent_of_reach (h : ReachWhile cfg FreshCopy s) : s.Consistent :=
  h.invariant .empty fun _ _ _ _ hs ha hstep => hs.step cfg ha hstep

/-- No message is lost, none is queued twice, and the number of retries is bounded. -/
theorem queue_invariant (h : ReachWhile cfg FreshCopy s) :
    s.pendingQueue.Nodup ∧ (∀ id ∈ s.pendingQueue, id ∈ s.messages.keys) ∧
      ∀ id msg, s.messages.get? id = some msg →
        (msg.state = .pending → id ∈ s.pendingQueue) ∧
        (msg.state = .processing → msg.processingStarted ≠ none ∧ id ∉ s.pendingQueue) ∧
        (msg.state = .deadLetter → msg.maxRetries ≤ msg.retries ∧ id ∉ s.pendingQueue) ∧
        (msg.state = .pending ∨ msg.state = .processing → msg.retries < msg.maxRetries) := by
  have hs := consistent_of_reach h
  refine ⟨hs.nodup, hs.known, fun id msg hm => ?_⟩
  have hmsg := hs.sound id msg hm
  exact ⟨hmsg.pending, hmsg.processing, hmsg.deadLetter, fun hstate => hmsg.bounded (Or.inr hstate)⟩

/-- A node without peers, with a processing timeout of 30. -/
def alone (nodeId : String) : QueueConfig Int where
  nodeId := nodeId
  peers := []
  replicationFactor := 1
  processingTimeout := 30
  hash := String.length

/-- A message is delivered and times out, a copy of another one arrives during the pass and is acknowledged before
it is delivered. -/
theorem queue_invariant_run : ∃ s : QueueNode Int,
    s.pendingQueue = ["m2", "m1"] ∧ ReachWhile (alone "n") FreshCopy s ∧
      s.pendingQueue.Nodup ∧ (∀ id ∈ s.pendingQueue, id ∈ s.messages.keys) ∧
      ∀ id msg, s.messages.get? id = some msg →
        (msg.state = .pending → id ∈ s.pendingQueue) ∧
        (msg.state = .processing → msg.processingStarted ≠ none ∧ id ∉ s.pendingQueue) ∧
        (msg.state = .deadLetter → msg.maxRetries ≤ msg.retries ∧ id ∉ s.pendingQueue) ∧
        (msg.state = .pending ∨ msg.state = .processing → msg.retries < msg.maxRetries) := by
  have hrun : (Transition.runWhile (QueueNode.step (alone "n")) FreshCopy {} [
      .enqueue "m1" 1 .null "k", .dequeue 2, .startPass 40,
      .replicate "u" 41 (QueueMessage.new "m2" 3 .null "k").toDict, .ack "m2", .checkNext]).map (fun s =>
      s.pendingQueue) = some ["m2", "m1"] := by decide
  obtain ⟨s, hs, hqueue⟩ := Option.map_eq_some_iff.1 hrun
  have hreach := (Transition.ReachWhile.of_runWhile .refl hs).1
  exact ⟨s, hqueue, hreach, queue_invariant hreach⟩

end QueueNode

end DistributedSync
