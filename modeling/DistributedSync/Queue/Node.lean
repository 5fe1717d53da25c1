import Mathlib.Algebra.Order.Ring.Int
import DistributedSync.Library.Transition
import DistributedSync.Queue.Message
import DistributedSync.Queue.Ring

/-!
# The queue node

`QueueNode` of `queue_node.py`: the handlers of enqueue, dequeue and acknowledgement requests, of the copies that
other nodes send, and the pass of `_processing_timeout_loop` over a snapshot of the messages.  Every handler changes
the state before it first waits, and the pass waits after each message that has timed out; so the handlers are
atomic, and a pass is a sequence of checks between which other handlers run.

What is written to Redis is left out: a node reads it back only when it starts.
-/

namespace DistributedSync

/-- The configuration of a queue node: `peers` are the ids of the other nodes as `get_peer_nodes` lists them. -/
structure QueueConfig (ν : Type) where
  nodeId : String
  peers : List String
  replicationFactor : Int
  processingTimeout : ν
  hash : String → Nat

/-- `l[:k]`. -/
def sliceTo {α : Type} (l : List α) (k : Int) : List α :=
  l.take (if 0 ≤ k then k.toNat else ((l.length : Int) + k).toNat)

namespace QueueConfig

variable {ν : Type}

/-- The ring after `start`. -/
def hashRing (cfg : QueueConfig ν) : ConsistentHashRing :=
  cfg.peers.foldl (fun r peer => r.addNode cfg.hash peer) (ConsistentHashRing.new.addNode cfg.hash cfg.nodeId)

/-- The peers that get a copy of an enqueued message. -/
def copyTargets (cfg : QueueConfig ν) : List String := sliceTo cfg.peers (cfg.replicationFactor - 1)

end QueueConfig

/-- An element of the snapshot of a pass: a message that is still stored under its id, or one that a copy with the
same id has replaced since. -/
inductive Snapshot (ν : Type) where
  | stored (msgId : String)
  | detached (msg : QueueMessage ν)

/-- A pass that started at the time `now`, and what is left of its snapshot. -/
structure Pass (ν : Type) where
  now : ν
  rest : List (Snapshot ν)

/-- The changing attributes of a queue node, and the pass that is under way. -/
structure QueueNode (ν : Type) extends MessageStore ν where
  pass : Option (Pass ν) := none

/-- The message under `msgId` is replaced; `old` is the one that was there. -/
def Snapshot.detach {ν : Type} (msgId : String) (old : Option (QueueMessage ν)) : Snapshot ν → Snapshot ν
  | .stored id =>
    match old with
    | none => .stored id
    | some msg => if id = msgId then .detached msg else .stored id
  | .detached msg => .detached msg

namespace QueueNode

variable {ν : Type}

/-- `self.messages[msg.msg_id] = msg`. -/
def store (s : QueueNode ν) (msg : QueueMessage ν) : QueueNode ν where
  toMessageStore := s.toMessageStore.put msg
  pass := s.pass.map fun p =>
    { p with rest := p.rest.map fun e => e.detach msg.msgId (s.messages.get? msg.msgId) }

/-- `self.pending_queue.append(msg_id)`. -/
def requeue (s : QueueNode ν) (msgId : String) : QueueNode ν :=
  { s with toMessageStore := s.toMessageStore.append msgId }

/-- Every message is stored under its id. -/
def Keyed (s : QueueNode ν) : Prop := ∀ id msg, s.messages.get? id = some msg → msg.msgId = id

theorem Keyed.set {s s' : QueueNode ν} (h : s.Keyed) {id : String} {msg : QueueMessage ν}
    (hmessages : s'.messages = s.messages.set id msg) (hkey : msg.msgId = id) : s'.Keyed := by
  intro id' msg' hm
  rw [hmessages, Dict.get?_set] at hm
  by_cases hid : id' = id
  · rw [if_pos hid, Option.some.injEq] at hm
    rw [← hm, hkey, hid]
  · rw [if_neg hid] at hm
    exact h id' msg' hm

variable [Number ν] (cfg : QueueConfig ν)

/-- The message that `_handle_enqueue` makes. -/
def newMessage (uuid : String) (now : ν) (payload : Json ν) (partitionKey : String) : QueueMessage ν :=
  let msg := QueueMessage.new uuid now payload partitionKey
  { msg with assignedNode := cfg.hashRing.getNode cfg.hash msg.partitionKey }

/-- `_handle_enqueue` up to the copies.  A request without a partition key brings a drawn one; one whose key is not a
string fails in `get_node`, before anything has changed, and is left out. -/
def handleEnqueue (s : QueueNode ν) (uuid : String) (now : ν) (payload : Json ν) (partitionKey : String) :
    QueueNode ν :=
  let msg := newMessage cfg uuid now payload partitionKey
  (s.store msg).requeue msg.msgId

/-- `_replicate_enqueue`; an ill-formed copy raises and changes nothing. -/
def replicateEnqueue (s : QueueNode ν) (uuid : String) (now : ν) (d : MessageDict ν) : QueueNode ν :=
  match QueueMessage.fromDict uuid now d with
  | .error _ => s
  | .ok msg => if msg.state = .pending then (s.store msg).requeue msg.msgId else s.store msg

/-- `_handle_dequeue`. -/
def handleDequeue (s : QueueNode ν) (now : ν) : QueueNode ν :=
  { s with toMessageStore := (s.dequeue now).1 }

/-- `_handle_ack`. -/
def handleAck (s : QueueNode ν) (msgId : String) : QueueNode ν :=
  { s with toMessageStore := (s.ack msgId).1 }

/-! ### The pass -/

/-- The snapshot is taken. -/
def startPass (s : QueueNode ν) (now : ν) : QueueNode ν :=
  { s with pass := some ⟨now, s.messages.keys.map .stored⟩ }

theorem replicateEnqueue_messages (s : QueueNode ν) (uuid : String) (now : ν) (d : MessageDict ν) :
    (s.replicateEnqueue uuid now d).messages = s.messages ∨
      ∃ msg, (s.replicateEnqueue uuid now d).messages = s.messages.set msg.msgId msg := by
  rw [replicateEnqueue]
  cases QueueMessage.fromDict uuid now d with
  | error e => exact Or.inl rfl
  | ok msg =>
    by_cases hstate : msg.state = .pending
    · simp only [if_pos hstate]
      exact Or.inr ⟨msg, rfl⟩
    · simp only [if_neg hstate]
      exact Or.inr ⟨msg, rfl⟩

variable [Sub ν]

/-- The body of the loop, on an element of the snapshot. -/
def check (s : QueueNode ν) (now : ν) : Snapshot ν → QueueNode ν
  | .stored msgId =>
    match s.messages.get? msgId with
    | none => s
    | some msg =>
      if msg.timedOut now cfg.processingTimeout then
        let s := { s with messages := s.messages.set msgId msg.retry }
        if msg.retry.state = .pending then s.requeue msg.msgId else s
      else s
  | .detached msg =>
    if msg.timedOut now cfg.processingTimeout ∧ msg.retry.state = .pending then s.requeue msg.msgId else s

/-- The pass goes on with the next message of its snapshot, or ends. -/
def checkNext (s : QueueNode ν) (p : Pass ν) : QueueNode ν :=
  match p.rest with
  | [] => { s with pass := none }
  | e :: rest => { check cfg s p.now e with pass := some { p with rest := rest } }

/-! ### Runs -/

/-- What a queue node does.  The enqueued message gets the id `uuid`. -/
inductive Action (ν : Type) where
  | enqueue (uuid : String) (now : ν) (payload : Json ν) (partitionKey : String)
  | replicate (uuid : String) (now : ν) (d : MessageDict ν)
  | dequeue (now : ν)
  | ack (msgId : String)
  | startPass (now : ν)
  | checkNext

/-- The steps of a node.  A drawn id is new, and one pass is under way at a time. -/
def step (s : QueueNode ν) : Action ν → Option (QueueNode ν)
  | .enqueue uuid now payload partitionKey =>
    if uuid ∈ s.messages.keys then none else some (handleEnqueue cfg s uuid now payload partitionKey)
  | .replicate uuid now d => some (s.replicateEnqueue uuid now d)
  | .dequeue now => some (s.handleDequeue now)
  | .ack msgId => some (s.handleAck msgId)
  | .startPass now => if s.pass.isNone then some (s.startPass now) else none
  | .checkNext => s.pass.map (checkNext cfg s)

/-! ### What a step does to the messages -/

/-- Dequeues, acknowledgements and passes, which bring no new message. -/
def isOwn : Action ν → Bool
  | .enqueue .. | .replicate .. => false
  | .dequeue _ | .ack _ | .startPass _ | .checkNext => true

variable {cfg} {s s' : QueueNode ν} {a : Action ν}

/-- A step changes one message at most, and never its id. -/
theorem messages_of_step (hstep : step cfg s a = some s') :
    s'.messages = s.messages ∨ ∃ id msg, s'.messages = s.messages.set id msg ∧ (s.Keyed → msg.msgId = id) ∧
      (isOwn a → id ∈ s.messages.keys) := by
  cases a with
  | enqueue uuid now payload partitionKey =>
    obtain ⟨-, rfl⟩ : uuid ∉ s.messages.keys ∧ handleEnqueue cfg s uuid now payload partitionKey = s' := by
      simpa [step] using hstep
    exact Or.inr ⟨_, _, rfl, fun _ => rfl, fun hown => by cases hown⟩
  | replicate uuid now d =>
    obtain rfl : s.replicateEnqueue uuid now d = s' := Option.some.inj hstep
    rcases s.replicateEnqueue_messages uuid now d with hsame | ⟨msg, hset⟩
    · exact Or.inl hsame
    · exact Or.inr ⟨_, msg, hset, fun _ => rfl, fun hown => by cases hown⟩
  | dequeue now =>
    obtain rfl : s.handleDequeue now = s' := Option.some.inj hstep
    rw [handleDequeue, MessageStore.dequeue]
    cases s.pendingQueue with
    | nil => exact Or.inl rfl
    | cons id rest =>
      simp only
      cases hm : s.messages.get? id with
      | none => exact Or.inl rfl
      | some msg => exact Or.inr ⟨id, _, rfl, fun hs => hs id msg hm, fun _ => Dict.mem_keys.2 ⟨msg, hm⟩⟩
  | ack id =>
    obtain rfl : s.handleAck id = s' := Option.some.inj hstep
    rw [handleAck, MessageStore.ack]
    cases hm : s.messages.get? id with
    | none => exact Or.inl rfl
    | some msg => exact Or.inr ⟨id, _, rfl, fun hs => hs id msg hm, fun _ => Dict.mem_keys.2 ⟨msg, hm⟩⟩
  | startPass now =>
    obtain ⟨-, rfl⟩ : s.pass = none ∧ s.startPass now = s' := by simpa [step] using hstep
    exact Or.inl rfl
  | checkNext =>
    obtain ⟨p, -, rfl⟩ := Option.map_eq_some_iff.1 hstep
    rw [checkNext]
    cases p.rest with
    | nil => exact Or.inl rfl
    | cons e rest =>
      cases e with
      | stored id =>
        simp only [check]
        cases hm : s.messages.get? id with
        | none => exact Or.inl rfl
        | some msg =>
          have hset : ∃ id' msg', s.messages.set id msg.retry = s.messages.set id' msg' ∧
              (s.Keyed → msg'.msgId = id') ∧ (isOwn (.checkNext : Action ν) → id' ∈ s.messages.keys) :=
            ⟨id, _, rfl, fun hs => msg.retry_msgId.trans (hs id msg hm), fun _ => Dict.mem_keys.2 ⟨msg, hm⟩⟩
          by_cases hto : msg.timedOut p.now cfg.processingTimeout
          · by_cases hagain : msg.retry.state = .pending
            · simp only [if_pos hto, if_pos hagain]
              exact Or.inr hset
            · simp only [if_pos hto, if_neg hagain]
              exact Or.inr hset
          · simp only [if_neg hto]
            exact Or.inl trivial
      | detached msg =>
        simp only [check]
        by_cases hagain : msg.timedOut p.now cfg.processingTimeout ∧ msg.retry.state = .pending
        · rw [if_pos hagain]
          exact Or.inl rfl
        · rw [if_neg hagain]
          exact Or.inl rfl

theorem Keyed.step (h : s.Keyed) (hstep : QueueNode.step cfg s a = some s') : s'.Keyed := by
  rcases messages_of_step hstep with hsame | ⟨id, msg, hset, hkey, -⟩
  · intro id msg hm
    rw [hsame] at hm
    exact h id msg hm
  · exact h.set hset (hkey h)

/-- No step removes a message. -/
theorem mem_keys_of_step (hstep : step cfg s a = some s') {id : String} (hid : id ∈ s.messages.keys) :
    id ∈ s'.messages.keys := by
  rcases messages_of_step hstep with hsame | ⟨id', msg, hset, -, -⟩
  · rw [hsame]
    exact hid
  · rw [hset]
    exact Dict.mem_keys_set.2 (Or.inr hid)

theorem mem_keys_of_own (hown : isOwn a) (hstep : step cfg s a = some s') {id : String} :
    id ∈ s'.messages.keys ↔ id ∈ s.messages.keys := by
  refine ⟨fun hid => ?_, mem_keys_of_step hstep⟩
  rcases messages_of_step hstep with hsame | ⟨id', msg, hset, -, hknown⟩
  · rwa [hsame] at hid
  · rw [hset] at hid
    rcases Dict.mem_keys_set.1 hid with rfl | hid
    · exact hknown hown
    · exact hid

end QueueNode

end DistributedSync
