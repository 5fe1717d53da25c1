import DistributedSync.Json
import DistributedSync.Library.Dict
import DistributedSync.Message

/-!
# Queue messages

`MessageState` and `QueueMessage` of `queue_node.py`, with the dictionary form in which a message travels to other
nodes, and the two attributes `messages` and `pending_queue` in which both kinds of node keep them.  The dictionary
holds the objects themselves, so what a handler does to a message is seen in it.

Readings of the clock are numbers of a type `ν`, and the ids that `uuid4` draws are inputs.
-/

namespace DistributedSync

inductive MessageState where
  | pending | processing | completed | failed | deadLetter
  deriving DecidableEq, Repr

/-- `state.value`. -/
def MessageState.value : MessageState → String
  | .pending => "pending"
  | .processing => "processing"
  | .completed => "completed"
  | .failed => "failed"
  | .deadLetter => "dead_letter"

/-- `MessageState(value)`; `none` is the `ValueError`. -/
def MessageState.ofValue? (value : String) : Option MessageState :=
  if value = "pending" then some .pending
  else if value = "processing" then some .processing
  else if value = "completed" then some .completed
  else if value = "failed" then some .failed
  else if value = "dead_letter" then some .deadLetter
  else none

@[simp] theorem MessageState.ofValue?_value (state : MessageState) : ofValue? state.value = some state := by
  cases state <;> decide

/-- The attributes of a `QueueMessage`. -/
structure QueueMessage (ν : Type) where
  msgId : String
  payload : Json ν
  partitionKey : String
  state : MessageState := .pending
  retries : Nat := 0
  maxRetries : Nat := 3
  createdAt : ν
  assignedNode : Option String := none
  processingStarted : Option ν := none

/-- The dictionary form of a message.  A missing key is `none`, and so is null where the reader does not tell the
two apart. -/
structure MessageDict (ν : Type) where
  msgId : Option String := none
  payload : Option (Json ν) := none
  partitionKey : Option String := none
  state : Option String := none
  retries : Option Nat := none
  maxRetries : Option Nat := none
  createdAt : Option ν := none
  assignedNode : Option String := none
  processingStarted : Option ν := none

variable {ν : Type}

def QueueMessage.toDict (msg : QueueMessage ν) : MessageDict ν where
  msgId := some msg.msgId
  payload := some msg.payload
  partitionKey := some msg.partitionKey
  state := some msg.state.value
  retries := some msg.retries
  maxRetries := some msg.maxRetries
  createdAt := some msg.createdAt
  assignedNode := msg.assignedNode
  processingStarted := msg.processingStarted

/-- A message that has timed out is given up after `max_retries` retries. -/
def QueueMessage.retry (msg : QueueMessage ν) : QueueMessage ν :=
  let msg := { msg with retries := msg.retries + 1 }
  if msg.maxRetries ≤ msg.retries then { msg with state := .deadLetter }
  else { msg with state := .pending, processingStarted := none }

@[simp] theorem QueueMessage.retry_msgId (msg : QueueMessage ν) : msg.retry.msgId = msg.msgId := by
  rw [QueueMessage.retry]
  by_cases hmax : msg.maxRetries ≤ msg.retries + 1
  · rw [if_pos hmax]
  · rw [if_neg hmax]

/-- `a or b` on strings. -/
def strOr (a b : String) : String := if a = "" then b else a

variable [Number ν]

/-- `payload or {}`. -/
def payloadOr (payload : Json ν) : Json ν := if payload.truthy then payload else .obj []

/-- `QueueMessage(payload=payload, partition_key=partitionKey)`, where `uuid` is the id that is drawn. -/
def QueueMessage.new (uuid : String) (now : ν) (payload : Json ν) (partitionKey : String) : QueueMessage ν where
  msgId := uuid
  payload := payloadOr payload
  partitionKey := strOr partitionKey uuid
  createdAt := now

/-- `QueueMessage.from_dict`, with the clock at `now` and `uuid` the id that is drawn for an empty one. -/
def QueueMessage.fromDict (uuid : String) (now : ν) (d : MessageDict ν) : Except PyError (QueueMessage ν) :=
  match d.msgId with
  | none => .error .keyError
  | some msgId =>
    match MessageState.ofValue? (d.state.getD "pending") with
    | none => .error .valueError
    | some state =>
      let createdAt := d.createdAt.getD now
      .ok {
        msgId := strOr msgId uuid
        payload := payloadOr (d.payload.getD (.obj []))
        partitionKey := strOr (d.partitionKey.getD msgId) (strOr msgId uuid)
        state := state
        retries := d.retries.getD 0
        maxRetries := d.maxRetries.getD 3
        createdAt := if createdAt = 0 then now else createdAt
        assignedNode := d.assignedNode
        processingStarted := d.processingStarted }

/-- The message that another node makes of a message that was sent to it. -/
theorem QueueMessage.fromDict_toDict (uuid : String) (now : ν) (msg : QueueMessage ν) :
    QueueMessage.fromDict uuid now msg.toDict = .ok { msg with
      msgId := strOr msg.msgId uuid
      payload := payloadOr msg.payload
      partitionKey := strOr msg.partitionKey (strOr msg.msgId uuid)
      createdAt := if msg.createdAt = 0 then now else msg.createdAt } := by
  simp only [fromDict, toDict, Option.getD_some, MessageState.ofValue?_value]
  rfl

/-- The condition of `_processing_timeout_loop`. -/
def QueueMessage.timedOut [Sub ν] (msg : QueueMessage ν) (now processingTimeout : ν) : Bool :=
  msg.state = .processing ∧ ∃ started ∈ msg.processingStarted, started ≠ 0 ∧ processingTimeout < now - started

/-! ### The store -/

/-- The messages that a node knows, and the ids of those that wait to be delivered. -/
structure MessageStore (ν : Type) where
  messages : Dict String (QueueMessage ν) := .empty
  pendingQueue : List String := []

namespace MessageStore

variable {ν : Type}

/-- `messages[msg.msg_id] = msg`. -/
def put (q : MessageStore ν) (msg : QueueMessage ν) : MessageStore ν :=
  { q with messages := q.messages.set msg.msgId msg }

/-- `pending_queue.append(msg_id)`. -/
def append (q : MessageStore ν) (msgId : String) : MessageStore ν :=
  { q with pendingQueue := q.pendingQueue ++ [msgId] }

/-- The handlers of dequeue requests; the answer is the message, or `none` for the status `empty`. -/
def dequeue (q : MessageStore ν) (now : ν) : MessageStore ν × Option (QueueMessage ν) :=
  match q.pendingQueue with
  | [] => (q, none)
  | msgId :: rest =>
    let q := { q with pendingQueue := rest }
    match q.messages.get? msgId with
    | none => (q, none)
    | some msg =>
      let msg := { msg with state := .processing, processingStarted := some now }
      ({ q with messages := q.messages.set msgId msg }, some msg)

/-- The handlers of acknowledgements; the answer is whether the message is known. -/
def ack (q : MessageStore ν) (msgId : String) : MessageStore ν × Bool :=
  match q.messages.get? msgId with
  | none => (q, false)
  | some msg => ({ q with messages := q.messages.set msgId { msg with state := .completed } }, true)

end MessageStore

end DistributedSync
