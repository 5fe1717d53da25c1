import Mathlib.Data.Nat.Notation

/-!
# Messages between nodes

The envelope of `message_passing.py`: the message types, and a message with its sender, its term and its data.
The data dictionary is a type parameter, since every subsystem reads its own keys.  The timestamp of a message is
left out: no handler reads it.  The peers of a node come from `config.py`.
-/

namespace DistributedSync

/-- The types of messages exchanged between nodes. -/
inductive MessageType where
  | voteRequest | voteResponse | appendEntries | appendEntriesResponse | heartbeat
  | lockRequest | lockRelease | lockResponse
  | queueEnqueue | queueDequeue | queueAck | queueResponse
  | cacheInvalidate | cacheUpdate | cacheRead | cacheReadResponse
  | geoReplicate | geoReplicateAck
  | ping | pong
  deriving DecidableEq, Repr

/-- A message from the node `senderId`; `δ` is the type of the data dictionary. -/
structure Message (ι δ : Type) where
  msgType : MessageType
  senderId : ι
  data : δ
  term : Nat := 0

/-- The ids that `get_peer_nodes` lists, from those of the entries of `cluster_nodes`. -/
def getPeerNodes (clusterNodes : List String) (nodeId : String) : List String :=
  clusterNodes.filter fun n => n ≠ nodeId

theorem mem_getPeerNodes {clusterNodes : List String} {a b : String} :
    b ∈ getPeerNodes clusterNodes a ↔ b ∈ clusterNodes ∧ b ≠ a := by
  rw [getPeerNodes, List.mem_filter, decide_eq_true_iff]

/-- The exceptions that the modelled handlers can raise. -/
inductive PyError where
  | indexError | keyError | valueError | typeError
  deriving DecidableEq, Repr

/-- What a call leaves behind: the state, which a raised exception does not roll back, and the value returned or
the exception raised. -/
structure Outcome (σ α : Type) where
  state : σ
  result : Except PyError α

/-! ### The dictionary form -/

/-- `msg_type.value`. -/
def MessageType.value : MessageType → String
  | .voteRequest => "vote_request"
  | .voteResponse => "vote_response"
  | .appendEntries => "append_entries"
  | .appendEntriesResponse => "append_entries_response"
  | .heartbeat => "heartbeat"
  | .lockRequest => "lock_request"
  | .lockRelease => "lock_release"
  | .lockResponse => "lock_response"
  | .queueEnqueue => "queue_enqueue"
  | .queueDequeue => "queue_dequeue"
  | .queueAck => "queue_ack"
  | .queueResponse => "queue_response"
  | .cacheInvalidate => "cache_invalidate"
  | .cacheUpdate => "cache_update"
  | .cacheRead => "cache_read"
  | .cacheReadResponse => "cache_read_response"
  | .geoReplicate => "geo_replicate"
  | .geoReplicateAck => "geo_replicate_ack"
  | .ping => "ping"
  | .pong => "pong"

/-- `MessageType(value)`; `none` is the `ValueError`. -/
def MessageType.ofValue? (value : String) : Option MessageType :=
  [voteRequest, voteResponse, appendEntries, appendEntriesResponse, heartbeat, lockRequest, lockRelease, lockResponse,
    queueEnqueue, queueDequeue, queueAck, queueResponse, cacheInvalidate, cacheUpdate, cacheRead, cacheReadResponse,
    geoReplicate, geoReplicateAck, ping, pong].find? fun t => t.value = value

@[simp] theorem MessageType.ofValue?_value (t : MessageType) : ofValue? t.value = some t := by
  cases t <;> decide

/-- A message as it is sent.  A missing key is `none`. -/
structure Envelope (ι δ : Type) where
  msgType : Option String := none
  senderId : Option ι := none
  data : Option δ := none
  term : Option Nat := none

variable {ι δ : Type}

def Message.toDict (m : Message ι δ) : Envelope ι δ where
  msgType := some m.msgType.value
  senderId := some m.senderId
  data := some m.data
  term := some m.term

/-- `Message.from_dict`.  The constructor's `data or {}` puts an empty dictionary in the place of an empty one. -/
def Message.fromDict (empty : δ) (d : Envelope ι δ) : Except PyError (Message ι δ) :=
  match d.msgType, d.senderId with
  | none, _ => .error .keyError
  | some value, senderId =>
    match MessageType.ofValue? value, senderId with
    | none, _ => .error .valueError
    | some _, none => .error .keyError
    | some msgType, some senderId => .ok {
      msgType := msgType
      senderId := senderId
      data := d.data.getD empty
      term := d.term.getD 0 }

/-- Reading back what was sent. -/
theorem Message.fromDict_toDict (empty : δ) (m : Message ι δ) : Message.fromDict empty m.toDict = .ok m := by
  simp only [fromDict, toDict, MessageType.ofValue?_value, Option.getD_some]

end DistributedSync
