import DistributedSync.Queue.Cluster

/-!
# Queue nodes with Redis

`start`, `_persist_message` and `_recover_from_redis` of `QueueNode`.  A handler sends the dictionary of a message to
Redis, which stores it later, in any order, or fails; stored messages expire.  The keys of a node begin with its id,
so each node has a store of its own, which is indexed by the ids of the messages.

The HTTP server runs before the client of Redis is set, and the recovery waits for every reply of Redis, so requests
are handled between all steps of a start.
-/

namespace DistributedSync

/-- The loop of `_recover_from_redis`: the ids that were stored when it began and that `scan` has not returned, those
of the last reply that are still to be read, whether its cursor was `0`, and the reply of `get` for the first of
them, if it is there. -/
structure Recovery (ν : Type) where
  missing : List String
  todo : List String := []
  last : Bool := false
  reply : Option (Option (MessageDict ν)) := none

/-- How far `start` has come: the HTTP server runs, `ping` has been sent, the messages are recovered, or all is done,
with or without a complete recovery. -/
inductive Phase (ν : Type) where
  | serving
  | connecting
  | recovering (r : Recovery ν)
  | ready (recovered : Bool)

/-- Enqueue requests are handled apart, and the passes begin after the start. -/
def Phase.admits {ν : Type} (phase : Phase ν) : QueueNode.Action ν → Bool
  | .enqueue .. => false
  | .startPass _ =>
    match phase with
    | .ready _ => true
    | _ => false
  | _ => true

/-- A queue node, whether its `redis_client` is set, what Redis has stored for it, and the messages on their way to
Redis, with their ids. -/
structure DurableNode (ν : Type) where
  node : QueueNode ν := {}
  client : Bool := false
  phase : Phase ν := .serving
  redis : Dict String (MessageDict ν) := .empty
  writes : List (String × MessageDict ν) := []

namespace Recovery

variable {ν : Type}

/-- A reply of `scan`. -/
def scanned (r : Recovery ν) (keys : List String) (last : Bool) : Recovery ν where
  missing := if last then [] else r.missing.filter fun k => k ∉ keys
  todo := keys
  last := last

/-- The first message has been dealt with. -/
def next (r : Recovery ν) : Recovery ν :=
  { r with
    todo := r.todo.tail
    reply := none }

/-- The loop ends after the last reply. -/
def settle (r : Recovery ν) : Phase ν := if r.last ∧ r.todo = [] then .ready true else .recovering r

end Recovery

namespace DurableNode

variable {ν : Type}

/-- `_persist_message`. -/
def persist (s : DurableNode ν) (msg : QueueMessage ν) : DurableNode ν :=
  if s.client then { s with writes := s.writes ++ [(msg.msgId, msg.toDict)] } else s

/-- The ring is filled after the reply to `ping`. -/
def hashRing (cfg : QueueConfig ν) (s : DurableNode ν) : ConsistentHashRing :=
  match s.phase with
  | .serving | .connecting => ConsistentHashRing.new
  | .recovering _ | .ready _ => cfg.hashRing

/-- What happens to a node and its store.  A write takes effect (`land`) or fails (`lose`). -/
inductive Action (ν : Type) where
  | enqueue (uuid : String) (now : ν) (payload : Json ν) (partitionKey : String)
  | act (a : QueueNode.Action ν)
  | land (i : Nat)
  | lose (i : Nat)
  | expire (msgId : String)
  | connect
  | pong
  | noRedis
  | scan (keys : List String) (last : Bool)
  | read
  | process (uuid : String) (now : ν)
  | giveUp
  | restart

variable [Number ν]

/-- The message that `_handle_enqueue` makes. -/
def newMessage (cfg : QueueConfig ν) (s : DurableNode ν) (uuid : String) (now : ν) (payload : Json ν)
    (partitionKey : String) : QueueMessage ν :=
  let msg := QueueMessage.new uuid now payload partitionKey
  { msg with assignedNode := (s.hashRing cfg).getNode cfg.hash msg.partitionKey }

/-- `_handle_enqueue` up to the copies. -/
def handleEnqueue (s : DurableNode ν) (msg : QueueMessage ν) : DurableNode ν :=
  { s with node := (s.node.store msg).requeue msg.msgId }.persist msg

/-- A message that `get` returned, in the loop of `_recover_from_redis`; an ill-formed one raises. -/
def recoverMessage (s : DurableNode ν) (r : Recovery ν) (uuid : String) (now : ν) (d : MessageDict ν) :
    DurableNode ν :=
  match QueueMessage.fromDict uuid now d with
  | .error _ => { s with phase := .ready false }
  | .ok msg =>
    let node := s.node.store msg
    { s with
      node := if msg.state = .pending then node.requeue msg.msgId else node
      phase := r.settle }

variable [Sub ν]

/-- The message that a handler, or a check of a pass, persists. -/
def persisted (cfg : QueueConfig ν) (n : QueueNode ν) : QueueNode.Action ν → Option (QueueMessage ν)
  | .replicate uuid now d => (QueueMessage.fromDict uuid now d).toOption
  | .dequeue now => (n.dequeue now).2
  | .ack msgId => (n.messages.get? msgId).map fun msg => { msg with state := .completed }
  | .checkNext => n.pass.bind fun p => p.rest.head?.bind fun e => (QueueCluster.current n e).bind fun msg =>
      if msg.timedOut p.now cfg.processingTimeout then some msg.retry else none
  | .enqueue .. | .startPass _ => none

/-- The handlers other than that of enqueue requests, and the passes. -/
def handle (cfg : QueueConfig ν) (s : DurableNode ν) (a : QueueNode.Action ν) : Option (DurableNode ν) :=
  if s.phase.admits a then
    (QueueNode.step cfg s.node a).map fun n =>
      match persisted cfg s.node a with
      | none => { s with node := n }
      | some msg => { s with node := n }.persist msg
  else none

/-- The steps of a node and its store.  `scan` returns each message at least once that has been stored since the
recovery began, in any order and as often as it likes. -/
def step (cfg : QueueConfig ν) (s : DurableNode ν) : Action ν → Option (DurableNode ν)
  | .enqueue uuid now payload partitionKey => some (s.handleEnqueue (s.newMessage cfg uuid now payload partitionKey))
  | .act a => s.handle cfg a
  | .land i => s.writes[i]?.map fun w => { s with
      redis := s.redis.set w.1 w.2
      writes := s.writes.eraseIdx i }
  | .lose i => if i < s.writes.length then some { s with writes := s.writes.eraseIdx i } else none
  | .expire msgId => some { s with redis := s.redis.erase msgId }
  | .connect =>
    match s.phase with
    | .serving => some { s with
        client := true
        phase := .connecting }
    | _ => none
  | .pong =>
    match s.phase with
    | .connecting => some { s with phase := .recovering { missing := s.redis.keys } }
    | _ => none
  | .noRedis =>
    match s.phase with
    | .connecting => some { s with
        client := false
        phase := .ready false }
    | _ => none
  | .scan keys last =>
    match s.phase with
    | .recovering r =>
      if r.todo = [] ∧ r.last = false ∧ (last → ∀ k ∈ r.missing, k ∈ s.redis.keys → k ∈ keys) then
        some { s with phase := (r.scanned keys last).settle }
      else none
    | _ => none
  | .read =>
    match s.phase with
    | .recovering r =>
      match r.todo, r.reply with
      | k :: _, none => some { s with phase := .recovering { r with reply := some (s.redis.get? k) } }
      | _, _ => none
    | _ => none
  | .process uuid now =>
    match s.phase with
    | .recovering r =>
      match r.todo, r.reply with
      | _ :: _, some none => some { s with phase := r.next.settle }
      | _ :: _, some (some d) => some (s.recoverMessage r.next uuid now d)
      | _, _ => none
    | _ => none
  | .giveUp =>
    match s.phase with
    | .recovering _ => some { s with phase := .ready false }
    | _ => none
  | .restart => some { redis := s.redis }

/-- What a step did, and what it found. -/
inductive Effect (cfg : QueueConfig ν) (s : DurableNode ν) : Action ν → DurableNode ν → Prop where
  | enqueue {uuid now payload partitionKey} :
    Effect cfg s (.enqueue uuid now payload partitionKey)
      (s.handleEnqueue (s.newMessage cfg uuid now payload partitionKey))
  | act {a s'} : s.handle cfg a = some s' → Effect cfg s (.act a) s'
  | land {i w} : s.writes[i]? = some w → Effect cfg s (.land i) { s with
      redis := s.redis.set w.1 w.2
      writes := s.writes.eraseIdx i }
  | lose {i} : Effect cfg s (.lose i) { s with writes := s.writes.eraseIdx i }
  | expire {msgId} : Effect cfg s (.expire msgId) { s with redis := s.redis.erase msgId }
  | connect : s.phase = .serving → Effect cfg s .connect { s with
      client := true
      phase := .connecting }
  | pong : s.phase = .connecting → Effect cfg s .pong { s with phase := .recovering { missing := s.redis.keys } }
  | noRedis : s.phase = .connecting → Effect cfg s .noRedis { s with
      client := false
      phase := .ready false }
  | scan {r keys} {last : Bool} : s.phase = .recovering r → r.todo = [] → r.last = false →
    (last → ∀ k ∈ r.missing, k ∈ s.redis.keys → k ∈ keys) →
    Effect cfg s (.scan keys last) { s with phase := (r.scanned keys last).settle }
  | read {r k rest} : s.phase = .recovering r → r.todo = k :: rest → r.reply = none →
    Effect cfg s .read { s with phase := .recovering { r with reply := some (s.redis.get? k) } }
  | miss {r k rest uuid now} : s.phase = .recovering r → r.todo = k :: rest → r.reply = some none →
    Effect cfg s (.process uuid now) { s with phase := r.next.settle }
  | found {r k rest d uuid now} : s.phase = .recovering r → r.todo = k :: rest → r.reply = some (some d) →
    Effect cfg s (.process uuid now) (s.recoverMessage r.next uuid now d)
  | giveUp {r} : s.phase = .recovering r → Effect cfg s .giveUp { s with phase := .ready false }
  | restart : Effect cfg s .restart { redis := s.redis }

theorem effect_of_step {cfg : QueueConfig ν} {s s' : DurableNode ν} {a : Action ν} (h : step cfg s a = some s') :
    Effect cfg s a s' := by
  cases a with
  | enqueue uuid now payload partitionKey =>
    cases h
    exact .enqueue
  | act a => exact .act h
  | land i =>
    obtain ⟨w, hw, rfl⟩ := Option.map_eq_some_iff.1 h
    exact .land hw
  | lose i =>
    simp only [step, Option.ite_none_right_eq_some, Option.some.injEq] at h
    obtain ⟨-, rfl⟩ := h
    exact .lose
  | expire msgId =>
    cases h
    exact .expire
  | connect =>
    cases hphase : s.phase <;> simp only [step, hphase, reduceCtorEq, Option.some.injEq] at h
    subst h
    exact .connect hphase
  | pong =>
    cases hphase : s.phase <;> simp only [step, hphase, reduceCtorEq, Option.some.injEq] at h
    subst h
    exact .pong hphase
  | noRedis =>
    cases hphase : s.phase <;> simp only [step, hphase, reduceCtorEq, Option.some.injEq] at h
    subst h
    exact .noRedis hphase
  | scan keys last =>
    cases hphase : s.phase <;>
      simp only [step, hphase, reduceCtorEq, Option.ite_none_right_eq_some, Option.some.injEq] at h
    obtain ⟨⟨htodo, hlast, hcover⟩, rfl⟩ := h
    exact .scan hphase htodo hlast hcover
  | read =>
    cases hphase : s.phase <;> simp only [step, hphase, reduceCtorEq] at h
    next r =>
      split at h
      · next htodo hreply =>
        cases h
        exact .read hphase htodo hreply
      · cases h
  | process uuid now =>
    cases hphase : s.phase <;> simp only [step, hphase, reduceCtorEq] at h
    next r =>
      split at h
      · next htodo hreply =>
        cases h
        exact .miss hphase htodo hreply
      · next htodo hreply =>
        cases h
        exact .found hphase htodo hreply
      · cases h
  | giveUp =>
    cases hphase : s.phase <;> simp only [step, hphase, reduceCtorEq, Option.some.injEq] at h
    subst h
    exact .giveUp hphase
  | restart =>
    cases h
    exact .restart

end DurableNode

/-! ### What a node holds -/

variable {ν : Type}

namespace QueueNode

/-- All messages of a node have the property. -/
structure Holds (P : QueueMessage ν → Prop) (n : QueueNode ν) : Prop where
  stored : ∀ id msg, n.messages.get? id = some msg → P msg
  detached : ∀ p ∈ n.pass, ∀ msg, .detached msg ∈ p.rest → P msg

variable {P P' : QueueMessage ν → Prop} {n n' : QueueNode ν}

theorem Holds.mono (h : n.Holds P) (hP : ∀ msg, P msg → P' msg) : n.Holds P' where
  stored id msg hm := hP msg (h.stored id msg hm)
  detached p hp msg hm := hP msg (h.detached p hp msg hm)

theorem Holds.set (h : n.Holds P) {id : String} {msg : QueueMessage ν} (hmsg : P msg) :
    Holds P { n with messages := n.messages.set id msg } := by
  refine ⟨fun id' msg' hm => ?_, h.detached⟩
  rw [Dict.get?_set] at hm
  split at hm
  · cases hm
    exact hmsg
  · exact h.stored id' msg' hm

theorem Holds.store (h : n.Holds P) {msg : QueueMessage ν} (hmsg : P msg) : (n.store msg).Holds P := by
  refine ⟨(h.set hmsg).stored, fun p hp old hold => ?_⟩
  obtain ⟨p, hpass, rfl⟩ := Option.map_eq_some_iff.1 hp
  obtain ⟨e, he, heq⟩ := List.mem_map.1 hold
  cases e with
  | detached msg' =>
    cases heq
    exact h.detached p hpass old he
  | stored id =>
    cases hm : n.messages.get? msg.msgId with
    | none => simp [Snapshot.detach, hm] at heq
    | some old' =>
      simp only [Snapshot.detach, hm] at heq
      split at heq
      · cases heq
        exact h.stored msg.msgId old hm
      · cases heq

theorem Holds.requeue (h : n.Holds P) (id : String) : (n.requeue id).Holds P := ⟨h.stored, h.detached⟩

/-- The message that a dequeue delivers is one that the node had, but for its state. -/
theorem dequeue_cases (n : QueueNode ν) (now : ν) :
    ((n.dequeue now).2 = none ∧ (n.dequeue now).1.messages = n.messages) ∨
      ∃ id msg, n.messages.get? id = some msg ∧
        (n.dequeue now).2 = some { msg with
          state := .processing
          processingStarted := some now } ∧
        (n.dequeue now).1.messages = n.messages.set id { msg with
          state := .processing
          processingStarted := some now } := by
  rw [MessageStore.dequeue]
  cases n.pendingQueue with
  | nil => exact Or.inl ⟨rfl, rfl⟩
  | cons id rest =>
    simp only
    cases hm : n.messages.get? id with
    | none => exact Or.inl ⟨rfl, rfl⟩
    | some msg => exact Or.inr ⟨id, msg, hm, rfl, rfl⟩

theorem Holds.current (h : n.Holds P) {p : Pass ν} (hp : n.pass = some p) {e : Snapshot ν}
    (he : e ∈ p.rest) {msg : QueueMessage ν} (hmsg : QueueCluster.current n e = some msg) : P msg := by
  cases e with
  | stored id => exact h.stored id msg hmsg
  | detached old =>
    cases hmsg
    exact h.detached p hp msg he

theorem Holds.dequeue (h : n.Holds P) (hP : ∀ msg state started, P msg → P { msg with
    state := state
    processingStarted := started }) (now : ν) :
    (n.handleDequeue now).Holds P ∧ ∀ msg ∈ (n.dequeue now).2, P msg := by
  rcases dequeue_cases n now with ⟨hnone, hmessages⟩ | ⟨id, msg, hm, hsome, hmessages⟩
  · refine ⟨⟨fun id msg hm => ?_, h.detached⟩, fun msg hmsg => ?_⟩
    · exact h.stored id msg (hmessages ▸ hm)
    · rw [hnone] at hmsg
      cases hmsg
  · have hmark := hP msg .processing (some now) (h.stored id msg hm)
    refine ⟨⟨fun id' msg' hm' => ?_, h.detached⟩, fun msg' hmsg' => ?_⟩
    · exact (h.set hmark).stored id' msg' (hmessages ▸ hm')
    · rw [hsome] at hmsg'
      cases hmsg'
      exact hmark

end QueueNode

namespace DurableNode

/-- The dictionary is that of a message with the id and the property. -/
def Written (P : QueueMessage ν → Prop) (id : String) (d : MessageDict ν) : Prop :=
  ∃ msg, P msg ∧ msg.msgId = id ∧ d = msg.toDict

/-- All messages of a node have the property, those in Redis and on their way too. -/
structure Holds (P : QueueMessage ν → Prop) (s : DurableNode ν) : Prop where
  node : s.node.Holds P
  redis : ∀ id d, s.redis.get? id = some d → Written P id d
  writes : ∀ w ∈ s.writes, Written P w.1 w.2
  reply : ∀ r d, s.phase = .recovering r → r.reply = some (some d) → ∃ k ∈ r.todo.head?, Written P k d

variable {P P' : QueueMessage ν → Prop} {s s' : DurableNode ν}

theorem Written.mono {id : String} {d : MessageDict ν} (h : Written P id d) (hP : ∀ msg, P msg → P' msg) :
    Written P' id d := by
  obtain ⟨msg, hmsg, hid, hd⟩ := h
  exact ⟨msg, hP msg hmsg, hid, hd⟩

theorem Holds.mono (h : s.Holds P) (hP : ∀ msg, P msg → P' msg) : s.Holds P' where
  node := h.node.mono hP
  redis id d hd := (h.redis id d hd).mono hP
  writes w hw := (h.writes w hw).mono hP
  reply r d hr hd := by
    obtain ⟨k, hk, hwritten⟩ := h.reply r d hr hd
    exact ⟨k, hk, hwritten.mono hP⟩

theorem Holds.empty : ({} : DurableNode ν).Holds P where
  node := ⟨(fun id msg hm => by cases hm), fun p hp => by cases hp⟩
  redis id d hd := by cases hd
  writes w hw := by cases hw
  reply r d hr hd := by cases hr

theorem Holds.persist (h : s.Holds P) {msg : QueueMessage ν} (hmsg : P msg) : (s.persist msg).Holds P := by
  rw [DurableNode.persist]
  split
  · refine ⟨h.node, h.redis, fun w hw => ?_, h.reply⟩
    rcases List.mem_append.1 hw with hw | hw
    · exact h.writes w hw
    · rw [List.mem_singleton.1 hw]
      exact ⟨msg, hmsg, rfl, rfl⟩
  · exact h

private theorem Holds.with_node (h : s.Holds P) {n : QueueNode ν} (hn : n.Holds P) : Holds P { s with node := n } :=
  ⟨hn, h.redis, h.writes, h.reply⟩

/-- A step of the start that brings no reply of Redis. -/
theorem Holds.with_phase (h : s.Holds P) {phase : Phase ν} (hphase : ∀ r, phase = .recovering r → r.reply = none)
    (client : Bool) : Holds P { s with
      client := client
      phase := phase } := by
  refine ⟨h.node, h.redis, h.writes, fun r d hr hd => ?_⟩
  rw [hphase r hr] at hd
  cases hd

theorem Holds.enqueue (h : s.Holds P) {msg : QueueMessage ν} (hmsg : P msg) : (s.handleEnqueue msg).Holds P :=
  (h.with_node ((h.node.store hmsg).requeue _)).persist hmsg

theorem Recovery.reply_settle {r : Recovery ν} (h : r.reply = none) :
    ∀ r', r.settle = .recovering r' → r'.reply = none := by
  intro r' hr'
  rw [Recovery.settle] at hr'
  split at hr'
  · cases hr'
  · cases hr'
    exact h

end DurableNode

/-! ### What lasts of a message -/

variable [Number ν]

/-- A property that a message keeps when it is written down and read back. -/
structure Readable (P : QueueMessage ν → Prop) : Prop where
  reread : ∀ msg uuid now msg', P msg → QueueMessage.fromDict uuid now msg.toDict = .ok msg' → P msg'

/-- A property that the handlers do not take from a message either. -/
structure Lasting (P : QueueMessage ν → Prop) : Prop extends Readable P where
  mark : ∀ msg state started, P msg → P { msg with
    state := state
    processingStarted := started }
  retry : ∀ msg, P msg → P msg.retry

/-- A message as the constructor leaves it. -/
structure QueueMessage.Settled (msg : QueueMessage ν) : Prop where
  msgId : msg.msgId ≠ ""
  payload : payloadOr msg.payload = msg.payload
  partitionKey : msg.partitionKey ≠ ""
  createdAt : msg.createdAt ≠ 0

theorem payloadOr_idem (payload : Json ν) : payloadOr (payloadOr payload) = payloadOr payload := by
  by_cases h : payload.truthy
  · rw [payloadOr, payloadOr, if_pos h, if_pos h]
  · have hempty : payloadOr payload = .obj [] := by rw [payloadOr, if_neg h]
    rw [hempty]
    rfl

theorem strOr_of_ne {a b : String} (ha : a ≠ "") : strOr a b = a := if_neg ha

theorem strOr_ne_empty {a b : String} (hb : b ≠ "") : strOr a b ≠ "" := by
  rw [strOr]
  split
  · exact hb
  · next ha => exact ha

namespace QueueMessage.Settled

variable {msg msg' : QueueMessage ν}

theorem fromDict_toDict (h : msg.Settled) (uuid : String) (now : ν) : fromDict uuid now msg.toDict = .ok msg := by
  rw [QueueMessage.fromDict_toDict, strOr_of_ne h.msgId, h.payload, strOr_of_ne h.partitionKey, if_neg h.createdAt]

theorem eq_of_toDict (h : msg.Settled) (h' : msg'.Settled) (heq : msg.toDict = msg'.toDict) : msg = msg' := by
  have hread := h.fromDict_toDict "" 0
  rw [heq, h'.fromDict_toDict "" 0] at hread
  exact (Except.ok.inj hread).symm

end QueueMessage.Settled

private theorem lasting_settled : Lasting (QueueMessage.Settled (ν := ν)) where
  reread msg uuid now msg' h hread := by
    rw [h.fromDict_toDict] at hread
    cases hread
    exact h
  mark msg state started h := ⟨h.msgId, h.payload, h.partitionKey, h.createdAt⟩
  retry msg h := by
    rw [QueueMessage.retry]
    split
    · exact ⟨h.msgId, h.payload, h.partitionKey, h.createdAt⟩
    · exact ⟨h.msgId, h.payload, h.partitionKey, h.createdAt⟩

namespace QueueNode

variable {P : QueueMessage ν → Prop} {n : QueueNode ν}

theorem Holds.replicate (h : n.Holds P) (hP : Readable P) {msg : QueueMessage ν} (hmsg : P msg) (uuid : String)
    (now : ν) : (n.replicateEnqueue uuid now msg.toDict).Holds P := by
  rw [replicateEnqueue]
  cases hd : QueueMessage.fromDict uuid now msg.toDict with
  | error e => exact h
  | ok msg' =>
    have hmsg' : P msg' := hP.reread msg uuid now msg' hmsg hd
    show Holds P (if msg'.state = .pending then (n.store msg').requeue msg'.msgId else n.store msg')
    split
    · exact (h.store hmsg').requeue _
    · exact h.store hmsg'

end QueueNode

namespace DurableNode

variable {P : QueueMessage ν → Prop} {s s' : DurableNode ν}

theorem Holds.recoverMessage (h : s.Holds P) (hP : Readable P) {msg : QueueMessage ν} (hmsg : P msg) {r : Recovery ν}
    (hr : r.reply = none) (uuid : String) (now : ν) : (s.recoverMessage r uuid now msg.toDict).Holds P := by
  rw [DurableNode.recoverMessage]
  cases hd : QueueMessage.fromDict uuid now msg.toDict with
  | error e => exact h.with_phase (fun r hr => by cases hr) s.client
  | ok msg' =>
    have hmsg' : P msg' := hP.reread msg uuid now msg' hmsg hd
    have hnode : Holds P { s with node :=
        if msg'.state = .pending then (s.node.store msg').requeue msg'.msgId else s.node.store msg' } := by
      refine h.with_node ?_
      split
      · exact (h.node.store hmsg').requeue _
      · exact h.node.store hmsg'
    exact hnode.with_phase (Recovery.reply_settle hr) s.client

theorem settled_newMessage (s : DurableNode ν) {uuid : String} (hid : uuid ≠ "") {now : ν} (hnow : now ≠ 0)
    (payload : Json ν) (partitionKey : String) : (s.newMessage cfg uuid now payload partitionKey).Settled where
  msgId := hid
  payload := payloadOr_idem payload
  partitionKey := strOr_ne_empty hid
  createdAt := hnow

variable [Sub ν] {cfg : QueueConfig ν}

private theorem check_holds {n : QueueNode ν} (h : n.Holds P) (hretry : ∀ msg, P msg → P msg.retry) (now : ν)
    (e : Snapshot ν) : (QueueNode.check cfg n now e).Holds P := by
  cases e with
  | stored id =>
    rw [QueueNode.check]
    cases hm : n.messages.get? id with
    | none => exact h
    | some msg =>
      have hset : QueueNode.Holds P { n with messages := n.messages.set id msg.retry } :=
        h.set (hretry msg (h.stored id msg hm))
      simp only
      split
      · split
        · exact hset.requeue _
        · exact hset
      · exact h
  | detached msg =>
    rw [QueueNode.check]
    split
    · exact h.requeue _
    · exact h

/-- A handler keeps the property, and the message that it persists has it. -/
theorem Holds.handle (h : s.Holds P) (hP : Lasting P) {a : QueueNode.Action ν}
    (hcopy : ∀ uuid now d, a = .replicate uuid now d → ∃ id, Written P id d) (hstep : s.handle cfg a = some s') :
    s'.Holds P := by
  rw [DurableNode.handle, Option.ite_none_right_eq_some] at hstep
  obtain ⟨hallowed, hstep⟩ := hstep
  obtain ⟨n, hn, rfl⟩ := Option.map_eq_some_iff.1 hstep
  have hnode : n.Holds P ∧ ∀ msg ∈ persisted cfg s.node a, P msg := by
    cases a with
    | enqueue uuid now payload partitionKey => cases hallowed
    | replicate uuid now d =>
      obtain ⟨id, msg, hmsg, -, rfl⟩ := hcopy uuid now d rfl
      obtain rfl : s.node.replicateEnqueue uuid now msg.toDict = n := Option.some.inj hn
      refine ⟨h.node.replicate hP.toReadable hmsg uuid now, fun msg' hmsg' => ?_⟩
      rw [persisted] at hmsg'
      cases hd : QueueMessage.fromDict uuid now msg.toDict with
      | error e =>
        rw [hd] at hmsg'
        cases hmsg'
      | ok msg'' =>
        rw [hd] at hmsg'
        cases hmsg'
        exact hP.reread msg uuid now msg' hmsg hd
    | dequeue now =>
      obtain rfl : s.node.handleDequeue now = n := Option.some.inj hn
      exact h.node.dequeue hP.mark now
    | ack id =>
      obtain rfl : s.node.handleAck id = n := Option.some.inj hn
      rw [QueueNode.handleAck, MessageStore.ack, persisted]
      cases hm : s.node.messages.get? id with
      | none => exact ⟨h.node, fun msg hmsg => by cases hmsg⟩
      | some msg =>
        have hmark := hP.mark msg .completed msg.processingStarted (h.node.stored id msg hm)
        refine ⟨h.node.set hmark, fun msg' hmsg' => ?_⟩
        cases hmsg'
        exact hmark
    | startPass now =>
      obtain ⟨-, rfl⟩ : s.node.pass = none ∧ s.node.startPass now = n := by simpa [QueueNode.step] using hn
      refine ⟨⟨h.node.stored, fun p hp msg hmsg => ?_⟩, fun msg hmsg => by cases hmsg⟩
      cases hp
      simp at hmsg
    | checkNext =>
      obtain ⟨p, hp, rfl⟩ := Option.map_eq_some_iff.1 hn
      rw [QueueNode.checkNext, persisted, hp, Option.bind_some]
      cases hrest : p.rest with
      | nil =>
        refine ⟨⟨h.node.stored, fun p' hp' => by cases hp'⟩, fun msg hmsg => by cases hmsg⟩
      | cons e rest =>
        have he : e ∈ p.rest := by
          rw [hrest]
          exact List.mem_cons_self
        refine ⟨⟨(check_holds h.node hP.retry p.now e).stored, fun p' hp' msg hmsg => ?_⟩, fun msg hmsg => ?_⟩
        · cases hp'
          refine h.node.detached p hp msg ?_
          rw [hrest]
          exact List.mem_cons_of_mem e hmsg
        · simp only [List.head?_cons, Option.bind_some, Option.mem_def, Option.bind_eq_some_iff,
            Option.ite_none_right_eq_some] at hmsg
          obtain ⟨old, hold, -, hretry⟩ := hmsg
          cases hretry
          exact hP.retry old (h.node.current hp he hold)
  cases hpersist : persisted cfg s.node a with
  | none => exact h.with_node hnode.1
  | some msg => exact (h.with_node hnode.1).persist (hnode.2 msg hpersist)

theorem Holds.step (h : s.Holds P) (hP : Readable P) {a : Action ν}
    (hnew : ∀ uuid now payload partitionKey, a = .enqueue uuid now payload partitionKey →
      P (s.newMessage cfg uuid now payload partitionKey))
    (hact : ∀ b, a = .act b → ∀ n, s.handle cfg b = some n → n.Holds P) (hstep : step cfg s a = some s') :
    s'.Holds P := by
  cases effect_of_step hstep with
  | enqueue => exact h.enqueue (hnew _ _ _ _ rfl)
  | act hb => exact hact _ rfl s' hb
  | @land i w hw =>
    refine ⟨h.node, fun id d hd => ?_, fun w' hw' => h.writes w' (List.mem_of_mem_eraseIdx hw'), h.reply⟩
    rw [Dict.get?_set] at hd
    split at hd
    · next hid =>
      cases hd
      rw [hid]
      exact h.writes w (List.mem_of_getElem? hw)
    · exact h.redis id d hd
  | lose => exact ⟨h.node, h.redis, fun w hw => h.writes w (List.mem_of_mem_eraseIdx hw), h.reply⟩
  | expire =>
    refine ⟨h.node, fun id d hd => ?_, h.writes, h.reply⟩
    rw [Dict.get?_erase, Option.ite_none_left_eq_some] at hd
    exact h.redis id d hd.2
  | connect hphase => exact h.with_phase (fun r hr => by cases hr) true
  | pong hphase =>
    refine h.with_phase (fun r hr => ?_) s.client
    cases hr
    rfl
  | noRedis hphase => exact h.with_phase (fun r hr => by cases hr) false
  | scan => exact h.with_phase (Recovery.reply_settle rfl) s.client
  | @read r k rest hphase htodo hreply =>
    refine ⟨h.node, h.redis, h.writes, fun r' d hr' hd => ?_⟩
    cases hr'
    exact ⟨k, List.head?_eq_some_iff.2 ⟨rest, htodo⟩, h.redis k d (Option.some.inj hd)⟩
  | miss => exact h.with_phase (Recovery.reply_settle rfl) s.client
  | found hphase htodo hreply =>
    obtain ⟨k, -, msg, hmsg, -, rfl⟩ := h.reply _ _ hphase hreply
    exact h.recoverMessage hP hmsg rfl _ _
  | giveUp => exact h.with_phase (fun r hr => by cases hr) s.client
  | restart => exact { Holds.empty with redis := h.redis }

/-! ### What a node persists -/

/-- The ids that are drawn are not empty, the clock is past zero, and the copies come from other nodes. -/
def Proper : Action ν → Prop
  | .enqueue uuid now _ _ => uuid ≠ "" ∧ now ≠ 0
  | .act (.replicate _ _ d) => ∃ id, Written QueueMessage.Settled id d
  | _ => True

/-- The messages that Redis has stored for a node are as their constructor left them. -/
theorem persisted_settled (h : Transition.ReachWhile (fun s a s' => DurableNode.step cfg s a = some s')
    (fun _ a => Proper a) {} s) (id : String) (d : MessageDict ν) (hd : s.redis.get? id = some d) :
    Written QueueMessage.Settled id d := by
  have hholds : s.Holds QueueMessage.Settled := by
    refine h.invariant (I := fun s => s.Holds QueueMessage.Settled) .empty fun s a s' _ hs hproper hstep => ?_
    refine hs.step lasting_settled.toReadable ?_ ?_ hstep
    · rintro uuid now payload partitionKey rfl
      exact s.settled_newMessage hproper.1 hproper.2 payload partitionKey
    · rintro b rfl n hn
      refine hs.handle lasting_settled ?_ hn
      rintro uuid now d rfl
      exact hproper
  exact hholds.redis id d hd

end DurableNode

end DistributedSync
