import DistributedSync.Queue.Durable

/-!
# The recovery of a queue node

A node starts with messages that Redis has stored for it, and enqueue requests are handled from the start of the HTTP
server on.  When the recovery is through, the node has all messages as they are stored.  Its queue lists an id for
each enqueue request and for each pending message that `get` has returned, so it lists each pending message once
just if none of these is returned twice, or returned after it has been enqueued (`restored_iff`); the messages are there
in any case (`recovered_messages`).
-/

namespace DistributedSync

/-- A node during its start, the messages that were made for enqueue requests since the start of the HTTP server, and
the messages that `get` has returned to the recovery, with their keys. -/
structure Startup (ν : Type) where
  node : DurableNode ν
  issued : List (QueueMessage ν) := []
  replies : List (String × MessageDict ν) := []

namespace Startup

open DurableNode (Action Written)

variable {ν : Type}

def start (stored : Dict String (MessageDict ν)) : Startup ν where
  node := { redis := stored }

/-- The ids of the enqueue requests. -/
def ids (s : Startup ν) : List String := s.issued.map (·.msgId)

/-- The keys of the pending messages that `get` has returned. -/
def reads (s : Startup ν) : List String := (s.replies.filter fun r => r.2.state = some "pending").map Prod.fst

/-- What `get` has returned, when it is processed. -/
def received (n : DurableNode ν) : Action ν → List (String × MessageDict ν)
  | .process _ _ =>
    match n.phase with
    | .recovering r =>
      match r.todo, r.reply with
      | k :: _, some (some d) => [(k, d)]
      | _, _ => []
    | _ => []
  | _ => []

/-- The steps of a start: those of the node and of Redis, and enqueue requests.  A drawn id is new and not empty, and
the clock is past zero. -/
def step [Number ν] [Sub ν] (cfg : QueueConfig ν) (stored : Dict String (MessageDict ν)) (s : Startup ν) :
    Action ν → Option (Startup ν)
  | .act _ | .restart => none
  | .enqueue uuid now payload partitionKey =>
    if uuid = "" ∨ uuid ∈ stored.keys ∨ uuid ∈ s.ids ∨ now = 0 then none
    else
      let msg := s.node.newMessage cfg uuid now payload partitionKey
      some { s with
        node := s.node.handleEnqueue msg
        issued := s.issued ++ [msg] }
  | a => (DurableNode.step cfg s.node a).map fun n => { s with
      node := n
      replies := s.replies ++ received s.node a }

/-- The recovery has still to deal with the id. -/
def covers (phase : Phase ν) (id : String) : Prop :=
  match phase with
  | .recovering r => (r.last = false ∧ id ∈ r.missing) ∨ id ∈ r.todo
  | .ready true => False
  | .serving | .connecting | .ready false => True

/-! ### Lists of the node -/

private theorem covers_settle {r : Recovery ν} {id : String} (h : (r.last = false ∧ id ∈ r.missing) ∨ id ∈ r.todo) :
    covers r.settle id := by
  rw [Recovery.settle]
  split
  · next hend =>
    rcases h with ⟨hlast, -⟩ | htodo
    · rw [hlast] at hend
      cases hend.1
    · rw [hend.2] at htodo
      cases htodo
  · exact h

/-- The first key has been dealt with, and the others are left. -/
theorem covers_next {r : Recovery ν} {k id : String} {rest : List String} (htodo : r.todo = k :: rest)
    (h : covers (.recovering r) id) : id = k ∨ covers r.next.settle id := by
  rcases h with hmissing | hin
  · exact Or.inr (covers_settle (Or.inl hmissing))
  · rw [htodo] at hin
    rcases List.mem_cons.1 hin with heq | hin
    · exact Or.inl heq
    · refine Or.inr (covers_settle (Or.inr ?_))
      show id ∈ r.todo.tail
      rw [htodo]
      exact hin

/-- The messages when one is put under its id. -/
theorem known_of_set {n n' : QueueNode ν} {msg : QueueMessage ν} (h : n'.messages = n.messages.set msg.msgId msg)
    (id : String) : id ∈ n'.messages.keys ↔ id = msg.msgId ∨ id ∈ n.messages.keys := by
  rw [h]
  exact Dict.mem_keys_set

private theorem reads_append (s : Startup ν) (n : DurableNode ν) (k : String) (msg : QueueMessage ν) :
    reads { s with
      node := n
      replies := s.replies ++ [(k, msg.toDict)] } = s.reads ++ if msg.state = .pending then [k] else [] := by
  have hvalue : msg.toDict.state = some "pending" ↔ msg.state = .pending := by
    show some msg.state.value = some "pending" ↔ msg.state = .pending
    cases msg.state <;> decide
  rw [reads, reads, List.filter_append, List.map_append]
  by_cases hpending : msg.state = .pending
  · rw [List.filter_cons_of_pos (by simpa using hvalue.2 hpending), if_pos hpending]
    rfl
  · rw [List.filter_cons_of_neg (by simpa using mt hvalue.1 hpending), if_neg hpending]
    rfl

private theorem persist_eq (n : DurableNode ν) (msg : QueueMessage ν) :
    (n.persist msg).node = n.node ∧ (n.persist msg).phase = n.phase ∧ (n.persist msg).redis = n.redis ∧
      ∀ w ∈ (n.persist msg).writes, w ∈ n.writes ∨ w.1 = msg.msgId := by
  rw [DurableNode.persist]
  split
  · refine ⟨rfl, rfl, rfl, fun w hw => ?_⟩
    rcases List.mem_append.1 hw with hw | hw
    · exact Or.inl hw
    · rw [List.mem_singleton.1 hw]
      exact Or.inr rfl
  · exact ⟨rfl, rfl, rfl, fun w hw => Or.inl hw⟩

/-! ### The invariant -/

variable [Number ν] (cfg : QueueConfig ν) (stored : Dict String (MessageDict ν))

/-- The messages that a node has persisted are as their constructor left them (`persisted_settled`). -/
def Persisted : Prop := ∀ id d, stored.get? id = some d → Written QueueMessage.Settled id d

/-- What a recovery is for: the stored messages are there, and the queue lists the pending ones, each once. -/
structure Restored (n : DurableNode ν) : Prop where
  messages : ∀ id d, n.redis.get? id = some d → ∃ msg, n.node.messages.get? id = some msg ∧ msg.toDict = d
  once : ∀ id msg, n.node.messages.get? id = some msg → msg.state = .pending → n.node.pendingQueue.count id = 1
  only : ∀ id ∈ n.node.pendingQueue, ∃ msg, n.node.messages.get? id = some msg ∧ msg.state = .pending

/-- A message that was stored, or made for a request. -/
def Orig (s : Startup ν) (msg : QueueMessage ν) : Prop :=
  (msg.Settled ∧ stored.get? msg.msgId = some msg.toDict) ∨ msg ∈ s.issued

structure Inv (s : Startup ν) : Prop where
  issued : ∀ msg ∈ s.issued, msg.Settled ∧ msg.state = .pending ∧ msg.msgId ∉ stored.keys ∧
    msg.msgId ∈ s.node.node.messages.keys
  distinct : s.ids.Nodup
  holds : s.node.Holds (Orig stored s)
  keyed : s.node.node.Keyed
  writes : ∀ w ∈ s.node.writes, w.1 ∈ s.node.node.messages.keys
  missed : ∀ r, s.node.phase = .recovering r → r.reply = some none → ∀ k ∈ r.todo.head?, k ∈ s.node.redis.keys →
    k ∈ s.node.node.messages.keys
  covered : ∀ id ∈ s.node.redis.keys, id ∈ s.node.node.messages.keys ∨ covers s.node.phase id
  queue : s.node.node.pendingQueue.Perm (s.ids ++ s.reads)
  pending : ∀ id, (∃ msg, s.node.node.messages.get? id = some msg ∧ msg.state = .pending) ↔
    id ∈ s.ids ++ s.reads

variable {cfg stored} {s s' : Startup ν}

theorem Inv.settled (h : Inv stored s) {msg : QueueMessage ν} (hmsg : Orig stored s msg) : msg.Settled := by
  rcases hmsg with ⟨hset, -⟩ | hissued
  · exact hset
  · exact (h.issued msg hissued).1

/-- The ids tell the messages apart. -/
theorem Inv.unique (h : Inv stored s) {msg msg' : QueueMessage ν} (hmsg : Orig stored s msg)
    (hmsg' : Orig stored s msg') (hid : msg.msgId = msg'.msgId) : msg = msg' := by
  rcases hmsg with ⟨hset, hget⟩ | hissued
  · rcases hmsg' with ⟨hset', hget'⟩ | hissued'
    · rw [hid, hget'] at hget
      exact (hset'.eq_of_toDict hset (Option.some.inj hget)).symm
    · exact absurd (Dict.mem_keys.2 ⟨_, hid ▸ hget⟩) (h.issued msg' hissued').2.2.1
  · rcases hmsg' with ⟨-, hget'⟩ | hissued'
    · exact absurd (Dict.mem_keys.2 ⟨_, hid ▸ hget'⟩) (h.issued msg hissued).2.2.1
    · exact List.inj_on_of_nodup_map h.distinct hissued hissued' hid

private theorem Inv.readable (h : Inv stored s) : Readable (Orig stored s) where
  reread msg uuid now msg' hmsg hread := by
    rw [(h.settled hmsg).fromDict_toDict] at hread
    cases hread
    exact hmsg

private theorem inv_start (hstored : Persisted stored) : Inv stored (start stored) where
  issued msg hmsg := by cases hmsg
  distinct := List.nodup_nil
  holds := by
    have hempty : ({} : DurableNode ν).Holds (Orig stored (start stored)) := .empty
    refine { hempty with redis := fun id d hd => ?_ }
    obtain ⟨msg, hset, hid, rfl⟩ := hstored id d hd
    exact ⟨msg, Or.inl ⟨hset, hid ▸ hd⟩, hid, rfl⟩
  keyed id msg hm := by cases hm
  writes w hw := by cases hw
  missed r hr := by cases hr
  covered id _ := Or.inr trivial
  queue := List.Perm.refl []
  pending id := by simp [start, Dict.get?, Dict.empty, ids, reads]

/-! ### Steps of the node and of Redis -/

/-- A step that leaves the messages and the queue of the node as they are. -/
theorem Inv.of_node (h : Inv stored s) {n : DurableNode ν} (hnode : n.node = s.node.node)
    (hholds : n.Holds (Orig stored s)) (hwrites : ∀ w ∈ n.writes, w.1 ∈ s.node.node.messages.keys)
    (hmissed : ∀ r, n.phase = .recovering r → r.reply = some none → ∀ k ∈ r.todo.head?, k ∈ n.redis.keys →
      k ∈ s.node.node.messages.keys)
    (hcovered : ∀ id ∈ n.redis.keys, id ∈ s.node.node.messages.keys ∨ covers n.phase id) :
    Inv stored { s with node := n } := by
  refine ⟨?_, h.distinct, hholds, ?_, ?_, ?_, ?_, ?_, ?_⟩
  · show ∀ msg ∈ s.issued, _ ∧ _ ∧ _ ∧ msg.msgId ∈ n.node.messages.keys
    rw [hnode]
    exact h.issued
  · show n.node.Keyed
    rw [hnode]
    exact h.keyed
  · show ∀ w ∈ n.writes, w.1 ∈ n.node.messages.keys
    rw [hnode]
    exact hwrites
  · show ∀ r, n.phase = .recovering r → r.reply = some none → ∀ k ∈ r.todo.head?, k ∈ n.redis.keys →
      k ∈ n.node.messages.keys
    rw [hnode]
    exact hmissed
  · show ∀ id ∈ n.redis.keys, id ∈ n.node.messages.keys ∨ covers n.phase id
    rw [hnode]
    exact hcovered
  · show n.node.pendingQueue.Perm (s.ids ++ s.reads)
    rw [hnode]
    exact h.queue
  · show ∀ id, (∃ msg, n.node.messages.get? id = some msg ∧ msg.state = .pending) ↔ id ∈ s.ids ++ s.reads
    rw [hnode]
    exact h.pending

/-- A message that is read is stored under its key, and queued when it is pending. -/
theorem recoverMessage_eq (n : DurableNode ν) (r : Recovery ν) (uuid : String) (now : ν) {msg : QueueMessage ν}
    (hmsg : msg.Settled) :
    (n.recoverMessage r uuid now msg.toDict).node.messages = n.node.messages.set msg.msgId msg ∧
      (n.recoverMessage r uuid now msg.toDict).node.pendingQueue =
        n.node.pendingQueue ++ (if msg.state = .pending then [msg.msgId] else []) ∧
      (n.recoverMessage r uuid now msg.toDict).phase = r.settle ∧
      (n.recoverMessage r uuid now msg.toDict).redis = n.redis ∧
      (n.recoverMessage r uuid now msg.toDict).writes = n.writes := by
  rw [DurableNode.recoverMessage, hmsg.fromDict_toDict]
  by_cases hpending : msg.state = .pending
  · simp [hpending, QueueNode.store, QueueNode.requeue, MessageStore.put, MessageStore.append]
  · simp [hpending, QueueNode.store, MessageStore.put]

/-- The reply is processed. -/
theorem Inv.found (h : Inv stored s) {r : Recovery ν} {k : String} {rest : List String} {d : MessageDict ν}
    {uuid : String} {now : ν} (hphase : s.node.phase = .recovering r) (htodo : r.todo = k :: rest)
    (hreply : r.reply = some (some d)) (hholds : (s.node.recoverMessage r.next uuid now d).Holds (Orig stored s)) :
    Inv stored { s with
      node := s.node.recoverMessage r.next uuid now d
      replies := s.replies ++ [(k, d)] } := by
  obtain ⟨k', hk', msg, hmsg, hid, rfl⟩ := h.holds.reply r d hphase hreply
  obtain rfl : k = k' := by
    rw [htodo] at hk'
    exact Option.some.inj hk'
  subst hid
  have hsettled : msg.Settled := h.settled hmsg
  obtain ⟨hmessages, hqueue, hnext, hredis, hwrites⟩ := recoverMessage_eq s.node r.next uuid now hsettled
  have hreads := reads_append s (s.node.recoverMessage r.next uuid now msg.toDict) msg.msgId msg
  have hgrow : ∀ id, id ∈ s.node.node.messages.keys →
      id ∈ (s.node.recoverMessage r.next uuid now msg.toDict).node.messages.keys :=
    fun id hknown => (known_of_set hmessages id).2 (Or.inr hknown)
  refine ⟨fun msg' hmsg' => ?_, h.distinct, hholds, ?_, fun w hw => ?_, fun r' hr' hmiss => ?_, fun id hkeys => ?_, ?_,
    fun id => ?_⟩
  · obtain ⟨hset, hpending, hout, hknown⟩ := h.issued msg' hmsg'
    exact ⟨hset, hpending, hout, hgrow _ hknown⟩
  · exact h.keyed.set hmessages rfl
  · rw [hwrites] at hw
    exact hgrow _ (h.writes w hw)
  · rw [hnext] at hr'
    rw [DurableNode.Recovery.reply_settle rfl r' hr'] at hmiss
    cases hmiss
  · rw [hredis] at hkeys
    rw [hnext]
    rcases h.covered id hkeys with hknown | hcovers
    · exact Or.inl (hgrow id hknown)
    · rw [hphase] at hcovers
      exact (covers_next htodo hcovers).imp_left fun heq => (known_of_set hmessages id).2 (Or.inl heq)
  · rw [hreads, ← List.append_assoc, hqueue]
    exact h.queue.append_right _
  · have hbefore := h.pending id
    rw [hreads, ← List.append_assoc, List.mem_append]
    show (∃ msg', (s.node.recoverMessage r.next uuid now msg.toDict).node.messages.get? id = some msg' ∧
      msg'.state = .pending) ↔ id ∈ s.ids ++ s.reads ∨ _
    rw [← hbefore, hmessages, Dict.get?_set]
    by_cases heq : id = msg.msgId
    · subst heq
      by_cases hpending : msg.state = .pending
      · simp [hpending]
      · simp only [if_true, Option.some.injEq, if_neg hpending, List.not_mem_nil, or_false]
        constructor
        · rintro ⟨msg', rfl, hpending'⟩
          exact absurd hpending' hpending
        · -- the message that was there is the same one
          rintro ⟨msg', hm', hpending'⟩
          have hsame : msg' = msg :=
            h.unique (h.holds.node.stored _ _ hm') hmsg (h.keyed _ _ hm')
          exact ⟨msg, rfl, hsame ▸ hpending'⟩
    · rw [if_neg heq]
      split
      · simp [heq]
      · simp

/-! ### Enqueue requests -/

/-- The messages of the node come from Redis and from requests. -/
theorem Inv.notMem_of_new (h : Inv stored s) {uuid : String} (hstored : uuid ∉ stored.keys) (hids : uuid ∉ s.ids) :
    uuid ∉ s.node.node.messages.keys := by
  intro hmem
  obtain ⟨msg, hm⟩ := Dict.mem_keys.1 hmem
  have hid : msg.msgId = uuid := h.keyed uuid msg hm
  rcases h.holds.node.stored uuid msg hm with ⟨-, hget⟩ | hissued
  · rw [hid] at hget
    exact hstored (Dict.mem_keys.2 ⟨_, hget⟩)
  · exact hids (List.mem_map.2 ⟨msg, hissued, hid⟩)

theorem Inv.enqueue (h : Inv stored s) {msg : QueueMessage ν} (hsettled : msg.Settled) (hpending : msg.state = .pending)
    (hstored : msg.msgId ∉ stored.keys) (hids : msg.msgId ∉ s.ids) :
    Inv stored { s with
      node := s.node.handleEnqueue msg
      issued := s.issued ++ [msg] } := by
  have hnew := h.notMem_of_new hstored hids
  obtain ⟨hnode, hphase, hredis, hwrites⟩ :=
    persist_eq { s.node with node := (s.node.node.store msg).requeue msg.msgId } msg
  have hmessages : (s.node.handleEnqueue msg).node.messages = s.node.node.messages.set msg.msgId msg :=
    congrArg (fun n : QueueNode ν => n.messages) hnode
  have hqueue : (s.node.handleEnqueue msg).node.pendingQueue = s.node.node.pendingQueue ++ [msg.msgId] :=
    congrArg (fun n : QueueNode ν => n.pendingQueue) hnode
  have hgrow : ∀ id, id ∈ s.node.node.messages.keys → id ∈ (s.node.handleEnqueue msg).node.messages.keys :=
    fun id hknown => (known_of_set hmessages id).2 (Or.inr hknown)
  have hself : msg.msgId ∈ (s.node.handleEnqueue msg).node.messages.keys :=
    (known_of_set hmessages _).2 (Or.inl rfl)
  have hidsEq : (s.issued ++ [msg]).map (·.msgId) = s.ids ++ [msg.msgId] := List.map_append
  have hmono : ∀ msg', Orig stored s msg' → Orig stored { s with
      node := s.node.handleEnqueue msg
      issued := s.issued ++ [msg] } msg' := by
    rintro msg' (hold | hissued)
    · exact Or.inl hold
    · exact Or.inr (List.mem_append_left _ hissued)
  refine ⟨fun msg' hmsg' => ?_, ?_, ?_, ?_, fun w hw => ?_, fun r hr hmiss k hk hkeys => ?_, fun id hid => ?_, ?_,
    fun id => ?_⟩
  · rcases List.mem_append.1 hmsg' with hmsg' | hmsg'
    · obtain ⟨hset, hpend, hout, hknown⟩ := h.issued msg' hmsg'
      exact ⟨hset, hpend, hout, hgrow _ hknown⟩
    · rw [List.mem_singleton.1 hmsg']
      exact ⟨hsettled, hpending, hstored, hself⟩
  · show ((s.issued ++ [msg]).map (·.msgId)).Nodup
    rw [hidsEq]
    exact h.distinct.append (List.nodup_singleton _) (List.disjoint_singleton.2 hids)
  · exact (h.holds.mono hmono).enqueue (Or.inr (List.mem_append_right _ (List.mem_singleton_self _)))
  · exact h.keyed.set hmessages rfl
  · rcases hwrites w hw with hw | hw
    · exact hgrow _ (h.writes w hw)
    · show w.1 ∈ (s.node.handleEnqueue msg).node.messages.keys
      rw [hw]
      exact hself
  · exact hgrow k (h.missed r (hphase.symm.trans hr) hmiss k hk (hredis ▸ hkeys))
  · show id ∈ (s.node.handleEnqueue msg).node.messages.keys ∨ covers (s.node.handleEnqueue msg).phase id
    rcases h.covered id (hredis ▸ hid) with hknown | hcovers
    · exact Or.inl (hgrow id hknown)
    · exact Or.inr (hphase ▸ hcovers)
  · show (s.node.handleEnqueue msg).node.pendingQueue.Perm ((s.issued ++ [msg]).map (·.msgId) ++ s.reads)
    rw [hqueue, hidsEq, List.append_assoc]
    refine (h.queue.append_right [msg.msgId]).trans ?_
    rw [List.append_assoc]
    exact List.perm_append_comm.append_left s.ids
  · show (∃ msg', (s.node.handleEnqueue msg).node.messages.get? id = some msg' ∧ msg'.state = .pending) ↔
      id ∈ (s.issued ++ [msg]).map (·.msgId) ++ s.reads
    have hbefore := h.pending id
    rw [hmessages, hidsEq, Dict.get?_set]
    by_cases heq : id = msg.msgId
    · simp [heq, hpending]
    · rw [if_neg heq, hbefore]
      simp [heq]

/-! ### The end of the recovery -/

/-- When the recovery is through, every stored message is there with its content. -/
theorem Inv.messages_of_ready (h : Inv stored s) (hready : s.node.phase = .ready true) {id : String}
    {d : MessageDict ν} (hd : s.node.redis.get? id = some d) :
    ∃ msg, s.node.node.messages.get? id = some msg ∧ msg.toDict = d := by
  have hknown : id ∈ s.node.node.messages.keys := by
    rcases h.covered id (Dict.mem_keys.2 ⟨d, hd⟩) with hknown | hcovers
    · exact hknown
    · rw [hready] at hcovers
      exact hcovers.elim
  obtain ⟨msg, hm⟩ := Dict.mem_keys.1 hknown
  obtain ⟨msg', hmsg', hid', rfl⟩ := h.holds.redis id d hd
  have hsame : msg = msg' :=
    h.unique (h.holds.node.stored id msg hm) hmsg' ((h.keyed id msg hm).trans hid'.symm)
  exact ⟨msg, hm, congrArg _ hsame⟩

/-- When the recovery is through, the queue is as it should be just if no id has come twice. -/
theorem Inv.restored_of_ready (h : Inv stored s) (hready : s.node.phase = .ready true) :
    Restored s.node ↔ (s.ids ++ s.reads).Nodup := by
  constructor
  · intro hrestored
    rw [← h.queue.nodup_iff, List.nodup_iff_count_le_one]
    intro id
    by_cases hmem : id ∈ s.node.node.pendingQueue
    · obtain ⟨msg, hm, hpending⟩ := hrestored.only id hmem
      exact Nat.le_of_eq (hrestored.once id msg hm hpending)
    · rw [List.count_eq_zero.2 hmem]
      exact Nat.zero_le 1
  · intro hnodup
    refine ⟨fun id d hd => h.messages_of_ready hready hd, fun id msg hm hpending => ?_, fun id hid => ?_⟩
    · rw [h.queue.count_eq]
      exact List.count_eq_one_of_mem hnodup ((h.pending id).1 ⟨msg, hm, hpending⟩)
    · exact (h.pending id).2 (h.queue.mem_iff.1 hid)

/-! ### Runs -/

variable [Sub ν]

theorem Inv.redis (h : Inv stored s) {a : Action ν} {n : DurableNode ν} (hstart : ∀ b, a ≠ .act b)
    (henqueue : ∀ uuid now payload partitionKey, a ≠ .enqueue uuid now payload partitionKey) (hrestart : a ≠ .restart)
    (hn : DurableNode.step cfg s.node a = some n) :
    Inv stored { s with
      node := n
      replies := s.replies ++ received s.node a } := by
  have hholds : n.Holds (Orig stored s) := by
    refine h.holds.step h.readable ?_ (fun b hb => absurd hb (hstart b)) hn
    exact fun uuid now payload partitionKey ha => absurd ha (henqueue uuid now payload partitionKey)
  have hno : ∀ {n' : DurableNode ν}, Inv stored { s with node := n' } → Inv stored { s with
      node := n'
      replies := s.replies ++ [] } := by
    intro n' hn'
    rw [List.append_nil]
    exact hn'
  cases DurableNode.effect_of_step hn with
  | enqueue => exact absurd rfl (henqueue _ _ _ _)
  | act => exact absurd rfl (hstart _)
  | restart => exact absurd rfl hrestart
  | @land i w hw =>
    have hknown : w.1 ∈ s.node.node.messages.keys := h.writes w (List.mem_of_getElem? hw)
    refine hno (h.of_node rfl hholds (fun w' hw' => h.writes w' (List.mem_of_mem_eraseIdx hw')) ?_ ?_)
    · intro r hr hreply k hk hkeys
      rcases Dict.mem_keys_set.1 hkeys with rfl | hkeys
      · exact hknown
      · exact h.missed r hr hreply k hk hkeys
    · intro id hid
      rcases Dict.mem_keys_set.1 hid with rfl | hid
      · exact Or.inl hknown
      · exact h.covered id hid
  | lose => exact hno (h.of_node rfl hholds (fun w hw => h.writes w (List.mem_of_mem_eraseIdx hw)) h.missed h.covered)
  | @expire msgId =>
    have hsub : ∀ k ∈ (s.node.redis.erase msgId).keys, k ∈ s.node.redis.keys :=
      (List.filter_sublist.map Prod.fst).subset
    refine hno (h.of_node rfl hholds h.writes ?_ fun id hid => h.covered id (hsub id hid))
    exact fun r hr hreply k hk hkeys => h.missed r hr hreply k hk (hsub k hkeys)
  | connect =>
    exact hno (h.of_node rfl hholds h.writes (fun r hr => by cases hr) fun id _ => Or.inr trivial)
  | pong =>
    refine hno (h.of_node rfl hholds h.writes (fun r hr hreply => ?_) fun id hid => Or.inr (Or.inl ⟨rfl, hid⟩))
    cases hr
    cases hreply
  | noRedis =>
    exact hno (h.of_node rfl hholds h.writes (fun r hr => by cases hr) fun id _ => Or.inr trivial)
  | @scan r keys last hphase htodo hlast hcover =>
    refine hno (h.of_node rfl hholds h.writes (fun r' hr' hreply => ?_) fun id hid => ?_)
    · rw [DurableNode.Recovery.reply_settle rfl r' hr'] at hreply
      cases hreply
    · rcases h.covered id hid with hknown | hcovers
      · exact Or.inl hknown
      · rw [hphase] at hcovers
        have hmissing : id ∈ r.missing := by
          rcases hcovers with ⟨-, hmissing⟩ | hin
          · exact hmissing
          · rw [htodo] at hin
            cases hin
        refine Or.inr (covers_settle ?_)
        by_cases hkeys : id ∈ keys
        · exact Or.inr hkeys
        · cases last with
          | true => exact absurd (hcover rfl id hmissing hid) hkeys
          | false => exact Or.inl ⟨rfl, List.mem_filter.2 ⟨hmissing, by simpa using hkeys⟩⟩
  | @read r k rest hphase htodo hreply =>
    refine hno (h.of_node rfl hholds h.writes (fun r' hr' hmiss k' hk' hkeys => ?_) fun id hid => ?_)
    · cases hr'
      -- a key that is stored is found
      simp only [htodo, List.head?_cons, Option.mem_def, Option.some.injEq] at hk' hmiss
      obtain ⟨d, hd⟩ := Dict.mem_keys.1 hkeys
      rw [hk', hd] at hmiss
      cases hmiss
    · have hcovered := h.covered id hid
      rw [hphase] at hcovered
      exact hcovered
  | @miss r k rest uuid now hphase htodo hreply =>
    have hreceived : received s.node (.process uuid now) = [] := by
      simp [received, hphase, htodo, hreply]
    rw [hreceived]
    refine hno (h.of_node rfl hholds h.writes (fun r' hr' hmiss => ?_) fun id hid => ?_)
    · rw [DurableNode.Recovery.reply_settle rfl r' hr'] at hmiss
      cases hmiss
    · rcases h.covered id hid with hknown | hcovers
      · exact Or.inl hknown
      · rw [hphase] at hcovers
        refine (covers_next htodo hcovers).imp_left fun heq => h.missed r hphase hreply id ?_ hid
        rw [htodo, heq]
        rfl
  | @found r k rest d uuid now hphase htodo hreply =>
    have hreceived : received s.node (.process uuid now) = [(k, d)] := by
      simp [received, hphase, htodo, hreply]
    rw [hreceived]
    exact h.found hphase htodo hreply hholds
  | giveUp =>
    exact hno (h.of_node rfl hholds h.writes (fun r hr => by cases hr) fun id _ => Or.inr trivial)

theorem Inv.step (h : Inv stored s) {a : Action ν} (hstep : Startup.step cfg stored s a = some s') : Inv stored s' := by
  cases a with
  | act b => cases hstep
  | restart => cases hstep
  | enqueue uuid now payload partitionKey =>
    rw [Startup.step] at hstep
    split at hstep
    · cases hstep
    · next hnew =>
      cases hstep
      simp only [not_or] at hnew
      obtain ⟨hne, hstored, hids, hnow⟩ := hnew
      exact h.enqueue (s.node.settled_newMessage hne hnow payload partitionKey) rfl hstored hids
  | land | lose | expire | connect | pong | noRedis | scan | read | process | giveUp =>
    simp only [Startup.step, Option.map_eq_some_iff] at hstep
    obtain ⟨n, hn, rfl⟩ := hstep
    exact h.redis (by simp) (by simp) (by simp) hn

theorem inv_of_run (hstored : Persisted stored) {as : List (Action ν)}
    (hrun : Transition.run (step cfg stored) (start stored) as = some s) : Inv stored s :=
  (Transition.reach_of_run hrun).invariant (inv_start hstored) fun _ _ _ _ hs _ hstep => hs.step hstep

/-- After every start that recovers the stored messages, the node has all of them, whatever SCAN returned. -/
theorem recovered_messages (hstored : Persisted stored) {as : List (Action ν)}
    (hrun : Transition.run (step cfg stored) (start stored) as = some s) (hready : s.node.phase = .ready true)
    {id : String} {d : MessageDict ν} (hd : s.node.redis.get? id = some d) :
    ∃ msg, s.node.node.messages.get? id = some msg ∧ msg.toDict = d :=
  (inv_of_run hstored hrun).messages_of_ready hready hd

/-- After every start that recovers the stored messages, the node has all of them and queues each pending one once,
just if no pending message was returned to the recovery twice, or after it had been enqueued. -/
theorem restored_iff (hstored : Persisted stored) {as : List (Action ν)}
    (hrun : Transition.run (step cfg stored) (start stored) as = some s) (hready : s.node.phase = .ready true) :
    Restored s.node ↔ (s.ids ++ s.reads).Nodup :=
  (inv_of_run hstored hrun).restored_of_ready hready

/-- A pending message in Redis. -/
def sampleMessage : QueueMessage Int where
  msgId := "m"
  payload := .obj []
  partitionKey := "k"
  createdAt := 1

def sampleStored : Dict String (MessageDict Int) := Dict.empty.set "m" sampleMessage.toDict

private theorem persisted_sampleStored : Persisted sampleStored := by
  intro id d hd
  rw [sampleStored, Dict.get?_set] at hd
  split at hd
  · next hid =>
    cases hd
    exact ⟨sampleMessage, ⟨by decide, rfl, by decide, by decide⟩, hid.symm, rfl⟩
  · cases hd

/-- A message is enqueued while the stored one is recovered. -/
theorem restored_run : ∃ s : Startup Int, s.node.node.pendingQueue = ["u", "m"] ∧ Restored s.node := by
  let cfg := QueueCluster.nodesOf ["a"] 1 String.length "a"
  have hrun : (Transition.run (step cfg sampleStored) (start sampleStored) [.connect, .enqueue "u" 2 (.num 1) "k",
      .pong, .scan ["m"] true, .land 0, .read, .process "v" 3]).map (fun s =>
      (s.node.node.pendingQueue, s.ids ++ s.reads)) = some (["u", "m"], ["u", "m"]) := by rfl
  have hphase : (Transition.run (step cfg sampleStored) (start sampleStored) [.connect, .enqueue "u" 2 (.num 1) "k",
      .pong, .scan ["m"] true, .land 0, .read, .process "v" 3]).map (fun s => s.node.phase) = some (.ready true) := rfl
  obtain ⟨s, hs, hobs⟩ := Option.map_eq_some_iff.1 hrun
  rw [hs, Option.map_some, Option.some.injEq] at hphase
  obtain ⟨hqueue, hids⟩ := Prod.mk.inj hobs
  refine ⟨s, hqueue, (restored_iff persisted_sampleStored hs hphase).2 ?_⟩
  rw [hids]
  decide

/-- A key that SCAN returns twice queues its message twice. -/
theorem repeated_key_queued_twice : ¬∀ (stored : Dict String (MessageDict Int)), Persisted stored →
    ∀ (as : List (Action Int)) (s : Startup Int),
      Transition.run (step (QueueCluster.nodesOf ["a"] 1 String.length "a") stored) (start stored) as = some s →
      s.node.phase = .ready true → Restored s.node := by
  intro hall
  let as : List (Action Int) := [.connect, .pong, .scan ["m", "m"] true, .read, .process "v" 3, .read, .process "v" 4]
  have hrun : (Transition.run (step (QueueCluster.nodesOf ["a"] 1 String.length "a") sampleStored)
      (start sampleStored) as).map (fun s => (s.node.phase, s.node.node.pendingQueue, s.node.node.messages.get? "m")) =
      some (.ready true, ["m", "m"], some sampleMessage) := by rfl
  obtain ⟨s, hs, hobs⟩ := Option.map_eq_some_iff.1 hrun
  simp only [Prod.mk.injEq] at hobs
  obtain ⟨hphase, hqueue, hmsg⟩ := hobs
  have honce := (hall sampleStored persisted_sampleStored as s hs hphase).once "m" sampleMessage hmsg rfl
  rw [hqueue] at honce
  exact absurd honce (by decide)

end Startup

end DistributedSync
