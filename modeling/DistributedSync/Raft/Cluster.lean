import Mathlib.Data.List.Perm.Basic
import DistributedSync.Library.Transition
import DistributedSync.Raft.Node

/-!
# A cluster of Raft nodes

The step relation of a cluster.  A step runs one atomic piece of code on one node: an election timeout, the count
at the end of an election, a round of `_replicate_entries`, a call of `propose` or its return, the delivery of a
request or of the reply to one.  Any packet in flight may be delivered next or lost; a delivered packet is gone, so
nothing is duplicated.  No step restarts a node.

`history` records what happened, for statements about the past; no step reads it.
-/

namespace DistributedSync.Raft

/-- Nodes with distinct ids, each having all the others as peers, in any order. -/
structure ClusterConfig (ι : Type) [DecidableEq ι] where
  ids : List ι
  nodup : ids.Nodup
  peers : ι → List ι
  peers_perm : ∀ a ∈ ids, (peers a).Perm (ids.erase a)

/-- A request on its way to `dst`, or the reply of `src` to `msg` on its way back to the sender of `msg`. -/
inductive Packet (ι κ : Type) where
  | request (dst : ι) (msg : RaftMessage ι κ)
  | reply (src : ι) (msg : RaftMessage ι κ) (resp : Reply ι)

inductive Event (ι κ : Type) where
  /-- `_start_election`: the node votes for itself in the new term -/
  | started (node : ι) (term : Nat) (log : List (LogEntry κ))
  /-- `_become_leader` -/
  | elected (node : ι) (term : Nat) (log : List (LogEntry κ))
  /-- a request handed to the network -/
  | sent (dst : ι) (msg : RaftMessage ι κ)
  /-- `handle_message` returned `resp` -/
  | answered (node : ι) (msg : RaftMessage ι κ) (resp : Reply ι)

structure Cluster (ι κ : Type) where
  nodes : ι → RaftNode ι κ
  network : List (Packet ι κ)
  history : List (Event ι κ)

inductive Action (ι κ : Type) where
  | startElection (a : ι)
  | countVotes (a : ι)
  | replicate (a : ι)
  | propose (a : ι) (command : κ)
  | proposeReturn (a : ι) (call : Nat)
  | proposeTimeout (a : ι) (call : Nat)
  | deliver (k : Nat)
  | lose (k : Nat)

variable {ι κ : Type}

/-- At most one node has ever entered `LEADER` in each term. -/
def OneLeader (s : Cluster ι κ) : Prop :=
  ∀ a b t ℓ ℓ', Event.elected a t ℓ ∈ s.history → Event.elected b t ℓ' ∈ s.history → a = b

/-- The node and the term of an entry into `LEADER`. -/
def Event.leadership : Event ι κ → Option (ι × Nat)
  | .elected a t _ => some (a, t)
  | _ => none

private theorem mem_leadership {h : List (Event ι κ)} {a : ι} {t : Nat} :
    (a, t) ∈ h.filterMap Event.leadership ↔ ∃ ℓ, .elected a t ℓ ∈ h := by
  simp only [List.mem_filterMap]
  constructor
  · rintro ⟨e, he, hl⟩
    cases e with
    | elected b u ℓ =>
      simp only [Event.leadership, Option.some.injEq, Prod.mk.injEq] at hl
      obtain ⟨rfl, rfl⟩ := hl
      exact ⟨ℓ, he⟩
    | started b u ℓ => cases hl
    | sent dst msg => cases hl
    | answered b msg resp => cases hl
  · rintro ⟨ℓ, he⟩
    exact ⟨_, he, rfl⟩

private theorem oneLeader_iff {s : Cluster ι κ} : OneLeader s ↔ ∀ x ∈ s.history.filterMap Event.leadership,
    ∀ y ∈ s.history.filterMap Event.leadership, x.2 = y.2 → x.1 = y.1 := by
  constructor
  · rintro h ⟨a, t⟩ ha ⟨b, u⟩ hb heq
    obtain rfl : t = u := heq
    obtain ⟨ℓ, hℓ⟩ := mem_leadership.1 ha
    obtain ⟨ℓ', hℓ'⟩ := mem_leadership.1 hb
    exact h a b t ℓ ℓ' hℓ hℓ'
  · intro h a b t ℓ ℓ' ha hb
    exact h _ (mem_leadership.2 ⟨ℓ, ha⟩) _ (mem_leadership.2 ⟨ℓ', hb⟩) rfl

variable [DecidableEq ι]

instance (s : Cluster ι κ) : Decidable (OneLeader s) := decidable_of_iff _ oneLeader_iff.symm

def ClusterConfig.self (cfg : ClusterConfig ι) (a : ι) : Self ι := ⟨a, cfg.peers a⟩

def Cluster.init : Cluster ι κ := ⟨fun _ => {}, [], []⟩

/-- Node `a` becomes `n`, the packets in flight become `net` and the requests `reqs`, and `evs` is recorded. -/
def Cluster.act (s : Cluster ι κ) (a : ι) (n : RaftNode ι κ) (net : List (Packet ι κ))
    (reqs : List (ι × RaftMessage ι κ)) (evs : List (Event ι κ)) : Cluster ι κ where
  nodes := Function.update s.nodes a n
  network := net ++ reqs.map fun r => .request r.1 r.2
  history := s.history ++ evs ++ reqs.map fun r => .sent r.1 r.2

/-- The response of `src` to the broadcast of the running election; a late one finds no one waiting. -/
def collectVote (s : RaftNode ι κ) (src : ι) (msg : RaftMessage ι κ) (resp : Reply ι) : RaftNode ι κ :=
  match s.election with
  | none => s
  | some el =>
    if el.term = msg.term then
      { s with election := some { el with responses := Function.update el.responses src (some resp) } }
    else s

/-- The sender of `msg` gets the reply: the task that waits for it goes on. -/
def receiveReply (me : Self ι) (s : RaftNode ι κ) (src : ι) (msg : RaftMessage ι κ) (resp : Reply ι) :
    RaftNode ι κ :=
  match msg.msgType with
  | .voteRequest => collectVote s src msg resp
  | .appendEntries => (processAeResp me s src msg resp).state
  | _ => s

/-- The reply packet and the event of a handled request; a handler that raises answers with an error status, which
the sender drops. -/
def answer (dst : ι) (msg : RaftMessage ι κ) (result : Except PyError (Reply ι)) :
    List (Packet ι κ) × List (Event ι κ) :=
  match result with
  | .ok resp => ([.reply dst msg resp], [.answered dst msg resp])
  | .error _ => ([], [])

def deliver (cfg : ClusterConfig ι) (s : Cluster ι κ) (net : List (Packet ι κ)) : Packet ι κ → Cluster ι κ
  | .request dst msg =>
    let o := handleMessage (cfg.self dst) (s.nodes dst) msg
    s.act dst o.state (net ++ (answer dst msg o.result).1) [] (answer dst msg o.result).2
  | .reply src msg resp =>
    s.act msg.senderId (receiveReply (cfg.self msg.senderId) (s.nodes msg.senderId) src msg resp) net [] []

/-- The `VOTE_REQUEST` of the node `n` to each of its peers. -/
def broadcastVote (me : Self ι) (n : RaftNode ι κ) : List (ι × RaftMessage ι κ) :=
  me.peers.map fun p => (p, voteRequest me n)

def step (cfg : ClusterConfig ι) (s : Cluster ι κ) : Action ι κ → Option (Cluster ι κ)
  | .startElection a =>
    let n := startElection (cfg.self a) (s.nodes a)
    if a ∈ cfg.ids ∧ (s.nodes a).state ≠ .leader ∧ (s.nodes a).election.isNone then
      some (s.act a n s.network (broadcastVote (cfg.self a) n) [.started a n.currentTerm n.log])
    else none
  | .countVotes a =>
    let n := s.nodes a
    n.election.map fun el => s.act a (countVotes (cfg.self a) n el) s.network []
      (if wins (cfg.self a) n el then [.elected a n.currentTerm n.log] else [])
  | .replicate a => some (s.act a (s.nodes a) s.network (replicateEntries (cfg.self a) (s.nodes a)) [])
  | .propose a command =>
    let n := propose (s.nodes a) command
    if (s.nodes a).state = .leader then some (s.act a n s.network (replicateEntries (cfg.self a) n) []) else none
  | .proposeReturn a call => (s.nodes a).calls[call]?.bind fun c =>
    if c.future = .resolved ∧ c.returned = none then
      some (s.act a (proposeReturn (s.nodes a) call) s.network [] [])
    else none
  | .proposeTimeout a call => (s.nodes a).calls[call]?.bind fun c =>
    if c.future = .pending then some (s.act a (proposeTimeout (s.nodes a) call c) s.network [] []) else none
  | .deliver k => s.network[k]?.map fun packet => deliver cfg s (s.network.eraseIdx k) packet
  | .lose k => if k < s.network.length then some { s with network := s.network.eraseIdx k } else none

/-- The step relation of the cluster. -/
def Steps (cfg : ClusterConfig ι) (s : Cluster ι κ) (act : Action ι κ) (s' : Cluster ι κ) : Prop :=
  step cfg s act = some s'

/-- The clusters reached by steps that all meet `ok`. -/
abbrev ReachWhile (cfg : ClusterConfig ι) (ok : Cluster ι κ → Action ι κ → Prop) : Cluster ι κ → Prop :=
  Transition.ReachWhile (Steps cfg) ok Cluster.init

abbrev Reach (cfg : ClusterConfig ι) : Cluster ι κ → Prop := Transition.Reach (Steps cfg) Cluster.init

/-- The request that a step delivers, with its receiver. -/
def Cluster.requestAt (s : Cluster ι κ) : Action ι κ → Option (ι × RaftMessage ι κ)
  | .deliver k => match s.network[k]? with
    | some (.request dst msg) => some (dst, msg)
    | _ => none
  | _ => none

/-- The reply that a step delivers, with the node that gave it and the request that it answers. -/
def Cluster.replyAt (s : Cluster ι κ) : Action ι κ → Option (ι × RaftMessage ι κ × Reply ι)
  | .deliver k => match s.network[k]? with
    | some (.reply src msg resp) => some (src, msg, resp)
    | _ => none
  | _ => none

/-- The cluster of three nodes. -/
def trio : ClusterConfig (Fin 3) where
  ids := [0, 1, 2]
  nodup := by decide
  peers := fun a => [0, 1, 2].erase a
  peers_perm := fun _ _ => List.Perm.refl _

end DistributedSync.Raft
