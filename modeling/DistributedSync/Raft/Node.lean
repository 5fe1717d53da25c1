import Mathlib.Logic.Function.Basic
import DistributedSync.Message

/-!
# A Raft node

The attributes of `RaftConsensus` and its handlers (`raft.py`).  A handler is atomic between two awaits, so each
piece of code from one await to the next is one function on the node: an election is `startElection` up to the
broadcast and `countVotes` after it, a proposal is `propose` up to `wait_for` and then `proposeReturn` or
`proposeTimeout`, and a send task is the message that `replicateEntries` builds and `processAeResp` on its reply.

The timers (`_last_heartbeat`, the random timeouts, the heartbeat task) only decide when a step is taken, so they
are left to the step relation of the cluster.
-/

namespace DistributedSync.Raft

inductive RaftState where
  | follower | candidate | leader
  deriving DecidableEq, Repr

/-- A log entry, also in the form it has inside a message (`to_dict`, `from_dict`). -/
structure LogEntry (κ : Type) where
  term : Nat
  index : Nat
  command : κ
  deriving DecidableEq, Repr

/-- The keys of `message.data` that the Raft handlers read; a missing key is `none`. -/
structure RaftData (κ : Type) where
  lastLogIndex : Option Nat := none
  lastLogTerm : Option Nat := none
  prevLogIndex : Option Nat := none
  prevLogTerm : Option Nat := none
  entries : Option (List (LogEntry κ)) := none
  leaderCommit : Option Nat := none

abbrev RaftMessage (ι κ : Type) := Message ι (RaftData κ)

/-- The dictionary a handler answers with; a missing key is `none`. -/
structure Reply (ι : Type) where
  term : Option Nat := none
  voteGranted : Option Bool := none
  voterId : Option ι := none
  success : Option Bool := none
  nodeId : Option ι := none
  status : Option String := none

/-- The constructor arguments that no handler changes. -/
structure Self (ι : Type) where
  nodeId : ι
  peers : List ι

def Self.quorumSize {ι : Type} (me : Self ι) : Nat := (me.peers.length + 1) / 2 + 1

/-- The locals of a suspended `_start_election`: the term of the broadcast request and the responses so far. -/
structure Election (ι : Type) where
  term : Nat
  responses : ι → Option (Reply ι) := fun _ => none

inductive FutureState where
  | pending | resolved | cancelled
  deriving DecidableEq, Repr

/-- One call of `propose` on a leader: the entry it appended, its future, and what it returned. -/
structure ProposeCall (κ : Type) where
  entry : LogEntry κ
  future : FutureState := .pending
  returned : Option Bool := none
  deriving DecidableEq, Repr

/-- The attributes of a `RaftConsensus` object.  `pendingRequests` names a future by the position of its call in
`calls`, and `applied` lists the entries passed to the commit callbacks, in order. -/
structure RaftNode (ι κ : Type) where
  currentTerm : Nat := 0
  votedFor : Option ι := none
  log : List (LogEntry κ) := []
  state : RaftState := .follower
  leaderId : Option ι := none
  commitIndex : Nat := 0
  lastApplied : Nat := 0
  nextIndex : ι → Option Nat := fun _ => none
  matchIndex : ι → Option Nat := fun _ => none
  pendingRequests : Nat → Option Nat := fun _ => none
  election : Option (Election ι) := none
  calls : List (ProposeCall κ) := []
  applied : List (LogEntry κ) := []

variable {ι κ : Type} [DecidableEq ι]

/-- The term of the last entry, `0` for the empty log. -/
def lastTerm (log : List (LogEntry κ)) : Nat := (log.getLast?.map LogEntry.term).getD 0

/-! ### Applying committed entries -/

/-- `future.set_result(True)` on the future of a call, unless it is done. -/
def ProposeCall.resolve (c : ProposeCall κ) : ProposeCall κ :=
  if c.future = .pending then { c with future := .resolved } else c

/-- `_pending_requests.pop(index)` and the resolution of the future that was registered there. -/
def RaftNode.resolvePending (s : RaftNode ι κ) (index : Nat) : RaftNode ι κ :=
  match s.pendingRequests index with
  | none => s
  | some call => { s with
      pendingRequests := Function.update s.pendingRequests index none
      calls := s.calls.modify call ProposeCall.resolve }

/-- The `while` loop of `_apply_committed`, `n` rounds of it.  The callbacks cannot stop it: their exceptions are
caught. -/
def RaftNode.applyLoop : Nat → RaftNode ι κ → Outcome (RaftNode ι κ) Unit
  | 0, s => ⟨s, .ok ()⟩
  | n + 1, s =>
    let s := { s with lastApplied := s.lastApplied + 1 }
    match s.log[s.lastApplied - 1]? with
    | none => ⟨s, .error .indexError⟩
    | some entry => ({ s with applied := s.applied ++ [entry] }.resolvePending entry.index).applyLoop n

def RaftNode.applyCommitted (s : RaftNode ι κ) : Outcome (RaftNode ι κ) Unit :=
  s.applyLoop (s.commitIndex - s.lastApplied)

/-! ### Elections -/

def startElection (me : Self ι) (s : RaftNode ι κ) : RaftNode ι κ :=
  { s with
    currentTerm := s.currentTerm + 1
    state := .candidate
    votedFor := some me.nodeId
    leaderId := none
    election := some { term := s.currentTerm + 1 } }

/-- The `VOTE_REQUEST` that a node broadcasts right after `startElection`. -/
def voteRequest (me : Self ι) (s : RaftNode ι κ) : RaftMessage ι κ where
  msgType := .voteRequest
  senderId := me.nodeId
  term := s.currentTerm
  data := { lastLogIndex := some s.log.length, lastLogTerm := some (lastTerm s.log) }

def becomeLeader (me : Self ι) (s : RaftNode ι κ) : RaftNode ι κ :=
  { s with
    state := .leader
    leaderId := some me.nodeId
    nextIndex := fun p => if p ∈ me.peers then some (s.log.length + 1) else s.nextIndex p
    matchIndex := fun p => if p ∈ me.peers then some 0 else s.matchIndex p }

/-- `resp and resp.get("vote_granted")`. -/
def granted (resp : Option (Reply ι)) : Bool := (resp.bind Reply.voteGranted).getD false

def Election.votes (el : Election ι) (me : Self ι) : Nat := 1 + me.peers.countP fun p => granted (el.responses p)

/-- The condition under which `_start_election` ends in `_become_leader`. -/
def wins (me : Self ι) (s : RaftNode ι κ) (el : Election ι) : Bool :=
  s.state = .candidate ∧ me.quorumSize ≤ el.votes me

/-- The end of `_start_election`, when every response has arrived or is given up. -/
def countVotes (me : Self ι) (s : RaftNode ι κ) (el : Election ι) : RaftNode ι κ :=
  if wins me s el then becomeLeader me { s with election := none } else { s with election := none }

/-- The candidate's log, by its last index and term, is at least as up to date as `log`. -/
def upToDate (data : RaftData κ) (log : List (LogEntry κ)) : Bool :=
  lastTerm log < data.lastLogTerm.getD 0 ∨
    (data.lastLogTerm.getD 0 = lastTerm log ∧ log.length ≤ data.lastLogIndex.getD 0)

def handleVoteRequest (me : Self ι) (s : RaftNode ι κ) (msg : RaftMessage ι κ) :
    Outcome (RaftNode ι κ) (Reply ι) :=
  if s.currentTerm ≤ msg.term ∧ (s.votedFor = none ∨ s.votedFor = some msg.senderId) ∧
      upToDate msg.data s.log then
    ⟨{ s with votedFor := some msg.senderId, currentTerm := msg.term },
      .ok { term := some msg.term, voteGranted := some true, voterId := some me.nodeId }⟩
  else ⟨s, .ok { term := some s.currentTerm, voteGranted := some false, voterId := some me.nodeId }⟩

/-! ### Replication -/

/-- The `APPEND_ENTRIES` that `_replicate_entries` builds for the peer `pid`. -/
def appendRequest (me : Self ι) (s : RaftNode ι κ) (pid : ι) : RaftMessage ι κ :=
  let ni := (s.nextIndex pid).getD 1
  let pli := ni - 1
  { msgType := .appendEntries
    senderId := me.nodeId
    term := s.currentTerm
    data := {
      prevLogIndex := some pli
      prevLogTerm := some (if 0 < pli then (s.log[pli - 1]?.map LogEntry.term).getD 0 else 0)
      entries := some (if ni ≤ s.log.length then s.log.drop (ni - 1) else [])
      leaderCommit := some s.commitIndex } }

/-- `_replicate_entries`: one request for each peer. -/
def replicateEntries (me : Self ι) (s : RaftNode ι κ) : List (ι × RaftMessage ι κ) :=
  if s.state = .leader then me.peers.map fun pid => (pid, appendRequest me s pid) else []

/-- The entry that `propose` appends. -/
def newEntry (s : RaftNode ι κ) (command : κ) : LogEntry κ := ⟨s.currentTerm, s.log.length + 1, command⟩

/-- `propose` on a leader, up to `wait_for`. -/
def propose (s : RaftNode ι κ) (command : κ) : RaftNode ι κ :=
  let entry := newEntry s command
  { s with
    log := s.log ++ [entry]
    calls := s.calls ++ [{ entry := entry }]
    pendingRequests := Function.update s.pendingRequests entry.index (some s.calls.length) }

/-- The call `call` of `propose` wakes up with its future resolved. -/
def proposeReturn (s : RaftNode ι κ) (call : Nat) : RaftNode ι κ :=
  { s with calls := s.calls.modify call fun c => { c with returned := some true } }

/-- The call `call` of `propose` times out: `wait_for` cancels the future, and the index is popped whatever future
is registered there by now. -/
def proposeTimeout (s : RaftNode ι κ) (call : Nat) (c : ProposeCall κ) : RaftNode ι κ :=
  { s with
    calls := s.calls.modify call fun c => { c with future := .cancelled, returned := some false }
    pendingRequests := Function.update s.pendingRequests c.entry.index none }

/-- The peers whose `match_index` reaches `n`, and the node itself. -/
def replicated (me : Self ι) (s : RaftNode ι κ) (n : Nat) : Nat :=
  1 + me.peers.countP fun p => n ≤ (s.matchIndex p).getD 0

/-- The `for` loop of `_try_advance_commit` over the indices `ns`. -/
def advanceLoop (me : Self ι) : List Nat → RaftNode ι κ → Outcome (RaftNode ι κ) Unit
  | [], s => ⟨s, .ok ()⟩
  | n :: ns, s =>
    match s.log[n - 1]? with
    | none => ⟨s, .error .indexError⟩
    | some entry =>
      if entry.term ≠ s.currentTerm then advanceLoop me ns s
      else if me.quorumSize ≤ replicated me s n then
        match ({ s with commitIndex := n }).applyCommitted with
        | ⟨s, .ok _⟩ => advanceLoop me ns s
        | ⟨s, .error e⟩ => ⟨s, .error e⟩
      else advanceLoop me ns s

def tryAdvanceCommit (me : Self ι) (s : RaftNode ι κ) : Outcome (RaftNode ι κ) Unit :=
  if s.state = .leader then
    advanceLoop me (List.range' (s.commitIndex + 1) (s.log.length - s.commitIndex)) s
  else ⟨s, .ok ()⟩

/-- The assignments to `next_index` and `match_index` on a success. -/
def recordMatch (s : RaftNode ι κ) (pid : ι) (m : Nat) : RaftNode ι κ :=
  { s with
    nextIndex := Function.update s.nextIndex pid (some (m + 1))
    matchIndex := Function.update s.matchIndex pid (some m) }

/-- `_process_ae_resp`: the reply `resp` of the peer `pid` to the request `msg`. -/
def processAeResp (me : Self ι) (s : RaftNode ι κ) (pid : ι) (msg : RaftMessage ι κ) (resp : Reply ι) :
    Outcome (RaftNode ι κ) Unit :=
  if s.currentTerm < resp.term.getD 0 then
    ⟨{ s with currentTerm := resp.term.getD 0, state := .follower, votedFor := none }, .ok ()⟩
  else if resp.success.getD false then
    match msg.data.entries.getD [], msg.data.prevLogIndex with
    | [], _ => tryAdvanceCommit me s
    | _ :: _, none => ⟨s, .error .keyError⟩
    | e :: es, some pli => tryAdvanceCommit me (recordMatch s pid (pli + (e :: es).length))
  else
    ⟨{ s with nextIndex := Function.update s.nextIndex pid (some (max 1 ((s.nextIndex pid).getD 1 - 1))) }, .ok ()⟩

/-- The consistency check of `_handle_append_entries`. -/
def prevMatches (log : List (LogEntry κ)) (pli plt : Nat) : Bool :=
  pli = 0 ∨ (log[pli - 1]?.map LogEntry.term) = some plt

/-- `self.log[:pli]` followed by the entries, when there are any. -/
def installEntries (log : List (LogEntry κ)) (pli : Nat) (entries : List (LogEntry κ)) : List (LogEntry κ) :=
  if entries = [] then log else log.take pli ++ entries

/-- The commit index follows the leader's, inside the log. -/
def adoptCommit (s : RaftNode ι κ) (lc : Nat) : Outcome (RaftNode ι κ) Unit :=
  if s.commitIndex < lc then { s with commitIndex := min lc s.log.length }.applyCommitted else ⟨s, .ok ()⟩

/-- The node after accepting the request: the new log, then the commit index of the leader. -/
def acceptEntries (s : RaftNode ι κ) (data : RaftData κ) : Outcome (RaftNode ι κ) Unit :=
  adoptCommit { s with log := installEntries s.log (data.prevLogIndex.getD 0) (data.entries.getD []) }
    (data.leaderCommit.getD 0)

/-- The node that follows the sender of an `APPEND_ENTRIES` of term `term`. -/
def follow (s : RaftNode ι κ) (leader : ι) (term : Nat) : RaftNode ι κ :=
  { s with currentTerm := term, state := .follower, leaderId := some leader, votedFor := none }

def appendReply (me : Self ι) (s : RaftNode ι κ) (success : Bool) : Reply ι :=
  { term := some s.currentTerm, success := some success, nodeId := some me.nodeId }

def handleAppendEntries (me : Self ι) (s : RaftNode ι κ) (msg : RaftMessage ι κ) :
    Outcome (RaftNode ι κ) (Reply ι) :=
  if s.currentTerm ≤ msg.term then
    let s := follow s msg.senderId msg.term
    if prevMatches s.log (msg.data.prevLogIndex.getD 0) (msg.data.prevLogTerm.getD 0) then
      match acceptEntries s msg.data with
      | ⟨s, .ok _⟩ => ⟨s, .ok (appendReply me s true)⟩
      | ⟨s, .error e⟩ => ⟨s, .error e⟩
    else ⟨s, .ok (appendReply me s false)⟩
  else ⟨s, .ok (appendReply me s false)⟩

/-- The step down at the head of `handle_message`. -/
def observeTerm (s : RaftNode ι κ) (term : Nat) : RaftNode ι κ :=
  if s.currentTerm < term then
    { s with currentTerm := term, state := .follower, votedFor := none, leaderId := none }
  else s

def handleMessage (me : Self ι) (s : RaftNode ι κ) (msg : RaftMessage ι κ) : Outcome (RaftNode ι κ) (Reply ι) :=
  let s := observeTerm s msg.term
  match msg.msgType with
  | .voteRequest => handleVoteRequest me s msg
  | .appendEntries => handleAppendEntries me s msg
  | .voteResponse | .appendEntriesResponse => ⟨s, .ok { status := some "ok" }⟩
  | _ => ⟨s, .ok { status := some "unhandled" }⟩

end DistributedSync.Raft
