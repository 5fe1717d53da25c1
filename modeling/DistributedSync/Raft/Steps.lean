import DistributedSync.Raft.Cluster
import DistributedSync.Raft.Handlers

/-!
# The steps of a cluster, case by case

`Local` lists what a step of the cluster does to the node that takes it, one constructor for each way a step can go,
with the guards.  Every step is one of them (`Steps.local`), and the invariants of a cluster are proved from this
list: a step touches one node, takes at most one packet from the network, and records its own events.
-/

namespace DistributedSync.Raft

variable {ι κ : Type}

theorem requestAt_deliver {s : Cluster ι κ} {k : Nat} {dst : ι} {msg : RaftMessage ι κ}
    (hk : s.network[k]? = some (.request dst msg)) : s.requestAt (.deliver k) = some (dst, msg) := by
  simp [Cluster.requestAt, hk]

theorem replyAt_eq_some {s : Cluster ι κ} {act : Action ι κ} {src : ι} {msg : RaftMessage ι κ} {resp : Reply ι} :
    s.replyAt act = some (src, msg, resp) ↔
      ∃ k, act = .deliver k ∧ s.network[k]? = some (.reply src msg resp) := by
  constructor
  · intro h
    unfold Cluster.replyAt at h
    split at h
    · rename_i k
      split at h
      · rename_i hk
        cases h
        exact ⟨k, rfl, hk⟩
      · cases h
    · cases h
  · rintro ⟨k, rfl, hk⟩
    simp [Cluster.replyAt, hk]

theorem mem_broadcastVote {me : Self ι} {n : RaftNode ι κ} {r : ι × RaftMessage ι κ} :
    r ∈ broadcastVote me n ↔ r.1 ∈ me.peers ∧ r.2 = voteRequest me n := by
  obtain ⟨p, m⟩ := r
  simp only [broadcastVote, List.mem_map, Prod.mk.injEq]
  exact ⟨fun ⟨q, hq, h1, h2⟩ => ⟨h1 ▸ hq, h2.symm⟩, fun ⟨h1, h2⟩ => ⟨p, h1, rfl, h2.symm⟩⟩

theorem mem_replicateEntries {me : Self ι} {n : RaftNode ι κ} {r : ι × RaftMessage ι κ} :
    r ∈ replicateEntries me n ↔ n.state = .leader ∧ r.1 ∈ me.peers ∧ r.2 = appendRequest me n r.1 := by
  obtain ⟨p, m⟩ := r
  unfold replicateEntries
  split
  · rename_i hl
    simp only [List.mem_map, Prod.mk.injEq, hl, true_and]
    exact ⟨fun ⟨q, hq, h1, h2⟩ => by subst h1; exact ⟨hq, h2.symm⟩, fun ⟨h1, h2⟩ => ⟨p, h1, rfl, h2.symm⟩⟩
  · rename_i hl
    simp [hl]

variable [DecidableEq ι]

/-- The node `a` becomes `n`, `net` is what is left of the network and of the answered request, and `reqs` and `evs`
are the new requests and events. -/
inductive Local (cfg : ClusterConfig ι) (s : Cluster ι κ) : Action ι κ → ι → RaftNode ι κ → List (Packet ι κ) →
    List (ι × RaftMessage ι κ) → List (Event ι κ) → Prop where
  | startElection (a : ι) (ha : a ∈ cfg.ids) (hl : (s.nodes a).state ≠ .leader)
      (he : (s.nodes a).election = none) : Local cfg s (.startElection a) a
      (startElection (cfg.self a) (s.nodes a)) s.network
      (broadcastVote (cfg.self a) (startElection (cfg.self a) (s.nodes a)))
      [.started a ((s.nodes a).currentTerm + 1) (s.nodes a).log]
  | won (a : ι) (el : Election ι) (he : (s.nodes a).election = some el)
      (hw : wins (cfg.self a) (s.nodes a) el = true) : Local cfg s (.countVotes a) a
      (becomeLeader (cfg.self a) { s.nodes a with election := none }) s.network []
      [.elected a (s.nodes a).currentTerm (s.nodes a).log]
  | lost (a : ι) (el : Election ι) (he : (s.nodes a).election = some el)
      (hw : wins (cfg.self a) (s.nodes a) el = false) : Local cfg s (.countVotes a) a
      { s.nodes a with election := none } s.network [] []
  | replicate (a : ι) : Local cfg s (.replicate a) a (s.nodes a) s.network
      (replicateEntries (cfg.self a) (s.nodes a)) []
  | propose (a : ι) (command : κ) (hl : (s.nodes a).state = .leader) : Local cfg s (.propose a command) a
      (propose (s.nodes a) command) s.network (replicateEntries (cfg.self a) (propose (s.nodes a) command)) []
  | proposeReturn (a : ι) (call : Nat) (c : ProposeCall κ) (hc : (s.nodes a).calls[call]? = some c)
      (hf : c.future = .resolved) : Local cfg s (.proposeReturn a call) a
      (proposeReturn (s.nodes a) call) s.network [] []
  | proposeTimeout (a : ι) (call : Nat) (c : ProposeCall κ) (hc : (s.nodes a).calls[call]? = some c)
      (hf : c.future = .pending) : Local cfg s (.proposeTimeout a call) a
      (proposeTimeout (s.nodes a) call c) s.network [] []
  | request (k : Nat) (dst : ι) (msg : RaftMessage ι κ) (n : RaftNode ι κ) (resp : Reply ι)
      (hk : s.network[k]? = some (.request dst msg)) (hh : Handled (cfg.self dst) (s.nodes dst) msg n resp) :
      Local cfg s (.deliver k) dst n (s.network.eraseIdx k ++ [.reply dst msg resp]) [] [.answered dst msg resp]
  | voteReply (k : Nat) (src : ι) (msg : RaftMessage ι κ) (resp : Reply ι)
      (hk : s.network[k]? = some (.reply src msg resp)) (hm : msg.msgType = .voteRequest) :
      Local cfg s (.deliver k) msg.senderId (collectVote (s.nodes msg.senderId) src msg resp)
      (s.network.eraseIdx k) [] []
  | appendReply (k : Nat) (src : ι) (msg : RaftMessage ι κ) (resp : Reply ι) (n : RaftNode ι κ)
      (hk : s.network[k]? = some (.reply src msg resp)) (hm : msg.msgType = .appendEntries)
      (hp : Processed (cfg.self msg.senderId) (s.nodes msg.senderId) src msg resp n) :
      Local cfg s (.deliver k) msg.senderId n (s.network.eraseIdx k) [] []
  | drop (act : Action ι κ) (a : ι) (k : Nat) : Local cfg s act a (s.nodes a) (s.network.eraseIdx k) [] []

private theorem act_same (s : Cluster ι κ) (a : ι) (net : List (Packet ι κ)) :
    s.act a (s.nodes a) net [] [] = { s with network := net } := by
  simp [Cluster.act]

/-- Every step of the cluster is a step of one node. -/
theorem Steps.local {cfg : ClusterConfig ι} {s s' : Cluster ι κ} {act : Action ι κ} (h : Steps cfg s act s') :
    ∃ a n net reqs evs, Local cfg s act a n net reqs evs ∧ s' = s.act a n net reqs evs := by
  unfold Steps at h
  cases act with
  | startElection a =>
    simp only [step] at h
    split at h
    · rename_i hg
      cases h
      exact ⟨_, _, _, _, _, .startElection a hg.1 hg.2.1 (by simpa using hg.2.2), rfl⟩
    · cases h
  | countVotes a =>
    simp only [step, Option.map_eq_some_iff] at h
    obtain ⟨el, he, rfl⟩ := h
    by_cases hw : wins (cfg.self a) (s.nodes a) el = true
    · exact ⟨_, _, _, _, _, .won a el he hw, by simp only [countVotes, hw, ↓reduceIte]⟩
    · simp only [Bool.not_eq_true] at hw
      exact ⟨_, _, _, _, _, .lost a el he hw, by simp only [countVotes, hw, Bool.false_eq_true, ↓reduceIte]⟩
  | replicate a =>
    cases h
    exact ⟨_, _, _, _, _, .replicate a, rfl⟩
  | propose a command =>
    simp only [step] at h
    split at h
    · rename_i hl
      cases h
      exact ⟨_, _, _, _, _, .propose a command hl, rfl⟩
    · cases h
  | proposeReturn a call =>
    simp only [step, Option.bind_eq_some_iff] at h
    obtain ⟨c, hc, h⟩ := h
    split at h
    · rename_i hf
      cases h
      exact ⟨_, _, _, _, _, .proposeReturn a call c hc hf.1, rfl⟩
    · cases h
  | proposeTimeout a call =>
    simp only [step, Option.bind_eq_some_iff] at h
    obtain ⟨c, hc, h⟩ := h
    split at h
    · rename_i hf
      cases h
      exact ⟨_, _, _, _, _, .proposeTimeout a call c hc hf, rfl⟩
    · cases h
  | deliver k =>
    simp only [step, Option.map_eq_some_iff] at h
    obtain ⟨packet, hk, rfl⟩ := h
    cases packet with
    | request dst msg =>
      obtain ⟨n, resp, hr, hh⟩ := handleMessage_cases (cfg.self dst) (s.nodes dst) msg
      exact ⟨_, _, _, _, _, .request k dst msg n resp hk hh, by simp only [deliver, hr, answer]⟩
    | reply src msg resp =>
      simp only [deliver, receiveReply]
      split
      · rename_i hm
        exact ⟨_, _, _, _, _, .voteReply k src msg resp hk hm, rfl⟩
      · rename_i hm
        exact ⟨_, _, _, _, _, .appendReply k src msg resp _ hk hm (processAeResp_cases _ _ src msg resp), rfl⟩
      · exact ⟨_, _, _, _, _, .drop _ msg.senderId k, rfl⟩
  | lose k =>
    simp only [step] at h
    split at h
    · rename_i hk
      cases h
      -- the lost packet names a node, which does nothing
      cases hp : s.network[k] with
      | request dst msg => exact ⟨_, _, _, _, _, .drop _ dst k, (act_same s dst _).symm⟩
      | reply src msg resp => exact ⟨_, _, _, _, _, .drop _ src k, (act_same s src _).symm⟩
    · cases h

/-! ### Reading the cluster after a step -/

section Act

variable {s : Cluster ι κ} {a b : ι} {n : RaftNode ι κ} {net : List (Packet ι κ)}
  {reqs : List (ι × RaftMessage ι κ)} {evs : List (Event ι κ)}

@[simp] theorem act_nodes_self : (s.act a n net reqs evs).nodes a = n := by simp [Cluster.act]

@[simp] theorem act_nodes_ne (h : b ≠ a) : (s.act a n net reqs evs).nodes b = s.nodes b := by
  simp [Cluster.act, h]

/-- A property of the acting node before and after the step, and of the nodes that did not act. -/
theorem act_nodes_ind {P : ι → RaftNode ι κ → Prop} (hself : P a n) (hother : ∀ b, P b (s.nodes b)) :
    ∀ b, P b ((s.act a n net reqs evs).nodes b) := by
  intro b
  by_cases hb : b = a
  · subst hb; simpa using hself
  · simpa [hb] using hother b

theorem mem_act_history {e : Event ι κ} : e ∈ (s.act a n net reqs evs).history ↔
    e ∈ s.history ∨ e ∈ evs ∨ ∃ r ∈ reqs, e = .sent r.1 r.2 := by
  simp [Cluster.act, eq_comm]

theorem mem_history_act {e : Event ι κ} (he : e ∈ s.history) : e ∈ (s.act a n net reqs evs).history :=
  mem_act_history.2 (Or.inl he)

theorem mem_act_network {p : Packet ι κ} : p ∈ (s.act a n net reqs evs).network ↔
    p ∈ net ∨ ∃ r ∈ reqs, p = .request r.1 r.2 := by
  simp [Cluster.act, eq_comm]

end Act

/-- The invariant rule of a cluster. -/
theorem ReachWhile.of_local {cfg : ClusterConfig ι} {ok : Cluster ι κ → Action ι κ → Prop} {I : Cluster ι κ → Prop}
    (h0 : I Cluster.init)
    (hs : ∀ s act a n net reqs evs, ReachWhile cfg ok s → I s → ok s act → Local cfg s act a n net reqs evs →
      I (s.act a n net reqs evs))
    {s : Cluster ι κ} (h : ReachWhile cfg ok s) : I s := by
  refine Transition.ReachWhile.invariant h h0 fun s act s' hr hI hok hst => ?_
  obtain ⟨a, n, net, reqs, evs, hl, rfl⟩ := hst.local
  exact hs s act a n net reqs evs hr hI hok hl

theorem OneLeader.of_act {s : Cluster ι κ} {a : ι} {n : RaftNode ι κ} {net : List (Packet ι κ)}
    {reqs : List (ι × RaftMessage ι κ)} {evs : List (Event ι κ)} (h : OneLeader (s.act a n net reqs evs)) :
    OneLeader s :=
  fun a b t ℓ ℓ' ha hb => h a b t ℓ ℓ' (mem_history_act ha) (mem_history_act hb)

end DistributedSync.Raft
