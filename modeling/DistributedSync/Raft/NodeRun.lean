import DistributedSync.Raft.Callbacks
import DistributedSync.Raft.Replication

/-!
# Runs of one node

The node of a `RaftConsensus` object on its own.  What reaches it from outside is arbitrary: any message may be
handed to `handle_message`, any response may come back from a peer to any request.  A cluster drives each of its
nodes in this way (`ReachWhile.node`).

Nothing is assumed about the terms, indices and entries in the messages, so a request may cut the log below what has
been applied.  Still, `_apply_committed` only runs with the commit index inside the log, and then it passes the
entries above `last_applied` on, so the `k`-th entry passed on is the one at position `k` (`applied_in_order`).
-/

namespace DistributedSync.Raft

inductive NodeAction (ι κ : Type) where
  | startElection
  | collectVote (src : ι) (msg : RaftMessage ι κ) (resp : Reply ι)
  | countVotes
  | propose (command : κ)
  | proposeReturn (call : Nat)
  | proposeTimeout (call : Nat)
  | processAeResp (pid : ι) (msg : RaftMessage ι κ) (resp : Reply ι)
  | handleMessage (msg : RaftMessage ι κ)

/-! ### What has been applied -/

variable {ι κ : Type}

/-- A step that leaves `last_applied` and the applied entries alone. -/
theorem appliesTo_zero {n n' : RaftNode ι κ} (hla : n'.lastApplied = n.lastApplied) (hap : n'.applied = n.applied) :
    ∃ c, AppliesTo n n' c :=
  ⟨0, Nat.zero_le _, by simp [hla], by simp [hap]⟩

private theorem adoptCommit_appliesTo (n : RaftNode ι κ) (lc : Nat) : ∃ c, AppliesTo n (adoptCommit n lc).state c := by
  unfold adoptCommit
  split
  · obtain ⟨h1, h2, h3⟩ :=
      applyCommitted_spec (s := { n with commitIndex := min lc n.log.length }) (Nat.min_le_right _ _)
    exact ⟨_, h1, h2, h3⟩
  · exact appliesTo_zero rfl rfl

private theorem tryAdvanceCommit_appliesTo (me : Self ι) (n : RaftNode ι κ) :
    ∃ c, AppliesTo n (tryAdvanceCommit me n).state c := by
  obtain ⟨_, _, _, _, _, -, -, -, happ⟩ := tryAdvanceCommit_spec me n
  obtain ⟨-, -, ⟨-, hla, hap⟩ | h⟩ := happ _ (appliesTo_applies n) ⟨rfl, le_rfl, Or.inl ⟨rfl, rfl, rfl⟩⟩
  · exact appliesTo_zero hla hap
  · exact ⟨_, h⟩

/-- As many entries have been applied as `last_applied` says, and that stays so. -/
theorem AppliesTo.length_applied {n n' : RaftNode ι κ} {c : Nat} (h : AppliesTo n n' c)
    (hn : n.applied.length = n.lastApplied) : n'.applied.length = n'.lastApplied := by
  rw [h.applied, h.lastApplied, List.length_append, List.length_drop, List.length_take, Nat.min_eq_left h.inside, hn]
  omega

/-! ### Runs -/

variable [DecidableEq ι]

/-- A step of the node, with the exception that it may raise; `none` when nothing calls the code in this state. -/
def nodeStep (me : Self ι) (s : RaftNode ι κ) : NodeAction ι κ → Option (Outcome (RaftNode ι κ) Unit)
  | .startElection =>
    if s.state ≠ .leader ∧ s.election.isNone then some ⟨startElection me s, .ok ()⟩ else none
  | .collectVote src msg resp => some ⟨collectVote s src msg resp, .ok ()⟩
  | .countVotes => s.election.map fun el => ⟨countVotes me s el, .ok ()⟩
  | .propose command => if s.state = .leader then some ⟨propose s command, .ok ()⟩ else none
  | .proposeReturn call => s.calls[call]?.bind fun c =>
    if c.future = .resolved ∧ c.returned = none then some ⟨proposeReturn s call, .ok ()⟩ else none
  | .proposeTimeout call => s.calls[call]?.bind fun c =>
    if c.future = .pending then some ⟨proposeTimeout s call c, .ok ()⟩ else none
  | .processAeResp pid msg resp => some (processAeResp me s pid msg resp)
  | .handleMessage msg =>
    let o := handleMessage me s msg
    some ⟨o.state, o.result.map fun _ => ()⟩

/-- The node after a step; what a raising handler has done so far stays. -/
def nodeNext (me : Self ι) (s : RaftNode ι κ) (act : NodeAction ι κ) : Option (RaftNode ι κ) :=
  (nodeStep me s act).map Outcome.state

abbrev NodeSteps (me : Self ι) (s : RaftNode ι κ) (act : NodeAction ι κ) (s' : RaftNode ι κ) : Prop :=
  nodeNext me s act = some s'

/-- The states of a node that started with an empty log. -/
abbrev NodeReach (me : Self ι) : RaftNode ι κ → Prop := Transition.Reach (NodeSteps me) {}

variable {me : Self ι} {s s' : RaftNode ι κ} {act : NodeAction ι κ}

/-! ### The steps, case by case -/

/-- What a step does to the node, with the guards. -/
inductive NodeLocal (me : Self ι) (s : RaftNode ι κ) : NodeAction ι κ → RaftNode ι κ → Prop where
  | startElection (hl : s.state ≠ .leader) (he : s.election = none) :
    NodeLocal me s .startElection (startElection me s)
  | collectVote (src : ι) (msg : RaftMessage ι κ) (resp : Reply ι) :
    NodeLocal me s (.collectVote src msg resp) (collectVote s src msg resp)
  | won (el : Election ι) (he : s.election = some el) (hw : wins me s el = true) :
    NodeLocal me s .countVotes (becomeLeader me { s with election := none })
  | lost (el : Election ι) (he : s.election = some el) (hw : wins me s el = false) :
    NodeLocal me s .countVotes { s with election := none }
  | propose (command : κ) (hl : s.state = .leader) : NodeLocal me s (.propose command) (propose s command)
  | proposeReturn (call : Nat) (c : ProposeCall κ) (hc : s.calls[call]? = some c) (hf : c.future = .resolved)
      (hr : c.returned = none) : NodeLocal me s (.proposeReturn call) (proposeReturn s call)
  | proposeTimeout (call : Nat) (c : ProposeCall κ) (hc : s.calls[call]? = some c) (hf : c.future = .pending) :
    NodeLocal me s (.proposeTimeout call) (proposeTimeout s call c)
  | response (pid : ι) (msg : RaftMessage ι κ) (resp : Reply ι) (n : RaftNode ι κ)
      (hp : Processed me s pid msg resp n) : NodeLocal me s (.processAeResp pid msg resp) n
  | request (msg : RaftMessage ι κ) (n : RaftNode ι κ) (resp : Reply ι) (hh : Handled me s msg n resp) :
    NodeLocal me s (.handleMessage msg) n

private theorem processAeResp_result (me : Self ι) (s : RaftNode ι κ) (pid : ι) (msg : RaftMessage ι κ)
    (resp : Reply ι) : (processAeResp me s pid msg resp).result ≠ .error .indexError := by
  have hok : ∀ n : RaftNode ι κ, (tryAdvanceCommit me n).result ≠ .error .indexError := by
    intro n
    obtain ⟨ci, la, ap, pr, cs, hf, -⟩ := tryAdvanceCommit_spec me n
    rw [hf]
    simp
  unfold processAeResp
  split
  · simp
  · split
    · split
      · exact hok s
      · simp
      · exact hok _
    · simp

/-- Every step is one of the listed ones, and none raises `IndexError`. -/
theorem nodeStep_local {o : Outcome (RaftNode ι κ) Unit} (h : nodeStep me s act = some o) :
    NodeLocal me s act o.state ∧ o.result ≠ .error .indexError := by
  cases act with
  | startElection =>
    simp only [nodeStep, Option.ite_none_right_eq_some, Option.some.injEq] at h
    obtain ⟨⟨hl, he⟩, rfl⟩ := h
    exact ⟨.startElection hl (by simpa using he), by simp⟩
  | collectVote src msg resp =>
    cases h
    exact ⟨.collectVote src msg resp, by simp⟩
  | countVotes =>
    obtain ⟨el, he, rfl⟩ := Option.map_eq_some_iff.1 h
    refine ⟨?_, by simp⟩
    show NodeLocal me s .countVotes (countVotes me s el)
    unfold countVotes
    split
    · exact .won el he ‹_›
    · exact .lost el he (by simpa using ‹¬wins me s el = true›)
  | propose command =>
    simp only [nodeStep, Option.ite_none_right_eq_some, Option.some.injEq] at h
    obtain ⟨hl, rfl⟩ := h
    exact ⟨.propose command hl, by simp⟩
  | proposeReturn call =>
    simp only [nodeStep, Option.bind_eq_some_iff, Option.ite_none_right_eq_some, Option.some.injEq] at h
    obtain ⟨c, hc, ⟨hf, hr⟩, rfl⟩ := h
    exact ⟨.proposeReturn call c hc hf hr, by simp⟩
  | proposeTimeout call =>
    simp only [nodeStep, Option.bind_eq_some_iff, Option.ite_none_right_eq_some, Option.some.injEq] at h
    obtain ⟨c, hc, hf, rfl⟩ := h
    exact ⟨.proposeTimeout call c hc hf, by simp⟩
  | processAeResp pid msg resp =>
    cases h
    exact ⟨.response pid msg resp _ (processAeResp_cases me s pid msg resp), processAeResp_result me s pid msg resp⟩
  | handleMessage msg =>
    obtain ⟨n, resp, hr, hh⟩ := handleMessage_cases me s msg
    simp only [nodeStep, hr, Except.map, Option.some.injEq] at h
    cases h
    exact ⟨.request msg n resp hh, by simp⟩

theorem NodeSteps.local (h : NodeSteps me s act s') : NodeLocal me s act s' := by
  obtain ⟨o, ho, rfl⟩ := Option.map_eq_some_iff.1 h
  exact (nodeStep_local ho).1

/-- The invariant rule of a node. -/
theorem NodeReach.invariant {I : RaftNode ι κ → Prop} (h : NodeReach me s) (h0 : I {})
    (hs : ∀ n act n', I n → NodeLocal me n act n' → I n') : I s :=
  Transition.ReachWhile.invariant h h0 fun n act n' _ hI _ hst => hs n act n' hI (NodeSteps.local hst)

/-! ### The nodes of a cluster -/

/-- A step of the cluster is a step of one node, or none at all. -/
theorem Steps.node {cfg : ClusterConfig ι} {c c' : Cluster ι κ} {act : Action ι κ} (h : Steps cfg c act c') (a : ι) :
    c'.nodes a = c.nodes a ∨ ∃ x, NodeSteps (cfg.self a) (c.nodes a) x (c'.nodes a) := by
  have hact : ∀ b n net reqs evs, c' = c.act b n net reqs evs →
      (n = c.nodes b ∨ ∃ x, NodeSteps (cfg.self b) (c.nodes b) x n) →
      c'.nodes a = c.nodes a ∨ ∃ x, NodeSteps (cfg.self a) (c.nodes a) x (c'.nodes a) := by
    rintro b n net reqs evs rfl hn
    by_cases hab : a = b
    · subst hab
      simpa [Cluster.act] using hn
    · simp [Cluster.act, hab]
  unfold Steps at h
  cases act with
  | startElection b =>
    simp only [step, Option.ite_none_right_eq_some, Option.some.injEq] at h
    obtain ⟨⟨-, hl, he⟩, rfl⟩ := h
    exact hact b _ _ _ _ rfl (Or.inr ⟨.startElection, by simp [NodeSteps, nodeNext, nodeStep, hl, he]⟩)
  | countVotes b =>
    simp only [step, Option.map_eq_some_iff] at h
    obtain ⟨el, he, rfl⟩ := h
    exact hact b _ _ _ _ rfl (Or.inr ⟨.countVotes, by simp [NodeSteps, nodeNext, nodeStep, he]⟩)
  | replicate b =>
    cases h
    exact hact b _ _ _ _ rfl (Or.inl rfl)
  | propose b command =>
    simp only [step, Option.ite_none_right_eq_some, Option.some.injEq] at h
    obtain ⟨hl, rfl⟩ := h
    exact hact b _ _ _ _ rfl (Or.inr ⟨.propose command, by simp [NodeSteps, nodeNext, nodeStep, hl]⟩)
  | proposeReturn b call =>
    simp only [step, Option.bind_eq_some_iff, Option.ite_none_right_eq_some, Option.some.injEq] at h
    obtain ⟨p, hp, hg, rfl⟩ := h
    exact hact b _ _ _ _ rfl (Or.inr ⟨.proposeReturn call, by simp [NodeSteps, nodeNext, nodeStep, hp, hg]⟩)
  | proposeTimeout b call =>
    simp only [step, Option.bind_eq_some_iff, Option.ite_none_right_eq_some, Option.some.injEq] at h
    obtain ⟨p, hp, hg, rfl⟩ := h
    exact hact b _ _ _ _ rfl (Or.inr ⟨.proposeTimeout call, by simp [NodeSteps, nodeNext, nodeStep, hp, hg]⟩)
  | deliver k =>
    simp only [step, Option.map_eq_some_iff] at h
    obtain ⟨packet, -, rfl⟩ := h
    cases packet with
    | request dst msg => exact hact dst _ _ _ _ rfl (Or.inr ⟨.handleMessage msg, rfl⟩)
    | reply src msg resp =>
      refine hact msg.senderId _ _ _ _ rfl ?_
      unfold receiveReply
      split
      · exact Or.inr ⟨.collectVote src msg resp, rfl⟩
      · exact Or.inr ⟨.processAeResp src msg resp, rfl⟩
      · exact Or.inl rfl
  | lose k =>
    simp only [step, Option.ite_none_right_eq_some, Option.some.injEq] at h
    obtain ⟨-, rfl⟩ := h
    exact Or.inl rfl

/-- Every node of a cluster is in a state that a node on its own can reach. -/
theorem ReachWhile.node {cfg : ClusterConfig ι} {ok : Cluster ι κ → Action ι κ → Prop} {c : Cluster ι κ}
    (h : ReachWhile cfg ok c) (a : ι) : NodeReach (cfg.self a) (c.nodes a) := by
  refine Transition.ReachWhile.invariant (I := fun c => NodeReach (cfg.self a) (c.nodes a)) h .refl
    fun c act c' _ ih _ hst => ?_
  rcases Steps.node hst a with hsame | ⟨x, hx⟩
  · rw [hsame]
    exact ih
  · exact .tail ih trivial hx

/-- A step applies entries of the log that it leaves behind, up to some position inside it. -/
theorem NodeLocal.appliesTo (h : NodeLocal me s act s') : ∃ c, AppliesTo s s' c := by
  cases h with
  | startElection hl he => exact appliesTo_zero rfl rfl
  | collectVote src msg resp =>
    obtain ⟨el, hf⟩ := collectVote_frame s src msg resp
    rw [hf]
    exact appliesTo_zero rfl rfl
  | won el he hw => exact appliesTo_zero rfl rfl
  | lost el he hw => exact appliesTo_zero rfl rfl
  | propose command hl => exact appliesTo_zero rfl rfl
  | proposeReturn call c hc hf hr => exact appliesTo_zero rfl rfl
  | proposeTimeout call c hc hf => exact appliesTo_zero rfl rfl
  | response pid msg resp n hp =>
    cases hp with
    | stepDown ht => exact appliesTo_zero rfl rfl
    | rejected hs => exact appliesTo_zero rfl rfl
    | keyError => exact appliesTo_zero rfl rfl
    | heartbeat ht hs he => exact tryAdvanceCommit_appliesTo me s
    | matched pli ht hs he hp =>
      obtain ⟨c, h1, h2, h3⟩ := tryAdvanceCommit_appliesTo me
        (recordMatch s pid (pli + (msg.data.entries.getD []).length))
      exact ⟨c, h1, h2, h3⟩
  | request msg n resp hh =>
    obtain ⟨ct, st, v, l, hobs⟩ := observeTerm_frame s msg.term
    cases hh with
    | ignored resp hv hs =>
      rw [hobs]
      exact appliesTo_zero rfl rfl
    | voted hm ht hfree hup =>
      rw [hobs]
      exact appliesTo_zero rfl rfl
    | rejected hm ht hp => exact appliesTo_zero rfl rfl
    | accepted hm ht hp =>
      -- the log is cut first, and the commit index moves inside the new log
      obtain ⟨c, h1, h2, h3⟩ := adoptCommit_appliesTo { follow s msg.senderId msg.term with
        log := installEntries s.log (msg.data.prevLogIndex.getD 0) (msg.data.entries.getD []) }
        (msg.data.leaderCommit.getD 0)
      exact ⟨c, h1, h2, h3⟩

theorem NodeReach.length_applied (h : NodeReach me s) : s.applied.length = s.lastApplied := by
  refine NodeReach.invariant (I := fun n => n.applied.length = n.lastApplied) h rfl fun n act n' hI hl => ?_
  obtain ⟨c, hc⟩ := hl.appliesTo
  exact hc.length_applied hI

/-- The `APPEND_ENTRIES` of the node `1` in term `t` with all entries from the start of the log. -/
def fullAppend (t : Nat) (entries : List (LogEntry Nat)) (leaderCommit : Nat) : RaftMessage (Fin 2) Nat where
  msgType := .appendEntries
  senderId := 1
  term := t
  data := { prevLogIndex := some 0, entries := some entries, leaderCommit := some leaderCommit }

/-- Each index is applied once, in order and inside the log: in every run, with any messages, a step raises no
`IndexError`, keeps what has been passed to the callbacks and adds to it the entries at the next positions of the log
at that moment. -/
theorem applied_in_order (me : Self ι) (h : NodeReach me s) {o : Outcome (RaftNode ι κ) Unit}
    (ho : nodeStep me s act = some o) : o.result ≠ .error .indexError ∧ s.applied <+: o.state.applied ∧
      o.state.applied.length = o.state.lastApplied ∧
      ∀ k, s.applied.length ≤ k → k < o.state.applied.length → o.state.applied[k]? = o.state.log[k]? := by
  obtain ⟨hl, hres⟩ := nodeStep_local ho
  obtain ⟨c, hc⟩ := hl.appliesTo
  have hlen := h.length_applied
  refine ⟨hres, ⟨_, hc.applied.symm⟩, hc.length_applied hlen, fun k hk hlt => ?_⟩
  have hkc : k < c := by
    rw [hc.length_applied hlen, hc.lastApplied] at hlt
    omega
  rw [hc.applied, List.getElem?_append_right hk, hlen, List.getElem?_drop, List.getElem?_take_of_lt (by omega)]
  congr 1
  omega

/-- The second request cuts the log below what has been applied, and the third one goes on at the third position. -/
theorem applied_in_order_run : ∃ s o, Transition.run (nodeNext ⟨0, [1]⟩) {} [
      .handleMessage (fullAppend 1 [⟨1, 1, 7⟩, ⟨1, 2, 8⟩] 2), .handleMessage (fullAppend 2 [⟨2, 1, 9⟩] 5)] = some s ∧
    nodeStep ⟨0, [1]⟩ s (.handleMessage (fullAppend 2 [⟨2, 1, 9⟩, ⟨2, 2, 5⟩, ⟨2, 3, 6⟩] 3)) = some o ∧
    s.log = [⟨2, 1, 9⟩] ∧ s.applied = [⟨1, 1, 7⟩, ⟨1, 2, 8⟩] ∧ o.state.applied[2]? = some ⟨2, 3, 6⟩ := by
  have hrun : ((Transition.run (nodeNext ⟨0, [1]⟩) {} [
      .handleMessage (fullAppend 1 [⟨1, 1, 7⟩, ⟨1, 2, 8⟩] 2), .handleMessage (fullAppend 2 [⟨2, 1, 9⟩] 5)]).bind
      fun s => (nodeStep ⟨0, [1]⟩ s (.handleMessage (fullAppend 2 [⟨2, 1, 9⟩, ⟨2, 2, 5⟩, ⟨2, 3, 6⟩] 3))).map fun o =>
        (s.log, s.applied, o.state.log, o.state.applied.length)) =
      some ([⟨2, 1, 9⟩], [⟨1, 1, 7⟩, ⟨1, 2, 8⟩], [⟨2, 1, 9⟩, ⟨2, 2, 5⟩, ⟨2, 3, 6⟩], 3) := by decide
  obtain ⟨s, hs, hstep⟩ := Option.bind_eq_some_iff.1 hrun
  obtain ⟨o, ho, hobs⟩ := Option.map_eq_some_iff.1 hstep
  simp only [Prod.mk.injEq] at hobs
  obtain ⟨hlog, happ, hnew, hlen⟩ := hobs
  obtain ⟨-, -, -, hpos⟩ := applied_in_order ⟨0, [1]⟩ (Transition.reach_of_run hs) ho
  refine ⟨s, o, hs, ho, hlog, happ, ?_⟩
  rw [hpos 2 (by rw [happ]; decide) (by rw [hlen]; decide), hnew]
  rfl

end DistributedSync.Raft
