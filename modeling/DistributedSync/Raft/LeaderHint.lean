import Mathlib.Data.Fintype.Basic
import DistributedSync.Raft.NodeRun

/-!
# The leader hint

`leader_id` is what the lock handlers return when they do not serve a request themselves.  A node sets it to its own id
when it becomes the leader, to the sender's when it follows one, and to `None` when it starts an election or sees a
later term in a message.  Only the step down in `_process_ae_resp` leaves it as it is: a leader that a response deposes
goes on naming itself (`leader_hint_iff`).
-/

namespace DistributedSync.Raft

variable {ι κ : Type}

/-- The `leader_id` in the answer with status 307 of `_handle_acquire` and `_handle_release`; `none` when the node leads
and serves the request. -/
def redirect (s : RaftNode ι κ) : Option (Option ι) := if s.state = .leader then none else some s.leaderId

/-- The node names itself exactly while it leads. -/
def Hinted (me : Self ι) (s : RaftNode ι κ) : Prop := s.leaderId = some me.nodeId ↔ s.state = .leader

variable {me : Self ι} {s s' : RaftNode ι κ}

private theorem Hinted.redirect_ne (h : Hinted me s) : redirect s ≠ some (some me.nodeId) := by
  rw [redirect]
  by_cases hl : s.state = .leader
  · rw [if_pos hl]
    exact (Option.some_ne_none _).symm
  · rw [if_neg hl, ne_eq, Option.some.injEq]
    exact fun hid => hl (h.1 hid)

/-! ### What a step does to the role and the hint -/

/-- Role and hint stay, or the node gives up its role and its hint, or it becomes the leader. -/
inductive RoleEffect (me : Self ι) (s s' : RaftNode ι κ) : Prop where
  | same (hs : s'.state = s.state) (hl : s'.leaderId = s.leaderId)
  | follows (hs : s'.state ≠ .leader) (hl : s'.leaderId ≠ some me.nodeId)
  | leads (hs : s'.state = .leader) (hl : s'.leaderId = some me.nodeId)

private theorem Hinted.of_effect (h : Hinted me s) (he : RoleEffect me s s') : Hinted me s' := by
  rw [Hinted]
  cases he with
  | same hs hl =>
    rw [hs, hl]
    exact h
  | follows hs hl => exact iff_of_false hl hs
  | leads hs hl => exact iff_of_true hl hs

private theorem tryAdvanceCommit_role (me : Self ι) (n : RaftNode ι κ) : (tryAdvanceCommit me n).state.state = n.state ∧
    (tryAdvanceCommit me n).state.leaderId = n.leaderId := by
  obtain ⟨ci, la, ap, pr, cs, hf, -⟩ := tryAdvanceCommit_spec me n
  rw [hf]
  exact ⟨rfl, rfl⟩

private theorem observeTerm_role (me : Self ι) (s : RaftNode ι κ) (term : Nat) :
    RoleEffect me s (observeTerm s term) := by
  unfold observeTerm
  split
  · exact .follows (by simp) (by simp)
  · exact .same rfl rfl

theorem Handled.role {msg : RaftMessage ι κ} {n : RaftNode ι κ} {resp : Reply ι} (h : Handled me s msg n resp)
    (hother : msg.senderId ≠ me.nodeId) : RoleEffect me s n := by
  have hsender : some msg.senderId ≠ some me.nodeId := fun heq => hother (Option.some.inj heq)
  cases h with
  | ignored resp hv hs => exact observeTerm_role me s msg.term
  | voted hm ht hfree hup =>
    cases observeTerm_role me s msg.term with
    | same hs hl => exact .same hs hl
    | follows hs hl => exact .follows hs hl
    | leads hs hl => exact .leads hs hl
  | rejected hm ht hp => exact .follows (by simp [follow]) hsender
  | accepted hm ht hp =>
    obtain ⟨ci, la, ap, pr, cs, hf, -⟩ := acceptEntries_spec (follow s msg.senderId msg.term) msg.data
    rw [hf]
    exact .follows (by simp [follow]) hsender

/-! ### The steps of a node -/

variable [DecidableEq ι]

/-- Messages come from other nodes. -/
def FromOthers (me : Self ι) : NodeAction ι κ → Prop
  | .handleMessage msg => msg.senderId ≠ me.nodeId
  | _ => True

/-- A response with a later term arrives while the node leads. -/
def Deposes (s : RaftNode ι κ) : NodeAction ι κ → Prop
  | .processAeResp _ _ resp => s.state = .leader ∧ s.currentTerm < resp.term.getD 0
  | _ => False

instance (s : RaftNode ι κ) : (act : NodeAction ι κ) → Decidable (Deposes s act)
  | .processAeResp _ _ resp => inferInstanceAs (Decidable (s.state = .leader ∧ s.currentTerm < resp.term.getD 0))
  | .startElection | .collectVote .. | .countVotes | .propose _ | .proposeReturn _ | .proposeTimeout _
  | .handleMessage _ => inferInstanceAs (Decidable False)

variable {act : NodeAction ι κ}

/-- A response whose term is not later than the node's leaves role and hint alone. -/
theorem processAeResp_role {pid : ι} {msg : RaftMessage ι κ} {resp : Reply ι}
    (h : ¬s.currentTerm < resp.term.getD 0) : RoleEffect me s (processAeResp me s pid msg resp).state := by
  have hp := processAeResp_cases me s pid msg resp
  generalize (processAeResp me s pid msg resp).state = n at hp ⊢
  cases hp with
  | stepDown ht => exact absurd ht h
  | rejected hs => exact .same rfl rfl
  | keyError => exact .same rfl rfl
  | heartbeat ht hs he =>
    obtain ⟨hst, hlead⟩ := tryAdvanceCommit_role me s
    exact .same hst hlead
  | matched pli ht hs he hp =>
    obtain ⟨hst, hlead⟩ := tryAdvanceCommit_role me (recordMatch s pid (pli + (msg.data.entries.getD []).length))
    exact .same hst hlead

theorem NodeLocal.role (h : NodeLocal me s act s') (hother : FromOthers me act)
    (hresp : ∀ pid msg resp, act ≠ .processAeResp pid msg resp) : RoleEffect me s s' := by
  cases h with
  | startElection hl he => exact .follows (by simp [Raft.startElection]) (by simp [Raft.startElection])
  | collectVote src msg resp =>
    obtain ⟨el, hf⟩ := collectVote_frame s src msg resp
    rw [hf]
    exact .same rfl rfl
  | won el he hw => exact .leads rfl rfl
  | lost el he hw => exact .same rfl rfl
  | propose command hl => exact .same rfl rfl
  | proposeReturn call c hc hf hr => exact .same rfl rfl
  | proposeTimeout call c hc hf => exact .same rfl rfl
  | response pid msg resp n hp => exact absurd rfl (hresp pid msg resp)
  | request msg n resp hh => exact hh.role hother

/-- A step keeps the equivalence just if it deposes no leader. -/
theorem Hinted.step_iff (h : Hinted me s) (hother : FromOthers me act) (hst : NodeSteps me s act s') :
    ¬Deposes s act ↔ Hinted me s' := by
  by_cases hresp : ∃ pid msg resp, act = .processAeResp pid msg resp
  · obtain ⟨pid, msg, resp, rfl⟩ := hresp
    obtain rfl : (processAeResp me s pid msg resp).state = s' := Option.some.inj hst
    by_cases ht : s.currentTerm < resp.term.getD 0
    · have hdown : (processAeResp me s pid msg resp).state =
          { s with currentTerm := resp.term.getD 0, state := .follower, votedFor := none } := by
        rw [processAeResp, if_pos ht]
      rw [hdown, Deposes, Hinted]
      -- the hint is what it was before
      simp only [ht, and_true, reduceCtorEq, iff_false]
      exact not_congr h.symm
    · exact iff_of_true (fun hd => ht hd.2) (h.of_effect (processAeResp_role ht))
  · have hno : ∀ pid msg resp, act ≠ .processAeResp pid msg resp := fun pid msg resp heq => hresp ⟨pid, msg, resp, heq⟩
    refine iff_of_true ?_ (h.of_effect ((NodeSteps.local hst).role hother hno))
    cases act with
    | processAeResp pid msg resp => exact absurd rfl (hno pid msg resp)
    | _ => exact not_false

/-- In all states of a run the node names itself exactly while it leads, and no redirect names the node that sends it,
just if no response of the run deposes a leader. -/
theorem leader_hint_iff (me : Self ι) (acts : List (NodeAction ι κ)) (hothers : ∀ act ∈ acts, FromOthers me act) :
    (∀ pre, pre <+: acts → ∀ s, Transition.run (nodeNext me) {} pre = some s →
      (s.leaderId = some me.nodeId ↔ s.state = .leader) ∧ redirect s ≠ some (some me.nodeId)) ↔
    ∀ pre act s s', pre ++ [act] <+: acts → Transition.run (nodeNext me) {} pre = some s →
      nodeNext me s act = some s' → ¬Deposes s act := by
  have hboth : ∀ s : RaftNode ι κ, Hinted me s ∧ redirect s ≠ some (some me.nodeId) ↔ Hinted me s :=
    fun s => and_iff_left_of_imp fun h => h.redirect_ne
  have hstart : Hinted me ({} : RaftNode ι κ) := iff_of_false (by simp) (by simp)
  have hiff := Transition.forall_prefix_iff_of_mem (I := fun _ => True) (P := Hinted me) trivial
    (fun _ _ _ _ _ => trivial) hstart acts fun s act s' hact _ h hst => h.step_iff (hothers act hact) hst
  rw [← hiff]
  exact forall_congr' fun pre => imp_congr_right fun _ => forall_congr' fun s => imp_congr_right fun _ => hboth s

/-- The node wins term 1, is confirmed by its peer, and then follows it into term 2. -/
def ledThenFollows (me peer : Fin 2) : List (NodeAction (Fin 2) Nat) := [
  .startElection, .collectVote peer (voteRequest ⟨me, [peer]⟩ { currentTerm := 1 }) { voteGranted := some true },
  .countVotes, .propose 7,
  .processAeResp peer (appendRequest ⟨me, [peer]⟩ { log := [⟨1, 1, 7⟩] } peer) { term := some 1, success := some true },
  .handleMessage (fullAppend 2 [⟨1, 1, 7⟩] 1)]

theorem leader_hint_iff_led :
    (∃ s, Transition.run (nodeNext ⟨0, [1]⟩) {} (ledThenFollows 0 1) = some s ∧ redirect s = some (some 1)) ∧
    ∀ pre, pre <+: ledThenFollows 0 1 → ∀ s, Transition.run (nodeNext ⟨0, [1]⟩) {} pre = some s →
      (s.leaderId = some 0 ↔ s.state = .leader) ∧ redirect s ≠ some (some 0) := by
  have hrun : (Transition.runWhile (nodeNext ⟨0, [1]⟩) (fun s act => ¬Deposes s act) {} (ledThenFollows 0 1)).map
      redirect = some (some (some 1)) := by decide
  obtain ⟨s, hs, hobs⟩ := Option.map_eq_some_iff.1 hrun
  have hothers : ∀ act ∈ ledThenFollows 0 1, FromOthers ⟨0, [1]⟩ act := by
    simp [ledThenFollows, FromOthers, fullAppend]
  refine ⟨⟨s, (Transition.ReachWhile.of_runWhile .refl hs).2, hobs⟩, ?_⟩
  exact (leader_hint_iff ⟨0, [1]⟩ (ledThenFollows 0 1) hothers).2 fun pre act t _ hpre ht _ =>
    Transition.ok_of_runWhile hs hpre ht

/-- Node `1` has started an election in term 2 when a request of the leader of term 1 reaches it.  Its answer deposes
the leader, which then sends its clients to itself. -/
theorem deposed_leader_names_itself : ∃ c : Cluster (Fin 3) Nat, Reach trio c ∧
    (c.nodes 0).state = .follower ∧ redirect (c.nodes 0) = some (some 0) := by
  have hrun : (Transition.run (step trio) (Cluster.init : Cluster (Fin 3) Nat) [
      .startElection 0, .deliver 0, .deliver 1, .lose 0, .countVotes 0, .replicate 0, .startElection 1, .deliver 0,
      .deliver 3]).map (fun c => decide ((c.nodes 0).state = .follower ∧ redirect (c.nodes 0) = some (some 0))) =
        some true := by decide
  obtain ⟨c, hc, hobs⟩ := Option.map_eq_some_iff.1 hrun
  exact ⟨c, Transition.reach_of_run hc, of_decide_eq_true hobs⟩

end DistributedSync.Raft
