import Mathlib.Data.Fintype.Basic
import DistributedSync.Raft.Bookkeeping

/-!
# Election safety

`_handle_append_entries` clears `voted_for` even when the term of the node does not change, so a node that granted
its vote and then heard from the leader of that term can grant a second vote in it, and two nodes can lead the same
term.  That is the only way: as long as no node grants a vote to a second candidate in one term, a vote is unique
(`Ballot.once`), and two majorities of one term share a voter.
-/

namespace DistributedSync.Raft

variable {ι κ : Type}

/-! ### A vote is unique -/

/-- What `voted_for` says about the votes a node has cast. -/
structure Ballot (s : Cluster ι κ) : Prop where
  votedFor : ∀ p c c', Voted s.history p (s.nodes p).currentTerm c → (s.nodes p).votedFor = some c' → c' = c
  once : ∀ p t c c', Voted s.history p t c → Voted s.history p t c' → c = c'

theorem Ballot.init : Ballot (Cluster.init : Cluster ι κ) := by
  constructor <;> simp [Voted, Cluster.init]

/-- The step leaves the vote of the node alone, or clears it. -/
def VoteCleared (n n' : RaftNode ι κ) : Prop :=
  n'.votedFor = none ∨ n'.currentTerm = n.currentTerm ∧ n'.votedFor = n.votedFor

private theorem voteCleared_observeTerm (n : RaftNode ι κ) (t : Nat) : VoteCleared n (observeTerm n t) := by
  unfold observeTerm
  split
  · exact Or.inl rfl
  · exact Or.inr ⟨rfl, rfl⟩

/-! ### A vote that is granted again -/

variable [DecidableEq ι]

/-- The step delivers a vote request of the node's current term that it grants, because `voted_for` is empty, though
it has already voted for another candidate in this term. -/
def GrantsAgain (s : Cluster ι κ) (act : Action ι κ) : Prop :=
  ∃ r ∈ s.requestAt act, r.2.msgType = .voteRequest ∧ r.2.term = (s.nodes r.1).currentTerm ∧
    (s.nodes r.1).votedFor = none ∧ upToDate r.2.data (s.nodes r.1).log = true ∧
    ∃ v ∈ s.history.filterMap Event.vote, v.1 = r.1 ∧ v.2.1 = r.2.term ∧ v.2.2 ≠ r.2.senderId

def VotesOnce (s : Cluster ι κ) (act : Action ι κ) : Prop := ¬GrantsAgain s act

instance (s : Cluster ι κ) (act : Action ι κ) : Decidable (VotesOnce s act) := by
  unfold VotesOnce GrantsAgain
  infer_instance

variable {s : Cluster ι κ} {cfg : ClusterConfig ι} {a : ι} {n : RaftNode ι κ} {net : List (Packet ι κ)}
  {reqs : List (ι × RaftMessage ι κ)} {evs : List (Event ι κ)}

/-- A step keeps the votes unique if a vote it casts, or keeps in `voted_for`, agrees with the earlier votes of the
term. -/
theorem Ballot.act (h : Ballot s)
    (hkeep : ∀ c', n.votedFor = some c' → ∀ c, Voted s.history a n.currentTerm c → c' = c)
    (hnew : ∀ p t c, (p, t, c) ∈ evs.filterMap Event.vote → p = a ∧ t = n.currentTerm ∧ n.votedFor = some c) :
    Ballot (s.act a n net reqs evs) := by
  constructor
  · intro p c c' hv hvf
    by_cases hp : p = a
    · subst hp
      rw [act_nodes_self] at hv hvf
      rcases voted_act.1 hv with hold | hnw
      · exact hkeep c' hvf c hold
      · have := (hnew p _ c hnw).2.2
        rw [hvf] at this
        exact Option.some.inj this
    · rw [act_nodes_ne hp] at hv hvf
      rcases voted_act.1 hv with hold | hnw
      · exact h.votedFor p c c' hold hvf
      · exact absurd (hnew p _ c hnw).1 hp
  · intro p t c c' hv hv'
    rcases voted_act.1 hv, voted_act.1 hv' with ⟨hold | hnw, hold' | hnw'⟩
    · exact h.once p t c c' hold hold'
    · obtain ⟨rfl, rfl, hvf⟩ := hnew p t c' hnw'
      exact (hkeep c' hvf c hold).symm
    · obtain ⟨rfl, rfl, hvf⟩ := hnew p t c hnw
      exact hkeep c hvf c' hold'
    · have hvf := (hnew p t c hnw).2.2
      rw [(hnew p t c' hnw').2.2] at hvf
      exact (Option.some.inj hvf).symm

theorem Ballot.cleared (h : Ballot s) (hc : VoteCleared (s.nodes a) n) (hnew : evs.filterMap Event.vote = []) :
    Ballot (s.act a n net reqs evs) := by
  refine h.act (fun c' hvf c hv => ?_) (by simp [hnew])
  rcases hc with hnone | ⟨ht, hsame⟩
  · rw [hnone] at hvf; cases hvf
  · rw [ht] at hv
    exact h.votedFor a c c' hv (hsame ▸ hvf)

private theorem Processed.voteCleared {me : Self ι} {m : RaftNode ι κ} {src : ι} {msg : RaftMessage ι κ}
    {resp : Reply ι} (h : Processed me m src msg resp n) : VoteCleared m n := by
  cases h with
  | stepDown ht => exact Or.inl rfl
  | rejected hs => exact Or.inr ⟨rfl, rfl⟩
  | keyError => exact Or.inr ⟨rfl, rfl⟩
  | heartbeat ht hs he =>
    obtain ⟨ci, la, ap, pr, cs, hf, -⟩ := tryAdvanceCommit_spec me m
    rw [hf]
    exact Or.inr ⟨rfl, rfl⟩
  | matched pli ht hs he hp =>
    obtain ⟨ci, la, ap, pr, cs, hf, -⟩ :=
      tryAdvanceCommit_spec me (recordMatch m src (pli + (msg.data.entries.getD []).length))
    rw [hf]
    exact Or.inr ⟨rfl, rfl⟩

theorem Ballot.step (h : Ballot s) (hb : Book cfg s) {act : Action ι κ} (hok : VotesOnce s act)
    (hl : Local cfg s act a n net reqs evs) : Ballot (s.act a n net reqs evs) := by
  cases hl with
  | startElection _ ha hl he =>
    refine h.act (fun c' hvf c hv => ?_) ?_
    · -- no vote has been cast in the new term
      have hle : (s.nodes a).currentTerm + 1 ≤ (s.nodes a).currentTerm := by
        rcases voted_iff.1 hv with ⟨-, ℓ, hst⟩ | ⟨msg, resp, hans, -, ht, -⟩
        · exact (hb.node a).started _ ℓ hst
        · have : msg.term = (s.nodes a).currentTerm + 1 := ht
          exact this ▸ (hb.node a).answered msg resp hans
      omega
    · intro p t c hv
      obtain ⟨rfl, rfl, rfl⟩ : p = a ∧ t = (s.nodes a).currentTerm + 1 ∧ c = a := by
        simpa [Event.vote] using hv
      exact ⟨rfl, rfl, rfl⟩
  | won _ el he hw => exact h.cleared (Or.inr ⟨rfl, rfl⟩) (by simp [Event.vote])
  | lost _ el he hw => exact h.cleared (Or.inr ⟨rfl, rfl⟩) rfl
  | replicate => exact h.cleared (Or.inr ⟨rfl, rfl⟩) rfl
  | propose _ command hl => exact h.cleared (Or.inr ⟨rfl, rfl⟩) rfl
  | proposeReturn _ call c hc hf => exact h.cleared (Or.inr ⟨rfl, rfl⟩) rfl
  | proposeTimeout _ call c hc hf => exact h.cleared (Or.inr ⟨rfl, rfl⟩) rfl
  | request k _ msg _ resp hk hh =>
    cases hh with
    | ignored resp hv hs =>
      exact h.cleared (voteCleared_observeTerm _ _) (by simp [Event.vote, hv])
    | voted hm ht hfree hup =>
      refine h.act (fun c' hvf c hv => ?_) ?_
      · obtain rfl : msg.senderId = c' := by simpa using hvf
        rcases Nat.eq_or_lt_of_le ht with heq | hlt
        · rcases hfree heq with hnone | hsome
          · -- the vote was cleared in this term, so an earlier vote is for the same candidate
            by_contra hne
            exact hok ⟨_, requestAt_deliver hk, hm, heq.symm, hnone, hup, _, hv, rfl, rfl, Ne.symm hne⟩
          · exact h.votedFor a c _ (heq ▸ hv) hsome
        · -- the node has not voted in a term it had not reached
          rcases voted_iff.1 hv with ⟨-, ℓ, hst⟩ | ⟨msg', resp', hans, -, ht', -⟩
          · have : msg.term ≤ (s.nodes a).currentTerm := (hb.node a).started _ ℓ hst
            omega
          · have h1 : msg'.term = msg.term := ht'
            have h2 := (hb.node a).answered msg' resp' hans
            omega
      · intro p t c hv
        obtain ⟨rfl, rfl, rfl⟩ : p = a ∧ t = msg.term ∧ c = msg.senderId := by
          simpa [Event.vote, hm] using hv
        exact ⟨rfl, rfl, rfl⟩
    | rejected hm ht hp => exact h.cleared (Or.inl rfl) (by simp [Event.vote, hm])
    | accepted hm ht hp =>
      obtain ⟨ci, la, ap, pr, cs, hf, -⟩ := acceptEntries_spec (follow (s.nodes a) msg.senderId msg.term) msg.data
      refine h.cleared (Or.inl ?_) (by simp [Event.vote, hm])
      rw [hf]
      rfl
  | voteReply k src msg resp hk hm =>
    refine h.cleared (Or.inr ?_) rfl
    unfold collectVote
    split
    · exact ⟨rfl, rfl⟩
    · split <;> exact ⟨rfl, rfl⟩
  | appendReply k src msg resp _ hk hm hp => exact h.cleared hp.voteCleared rfl
  | drop _ _ k => exact h.cleared (Or.inr ⟨rfl, rfl⟩) rfl

theorem Ballot.of_reach (h : ReachWhile cfg VotesOnce s) : Ballot s :=
  h.of_local Ballot.init fun _ _ _ _ _ _ _ hr ih hok hl => ih.step (Book.of_reach hr) hok hl

/-! ### At most one leader -/

/-- With unique votes, two winners of one term share a voter. -/
theorem Ballot.oneLeader (h : Ballot s) (hb : Book cfg s) : OneLeader s := by
  intro a b t ℓ ℓ' ha hb'
  obtain ⟨Q, hQ, hvotes⟩ := hb.quorum a t ℓ ha
  obtain ⟨Q', hQ', hvotes'⟩ := hb.quorum b t ℓ' hb'
  obtain ⟨p, hp, hp'⟩ := (QuorumSystem.majority cfg.ids.toFinset).meet hQ hQ'
  exact h.once p t a b (hvotes p hp) (hvotes' p hp')

/-- In a run in which no node grants its vote to a second candidate in one term, a term has at most one leader. -/
theorem election_safety (cfg : ClusterConfig ι) {s : Cluster ι κ} (h : ReachWhile cfg VotesOnce s) : OneLeader s :=
  (Ballot.of_reach h).oneLeader (Book.of_reach h)

theorem election_safety_run :
    ∃ s, Transition.run (step trio) Cluster.init
      [.startElection 0, .deliver 0, .deliver 1, .countVotes 0, .replicate 0, .deliver 1] = some s ∧
      OneLeader (κ := Nat) s := by
  have hrun : (Transition.runWhile (step trio) (VotesOnce (κ := Nat)) Cluster.init
      [.startElection 0, .deliver 0, .deliver 1, .countVotes 0, .replicate 0, .deliver 1]).isSome := by decide
  obtain ⟨s, hs⟩ := Option.isSome_iff_exists.1 hrun
  obtain ⟨hr, hrun⟩ := Transition.ReachWhile.of_runWhile .refl hs
  exact ⟨s, hrun, election_safety trio hr⟩

/-- Node `2` votes for node `0`, hears from it as the leader of term `1`, and votes for node `1` in the same term. -/
theorem two_leaders_in_one_term : ∃ s : Cluster (Fin 3) Nat, Reach trio s ∧ ¬OneLeader s := by
  have hrun : ((Transition.run (step trio) (Cluster.init : Cluster (Fin 3) Nat)
      [.startElection 0, .startElection 1, .deliver 1, .deliver 3, .countVotes 0, .replicate 0, .deliver 4,
        .deliver 2, .deliver 4, .countVotes 1]).map fun s => decide (OneLeader s)) = some false := by decide
  obtain ⟨s, hs, htwo⟩ := Option.map_eq_some_iff.1 hrun
  exact ⟨s, Transition.reach_of_run hs, of_decide_eq_false htwo⟩

end DistributedSync.Raft
