import DistributedSync.Raft.Commit
import DistributedSync.Raft.NodeRun

/-!
# What leaders keep

A leader only appends to its log, whatever messages it gets (`leader_append_only`).  In runs outside the three defects
a leader also holds whatever has been applied anywhere in a term that is not later than its own
(`leaders_keep_applied`), so no later leader overwrites an entry that a client has been told of.
-/

namespace DistributedSync.Raft

open ReplicatedLog (Inv Keeps Kept Grows Committed)

variable {ι κ : Type}

/-! ### Append-only -/

/-- Seen from a leader of term `t` with the log `log₀`: the node leads on in this term, and has only appended entries
of it, or it has given up the leadership of the term for good. -/
inductive Since (t : Nat) (log₀ : List (LogEntry κ)) (n : RaftNode ι κ) : Prop where
  | leading (hl : n.state = .leader) (ht : n.currentTerm = t) (new : List (LogEntry κ)) (hlog : n.log = log₀ ++ new)
      (hnew : ∀ e ∈ new, e.term = t)
  | deposed (hf : n.state = .follower) (ht : n.currentTerm = t)
  | later (ht : t < n.currentTerm)

variable {n n' : RaftNode ι κ} {t : Nat} {log₀ : List (LogEntry κ)}

/-- A node that only advances does not take up a leadership, and keeps its log while it leads. -/
theorem Since.of_advances (h : Since t log₀ n) (hadv : Advances n n') : Since t log₀ n' := by
  have hterm := hadv.term
  cases h with
  | leading hl ht new hlog hnew =>
    rcases hadv.state with hf | ⟨hsame, hst, hl'⟩
    · rcases Nat.eq_or_lt_of_le hterm with heq | hlt
      · exact .deposed hf (heq.symm.trans ht)
      · exact .later (by omega)
    · exact .leading (hst.trans hl) (hsame.trans ht) new (hl'.trans hlog) hnew
  | deposed hf ht =>
    rcases Nat.eq_or_lt_of_le hterm with heq | hlt
    · rcases hadv.state with hf' | ⟨-, hst, -⟩
      · exact .deposed hf' (heq.symm.trans ht)
      · exact .deposed (hst.trans hf) (heq.symm.trans ht)
    · exact .later (by omega)
  | later ht => exact .later (by omega)

/-- A step that touches neither role nor term nor log. -/
theorem Since.same (h : Since t log₀ n) (hst : n'.state = n.state) (hterm : n'.currentTerm = n.currentTerm)
    (hlog : n'.log = n.log) : Since t log₀ n' := by
  cases h with
  | leading hl ht new hl' hnew => exact .leading (hst.trans hl) (hterm.trans ht) new (hlog.trans hl') hnew
  | deposed hf ht => exact .deposed (hst.trans hf) (hterm.trans ht)
  | later ht => exact .later (by omega)

variable [DecidableEq ι] {me : Self ι} {s s' : RaftNode ι κ}

theorem Since.step {act : NodeAction ι κ} (h : Since t log₀ n) (hs : NodeLocal me n act n') : Since t log₀ n' := by
  cases hs with
  | startElection hl he =>
    -- an election raises the term, and a leader starts none
    have hterm : (startElection me n).currentTerm = n.currentTerm + 1 := rfl
    cases h with
    | leading hl' ht new hlog hnew => exact absurd hl' hl
    | deposed hf ht => exact .later (by omega)
    | later ht => exact .later (by omega)
  | collectVote src msg resp =>
    obtain ⟨el, hf⟩ := collectVote_frame n src msg resp
    rw [hf]
    exact h.same rfl rfl rfl
  | won el he hw =>
    -- only a candidate wins
    have hcand : n.state = .candidate := by
      have hboth : n.state = .candidate ∧ me.quorumSize ≤ el.votes me := of_decide_eq_true hw
      exact hboth.1
    cases h with
    | leading hl ht new hlog hnew =>
      rw [hl] at hcand
      cases hcand
    | deposed hf ht =>
      rw [hf] at hcand
      cases hcand
    | later ht => exact .later ht
  | lost el he hw => exact h.same rfl rfl rfl
  | propose command hl =>
    cases h with
    | leading hl' ht new hlog hnew =>
      refine .leading hl' ht (new ++ [newEntry n command]) ?_ ?_
      · show n.log ++ [newEntry n command] = _
        rw [hlog, List.append_assoc]
      · intro e he
        rcases List.mem_append.1 he with he | he
        · exact hnew e he
        · rw [List.mem_singleton.1 he]
          exact ht
    | deposed hf ht =>
      rw [hf] at hl
      cases hl
    | later ht => exact .later ht
  | proposeReturn call c hc hf hr => exact h.same rfl rfl rfl
  | proposeTimeout call c hc hf => exact h.same rfl rfl rfl
  | response pid msg resp n' hp => exact h.of_advances hp.advances
  | request msg n' resp hh => exact h.of_advances hh.advances.1

/-- Between two moments at which a node leads in the same term its log has only been appended to, by entries of this
term, whatever requests and replies have reached it. -/
theorem leader_append_only (me : Self ι) (h : Transition.Reach (NodeSteps me) s s') (hlead : s.state = .leader)
    (hlead' : s'.state = .leader) (hterm : s'.currentTerm = s.currentTerm) :
    ∃ new, s'.log = s.log ++ new ∧ ∀ e ∈ new, e.term = s.currentTerm := by
  have hsince : Since s.currentTerm s.log s' := by
    refine Transition.ReachWhile.invariant h ?_ fun n act n' _ hI _ hst => hI.step (NodeSteps.local hst)
    exact .leading hlead rfl [] (List.append_nil _).symm (by simp)
  cases hsince with
  | leading hl ht new hlog hnew => exact ⟨new, hlog, hnew⟩
  | deposed hf ht =>
    rw [hf] at hlead'
    cases hlead'
  | later ht => omega

/-- The leader of a cluster of one appends a proposal. -/
theorem leader_append_only_run : ∃ s s' : RaftNode Nat Nat,
    Transition.run (nodeNext ⟨0, []⟩) {} [.startElection, .countVotes] = some s ∧
    Transition.run (nodeNext ⟨0, []⟩) s [.propose 7, .propose 8] = some s' ∧ s.log = [] ∧ s'.log.length = 2 ∧
    ∃ new, s'.log = s.log ++ new ∧ ∀ e ∈ new, e.term = s.currentTerm := by
  have hrun : ((Transition.run (nodeNext ⟨0, []⟩) ({} : RaftNode Nat Nat) [.startElection, .countVotes]).bind fun s =>
      (Transition.run (nodeNext ⟨0, []⟩) s [.propose 7, .propose 8]).map fun s' =>
        (s.log, s'.log.length, s.state, s'.state, s.currentTerm, s'.currentTerm)) =
      some ([], 2, .leader, .leader, 1, 1) := by decide
  obtain ⟨s, hs, hrest⟩ := Option.bind_eq_some_iff.1 hrun
  obtain ⟨s', hs', hobs⟩ := Option.map_eq_some_iff.1 hrest
  simp only [Prod.mk.injEq] at hobs
  obtain ⟨hlog, hlen, hlead, hlead', hterm, hterm'⟩ := hobs
  exact ⟨s, s', hs, hs', hlog, hlen,
    leader_append_only _ (Transition.reach_of_run hs') hlead hlead' (hterm'.trans hterm.symm)⟩

/-! ### Leader completeness -/

variable {cfg : ClusterConfig ι} {c c' : Cluster ι κ} {A : ReplicatedLog.State ι (LogEntry κ)} {a b : ι}

/-- The abstract state grows along a run. -/
theorem Committing.later (hA : Committing cfg c A) (h : ReachWhile cfg Safe c)
    (h' : Transition.ReachWhile (Steps cfg) Safe c c') : ∃ A', Committing cfg c' A' ∧ Grows A A' := by
  induction h' with
  | refl => exact ⟨A, hA, .refl A⟩
  | tail hr hok hst ih =>
    rename_i r r' act
    obtain ⟨A', hA', hg⟩ := ih
    have hreach : ReachWhile cfg Safe r := h.trans hr
    have hone : OneLeader r' :=
      (Ballot.of_reach ((hreach.tail hok hst).mono fun _ _ h => h.1)).oneLeader (Book.of_reach (hreach.tail hok hst))
    have hI := Inv.of_reach hA'.reach
    have hb : Book cfg r := .of_reach hreach
    have hk : AckBook cfg r := .of_reach (fun _ _ h => h.2.2) hreach
    obtain ⟨a, n, net, reqs, evs, hl, rfl⟩ := hst.local
    have hstep : ∃ B, Transition.ReachWhile (AbsStep cfg) Keeps A' B ∧ Refines (r.act a n net reqs evs) B :=
      hA'.refines.step hb hI hl.effect hone fun B x hx => hx hok.2.1
    obtain ⟨B, hA'B, hR⟩ := hstep
    have hgB : Grows A' B := (hI.grows_of_steps hA'B).2
    have hnode := (hA'.book.step_node hb hI (Kept.of_reach hA'.reach) hA'.refines hok.2.1 hl (hb.step hl) hR
      (hk.step hb hok.2.2 hl) hgB).1
    exact ⟨B, ⟨hA'.reach.trans hA'B, hR, hA'.book.step hnode hgB hl hR⟩, hg.trans hgB⟩

theorem Committing.applied_committed (hA : Committing cfg c A) (b : ι) :
    Committed LogEntry.term cfg.quorums A (c.nodes b).currentTerm (c.nodes b).applied := by
  obtain ⟨hlast, happlied⟩ := (hA.book.node b).upToCommit
  rw [happlied, hlast]
  exact (hA.book.node b).committed

/-- A leader has what is committed in its term or before. -/
theorem Committing.isPrefix_log (hA : Committing cfg c A) (hb : Book cfg c) {u : Nat} {ℓ : List (LogEntry κ)}
    (hcommitted : Committed LogEntry.term cfg.quorums A u ℓ) (hlead : (c.nodes a).state = .leader)
    (hterm : u ≤ (c.nodes a).currentTerm) : ℓ <+: (c.nodes a).log := by
  obtain ⟨hlog, -⟩ := hA.refines.leader a hlead
  obtain ⟨ℓ', hel⟩ := (hb.node a).leader hlead
  have helected : A.elected (c.nodes a).currentTerm ≠ none := by
    rw [(hA.refines.elected _ ℓ').2 ⟨a, hel⟩]
    simp
  rw [hlog]
  exact hcommitted.isPrefix_leaderLog (Inv.of_reach hA.reach) (Kept.of_reach hA.reach) hterm helected

theorem Committing.of_safe (h : ReachWhile cfg Safe c) : ∃ A, Committing cfg c A :=
  Committing.of_reach (fun _ _ h => h.2) h ((Ballot.of_reach (h.mono fun _ _ h => h.1)).oneLeader (Book.of_reach h))

/-- Leader completeness: in a run outside the three defects, whatever a node has applied by some moment is at the same
place in the log of every leader of the same or a later term from then on. -/
theorem leaders_keep_applied (cfg : ClusterConfig ι) (h : ReachWhile cfg Safe c)
    (h' : Transition.ReachWhile (Steps cfg) Safe c c') (hlead : (c'.nodes a).state = .leader)
    (hterm : (c.nodes b).currentTerm ≤ (c'.nodes a).currentTerm) : (c.nodes b).applied <+: (c'.nodes a).log := by
  obtain ⟨A, hA⟩ := Committing.of_safe h
  obtain ⟨A', hA', hg⟩ := hA.later h h'
  exact hA'.isPrefix_log (Book.of_reach (h.trans h')) ((hA.applied_committed b).grows hg le_rfl) hlead hterm

/-- Node `0` applies an entry in term `1`; node `1` has it when it wins term `2`. -/
theorem leaders_keep_applied_run : ∃ c c' : Cluster (Fin 3) Nat,
    Transition.run (step trio) Cluster.init
      [.startElection 0, .deliver 0, .deliver 1, .countVotes 0, .propose 0 7, .deliver 1, .deliver 2] = some c ∧
    Transition.run (step trio) c [.startElection 1, .deliver 3, .deliver 3, .countVotes 1] = some c' ∧
    (c.nodes 0).applied = [⟨1, 1, 7⟩] ∧ (c.nodes 0).applied <+: (c'.nodes 1).log := by
  have hrun : ((Transition.runWhile (step trio) Safe (Cluster.init : Cluster (Fin 3) Nat)
      [.startElection 0, .deliver 0, .deliver 1, .countVotes 0, .propose 0 7, .deliver 1, .deliver 2]).bind fun c =>
      (Transition.runWhile (step trio) Safe c [.startElection 1, .deliver 3, .deliver 3, .countVotes 1]).map
        fun c' => ((c.nodes 0).applied, (c'.nodes 1).state, (c.nodes 0).currentTerm, (c'.nodes 1).currentTerm)) =
      some ([⟨1, 1, 7⟩], .leader, 1, 2) := by decide
  obtain ⟨c, hc, hrest⟩ := Option.bind_eq_some_iff.1 hrun
  obtain ⟨c', hc', hobs⟩ := Option.map_eq_some_iff.1 hrest
  simp only [Prod.mk.injEq] at hobs
  obtain ⟨happlied, hlead, hterm, hterm'⟩ := hobs
  obtain ⟨hr, hrun⟩ := Transition.ReachWhile.of_runWhile .refl hc
  obtain ⟨hr', hrun'⟩ := Transition.ReachWhile.of_runWhile .refl hc'
  exact ⟨c, c', hrun, hrun', happlied, leaders_keep_applied trio hr hr' hlead (by omega)⟩

end DistributedSync.Raft
