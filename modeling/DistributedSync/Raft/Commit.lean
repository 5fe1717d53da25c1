import DistributedSync.Raft.Acknowledgement
import DistributedSync.Raft.Election
import DistributedSync.Raft.Refinement

/-!
# Committed entries

Two steps can destroy a committed entry without any conflict between leaders: accepting an old `APPEND_ENTRIES`,
which cuts the log off after its entries (`Truncates`), and counting a reply to an earlier leadership (`StaleAck`).
In runs without them every node's log up to its commit index is committed in the abstract log (`CommitBook`), so
committed prefixes are stable and nodes apply the same entries.
-/

namespace DistributedSync.Raft

open ReplicatedLog (Inv Keeps Kept Grows Committed)

/-- A log that keeps the committed entries keeps what has been applied. -/
theorem UpToCommit.of_take_eq {ι κ : Type} {n m : RaftNode ι κ} (h : UpToCommit m)
    (hci : n.commitIndex = m.commitIndex) (hla : n.lastApplied = m.lastApplied) (hap : n.applied = m.applied)
    (hlog : m.log.take m.commitIndex = n.log.take m.commitIndex) : UpToCommit n := by
  refine ⟨by rw [hla, hci]; exact h.1, ?_⟩
  rw [hap, hla, h.2, h.1, hlog]

variable {ι κ : Type} [DecidableEq ι] {cfg : ClusterConfig ι} {s : Cluster ι κ} {act : Action ι κ} {a : ι}
  {n : RaftNode ι κ} {net : List (Packet ι κ)} {reqs : List (ι × RaftMessage ι κ)} {evs : List (Event ι κ)}
  {A A' : ReplicatedLog.State ι (LogEntry κ)}

/-! ### The steps that commit -/

/-- The steps sorted by what they do to the commit index and the applied entries. -/
inductive CommitEffect (cfg : ClusterConfig ι) (s : Cluster ι κ) (act : Action ι κ) (a : ι) (n : RaftNode ι κ) :
    Prop where
  | still (hci : n.commitIndex = (s.nodes a).commitIndex) (hla : n.lastApplied = (s.nodes a).lastApplied)
      (hap : n.applied = (s.nodes a).applied) (hlog : (s.nodes a).log <+: n.log)
      (hterm : (s.nodes a).currentTerm ≤ n.currentTerm)
  | accepted (msg : RaftMessage ι κ) (hk : .request a msg ∈ s.network) (hreq : s.requestAt act = some (a, msg))
      (hm : msg.msgType = .appendEntries) (ht : (s.nodes a).currentTerm ≤ msg.term)
      (hp : prevMatches (s.nodes a).log (msg.data.prevLogIndex.getD 0) (msg.data.prevLogTerm.getD 0) = true)
      (hn : n = (acceptEntries (follow (s.nodes a) msg.senderId msg.term) msg.data).state)
  | advanced (m : RaftNode ι κ) (hm : m = s.nodes a ∨ ∃ src i, m = recordMatch (s.nodes a) src i)
      (hn : n = (tryAdvanceCommit (cfg.self a) m).state)

private theorem Local.commitEffect (hl : Local cfg s act a n net reqs evs) : CommitEffect cfg s act a n := by
  cases hl with
  | startElection _ ha hl he => exact .still rfl rfl rfl List.prefix_rfl (Nat.le_succ _)
  | won _ el he hw => exact .still rfl rfl rfl List.prefix_rfl le_rfl
  | lost _ el he hw => exact .still rfl rfl rfl List.prefix_rfl le_rfl
  | replicate => exact .still rfl rfl rfl List.prefix_rfl le_rfl
  | propose _ command hl => exact .still rfl rfl rfl (List.prefix_append _ _) le_rfl
  | proposeReturn _ call c hc hf => exact .still rfl rfl rfl List.prefix_rfl le_rfl
  | proposeTimeout _ call c hc hf => exact .still rfl rfl rfl List.prefix_rfl le_rfl
  | request k _ msg _ resp hk hh =>
    have hterm := hh.advances.1.term
    obtain ⟨t, st, v, l, hobs⟩ := observeTerm_frame (s.nodes a) msg.term
    cases hh with
    | ignored resp hv hs =>
      rw [hobs] at hterm ⊢
      exact .still rfl rfl rfl List.prefix_rfl hterm
    | voted hm ht hfree hup =>
      rw [hobs]
      exact .still rfl rfl rfl List.prefix_rfl ht
    | rejected hm ht hp => exact .still rfl rfl rfl List.prefix_rfl ht
    | accepted hm ht hp => exact .accepted msg (List.mem_of_getElem? hk) (requestAt_deliver hk) hm ht hp rfl
  | voteReply k src msg resp hk hm =>
    obtain ⟨el, hf⟩ := collectVote_frame (s.nodes msg.senderId) src msg resp
    rw [hf]
    exact .still rfl rfl rfl List.prefix_rfl le_rfl
  | appendReply k src msg resp _ hk hm hp =>
    cases hp with
    | stepDown ht => exact .still rfl rfl rfl List.prefix_rfl ht.le
    | rejected hs => exact .still rfl rfl rfl List.prefix_rfl le_rfl
    | keyError => exact .still rfl rfl rfl List.prefix_rfl le_rfl
    | heartbeat ht hs he => exact .advanced _ (Or.inl rfl) rfl
    | matched pli ht hs he hpli => exact .advanced _ (Or.inr ⟨src, _, rfl⟩) rfl
  | drop _ _ k => exact .still rfl rfl rfl List.prefix_rfl le_rfl

/-! ### The invariant -/

/-- The log of the node up to its commit index is committed, and has been applied. -/
structure NodeCommit (cfg : ClusterConfig ι) (A : ReplicatedLog.State ι (LogEntry κ)) (n : RaftNode ι κ) : Prop where
  le_length : n.commitIndex ≤ n.log.length
  committed : Committed LogEntry.term cfg.quorums A n.currentTerm (n.log.take n.commitIndex)
  upToCommit : UpToCommit n

structure CommitBook (cfg : ClusterConfig ι) (s : Cluster ι κ) (A : ReplicatedLog.State ι (LogEntry κ)) : Prop where
  node : ∀ a, NodeCommit cfg A (s.nodes a)
  sent : ∀ dst msg, .sent dst msg ∈ s.history → msg.msgType = .appendEntries → ∃ S, S <+: A.leaderLog msg.term ∧
    Snapshot S msg ∧ msg.data.leaderCommit.getD 0 ≤ S.length ∧
    Committed LogEntry.term cfg.quorums A msg.term (S.take (msg.data.leaderCommit.getD 0))

theorem NodeCommit.grows (h : NodeCommit cfg A n) (hg : Grows A A') : NodeCommit cfg A' n :=
  ⟨h.le_length, h.committed.grows hg le_rfl, h.upToCommit⟩

/-- A leader commits only what a quorum has acknowledged. -/
theorem committed_of_canCommit (hb : Book cfg s) (hR : Refines s A) (hk : AckBook cfg s)
    (hl : (s.nodes a).state = .leader) {i : Nat} (hi : 0 < i) (hc : CanCommit (cfg.self a) (s.nodes a) i) :
    Committed LogEntry.term cfg.quorums A (s.nodes a).currentTerm ((s.nodes a).log.take i) := by
  obtain ⟨hlog, hack⟩ := hR.leader a hl
  obtain ⟨ℓ, hel⟩ := (hb.node a).leader hl
  obtain ⟨⟨e, he, hte⟩, hq⟩ := hc
  have hlen := (List.getElem?_eq_some_iff.1 he).1
  refine Or.inr ⟨(s.nodes a).currentTerm, i - 1, le_rfl, ⟨⟨e, hlog ▸ he, hte⟩, _,
    cfg.majority_of_countP (hb.elected_candidate hel).1 _ hq, fun p hp => ?_⟩, ?_⟩
  · rcases Finset.mem_insert.1 hp with rfl | hp
    · exact ⟨_, hack, hlen⟩
    · obtain ⟨hpeer, hmatch⟩ := List.mem_filter.1 (List.mem_toFinset.1 hp)
      have hle : i ≤ ((s.nodes a).matchIndex p).getD 0 := by simpa using hmatch
      cases hm : (s.nodes a).matchIndex p with
      | none =>
        rw [hm, Option.getD_none] at hle
        omega
      | some m =>
        rw [hm, Option.getD_some] at hle
        obtain ⟨msg, resp, S, -, hans, -, -, hterm, hsucc, -, hne, hsnap, -, hmS⟩ :=
          (hk a hl).sound p m hpeer hm (by omega)
        refine ⟨_, hterm ▸ hR.acks p msg resp hans hsucc hne, ?_⟩
        rw [hsnap.length hne]
        omega
  · rw [Nat.sub_add_cancel hi, hlog]

/-- What an accepted request makes of the committed part of the log. -/
theorem CommitBook.accept (h : CommitBook cfg s A) (hb : Book cfg s) (hI : Inv LogEntry.term A)
    (hk : Kept LogEntry.term cfg.quorums A) (hR : Refines s A) (hok : KeepsLog s act) {msg : RaftMessage ι κ}
    (hkk : .request a msg ∈ s.network) (hreq : s.requestAt act = some (a, msg)) (hm : msg.msgType = .appendEntries)
    (ht : (s.nodes a).currentTerm ≤ msg.term)
    (hp : prevMatches (s.nodes a).log (msg.data.prevLogIndex.getD 0) (msg.data.prevLogTerm.getD 0) = true) :
    ∃ S, S <+: installEntries (s.nodes a).log (msg.data.prevLogIndex.getD 0) (msg.data.entries.getD []) ∧
      msg.data.leaderCommit.getD 0 ≤ S.length ∧
      Committed LogEntry.term cfg.quorums A msg.term (S.take (msg.data.leaderCommit.getD 0)) ∧
      (s.nodes a).log.take (s.nodes a).commitIndex <+:
        installEntries (s.nodes a).log (msg.data.prevLogIndex.getD 0) (msg.data.entries.getD []) := by
  have hsent := hb.request a msg hkk
  obtain ⟨S, hS, hsnap, hlc, hcom⟩ := h.sent a msg hsent hm
  obtain ⟨pli, hpli, hents, -, hagree⟩ := hR.agree hb hI hS hsnap hp
  obtain ⟨hinst, hpre⟩ := installEntries_snapshot hagree
  refine ⟨S, by simpa [hpli, hents] using hpre, hlc, hcom, ?_⟩
  simp only [hpli, hents, Option.getD_some]
  by_cases hne : S.drop pli = []
  · rw [hne]
    exact List.take_prefix _ _
  · rw [hinst hne]
    have hel : A.elected msg.term ≠ none := by
      rcases hb.backed a msg hsent with ⟨hm', -⟩ | ⟨-, ℓ, hℓ⟩
      · rw [hm] at hm'; cases hm'
      · rw [(hR.elected _ ℓ).2 ⟨_, hℓ⟩]
        simp
    have hkeep : S <+: A.log a → S = A.log a := by
      rw [hR.log]
      exact hok.eq_of_isPrefix hreq hm ht hp hpli hents hne
    exact (h.node a).committed.kept hI hk ht hel hS hkeep (by rw [hR.log]; exact List.take_prefix _ _)

/-- The committed part of the log of the acting node, before and after a step. -/
def Stable (n n' : RaftNode ι κ) : Prop :=
  n.commitIndex ≤ n'.commitIndex ∧ n'.log.take n.commitIndex = n.log.take n.commitIndex

/-- What a step makes of the committed part of the log of the acting node. -/
theorem CommitBook.step_node (h : CommitBook cfg s A) (hb : Book cfg s) (hI : Inv LogEntry.term A)
    (hk : Kept LogEntry.term cfg.quorums A) (hR : Refines s A) (hok : KeepsLog s act)
    (hl : Local cfg s act a n net reqs evs) (hb' : Book cfg (s.act a n net reqs evs))
    (hR' : Refines (s.act a n net reqs evs) A') (hk' : AckBook cfg (s.act a n net reqs evs)) (hg : Grows A A') :
    NodeCommit cfg A' n ∧ Stable (s.nodes a) n := by
  obtain ⟨hlen, hcom, hup⟩ := h.node a
  cases hl.commitEffect with
  | still hci hla hap hlog hterm =>
    have htake := Positions.take_of_isPrefix hlog hlen
    refine ⟨⟨?_, ?_, hup.of_take_eq hci hla hap htake.symm⟩, hci.ge, htake⟩
    · rw [hci]
      exact hlen.trans hlog.length_le
    · rw [hci, htake]
      exact hcom.grows hg hterm
  | accepted msg hkk hreq hm ht hp hn =>
    obtain ⟨S, hS, hlc, hScom, hkept⟩ := h.accept hb hI hk hR hok hkk hreq hm ht hp
    obtain ⟨ci, la, ap, pr, cs, hf, hci⟩ := acceptEntries_spec (follow (s.nodes a) msg.senderId msg.term) msg.data
    set ℓ := installEntries (s.nodes a).log (msg.data.prevLogIndex.getD 0) (msg.data.entries.getD []) with hℓ
    have hnlog : n.log = ℓ := by rw [hn, hf]; rfl
    have hnci : n.commitIndex = ci := by rw [hn, hf]
    have hnterm : n.currentTerm = msg.term := by rw [hn, hf]; rfl
    have hlen' : (s.nodes a).commitIndex ≤ ℓ.length := by
      have := hkept.length_le
      rwa [List.length_take, min_eq_left hlen] at this
    have htake : ℓ.take (s.nodes a).commitIndex = (s.nodes a).log.take (s.nodes a).commitIndex := by
      have := Positions.take_of_isPrefix hkept (n := (s.nodes a).commitIndex) (by simp [hlen])
      rwa [List.take_take, min_self] at this
    have hupn : UpToCommit n := by
      have hfollow : UpToCommit { follow (s.nodes a) msg.senderId msg.term with log := ℓ } :=
        hup.of_take_eq rfl rfl rfl htake.symm
      exact hn ▸ hfollow.adoptCommit hlen' _
    rcases hci with ⟨rfl, -⟩ | ⟨hlt, hci⟩
    · -- the commit index stays
      have hnci' : n.commitIndex = (s.nodes a).commitIndex := hnci
      refine ⟨⟨?_, ?_, hupn⟩, hnci'.ge, by rw [hnlog, htake]⟩
      · rw [hnci', hnlog]; exact hlen'
      · rw [hnci', hnlog, htake, hnterm]; exact hcom.grows hg ht
    · -- the commit index becomes the leader's
      have hcile : ci = msg.data.leaderCommit.getD 0 := hci.trans (min_eq_left (hlc.trans hS.length_le))
      refine ⟨⟨?_, ?_, hupn⟩, ?_, by rw [hnlog, htake]⟩
      · rw [hnci, hnlog, hcile]; exact hlc.trans hS.length_le
      · rw [hnci, hnlog, hnterm, hcile, Positions.take_of_isPrefix hS hlc]; exact hScom.grows hg le_rfl
      · rw [hnci, hcile]; exact hlt.le
  | advanced m hm hn =>
    have hsame : m.log = (s.nodes a).log ∧ m.commitIndex = (s.nodes a).commitIndex ∧
        m.currentTerm = (s.nodes a).currentTerm ∧ UpToCommit m := by
      rcases hm with rfl | ⟨src, i, rfl⟩
      · exact ⟨rfl, rfl, rfl, hup⟩
      · exact ⟨rfl, rfl, rfl, hup⟩
    obtain ⟨hmlog, hmci, hmterm, hmup⟩ := hsame
    obtain ⟨ci, la, ap, pr, cs, hf, hci, -, hupn⟩ := tryAdvanceCommit_spec (cfg.self a) m
    have hnup : UpToCommit n := hn ▸ hupn UpToCommit UpToCommit.applies hmup
    rw [hf] at hn
    have hnlog : n.log = (s.nodes a).log := by rw [hn, ← hmlog]
    have hnci : n.commitIndex = ci := by rw [hn]
    have hnterm : n.currentTerm = (s.nodes a).currentTerm := by rw [hn, ← hmterm]
    rcases hci with rfl | ⟨hlead, hlt, hcilen, hcan⟩
    · rw [hmci] at hnci
      exact ⟨⟨by rw [hnci, hnlog]; exact hlen, by rw [hnci, hnlog, hnterm]; exact hcom.grows hg le_rfl, hnup⟩,
        hnci.ge, by rw [hnlog]⟩
    · -- the leader commits
      have hcann : CanCommit (cfg.self a) n ci := by rw [hn]; exact hcan
      have hnlead : n.state = .leader := by rw [hn]; exact hlead
      have hcomn := committed_of_canCommit (a := a) (i := ci) hb' hR' hk' (by rw [act_nodes_self]; exact hnlead)
        (by omega) (by rw [act_nodes_self]; exact hcann)
      rw [act_nodes_self] at hcomn
      exact ⟨⟨by rw [hnci, hnlog, ← hmlog]; exact hcilen, hnci ▸ hcomn, hnup⟩, by rw [hnci, ← hmci]; exact hlt.le,
        by rw [hnlog]⟩

theorem CommitBook.step (h : CommitBook cfg s A) (hn : NodeCommit cfg A' n) (hg : Grows A A')
    (hl : Local cfg s act a n net reqs evs) (hR' : Refines (s.act a n net reqs evs) A') :
    CommitBook cfg (s.act a n net reqs evs) A' := by
  refine ⟨act_nodes_ind (P := fun _ m => NodeCommit cfg A' m) hn fun b => (h.node b).grows hg, fun dst msg hs hm => ?_⟩
  rcases hl.sent_cases hs with hs | hv | ⟨hlead, hreq⟩
  · obtain ⟨S, hS, hsnap, hlc, hcom⟩ := h.sent dst msg hs hm
    exact ⟨S, hS.trans (hg.leaderLog _), hsnap, hlc, hcom.grows hg le_rfl⟩
  · rw [hv] at hm; cases hm
  · -- a leader sends its log and its commit index
    have hlog := (hR'.leader a (by rw [act_nodes_self]; exact hlead)).1
    rw [act_nodes_self] at hlog
    refine ⟨n.log, ?_, hreq ▸ appendRequest_snapshot _ n dst, ?_, ?_⟩
    · rw [hreq, hlog]
      exact List.prefix_rfl
    · rw [hreq]; exact hn.le_length
    · rw [hreq]; exact hn.committed

/-! ### Runs -/

/-- The steps outside the two defects of replication. -/
def Replicates (s : Cluster ι κ) (act : Action ι κ) : Prop := KeepsLog s act ∧ AcksCurrent s act

/-- The steps outside the defects of replication and of elections. -/
def Safe (s : Cluster ι κ) (act : Action ι κ) : Prop := VotesOnce s act ∧ Replicates s act

instance [DecidableEq κ] (s : Cluster ι κ) (act : Action ι κ) : Decidable (Replicates s act) :=
  inferInstanceAs (Decidable (_ ∧ _))

instance [DecidableEq κ] (s : Cluster ι κ) (act : Action ι κ) : Decidable (Safe s act) :=
  inferInstanceAs (Decidable (_ ∧ _))

/-- The abstract state of a cluster that replicates, with the invariants of both levels. -/
structure Committing (cfg : ClusterConfig ι) (s : Cluster ι κ) (A : ReplicatedLog.State ι (LogEntry κ)) : Prop where
  reach : Transition.ReachWhile (AbsStep cfg) Keeps .init A
  refines : Refines s A
  book : CommitBook cfg s A

theorem Committing.init : Committing cfg (Cluster.init : Cluster ι κ) .init where
  reach := .refl
  refines := .init
  book := ⟨fun _ => ⟨le_rfl, Or.inl rfl, rfl, rfl⟩, by simp [Cluster.init]⟩

theorem Committing.step (h : Committing cfg s A) (hb : Book cfg s) (hk : AckBook cfg s) (hok : Replicates s act)
    (hl : Local cfg s act a n net reqs evs) (hone : OneLeader (s.act a n net reqs evs)) :
    Stable (s.nodes a) n ∧ ∃ A', Committing cfg (s.act a n net reqs evs) A' := by
  have hI := Inv.of_reach h.reach
  have hstep : ∃ A', Transition.ReachWhile (AbsStep cfg) Keeps A A' ∧ Refines (s.act a n net reqs evs) A' :=
    h.refines.step hb hI hl.effect hone fun B x hx => hx hok.1
  obtain ⟨A', hAA', hR'⟩ := hstep
  have hg := (hI.grows_of_steps hAA').2
  obtain ⟨hnode, hstable⟩ := h.book.step_node hb hI (Kept.of_reach h.reach) h.refines hok.1 hl (hb.step hl) hR'
    (hk.step hb hok.2 hl) hg
  exact ⟨hstable, A', h.reach.trans hAA', hR', h.book.step hnode hg hl hR'⟩

theorem Committing.of_reach {ok : Cluster ι κ → Action ι κ → Prop} (hok : ∀ s act, ok s act → Replicates s act)
    (h : ReachWhile cfg ok s) (hone : OneLeader s) : ∃ A, Committing cfg s A := by
  revert hone
  refine ReachWhile.of_local (I := fun r => OneLeader r → ∃ A, Committing cfg r A) (fun _ => ⟨_, .init⟩)
    (fun s act a n net reqs evs hr ih ha hl hone => ?_) h
  obtain ⟨A, hA⟩ := ih hone.of_act
  have hk : AckBook cfg s := .of_reach (fun s act h => (hok s act h).2) hr
  exact (hA.step (.of_reach hr) hk (hok _ _ ha) hl hone).2

/-! ### State machine safety -/

/-- The applied entries of two nodes with the same index are the same. -/
theorem Committing.applied_eq (h : Committing cfg s A) (hix : IndexBook s) {a b : ι} {e e' : LogEntry κ}
    (he : e ∈ (s.nodes a).applied) (he' : e' ∈ (s.nodes b).applied) (hindex : e.index = e'.index) : e = e' := by
  have happlied : ∀ c, (s.nodes c).applied = (s.nodes c).log.take (s.nodes c).commitIndex := by
    intro c
    obtain ⟨hla, hap⟩ := (h.book.node c).upToCommit
    rw [hap, hla]
  -- the position of an applied entry is its index
  have hpos : ∀ c (d : LogEntry κ), d ∈ (s.nodes c).applied →
      ((s.nodes c).log.take (s.nodes c).commitIndex)[d.index - 1]? = some d := by
    intro c d hd
    rw [happlied] at hd
    obtain ⟨i, hi⟩ := List.mem_iff_getElem?.1 hd
    have hlog : (s.nodes c).log[i]? = some d :=
      Positions.getElem?_of_isPrefix (List.take_prefix _ _) hi
    rw [hix.log c i d hlog]
    exact hi
  have hd := hpos a e he
  have hd' := hpos b e' he'
  rw [← hindex] at hd'
  rcases (h.book.node a).committed.comparable (h.book.node b).committed (Inv.of_reach h.reach)
    (Kept.of_reach h.reach) with hpre | hpre
  · rw [Positions.getElem?_of_isPrefix hpre hd] at hd'
    exact Option.some.inj hd'
  · rw [Positions.getElem?_of_isPrefix hpre hd'] at hd
    exact (Option.some.inj hd).symm

/-- State machine safety, for runs in which no accepted request cuts the log off after entries it already holds and
no stale reply raises a match index. -/
theorem state_machine_safety (cfg : ClusterConfig ι) {s : Cluster ι κ} (h : ReachWhile cfg Replicates s)
    (hone : OneLeader s) : ∀ a b, ∀ e ∈ (s.nodes a).applied, ∀ e' ∈ (s.nodes b).applied, e.index = e'.index →
      e.term = e'.term ∧ e.command = e'.command := by
  intro a b e he e' he' hindex
  obtain ⟨A, hA⟩ := Committing.of_reach (fun _ _ h => h) h hone
  obtain rfl := hA.applied_eq (IndexBook.of_reach h) he he' hindex
  exact ⟨rfl, rfl⟩

/-- Nodes `0` and `1` both apply the first entry of the leader `0`. -/
theorem state_machine_safety_run : ∃ s : Cluster (Fin 3) Nat, Transition.run (step trio) Cluster.init
      [.startElection 0, .deliver 0, .deliver 1, .countVotes 0, .propose 0 7, .deliver 1, .deliver 2, .replicate 0,
        .deliver 2] = some s ∧
    (s.nodes 0).applied = [⟨1, 1, 7⟩] ∧ (s.nodes 1).applied = [⟨1, 1, 7⟩] ∧
    ∀ e ∈ (s.nodes 0).applied, ∀ e' ∈ (s.nodes 1).applied, e.index = e'.index →
      e.term = e'.term ∧ e.command = e'.command := by
  have hrun : ((Transition.runWhile (step trio) Replicates (Cluster.init : Cluster (Fin 3) Nat)
      [.startElection 0, .deliver 0, .deliver 1, .countVotes 0, .propose 0 7, .deliver 1, .deliver 2, .replicate 0,
        .deliver 2]).map fun s => (decide (OneLeader s), (s.nodes 0).applied, (s.nodes 1).applied)) =
      some (true, [⟨1, 1, 7⟩], [⟨1, 1, 7⟩]) := by decide
  obtain ⟨s, hs, hobs⟩ := Option.map_eq_some_iff.1 hrun
  simp only [Prod.mk.injEq, decide_eq_true_eq] at hobs
  obtain ⟨hone, h0, h1⟩ := hobs
  obtain ⟨hr, hrun⟩ := Transition.ReachWhile.of_runWhile .refl hs
  exact ⟨s, hrun, h0, h1, state_machine_safety trio hr hone 0 1⟩

/-- The old request with one entry cuts the second entry, committed by the leader `0`, off the log of node `1`;
node `1` then wins term `2` and commits another second entry. -/
theorem applied_entries_differ : ∃ s : Cluster (Fin 3) Nat, Reach trio s ∧ OneLeader s ∧
    ¬∀ a b, ∀ e ∈ (s.nodes a).applied, ∀ e' ∈ (s.nodes b).applied, e.index = e'.index →
      e.term = e'.term ∧ e.command = e'.command := by
  have hrun : ((Transition.run (step trio) (Cluster.init : Cluster (Fin 3) Nat)
      [.startElection 0, .deliver 0, .deliver 1, .countVotes 0, .propose 0 7, .propose 0 8, .deliver 3, .deliver 4,
        .deliver 1, .deliver 1, .startElection 1, .deliver 5, .deliver 5, .countVotes 1, .propose 1 9, .deliver 6,
        .deliver 6]).map fun s => (decide (OneLeader s), (s.nodes 0).applied, (s.nodes 1).applied)) =
      some (true, [⟨1, 1, 7⟩, ⟨1, 2, 8⟩], [⟨1, 1, 7⟩, ⟨2, 2, 9⟩]) := by decide
  obtain ⟨s, hs, hobs⟩ := Option.map_eq_some_iff.1 hrun
  simp only [Prod.mk.injEq, decide_eq_true_eq] at hobs
  obtain ⟨hone, h0, h1⟩ := hobs
  refine ⟨s, Transition.reach_of_run hs, hone, fun hall => ?_⟩
  exact absurd (hall 0 1 ⟨1, 2, 8⟩ (by simp [h0]) ⟨2, 2, 9⟩ (by simp [h1]) rfl) (by decide)

/-! ### Stability of committed prefixes -/

/-- In runs outside the three defects, no step touches the committed part of a log, and the commit index stays
inside the log and never decreases. -/
theorem committed_prefix_stable (cfg : ClusterConfig ι) {s : Cluster ι κ} (h : ReachWhile cfg Safe s) :
    (∀ a, (s.nodes a).commitIndex ≤ (s.nodes a).log.length) ∧
    ∀ act s', Safe s act → Steps cfg s act s' → ∀ a, (s.nodes a).commitIndex ≤ (s'.nodes a).commitIndex ∧
      (s'.nodes a).log.take (s.nodes a).commitIndex = (s.nodes a).log.take (s.nodes a).commitIndex := by
  have hvotes : ∀ {r}, ReachWhile cfg Safe r → OneLeader (κ := κ) r := fun hr =>
    (Ballot.of_reach (hr.mono fun _ _ h => h.1)).oneLeader (Book.of_reach hr)
  obtain ⟨A, hA⟩ := Committing.of_reach (fun _ _ h => h.2) h (hvotes h)
  refine ⟨fun a => (hA.book.node a).le_length, fun act s' hok hstep => ?_⟩
  have hone := hvotes (h.tail hok hstep)
  obtain ⟨b, n, net, reqs, evs, hl, rfl⟩ := hstep.local
  have hk : AckBook cfg s := .of_reach (fun _ _ h => h.2.2) h
  intro a
  by_cases hab : a = b
  · subst hab
    rw [act_nodes_self]
    exact (hA.step (.of_reach h) hk hok.2 hl hone).1
  · rw [act_nodes_ne hab]
    exact ⟨le_rfl, rfl⟩

/-- Node `1` learns that the first entry is committed, and keeps it in its log. -/
theorem committed_prefix_stable_run : ∃ s : Cluster (Fin 3) Nat, Transition.run (step trio) Cluster.init
      [.startElection 0, .deliver 0, .deliver 1, .countVotes 0, .propose 0 7, .deliver 1, .deliver 2, .replicate 0,
        .deliver 2] = some s ∧
    (s.nodes 1).commitIndex = 1 ∧ (s.nodes 1).commitIndex ≤ (s.nodes 1).log.length := by
  have hrun : ((Transition.runWhile (step trio) Safe (Cluster.init : Cluster (Fin 3) Nat)
      [.startElection 0, .deliver 0, .deliver 1, .countVotes 0, .propose 0 7, .deliver 1, .deliver 2, .replicate 0,
        .deliver 2]).map fun s => (s.nodes 1).commitIndex) = some 1 := by decide
  obtain ⟨s, hs, hci⟩ := Option.map_eq_some_iff.1 hrun
  obtain ⟨hr, hrun⟩ := Transition.ReachWhile.of_runWhile .refl hs
  exact ⟨s, hrun, hci, (committed_prefix_stable trio hr).1 1⟩

/-- The old request with one entry arrives at node `1` after it has learned that two entries are committed. -/
theorem committed_entry_removed : ∃ s : Cluster (Fin 3) Nat, Reach trio s ∧ OneLeader s ∧
    (s.nodes 1).log.length < (s.nodes 1).commitIndex := by
  have hrun : ((Transition.run (step trio) (Cluster.init : Cluster (Fin 3) Nat)
      [.startElection 0, .deliver 0, .deliver 1, .countVotes 0, .propose 0 7, .propose 0 8, .deliver 3, .deliver 4,
        .replicate 0, .deliver 4, .deliver 1]).map fun s =>
      (decide (OneLeader s), (s.nodes 1).log.length, (s.nodes 1).commitIndex)) = some (true, 1, 2) := by decide
  obtain ⟨s, hs, hobs⟩ := Option.map_eq_some_iff.1 hrun
  simp only [Prod.mk.injEq, decide_eq_true_eq] at hobs
  obtain ⟨hone, hlen, hci⟩ := hobs
  exact ⟨s, Transition.reach_of_run hs, hone, by omega⟩

end DistributedSync.Raft
