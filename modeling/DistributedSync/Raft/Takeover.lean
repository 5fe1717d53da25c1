import Mathlib.Data.Finset.Max
import Mathlib.Data.Prod.Lex
import DistributedSync.Raft.Steps

/-!
# Taking over

From every state of a cluster, reachable or not, some continuation of the run makes one node the leader of a term that
no node is past (`exists_leading`).  A node of the latest term that does not lead yet starts an election and all others
follow it into the new term; then nobody leads, and of all nodes one with the most up to date log gets every vote.
The packets that are in flight already are never needed.
-/

namespace DistributedSync.Raft

/-- All votes make a majority. -/
theorem wins_of_votes {ι κ : Type} {me : Self ι} {n : RaftNode ι κ} {el : Election ι} (hstate : n.state = .candidate)
    (h : ∀ p ∈ me.peers, granted (el.responses p) = true) : wins me n el = true := by
  have hcount : me.peers.countP (fun p => granted (el.responses p)) = me.peers.length := List.countP_eq_length.2 h
  refine decide_eq_true ⟨hstate, ?_⟩
  rw [Election.votes, hcount, Self.quorumSize]
  omega

variable {ι κ : Type} [DecidableEq ι] {cfg : ClusterConfig ι} {s : Cluster ι κ} {a p : ι}

/-- A leader whose term no node of the cluster is past. -/
structure Leading (cfg : ClusterConfig ι) (s : Cluster ι κ) (a : ι) : Prop where
  mem : a ∈ cfg.ids
  leader : (s.nodes a).state = .leader
  latest : ∀ b ∈ cfg.ids, (s.nodes b).currentTerm ≤ (s.nodes a).currentTerm

theorem ClusterConfig.mem_peers (cfg : ClusterConfig ι) (ha : a ∈ cfg.ids) : p ∈ cfg.peers a ↔ p ≠ a ∧ p ∈ cfg.ids := by
  rw [(cfg.peers_perm a ha).mem_iff, cfg.nodup.mem_erase_iff]

theorem Steps.reach {s' : Cluster ι κ} {act : Action ι κ} (h : Steps cfg s act s') :
    Transition.Reach (Steps cfg) s s' :=
  .tail .refl trivial h

/-! ### One packet -/

/-- A request in flight can be handled, and its reply is in flight then. -/
theorem reach_request (cfg : ClusterConfig ι) {msg : RaftMessage ι κ} (h : .request p msg ∈ s.network) : ∃ s' resp,
    Transition.Reach (Steps cfg) s s' ∧
      handleMessage (cfg.self p) (s.nodes p) msg = ⟨s'.nodes p, .ok resp⟩ ∧ (∀ b ≠ p, s'.nodes b = s.nodes b) ∧
      .reply p msg resp ∈ s'.network ∧ ∀ x ∈ s.network, x ≠ .request p msg → x ∈ s'.network := by
  obtain ⟨k, hk⟩ := List.mem_iff_getElem?.1 h
  obtain ⟨n, resp, hn, -⟩ := handleMessage_cases (cfg.self p) (s.nodes p) msg
  have hstep : step cfg s (.deliver k) = some (s.act p n (s.network.eraseIdx k ++ [.reply p msg resp]) []
      [.answered p msg resp]) := by
    simp only [step, hk, Option.map_some, deliver, hn, answer]
  refine ⟨_, resp, Steps.reach hstep, ?_, fun b hb => act_nodes_ne hb, ?_, fun x hx hne => ?_⟩
  · rw [hn, act_nodes_self]
  · exact List.mem_append_left _ (List.mem_append_right _ (List.mem_singleton_self _))
  · exact List.mem_append_left _ (List.mem_append_left _ (Positions.mem_eraseIdx_of_ne hk hx hne))

/-- A reply in flight can reach the sender of the request. -/
theorem reach_reply (cfg : ClusterConfig ι) {msg : RaftMessage ι κ} {resp : Reply ι}
    (h : .reply p msg resp ∈ s.network) : ∃ s', Transition.Reach (Steps cfg) s s' ∧
      s'.nodes msg.senderId = receiveReply (cfg.self msg.senderId) (s.nodes msg.senderId) p msg resp ∧
      (∀ b ≠ msg.senderId, s'.nodes b = s.nodes b) ∧ ∀ x ∈ s.network, x ≠ .reply p msg resp → x ∈ s'.network := by
  obtain ⟨k, hk⟩ := List.mem_iff_getElem?.1 h
  have hstep : step cfg s (.deliver k) = some (s.act msg.senderId
      (receiveReply (cfg.self msg.senderId) (s.nodes msg.senderId) p msg resp) (s.network.eraseIdx k) [] []) := by
    simp only [step, hk, Option.map_some, deliver]
  refine ⟨_, Steps.reach hstep, act_nodes_self, fun b hb => act_nodes_ne hb, fun x hx hne => ?_⟩
  exact List.mem_append_left _ (Positions.mem_eraseIdx_of_ne hk hx hne)

/-- The node has handled the request in `s`, and its reply is in flight in `s'`. -/
def Answers (cfg : ClusterConfig ι) (s s' : Cluster ι κ) (msg : RaftMessage ι κ) (p : ι) : Prop :=
  ∃ resp, handleMessage (cfg.self p) (s.nodes p) msg = ⟨s'.nodes p, .ok resp⟩ ∧ .reply p msg resp ∈ s'.network

/-- Requests in flight can be handled one after the other. -/
theorem reach_answers (cfg : ClusterConfig ι) {msg : RaftMessage ι κ} {ps : List ι}
    (h : ∀ p ∈ ps, .request p msg ∈ s.network) :
    ∃ s', Transition.Reach (Steps cfg) s s' ∧ (∀ b ∉ ps, s'.nodes b = s.nodes b) ∧
      ∀ p ∈ ps, Answers cfg s s' msg p := by
  have hall : ∃ s', Transition.Reach (Steps cfg) s s' ∧ ((∀ b ∉ ps, s'.nodes b = s.nodes b) ∧
      ∀ p ∈ ps, (s'.nodes p = s.nodes p ∧ .request p msg ∈ s'.network) ∨ Answers cfg s s' msg p) ∧
        ∀ p ∈ ps, Answers cfg s s' msg p := by
    refine Transition.reach_forall_mem (fun p hp t ht => ?_) ⟨fun _ _ => rfl, fun p hp => Or.inl ⟨rfl, h p hp⟩⟩
    obtain ⟨hother, hpeers⟩ := ht
    rcases hpeers p hp with ⟨hnode, hreq⟩ | hdone
    · obtain ⟨t', resp, ht', hhandle, hsame, hreply, hkeep⟩ := reach_request cfg hreq
      rw [hnode] at hhandle
      have hanswers : Answers cfg s t' msg p := ⟨resp, hhandle, hreply⟩
      have hkeepAnswers : ∀ q, Answers cfg s t msg q → Answers cfg s t' msg q := by
        rintro q ⟨resp', hq, hin⟩
        by_cases hqp : q = p
        · rw [hqp]
          exact hanswers
        · exact ⟨resp', by rw [hsame q hqp]; exact hq, hkeep _ hin fun hpacket => by cases hpacket⟩
      refine ⟨t', ht', ⟨fun b hb => ?_, fun q hq => ?_⟩, hanswers, fun q _ => hkeepAnswers q⟩
      · rw [hsame b fun hbp => hb (hbp ▸ hp), hother b hb]
      · by_cases hqp : q = p
        · rw [hqp]
          exact Or.inr hanswers
        · rcases hpeers q hq with ⟨hnode', hreq'⟩ | hdone'
          · refine Or.inl ⟨by rw [hsame q hqp, hnode'], hkeep _ hreq' fun hpacket => ?_⟩
            cases hpacket
            exact hqp rfl
          · exact Or.inr (hkeepAnswers q hdone')
    · exact ⟨t, .refl, ⟨hother, hpeers⟩, hdone, fun _ _ hq => hq⟩
  obtain ⟨s', hs', ⟨hother, -⟩, hdone⟩ := hall
  exact ⟨s', hs', hother, hdone⟩

/-! ### Elections -/

/-- An election that is under way can be counted. -/
theorem reach_counted (cfg : ClusterConfig ι) (s : Cluster ι κ) (a : ι) : ∃ s', Transition.Reach (Steps cfg) s s' ∧
    (s'.nodes a).election = none ∧ (∀ b ≠ a, s'.nodes b = s.nodes b) ∧
      (s'.nodes a).currentTerm = (s.nodes a).currentTerm ∧ (s'.nodes a).log = (s.nodes a).log := by
  cases he : (s.nodes a).election with
  | none => exact ⟨s, .refl, he, fun _ _ => rfl, rfl, rfl⟩
  | some el =>
    have hstep : step cfg s (.countVotes a) = some (s.act a (countVotes (cfg.self a) (s.nodes a) el) s.network []
        (if wins (cfg.self a) (s.nodes a) el then [.elected a (s.nodes a).currentTerm (s.nodes a).log] else [])) := by
      simp only [step, he, Option.map_some]
    refine ⟨_, Steps.reach hstep, ?_, fun b hb => act_nodes_ne hb, ?_, ?_⟩ <;>
    · rw [act_nodes_self, countVotes]
      split <;> rfl

/-- A node that starts an election can have all the others answer. -/
theorem reach_campaign (ha : a ∈ cfg.ids) (hl : (s.nodes a).state ≠ .leader) (he : (s.nodes a).election = none) :
    ∃ s', Transition.Reach (Steps cfg) s s' ∧ s'.nodes a = startElection (cfg.self a) (s.nodes a) ∧
      ∀ p ∈ cfg.peers a,
        Answers cfg s s' (voteRequest (cfg.self a) (startElection (cfg.self a) (s.nodes a))) p := by
  generalize hn : startElection (cfg.self a) (s.nodes a) = n
  have hstep : step cfg s (.startElection a) = some (s.act a n s.network (broadcastVote (cfg.self a) n)
      [.started a n.currentTerm n.log]) := by
    simp only [step, hn]
    exact if_pos ⟨ha, hl, by rw [he, Option.isNone_none]⟩
  have hrequests : ∀ p ∈ cfg.peers a, .request p (voteRequest (cfg.self a) n) ∈
      (s.act a n s.network (broadcastVote (cfg.self a) n) [.started a n.currentTerm n.log]).network := by
    intro p hp
    refine List.mem_append_right _ (List.mem_map.2 ⟨(p, voteRequest (cfg.self a) n), ?_, rfl⟩)
    exact List.mem_map.2 ⟨p, hp, rfl⟩
  obtain ⟨s', hs', hother, hanswers⟩ := reach_answers cfg hrequests
  have hself : a ∉ cfg.peers a := fun h => ((cfg.mem_peers ha).1 h).1 rfl
  refine ⟨s', (Steps.reach hstep).trans hs', (hother a hself).trans act_nodes_self, fun p hp => ?_⟩
  obtain ⟨resp, hhandle, hreply⟩ := hanswers p hp
  have hnode : (s.act a n s.network (broadcastVote (cfg.self a) n) [.started a n.currentTerm n.log]).nodes p =
      s.nodes p := act_nodes_ne ((cfg.mem_peers ha).1 hp).1
  rw [hnode] at hhandle
  exact ⟨resp, hhandle, hreply⟩

/-- A node in an older term follows the candidate into its term, and votes for it if its log is not more up to date. -/
theorem handleMessage_vote {me : Self ι} {n n' : RaftNode ι κ} {msg : RaftMessage ι κ} {resp : Reply ι}
    (hm : msg.msgType = .voteRequest) (hterm : n.currentTerm < msg.term)
    (h : handleMessage me n msg = ⟨n', .ok resp⟩) :
    n'.state = .follower ∧ n'.currentTerm = msg.term ∧ n'.log = n.log ∧
      (upToDate msg.data n.log = true → granted (some resp) = true) := by
  simp only [handleMessage, hm, observeTerm, hterm, ↓reduceIte, handleVoteRequest] at h
  split at h
  · cases h
    exact ⟨rfl, rfl, rfl, fun _ => rfl⟩
  · rename_i hrefused
    cases h
    exact ⟨rfl, rfl, rfl, fun hup => absurd ⟨le_rfl, Or.inl trivial, hup⟩ hrefused⟩

/-- The running election of the node has the vote of `p`. -/
def HasVote (n : RaftNode ι κ) (p : ι) : Prop := ∃ el, n.election = some el ∧ granted (el.responses p) = true

/-- Votes in flight can be collected one after the other. -/
theorem reach_votes (cfg : ClusterConfig ι) {msg : RaftMessage ι κ} {ps : List ι} {el : Election ι}
    (hm : msg.msgType = .voteRequest) (hel : (s.nodes msg.senderId).election = some el) (hterm : el.term = msg.term)
    (h : ∀ p ∈ ps, ∃ resp, granted (some resp) = true ∧ .reply p msg resp ∈ s.network) :
    ∃ s' el', Transition.Reach (Steps cfg) s s' ∧
      s'.nodes msg.senderId = { s.nodes msg.senderId with election := some el' } ∧
      (∀ b ≠ msg.senderId, s'.nodes b = s.nodes b) ∧ ∀ p ∈ ps, granted (el'.responses p) = true := by
  have hall : ∃ s', Transition.Reach (Steps cfg) s s' ∧ ((∀ b ≠ msg.senderId, s'.nodes b = s.nodes b) ∧
      (∃ el', s'.nodes msg.senderId = { s.nodes msg.senderId with election := some el' } ∧ el'.term = msg.term) ∧
      ∀ p ∈ ps, (∃ resp, granted (some resp) = true ∧ .reply p msg resp ∈ s'.network) ∨
        HasVote (s'.nodes msg.senderId) p) ∧
      ∀ p ∈ ps, HasVote (s'.nodes msg.senderId) p := by
    refine Transition.reach_forall_mem (fun p hp t ht => ?_)
      ⟨fun _ _ => rfl, ⟨el, ?_, hterm⟩, fun p hp => Or.inl (h p hp)⟩
    · obtain ⟨hother, ⟨el', hel', hterm'⟩, hpeers⟩ := ht
      rcases hpeers p hp with ⟨resp, hgrant, hreply⟩ | hdone
      · obtain ⟨t', ht', hnode, hsame, hkeep⟩ := reach_reply cfg hreply
        have hcollect : t'.nodes msg.senderId = { s.nodes msg.senderId with
            election := some { el' with responses := Function.update el'.responses p (some resp) } } := by
          rw [hnode, hel']
          simp only [receiveReply, hm, collectVote, hterm', ↓reduceIte]
        have hvote : HasVote (t'.nodes msg.senderId) p := by
          rw [hcollect]
          refine ⟨_, rfl, ?_⟩
          simp only [Function.update_self, hgrant]
        have hkeepVote : ∀ q, HasVote (t.nodes msg.senderId) q → HasVote (t'.nodes msg.senderId) q := by
          rintro q ⟨el'', hel'', hq⟩
          rw [hel'] at hel''
          obtain rfl : el' = el'' := Option.some.inj hel''
          by_cases hqp : q = p
          · rw [hqp]
            exact hvote
          · rw [hcollect]
            refine ⟨_, rfl, ?_⟩
            simp only [Function.update_of_ne hqp, hq]
        refine ⟨t', ht', ⟨fun b hb => (hsame b hb).trans (hother b hb), ⟨_, hcollect, hterm'⟩, fun q hq => ?_⟩, hvote,
          fun q _ => hkeepVote q⟩
        by_cases hqp : q = p
        · rw [hqp]
          exact Or.inr hvote
        · rcases hpeers q hq with ⟨resp', hgrant', hreply'⟩ | hdone'
          · refine Or.inl ⟨resp', hgrant', hkeep _ hreply' fun hpacket => ?_⟩
            cases hpacket
            exact hqp rfl
          · exact Or.inr (hkeepVote q hdone')
      · exact ⟨t, .refl, ⟨hother, ⟨el', hel', hterm'⟩, hpeers⟩, hdone, fun _ _ hq => hq⟩
    · rw [← hel]
  obtain ⟨s', hs', ⟨hother, ⟨el', hel', -⟩, -⟩, hvotes⟩ := hall
  refine ⟨s', el', hs', hel', hother, fun p hp => ?_⟩
  obtain ⟨el'', hel'', hvote⟩ := hvotes p hp
  rw [hel'] at hel''
  obtain rfl : el' = el'' := Option.some.inj hel''
  exact hvote

/-- A node that can start an election in the latest term can make all others follow it. -/
theorem reach_followers (ha : a ∈ cfg.ids) (hl : (s.nodes a).state ≠ .leader) (he : (s.nodes a).election = none)
    (hlatest : ∀ b ∈ cfg.ids, (s.nodes b).currentTerm ≤ (s.nodes a).currentTerm) :
    ∃ s', Transition.Reach (Steps cfg) s s' ∧ ∀ b ∈ cfg.ids, (s'.nodes b).state ≠ .leader ∧
      (s'.nodes b).currentTerm = (s.nodes a).currentTerm + 1 := by
  obtain ⟨t, ht, hta, hanswers⟩ := reach_campaign ha hl he
  refine ⟨t, ht, fun b hb => ?_⟩
  by_cases hba : b = a
  · rw [hba, hta]
    exact ⟨by simp [startElection], rfl⟩
  · obtain ⟨resp, hhandle, -⟩ := hanswers b ((cfg.mem_peers ha).2 ⟨hba, hb⟩)
    obtain ⟨hstate, hterm, -⟩ := handleMessage_vote rfl (Nat.lt_succ_of_le (hlatest b hb)) hhandle
    exact ⟨by simp [hstate], hterm⟩

/-- A node that can start an election in the latest term, with a log at least as up to date as all others, can become
the leader. -/
theorem reach_leading (ha : a ∈ cfg.ids) (hl : (s.nodes a).state ≠ .leader) (he : (s.nodes a).election = none)
    (hlatest : ∀ b ∈ cfg.ids, (s.nodes b).currentTerm ≤ (s.nodes a).currentTerm)
    (hup : ∀ b ∈ cfg.ids, lastTerm (s.nodes b).log < lastTerm (s.nodes a).log ∨
      lastTerm (s.nodes a).log = lastTerm (s.nodes b).log ∧ (s.nodes b).log.length ≤ (s.nodes a).log.length) :
    ∃ s', Transition.Reach (Steps cfg) s s' ∧ Leading cfg s' a := by
  obtain ⟨t, ht, hta, hanswers⟩ := reach_campaign ha hl he
  generalize hmsg : voteRequest (cfg.self a) (startElection (cfg.self a) (s.nodes a)) = msg at hanswers
  have hm : msg.msgType = .voteRequest := by rw [← hmsg]; rfl
  have hsender : msg.senderId = a := by rw [← hmsg]; rfl
  have hterm : msg.term = (s.nodes a).currentTerm + 1 := by rw [← hmsg]; rfl
  have hpeer : ∀ p ∈ cfg.peers a, (t.nodes p).currentTerm = msg.term ∧
      ∃ resp, granted (some resp) = true ∧ .reply p msg resp ∈ t.network := by
    intro p hp
    obtain ⟨resp, hhandle, hreply⟩ := hanswers p hp
    have hmem : p ∈ cfg.ids := ((cfg.mem_peers ha).1 hp).2
    have hlt : (s.nodes p).currentTerm < msg.term := by
      rw [hterm]
      exact Nat.lt_succ_of_le (hlatest p hmem)
    obtain ⟨-, hpterm, -, hgrant⟩ := handleMessage_vote hm hlt hhandle
    refine ⟨hpterm, resp, hgrant ?_, hreply⟩
    rw [← hmsg]
    exact decide_eq_true (hup p hmem)
  have helection : (t.nodes msg.senderId).election = some { term := (s.nodes a).currentTerm + 1 } := by
    rw [hsender, hta]
    rfl
  obtain ⟨u, el, hu, hnode, hother, hvotes⟩ := reach_votes cfg hm helection hterm.symm fun p hp => (hpeer p hp).2
  rw [hsender, hta] at hnode
  rw [hsender] at hother
  -- the votes are counted
  have hwins : wins (cfg.self a) (u.nodes a) el = true := by
    rw [hnode]
    exact wins_of_votes rfl hvotes
  have hcount : step cfg u (.countVotes a) = some (u.act a
      (becomeLeader (cfg.self a) { u.nodes a with election := none }) u.network []
      [.elected a (u.nodes a).currentTerm (u.nodes a).log]) := by
    have hel : (u.nodes a).election = some el := by rw [hnode]
    simp only [step, hel, Option.map_some, countVotes, hwins, ↓reduceIte]
  refine ⟨_, (ht.trans hu).trans (Steps.reach hcount), ha, ?_, fun b hb => ?_⟩
  · rw [act_nodes_self]
    rfl
  · have hself : (becomeLeader (cfg.self a) { u.nodes a with election := none }).currentTerm = msg.term := by
      rw [hnode, hterm]
      rfl
    rw [act_nodes_self, hself]
    by_cases hba : b = a
    · rw [hba, act_nodes_self, hself]
    · rw [act_nodes_ne hba, hother b hba, (hpeer b ((cfg.mem_peers ha).2 ⟨hba, hb⟩)).1]

/-! ### A leader from every state -/

/-- A log of the cluster is at least as up to date as all others. -/
theorem exists_upToDate (hids : cfg.ids ≠ []) (s : Cluster ι κ) : ∃ a ∈ cfg.ids, ∀ b ∈ cfg.ids,
    lastTerm (s.nodes b).log < lastTerm (s.nodes a).log ∨
      lastTerm (s.nodes a).log = lastTerm (s.nodes b).log ∧ (s.nodes b).log.length ≤ (s.nodes a).log.length := by
  obtain ⟨a, ha, hmax⟩ := cfg.ids.toFinset.exists_max_image
    (fun b => toLex (lastTerm (s.nodes b).log, (s.nodes b).log.length)) (List.toFinset_nonempty_iff _ |>.2 hids)
  refine ⟨a, List.mem_toFinset.1 ha, fun b hb => ?_⟩
  rcases (Prod.Lex.le_iff).1 (hmax b (List.mem_toFinset.2 hb)) with hlt | ⟨heq, hle⟩
  · exact Or.inl hlt
  · exact Or.inr ⟨heq.symm, hle⟩

/-- Some continuation makes a node the leader of a term that no node is past. -/
theorem exists_leading (hids : cfg.ids ≠ []) (s : Cluster ι κ) :
    ∃ s' a, Transition.Reach (Steps cfg) s s' ∧ Leading cfg s' a := by
  obtain ⟨a, ha, hlatest⟩ := cfg.ids.toFinset.exists_max_image (fun b => (s.nodes b).currentTerm)
    (List.toFinset_nonempty_iff _ |>.2 hids)
  rw [List.mem_toFinset] at ha
  obtain ⟨t, ht, he, hother, hterm, -⟩ := reach_counted cfg s a
  have htlatest : ∀ b ∈ cfg.ids, (t.nodes b).currentTerm ≤ (t.nodes a).currentTerm := by
    intro b hb
    rw [hterm]
    by_cases hba : b = a
    · rw [hba, hterm]
    · rw [hother b hba]
      exact hlatest b (List.mem_toFinset.2 hb)
  by_cases hl : (t.nodes a).state = .leader
  · exact ⟨t, a, ht, ha, hl, htlatest⟩
  · obtain ⟨u, hu, hfollow⟩ := reach_followers ha hl he htlatest
    obtain ⟨c, hc, hup⟩ := exists_upToDate hids u
    obtain ⟨v, hv, hce, hcother, hcterm, hclog⟩ := reach_counted cfg u c
    have hvterm : ∀ b, (v.nodes b).currentTerm = (u.nodes b).currentTerm ∧ (v.nodes b).log = (u.nodes b).log := by
      intro b
      by_cases hbc : b = c
      · rw [hbc]
        exact ⟨hcterm, hclog⟩
      · rw [hcother b hbc]
        exact ⟨rfl, rfl⟩
    have hvlatest : ∀ b ∈ cfg.ids, (v.nodes b).currentTerm ≤ (v.nodes c).currentTerm := by
      intro b hb
      rw [(hvterm b).1, (hvterm c).1, (hfollow b hb).2, (hfollow c hc).2]
    by_cases hcl : (v.nodes c).state = .leader
    · exact ⟨v, c, (ht.trans hu).trans hv, hc, hcl, hvlatest⟩
    · obtain ⟨w, hw, hleading⟩ := reach_leading hc hcl hce hvlatest fun b hb => by
        rw [(hvterm b).2, (hvterm c).2]
        exact hup b hb
      exact ⟨w, c, ((ht.trans hu).trans hv).trans hw, hleading⟩

end DistributedSync.Raft
