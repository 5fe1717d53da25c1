import Mathlib.Data.Finset.Order
import DistributedSync.Raft.Backoff
import DistributedSync.Raft.Registration
import DistributedSync.Raft.Takeover

/-!
# A cluster never gets stuck

From every state of a cluster of two or more, reachable or not, the run can go on so that a new command is applied
everywhere (`command_applied`): some node takes over as leader, appends proposals until its log is longer than every
index that any node has got to, brings every peer up to the end of its log, commits, and tells the peers.
What has gone wrong before, such as logs that differ below the new entry, does not matter for this.

Of the last proposal `e`, at the index `L`, every node keeps one of two things: it has got to an index below `L`
(`Fresh`), or it has applied `e` as its last entry (`Finished`).
-/

namespace DistributedSync.Raft

variable {ι κ : Type}

/-! ### One node -/

section Node

variable {e : LogEntry κ} {L q : Nat} {n : RaftNode ι κ}

/-- The node has not got to the index `L`. -/
def Fresh (L : Nat) (n : RaftNode ι κ) : Prop := n.commitIndex < L ∧ n.lastApplied < L

/-- The node has applied `e`, at the index `L`, as its last entry. -/
structure Finished (e : LogEntry κ) (L : Nat) (n : RaftNode ι κ) : Prop where
  commitIndex : n.commitIndex = L
  lastApplied : n.lastApplied = L
  applied : n.applied.getLast? = some e

/-- The log of the node ends at the index `L` with `e`. -/
structure Holds (e : LogEntry κ) (L : Nat) (n : RaftNode ι κ) : Prop where
  length : n.log.length = L
  last : n.log.getLast? = some e
  progress : Fresh L n ∨ Finished e L n

/-- The call `q` of `propose` waits for `e`, or it is resolved. -/
def Awaits (e : LogEntry κ) (L q : Nat) (n : RaftNode ι κ) : Prop := ∃ c, n.calls[q]? = some c ∧ c.entry = e ∧
  c.returned = none ∧ (c.future = .resolved ∨ c.future = .pending ∧ n.pendingRequests e.index = some q ∧ Fresh L n)

theorem Holds.of_eq {n' : RaftNode ι κ} (h : Holds e L n) (hlog : n'.log = n.log)
    (hcommit : n'.commitIndex = n.commitIndex) (hlast : n'.lastApplied = n.lastApplied)
    (happlied : n'.applied = n.applied) : Holds e L n' := by
  refine ⟨hlog ▸ h.length, hlog ▸ h.last, h.progress.imp (fun hf => ?_) fun hf => ?_⟩
  · rw [Fresh, hcommit, hlast]
    exact hf
  · exact ⟨hcommit ▸ hf.commitIndex, hlast ▸ hf.lastApplied, happlied ▸ hf.applied⟩

/-- The last entry, by its index. -/
theorem Holds.getElem? (h : Holds e L n) : n.log[L - 1]? = some e := by
  rw [← h.length, ← List.getLast?_eq_getElem?]
  exact h.last

private theorem Holds.commitIndex_le (h : Holds e L n) : n.commitIndex ≤ L := by
  rcases h.progress with hfresh | hfinished
  · exact hfresh.1.le
  · exact hfinished.commitIndex.le

private theorem Holds.finished (h : Holds e L n) (hc : L ≤ n.commitIndex) : Finished e L n := by
  rcases h.progress with hfresh | hfinished
  · exact absurd hfresh.1 (Nat.not_lt.2 hc)
  · exact hfinished

theorem Holds.applyCommitted (h : Holds e L n) {c : Nat} (hc : n.commitIndex ≤ c) (hlen : c ≤ n.log.length) :
    Holds e L ({ n with commitIndex := c }.applyCommitted).state := by
  have happ := applyCommitted_spec (s := { n with commitIndex := c }) hlen
  obtain ⟨la, ap, pr, cs, hf⟩ := applyCommitted_frame { n with commitIndex := c }
  rw [hf] at happ ⊢
  have hla : la = max n.lastApplied c := happ.lastApplied
  have hap : ap = n.applied ++ (n.log.take c).drop n.lastApplied := happ.applied
  refine ⟨h.length, h.last, ?_⟩
  rw [h.length] at hlen
  rcases h.progress with hfresh | hfinished
  · rcases Nat.lt_or_ge c L with hlt | hge
    · exact Or.inl ⟨hlt, by rw [hla]; exact max_lt hfresh.2 hlt⟩
    · -- the whole log is applied
      obtain rfl : c = L := le_antisymm hlen hge
      have htake : n.log.take c = n.log := List.take_of_length_le h.length.le
      refine Or.inr ⟨rfl, hla.trans (max_eq_right hfresh.2.le), ?_⟩
      rw [hap, htake, List.getLast?_append, List.getLast?_drop, if_neg (by rw [h.length]; exact Nat.not_le.2 hfresh.2),
        h.last, Option.some_or]
  · obtain rfl : c = L := le_antisymm hlen (hfinished.commitIndex ▸ hc)
    have hnone : (n.log.take c).drop n.lastApplied = [] := by
      rw [List.drop_eq_nil_iff, List.length_take, hfinished.lastApplied]
      exact Nat.min_le_left _ _
    refine Or.inr ⟨rfl, ?_, ?_⟩
    · rw [hla, hfinished.lastApplied, max_self]
    · rw [hap, hnone, List.append_nil, hfinished.applied]

/-- Applying the entry resolves the future of the call that waits for it. -/
theorem Awaits.applyCommitted (h : Holds e L n) (hw : Awaits e L q n) {c : Nat} (hlen : c ≤ n.log.length) :
    Awaits e L q ({ n with commitIndex := c }.applyCommitted).state := by
  obtain ⟨es, hes⟩ := settles_applyCommitted n c
  have happ := applyCommitted_spec (s := { n with commitIndex := c }) hlen
  obtain ⟨la, ap, pr, cs, hf⟩ := applyCommitted_frame { n with commitIndex := c }
  have hci : ({ n with commitIndex := c } : RaftNode ι κ).applyCommitted.state.commitIndex = c := by rw [hf]
  have hlog : ({ n with commitIndex := c } : RaftNode ι κ).applyCommitted.state.log = n.log := by rw [hf]
  generalize ({ n with commitIndex := c } : RaftNode ι κ).applyCommitted.state = n' at *
  obtain ⟨call, hcall, hentry, hreturned, hfuture⟩ := hw
  rcases hfuture with hresolved | ⟨hpending, hregistered, hfresh⟩
  · refine ⟨call, ?_, hentry, hreturned, Or.inl hresolved⟩
    rw [hes.calls, resolveAll_calls, hcall]
    split
    · rw [Option.map_some, resolve_of_not_pending (by simp [hresolved])]
    · rfl
  · by_cases hex : ∃ x ∈ es, n.pendingRequests x.index = some q
    · refine ⟨call.resolve, ?_, ?_, ?_, Or.inl ?_⟩
      · rw [hes.calls, resolveAll_calls, if_pos hex, hcall, Option.map_some]
      · rw [ProposeCall.resolve_entry, hentry]
      · rw [ProposeCall.resolve_returned, hreturned]
      · simp [ProposeCall.resolve, hpending]
    · have happlied : n.applied ++ es = n.applied ++ (n.log.take c).drop n.lastApplied := by
        rw [← hes.applied, ← hlog]
        exact happ.applied
      -- at the end of the log the entry would be among the applied ones
      have hc : c < L := by
        by_contra hge
        have htake : n.log.take c = n.log := List.take_of_length_le (by rw [h.length]; omega)
        have hlast : es.getLast? = some e := by
          rw [List.append_cancel_left happlied, htake, List.getLast?_drop,
            if_neg (by rw [h.length]; exact Nat.not_le.2 hfresh.2), h.last]
        exact hex ⟨e, List.mem_of_getLast? hlast, hregistered⟩
      refine ⟨call, ?_, hentry, hreturned, Or.inr ⟨hpending, ?_, ?_, ?_⟩⟩
      · rw [hes.calls, resolveAll_calls, if_neg hex, hcall]
      · rw [hes.pending, resolveAll_pendingRequests, if_neg, hregistered]
        rintro ⟨x, hx, hindex⟩
        exact hex ⟨x, hx, by rw [hindex, hregistered]⟩
      · rw [hci]
        exact hc
      · rw [happ.lastApplied]
        exact max_lt hfresh.2 hc

private theorem awaits_applies : Applies fun n : RaftNode ι κ => Holds e L n ∧ Awaits e L q n :=
  fun _ _ h hc hlen => ⟨h.1.applyCommitted hc hlen, h.2.applyCommitted h.1 hlen⟩

/-- The commit index of the leader is adopted. -/
theorem Holds.adoptCommit (h : Holds e L n) (lc : Nat) : Holds e L (Raft.adoptCommit n lc).state := by
  unfold Raft.adoptCommit
  split
  · rename_i hlt
    exact h.applyCommitted (le_min hlt.le (by rw [h.length]; exact h.commitIndex_le)) (Nat.min_le_right _ _)
  · exact h

/-- The commit index of a leader that has committed `e` reaches every node that has `e`. -/
theorem Holds.finished_adoptCommit (h : Holds e L n) {lc : Nat} (hlc : L ≤ lc) :
    Finished e L (Raft.adoptCommit n lc).state := by
  refine (h.adoptCommit lc).finished ?_
  obtain ⟨ci, la, ap, pr, cs, hf, hci⟩ := adoptCommit_spec n lc
  rw [hf]
  rcases hci with ⟨rfl, hle⟩ | ⟨-, rfl⟩
  · exact hlc.trans hle
  · rw [h.length]
    exact le_min hlc le_rfl

/-- `_try_advance_commit` on a leader whose log ends with `e`. -/
theorem tryAdvanceCommit_awaits (me : Self ι) (hl : n.state = .leader) (h : Holds e L n) (hw : Awaits e L q n) :
    ∃ ci la ap pr cs,
      (tryAdvanceCommit me n).state =
        { n with commitIndex := ci, lastApplied := la, applied := ap, pendingRequests := pr, calls := cs } ∧
      Holds e L (tryAdvanceCommit me n).state ∧ Awaits e L q (tryAdvanceCommit me n).state ∧
      (CanCommit me n L → Finished e L (tryAdvanceCommit me n).state) := by
  obtain ⟨ci, la, ap, pr, cs, hf, -, hmax, happlies⟩ := tryAdvanceCommit_spec me n
  obtain ⟨hholds, hawaits⟩ := happlies _ awaits_applies ⟨h, hw⟩
  refine ⟨ci, la, ap, pr, cs, by rw [hf], hholds, hawaits, fun hcan => hholds.finished ?_⟩
  rw [hf]
  exact hmax hl L h.length.ge hcan

/-- The peer has the leader's last entry, and the leader knows it. -/
structure Synced (e : LogEntry κ) (L : Nat) (s : Cluster ι κ) (a p : ι) : Prop where
  follower : (s.nodes p).state = .follower
  leaderId : (s.nodes p).leaderId = some a
  term : (s.nodes p).currentTerm = e.term
  holds : Holds e L (s.nodes p)
  nextIndex : (s.nodes a).nextIndex p = some (L + 1)
  matchIndex : (s.nodes a).matchIndex p = some L

/-- What the leader knows of the peer does not change. -/
structure SameIndexes (n n' : RaftNode ι κ) (p : ι) : Prop where
  nextIndex : n'.nextIndex p = n.nextIndex p
  matchIndex : n'.matchIndex p = n.matchIndex p

private theorem Synced.of_same {s s' : Cluster ι κ} {a p : ι} (h : Synced e L s a p) (hp : s'.nodes p = s.nodes p)
    (ha : SameIndexes (s.nodes a) (s'.nodes a) p) : Synced e L s' a p :=
  ⟨hp ▸ h.follower, hp ▸ h.leaderId, hp ▸ h.term, hp ▸ h.holds, ha.nextIndex.trans h.nextIndex,
    ha.matchIndex.trans h.matchIndex⟩

variable [DecidableEq ι] {me you : Self ι} {m f : RaftNode ι κ} {p : ι}

/-- The leader sends its log from `next_index` on, and the peer accepts it. -/
theorem processAeResp_matched (hlen : n.log.length = L) (hnext : (n.nextIndex p).getD 1 ≤ L)
    (hpos : 0 < L) (hterm : f.currentTerm = n.currentTerm) :
    processAeResp me n p (appendRequest me n p) (appendReply you f true) = tryAdvanceCommit me (recordMatch n p L) := by
  obtain ⟨pli, hpli, hents, -⟩ := appendRequest_snapshot me n p
  have hpliEq : pli = (n.nextIndex p).getD 1 - 1 := (Option.some.inj hpli).symm
  have hlt : pli < n.log.length := by omega
  have hdrop : n.log.drop pli = n.log[pli] :: n.log.drop (pli + 1) := List.drop_eq_getElem_cons hlt
  have hmatch : pli + (n.log[pli] :: n.log.drop (pli + 1)).length = L := by
    rw [← hdrop, List.length_drop]
    omega
  simp only [processAeResp, appendReply, hterm, Option.getD_some, lt_irrefl, ↓reduceIte, hents, hpli, hdrop, hmatch]

/-- The leader has nothing to send, and the peer answers. -/
theorem processAeResp_heartbeat (hlen : n.log.length = L) (hnext : n.nextIndex p = some (L + 1))
    (hterm : f.currentTerm = n.currentTerm) :
    processAeResp me n p (appendRequest me n p) (appendReply you f true) = tryAdvanceCommit me n := by
  obtain ⟨pli, hpli, hents, -⟩ := appendRequest_snapshot me n p
  have hpliEq : pli = (n.nextIndex p).getD 1 - 1 := (Option.some.inj hpli).symm
  have hdrop : n.log.drop pli = [] := by
    rw [List.drop_eq_nil_iff, hlen, hpliEq, hnext]
    exact le_rfl
  simp only [processAeResp, appendReply, hterm, Option.getD_some, lt_irrefl, ↓reduceIte, hents, hdrop]

/-- The peer does not have the entry before `next_index`. -/
theorem processAeResp_refused (hterm : f.currentTerm = n.currentTerm) :
    processAeResp me n p (appendRequest me n p) (appendReply you f false) =
      ⟨{ n with nextIndex := Function.update n.nextIndex p (some (max 1 ((n.nextIndex p).getD 1 - 1))) }, .ok ()⟩ := by
  simp only [processAeResp, appendReply, hterm, Option.getD_some, lt_irrefl, ↓reduceIte, Bool.false_eq_true]

/-- A peer that accepts the end of the leader's log has the last entry of the leader at the same index. -/
theorem installEntries_end {log log' : List (LogEntry κ)} {pli plt : Nat} (hlen : log.length = L)
    (hlast : log.getLast? = some e) (hlt : pli < L) (h : prevMatches log' pli plt = true) :
    (installEntries log' pli (log.drop pli)).length = L ∧
      (installEntries log' pli (log.drop pli)).getLast? = some e := by
  have hne : log.drop pli ≠ [] := by
    rw [ne_eq, List.drop_eq_nil_iff]
    omega
  have hle : pli ≤ log'.length := by
    rcases of_decide_eq_true h with rfl | hget
    · exact Nat.zero_le _
    · obtain ⟨x, hx, -⟩ := Option.map_eq_some_iff.1 hget
      have := (List.getElem?_eq_some_iff.1 hx).1
      omega
  rw [installEntries, if_neg hne]
  constructor
  · rw [List.length_append, List.length_take, List.length_drop]
    omega
  · rw [List.getLast?_append, List.getLast?_drop, if_neg (by omega), hlast, Option.some_or]

end Node

/-! ### One round of a leader and a peer -/

variable [DecidableEq ι] {cfg : ClusterConfig ι} {s : Cluster ι κ} {a p : ι} {e : LogEntry κ} {L q : Nat}

/-- A leader can send a request to a peer and get the reply. -/
theorem Leading.reach_round (h : Leading cfg s a) (hp : p ∈ cfg.peers a) : ∃ s' resp,
    Transition.Reach (Steps cfg) s s' ∧
      handleMessage (cfg.self p) (s.nodes p) (appendRequest (cfg.self a) (s.nodes a) p) = ⟨s'.nodes p, .ok resp⟩ ∧
      s'.nodes a = (processAeResp (cfg.self a) (s.nodes a) p (appendRequest (cfg.self a) (s.nodes a) p) resp).state ∧
      ∀ b ≠ a, b ≠ p → s'.nodes b = s.nodes b := by
  have hne : a ≠ p := ((cfg.mem_peers h.mem).1 hp).1.symm
  generalize hmsg : appendRequest (cfg.self a) (s.nodes a) p = msg
  have hm : msg.msgType = .appendEntries := by rw [← hmsg]; rfl
  have hsender : msg.senderId = a := by rw [← hmsg]; rfl
  -- the request is sent, then handled, then the reply is processed
  generalize ht : s.act a (s.nodes a) s.network (replicateEntries (cfg.self a) (s.nodes a)) [] = t
  have hstep : Steps cfg s (.replicate a) t := congrArg some ht
  have htnodes : ∀ b, t.nodes b = s.nodes b := by
    intro b
    rw [← ht]
    by_cases hb : b = a
    · rw [hb, act_nodes_self]
    · rw [act_nodes_ne hb]
  have hrequest : .request p msg ∈ t.network := by
    rw [← ht, ← hmsg]
    refine List.mem_append_right _ (List.mem_map.2 ⟨(p, appendRequest (cfg.self a) (s.nodes a) p), ?_, rfl⟩)
    exact mem_replicateEntries.2 ⟨h.leader, hp, rfl⟩
  obtain ⟨u, resp, hu, hhandle, hother, hreply, -⟩ := reach_request cfg hrequest
  obtain ⟨v, hv, hnode, hsame, -⟩ := reach_reply cfg hreply
  rw [hsender, hother a hne, htnodes] at hnode
  rw [hsender] at hsame
  refine ⟨v, resp, ((Steps.reach hstep).trans hu).trans hv, ?_, ?_, fun b hba hbp => ?_⟩
  · rw [hsame p hne.symm, ← htnodes]
    exact hhandle
  · rw [hnode, receiveReply, hm]
  · rw [hsame b hba, hother b hbp, htnodes]

/-- The leader has appended `e` at the index `L`, its call waits for it, and no node is past its term. -/
structure Serving (cfg : ClusterConfig ι) (e : LogEntry κ) (L q : Nat) (s : Cluster ι κ) (a : ι) : Prop where
  leading : Leading cfg s a
  term : (s.nodes a).currentTerm = e.term
  pos : 0 < L
  holds : Holds e L (s.nodes a)
  awaits : Awaits e L q (s.nodes a)

/-- After a round in which the peer ends up in the leader's term, the node still leads. -/
theorem Leading.of_round {s' : Cluster ι κ} (h : Leading cfg s a) (hl : (s'.nodes a).state = .leader)
    (hterm : (s'.nodes a).currentTerm = (s.nodes a).currentTerm)
    (hp : (s'.nodes p).currentTerm = (s.nodes a).currentTerm) (hother : ∀ b ≠ a, b ≠ p → s'.nodes b = s.nodes b) :
    Leading cfg s' a := by
  refine ⟨h.mem, hl, fun b hb => ?_⟩
  rw [hterm]
  by_cases hba : b = a
  · rw [hba, hterm]
  · by_cases hbp : b = p
    · rw [hbp, hp]
    · rw [hother b hba hbp]
      exact h.latest b hb

/-- What a peer does with the request of a leader of the latest term. -/
theorem Leading.handles {s' : Cluster ι κ} {resp : Reply ι} (h : Leading cfg s a) (hp : p ∈ cfg.peers a)
    (hhandle : handleMessage (cfg.self p) (s.nodes p) (appendRequest (cfg.self a) (s.nodes a) p) =
      ⟨s'.nodes p, .ok resp⟩) :
    (s'.nodes p = (acceptEntries (follow (s.nodes p) a (s.nodes a).currentTerm)
          (appendRequest (cfg.self a) (s.nodes a) p).data).state ∧
        resp = appendReply (cfg.self p) (follow (s.nodes p) a (s.nodes a).currentTerm) true ∧
        prevMatches (s.nodes p).log ((appendRequest (cfg.self a) (s.nodes a) p).data.prevLogIndex.getD 0)
          ((appendRequest (cfg.self a) (s.nodes a) p).data.prevLogTerm.getD 0) = true) ∨
      s'.nodes p = follow (s.nodes p) a (s.nodes a).currentTerm ∧
        resp = appendReply (cfg.self p) (follow (s.nodes p) a (s.nodes a).currentTerm) false ∧
        prevMatches (s.nodes p).log ((appendRequest (cfg.self a) (s.nodes a) p).data.prevLogIndex.getD 0)
          ((appendRequest (cfg.self a) (s.nodes a) p).data.prevLogTerm.getD 0) = false := by
  have hterm : (s.nodes p).currentTerm ≤ (appendRequest (cfg.self a) (s.nodes a) p).term :=
    h.latest p ((cfg.mem_peers h.mem).1 hp).2
  rw [handleMessage_append (cfg.self p) (s.nodes p) rfl hterm] at hhandle
  split at hhandle
  · rename_i hpass
    obtain ⟨hnode, hresp⟩ := Outcome.mk.inj hhandle
    exact Or.inl ⟨hnode.symm, (Except.ok.inj hresp).symm, hpass⟩
  · rename_i hpass
    obtain ⟨hnode, hresp⟩ := Outcome.mk.inj hhandle
    exact Or.inr ⟨hnode.symm, (Except.ok.inj hresp).symm, Bool.not_eq_true _ ▸ hpass⟩

/-- After a round in which a peer accepts the end of the log. -/
theorem Serving.accepted {s' : Cluster ι κ} (h : Serving cfg e L q s a) (hfresh : Fresh L (s.nodes p))
    (hnext : ((s.nodes a).nextIndex p).getD 1 ≤ L)
    (hpnode : s'.nodes p = (acceptEntries (follow (s.nodes p) a (s.nodes a).currentTerm)
      (appendRequest (cfg.self a) (s.nodes a) p).data).state)
    (hpass : prevMatches (s.nodes p).log ((appendRequest (cfg.self a) (s.nodes a) p).data.prevLogIndex.getD 0)
      ((appendRequest (cfg.self a) (s.nodes a) p).data.prevLogTerm.getD 0) = true)
    (hnode : s'.nodes a = (processAeResp (cfg.self a) (s.nodes a) p (appendRequest (cfg.self a) (s.nodes a) p)
      (appendReply (cfg.self p) (follow (s.nodes p) a (s.nodes a).currentTerm) true)).state)
    (hother : ∀ b ≠ a, b ≠ p → s'.nodes b = s.nodes b) :
    Serving cfg e L q s' a ∧ Synced e L s' a p ∧ ∀ b ≠ p, SameIndexes (s.nodes a) (s'.nodes a) b := by
  obtain ⟨pli, hpli, hents, -⟩ := appendRequest_snapshot (cfg.self a) (s.nodes a) p
  have hpliEq : pli = ((s.nodes a).nextIndex p).getD 1 - 1 := (Option.some.inj hpli).symm
  have hpos := h.pos
  -- the peer has the new log
  rw [hpli, Option.getD_some] at hpass
  obtain ⟨hlength, hlast⟩ := installEntries_end h.holds.length h.holds.last (by omega) hpass
  rw [acceptEntries, hpli, hents, Option.getD_some, Option.getD_some] at hpnode
  have hmholds : Holds e L { follow (s.nodes p) a (s.nodes a).currentTerm with
      log := installEntries (s.nodes p).log pli ((s.nodes a).log.drop pli) } := ⟨hlength, hlast, Or.inl hfresh⟩
  have hpholds : Holds e L (s'.nodes p) := by
    rw [hpnode]
    exact hmholds.adoptCommit _
  obtain ⟨ci, la, ap, pr, cs, hframe, -⟩ := adoptCommit_spec { follow (s.nodes p) a (s.nodes a).currentTerm with
    log := installEntries (s.nodes p).log pli ((s.nodes a).log.drop pli) }
    ((appendRequest (cfg.self a) (s.nodes a) p).data.leaderCommit.getD 0)
  have hpframe := hpnode.trans (congrArg Outcome.state hframe)
  -- the leader records it
  have hterm : (follow (s.nodes p) a (s.nodes a).currentTerm).currentTerm = (s.nodes a).currentTerm := rfl
  rw [processAeResp_matched h.holds.length hnext hpos hterm] at hnode
  have hrecord : Holds e L (recordMatch (s.nodes a) p L) := h.holds.of_eq rfl rfl rfl rfl
  obtain ⟨ci', la', ap', pr', cs', hframe', hholds', hawaits', -⟩ :=
    tryAdvanceCommit_awaits (cfg.self a) (by exact h.leading.leader) hrecord h.awaits
  rw [← hnode] at hholds' hawaits' hframe'
  have hleading : Leading cfg s' a :=
    h.leading.of_round (by rw [hframe']; exact h.leading.leader) (by rw [hframe']; rfl) (by rw [hpframe]; rfl) hother
  refine ⟨⟨hleading, ?_, hpos, hholds', hawaits'⟩, ⟨?_, ?_, ?_, hpholds, ?_, ?_⟩, fun b hb => ?_⟩
  · rw [hframe']
    exact h.term
  · rw [hpframe]
    rfl
  · rw [hpframe]
    rfl
  · rw [hpframe]
    exact h.term
  · rw [hframe']
    exact Function.update_self _ _ _
  · rw [hframe']
    exact Function.update_self _ _ _
  · rw [hframe']
    exact ⟨Function.update_of_ne hb _ _, Function.update_of_ne hb _ _⟩

/-- After a round in which a peer refuses, the leader has gone one back. -/
theorem Serving.refused {s' : Cluster ι κ} (h : Serving cfg e L q s a)
    (hpnode : s'.nodes p = follow (s.nodes p) a (s.nodes a).currentTerm)
    (hpass : prevMatches (s.nodes p).log ((appendRequest (cfg.self a) (s.nodes a) p).data.prevLogIndex.getD 0)
      ((appendRequest (cfg.self a) (s.nodes a) p).data.prevLogTerm.getD 0) = false)
    (hnode : s'.nodes a = (processAeResp (cfg.self a) (s.nodes a) p (appendRequest (cfg.self a) (s.nodes a) p)
      (appendReply (cfg.self p) (follow (s.nodes p) a (s.nodes a).currentTerm) false)).state)
    (hother : ∀ b ≠ a, b ≠ p → s'.nodes b = s.nodes b) :
    Serving cfg e L q s' a ∧ ((s'.nodes a).nextIndex p).getD 1 < ((s.nodes a).nextIndex p).getD 1 ∧
      ∀ b ≠ p, SameIndexes (s.nodes a) (s'.nodes a) b := by
  have hback : ((s.nodes a).nextIndex p).getD 1 - 1 ≠ 0 := by
    intro hzero
    have hstart : prevMatches (s.nodes p).log (((s.nodes a).nextIndex p).getD 1 - 1)
        ((appendRequest (cfg.self a) (s.nodes a) p).data.prevLogTerm.getD 0) = true := decide_eq_true (Or.inl hzero)
    rw [← Bool.not_eq_true] at hpass
    exact hpass hstart
  have hterm : (follow (s.nodes p) a (s.nodes a).currentTerm).currentTerm = (s.nodes a).currentTerm := rfl
  rw [processAeResp_refused hterm] at hnode
  have hleading : Leading cfg s' a :=
    h.leading.of_round (by rw [hnode]; exact h.leading.leader) (by rw [hnode]) (by rw [hpnode]; rfl) hother
  refine ⟨⟨hleading, ?_, h.pos, ?_, ?_⟩, ?_, fun b hb => ?_⟩
  · rw [hnode]
    exact h.term
  · rw [hnode]
    exact h.holds.of_eq rfl rfl rfl rfl
  · rw [hnode]
    exact h.awaits
  · rw [hnode]
    simp only [Function.update_self, Option.getD_some]
    omega
  · rw [hnode]
    exact ⟨Function.update_of_ne hb _ _, rfl⟩

/-- A peer that has not got to the new entry can be brought up to it.  By induction on `next_index`. -/
theorem Serving.reach_synced (h : Serving cfg e L q s a) (hp : p ∈ cfg.peers a) (hfresh : Fresh L (s.nodes p)) {k : Nat}
    (hnext : ((s.nodes a).nextIndex p).getD 1 ≤ k) (hk : k ≤ L) : ∃ s', Transition.Reach (Steps cfg) s s' ∧
      Serving cfg e L q s' a ∧ Synced e L s' a p ∧ (∀ b ≠ a, b ≠ p → s'.nodes b = s.nodes b) ∧
      ∀ b ≠ p, SameIndexes (s.nodes a) (s'.nodes a) b := by
  induction k using Nat.strong_induction_on generalizing s with
  | _ k ih =>
    obtain ⟨s', resp, hs', hhandle, hnode, hother⟩ := h.leading.reach_round hp
    rcases h.leading.handles hp hhandle with ⟨hpnode, rfl, hpass⟩ | ⟨hpnode, rfl, hpass⟩
    · obtain ⟨hserving, hsynced, hsame⟩ := h.accepted hfresh (hnext.trans hk) hpnode hpass hnode hother
      exact ⟨s', hs', hserving, hsynced, hother, hsame⟩
    · obtain ⟨hserving, hless, hsame⟩ := h.refused hpnode hpass hnode hother
      have hfresh' : Fresh L (s'.nodes p) := by
        rw [hpnode]
        exact hfresh
      obtain ⟨t, ht, htserving, hsynced, htother, htsame⟩ :=
        ih (((s'.nodes a).nextIndex p).getD 1) (by omega) hserving hfresh' le_rfl (by omega)
      refine ⟨t, hs'.trans ht, htserving, hsynced, fun b hba hbp => ?_, fun b hb => ⟨?_, ?_⟩⟩
      · rw [htother b hba hbp, hother b hba hbp]
      · rw [(htsame b hb).nextIndex, (hsame b hb).nextIndex]
      · rw [(htsame b hb).matchIndex, (hsame b hb).matchIndex]

/-! ### All peers -/

/-- Every peer can be brought up to the new entry. -/
theorem Serving.reach_all_synced (h : Serving cfg e L q s a)
    (hpeers : ∀ p ∈ cfg.peers a, Fresh L (s.nodes p) ∧ ((s.nodes a).nextIndex p).getD 1 ≤ L) :
    ∃ s', Transition.Reach (Steps cfg) s s' ∧ Serving cfg e L q s' a ∧ ∀ p ∈ cfg.peers a, Synced e L s' a p := by
  have hall : ∃ s', Transition.Reach (Steps cfg) s s' ∧ (Serving cfg e L q s' a ∧ ∀ p ∈ cfg.peers a,
      Synced e L s' a p ∨ Fresh L (s'.nodes p) ∧ ((s'.nodes a).nextIndex p).getD 1 ≤ L) ∧
        ∀ p ∈ cfg.peers a, Synced e L s' a p := by
    refine Transition.reach_forall_mem (fun p hp t ht => ?_) ⟨h, fun p hp => Or.inr (hpeers p hp)⟩
    obtain ⟨hserving, hstate⟩ := ht
    rcases hstate p hp with hsynced | ⟨hfresh, hnext⟩
    · exact ⟨t, .refl, ⟨hserving, hstate⟩, hsynced, fun _ _ hb => hb⟩
    · obtain ⟨t', ht', hserving', hsynced, hother, hsame⟩ := hserving.reach_synced hp hfresh hnext le_rfl
      have hkeep : ∀ b ∈ cfg.peers a, Synced e L t a b → Synced e L t' a b := by
        intro b hb hbsynced
        by_cases hbp : b = p
        · rw [hbp]
          exact hsynced
        · exact hbsynced.of_same (hother b ((cfg.mem_peers h.leading.mem).1 hb).1 hbp) (hsame b hbp)
      refine ⟨t', ht', ⟨hserving', fun b hb => ?_⟩, hsynced, hkeep⟩
      by_cases hbp : b = p
      · rw [hbp]
        exact Or.inl hsynced
      · rcases hstate b hb with hbsynced | ⟨hbfresh, hbnext⟩
        · exact Or.inl (hkeep b hb hbsynced)
        · rw [hother b ((cfg.mem_peers h.leading.mem).1 hb).1 hbp, (hsame b hbp).nextIndex]
          exact Or.inr ⟨hbfresh, hbnext⟩
  obtain ⟨s', hs', ⟨hserving, -⟩, hsynced⟩ := hall
  exact ⟨s', hs', hserving, hsynced⟩

/-- The last entry can be committed when every peer has it. -/
theorem Serving.canCommit (h : Serving cfg e L q s a) (hall : ∀ p ∈ cfg.peers a, (s.nodes a).matchIndex p = some L) :
    CanCommit (cfg.self a) (s.nodes a) L := by
  refine ⟨⟨e, h.holds.getElem?, h.term.symm⟩, ?_⟩
  have hcount : (cfg.self a).peers.countP (fun p => L ≤ ((s.nodes a).matchIndex p).getD 0) =
      (cfg.self a).peers.length := by
    refine List.countP_eq_length.2 fun p hp => ?_
    rw [hall p hp]
    exact decide_eq_true le_rfl
  rw [replicated, hcount, Self.quorumSize]
  omega

/-- In a round with a peer that has the last entry the leader commits it, and if the leader has done so before, the
peer applies it. -/
theorem Serving.reach_heartbeat (h : Serving cfg e L q s a) (hall : ∀ p ∈ cfg.peers a, Synced e L s a p)
    (hp : p ∈ cfg.peers a) : ∃ s', Transition.Reach (Steps cfg) s s' ∧ Serving cfg e L q s' a ∧
      (∀ b ∈ cfg.peers a, Synced e L s' a b) ∧ Finished e L (s'.nodes a) ∧
      (Finished e L (s.nodes a) → Finished e L (s'.nodes p)) ∧ ∀ b ≠ a, b ≠ p → s'.nodes b = s.nodes b := by
  have hsynced := hall p hp
  obtain ⟨s', resp, hs', hhandle, hnode, hother⟩ := h.leading.reach_round hp
  obtain ⟨pli, hpli, hents, hplt⟩ := appendRequest_snapshot (cfg.self a) (s.nodes a) p
  obtain rfl : pli = L := by
    have hpliEq : pli = ((s.nodes a).nextIndex p).getD 1 - 1 := (Option.some.inj hpli).symm
    rw [hpliEq, hsynced.nextIndex]
    rfl
  rw [if_pos h.pos, h.holds.getElem?] at hplt
  have hpass : prevMatches (s.nodes p).log pli e.term = true := by
    refine decide_eq_true (Or.inr ?_)
    rw [hsynced.holds.getElem?]
    rfl
  have hterm : (follow (s.nodes p) a (s.nodes a).currentTerm).currentTerm = (s.nodes a).currentTerm := rfl
  rcases h.leading.handles hp hhandle with ⟨hpnode, rfl, -⟩ | ⟨-, -, hrefused⟩
  · -- the peer adopts the commit index
    have hdrop : (s.nodes a).log.drop pli = [] := List.drop_eq_nil_of_le h.holds.length.le
    rw [acceptEntries, hpli, hents, Option.getD_some, Option.getD_some, hdrop] at hpnode
    have hkept : Holds e pli { follow (s.nodes p) a (s.nodes a).currentTerm with
        log := installEntries (s.nodes p).log pli [] } := hsynced.holds.of_eq rfl rfl rfl rfl
    have hpholds : Holds e pli (s'.nodes p) := by
      rw [hpnode]
      exact hkept.adoptCommit _
    have hpfinished : Finished e pli (s.nodes a) → Finished e pli (s'.nodes p) := by
      intro hf
      rw [hpnode]
      exact hkept.finished_adoptCommit hf.commitIndex.ge
    obtain ⟨ci, la, ap, pr, cs, hframe, -⟩ := adoptCommit_spec { follow (s.nodes p) a (s.nodes a).currentTerm with
      log := installEntries (s.nodes p).log pli [] }
      ((appendRequest (cfg.self a) (s.nodes a) p).data.leaderCommit.getD 0)
    have hpframe := hpnode.trans (congrArg Outcome.state hframe)
    -- the leader commits
    rw [processAeResp_heartbeat h.holds.length hsynced.nextIndex hterm] at hnode
    obtain ⟨ci', la', ap', pr', cs', hframe', hholds', hawaits', hfinished'⟩ :=
      tryAdvanceCommit_awaits (cfg.self a) h.leading.leader h.holds h.awaits
    rw [← hnode] at hframe' hholds' hawaits' hfinished'
    have hleading : Leading cfg s' a :=
      h.leading.of_round (by rw [hframe']; exact h.leading.leader) (by rw [hframe']) (by rw [hpframe]; rfl) hother
    have hsame : ∀ b, SameIndexes (s.nodes a) (s'.nodes a) b := by
      intro b
      rw [hframe']
      exact ⟨rfl, rfl⟩
    refine ⟨s', hs', ⟨hleading, by rw [hframe']; exact h.term, h.pos, hholds', hawaits'⟩, fun b hb => ?_,
      hfinished' (h.canCommit fun b hb => (hall b hb).matchIndex), hpfinished, hother⟩
    by_cases hbp : b = p
    · rw [hbp]
      refine ⟨?_, ?_, ?_, hpholds, (hsame p).nextIndex.trans hsynced.nextIndex,
        (hsame p).matchIndex.trans hsynced.matchIndex⟩
      · rw [hpframe]
        rfl
      · rw [hpframe]
        rfl
      · rw [hpframe]
        exact h.term
    · exact (hall b hb).of_same (hother b ((cfg.mem_peers h.leading.mem).1 hb).1 hbp) (hsame b)
  · rw [hpli, hplt, Option.getD_some, Option.getD_some, Option.map_some, Option.getD_some, hpass] at hrefused
    cases hrefused

/-- Every peer can be made to apply the new entry. -/
theorem Serving.reach_all_finished (h : Serving cfg e L q s a) (hpeer : cfg.peers a ≠ [])
    (hall : ∀ p ∈ cfg.peers a, Synced e L s a p) : ∃ s', Transition.Reach (Steps cfg) s s' ∧ Serving cfg e L q s' a ∧
      Finished e L (s'.nodes a) ∧ ∀ p ∈ cfg.peers a, Synced e L s' a p ∧ Finished e L (s'.nodes p) := by
  -- after the first round the leader has committed
  obtain ⟨p, hp⟩ := List.exists_mem_of_ne_nil _ hpeer
  obtain ⟨t, ht, hserving, hsynced, hleader, -, -⟩ := h.reach_heartbeat hall hp
  have hrest : ∃ s', Transition.Reach (Steps cfg) t s' ∧ (Serving cfg e L q s' a ∧
      (∀ p ∈ cfg.peers a, Synced e L s' a p) ∧ Finished e L (s'.nodes a)) ∧
        ∀ p ∈ cfg.peers a, Finished e L (s'.nodes p) := by
    refine Transition.reach_forall_mem (fun p hp u hu => ?_) ⟨hserving, hsynced, hleader⟩
    obtain ⟨huserving, husynced, huleader⟩ := hu
    obtain ⟨u', hu', hserving', hsynced', hleader', hfinished, hother⟩ := huserving.reach_heartbeat husynced hp
    refine ⟨u', hu', ⟨hserving', hsynced', hleader'⟩, hfinished huleader, fun b hb hbfinished => ?_⟩
    by_cases hbp : b = p
    · rw [hbp]
      exact hfinished huleader
    · rw [hother b ((cfg.mem_peers h.leading.mem).1 hb).1 hbp]
      exact hbfinished
  obtain ⟨s', hs', ⟨hserving', hsynced', hleader'⟩, hfinished⟩ := hrest
  exact ⟨s', ht.trans hs', hserving', hleader', fun p hp => ⟨hsynced' p hp, hfinished p hp⟩⟩

/-! ### Proposals -/

/-- A proposal of a leader. -/
theorem Leading.propose (h : Leading cfg s a) (command : κ) : ∃ s', Transition.Reach (Steps cfg) s s' ∧
    Leading cfg s' a ∧ s'.nodes a = Raft.propose (s.nodes a) command ∧ ∀ b ≠ a, s'.nodes b = s.nodes b := by
  have hstep : step cfg s (.propose a command) = some (s.act a (Raft.propose (s.nodes a) command) s.network
      (replicateEntries (cfg.self a) (Raft.propose (s.nodes a) command)) []) := if_pos h.leader
  refine ⟨_, Steps.reach hstep, ⟨h.mem, ?_, fun b hb => ?_⟩, act_nodes_self, fun b hb => act_nodes_ne hb⟩
  · rw [act_nodes_self]
    exact h.leader
  · rw [act_nodes_self]
    by_cases hba : b = a
    · rw [hba, act_nodes_self]
    · rw [act_nodes_ne hba]
      exact h.latest b hb

/-- The leader can make its log as long as it likes. -/
theorem Leading.reach_longer (h : Leading cfg s a) (command : κ) (bound : Nat) :
    ∃ s', Transition.Reach (Steps cfg) s s' ∧ Leading cfg s' a ∧ bound ≤ (s'.nodes a).log.length ∧
      (∀ b, (s'.nodes b).commitIndex = (s.nodes b).commitIndex ∧ (s'.nodes b).lastApplied = (s.nodes b).lastApplied) ∧
      (s'.nodes a).nextIndex = (s.nodes a).nextIndex := by
  induction bound with
  | zero => exact ⟨s, .refl, h, Nat.zero_le _, fun _ => ⟨rfl, rfl⟩, rfl⟩
  | succ bound ih =>
    obtain ⟨t, ht, hleading, hlen, hsame, hnext⟩ := ih
    obtain ⟨u, hu, hleading', hnode, hother⟩ := hleading.propose command
    refine ⟨u, ht.trans hu, hleading', ?_, fun b => ?_, ?_⟩
    · rw [hnode, Raft.propose, List.length_append]
      exact Nat.succ_le_succ hlen
    · by_cases hba : b = a
      · rw [hba, hnode]
        exact hsame a
      · rw [hother b hba]
        exact hsame b
    · rw [hnode]
      exact hnext

/-- A leader whose log is longer than every index can propose an entry that no node has got to. -/
theorem Leading.reach_serving (h : Leading cfg s a) (command : κ)
    (hbound : ∀ b ∈ cfg.ids, (s.nodes b).commitIndex ≤ (s.nodes a).log.length ∧
      (s.nodes b).lastApplied ≤ (s.nodes a).log.length)
    (hnext : ∀ p ∈ cfg.peers a, ((s.nodes a).nextIndex p).getD 1 ≤ (s.nodes a).log.length + 1) :
    ∃ s', Transition.Reach (Steps cfg) s s' ∧
      Serving cfg (newEntry (s.nodes a) command) ((s.nodes a).log.length + 1) (s.nodes a).calls.length s' a ∧
      ∀ p ∈ cfg.peers a, Fresh ((s.nodes a).log.length + 1) (s'.nodes p) ∧
        ((s'.nodes a).nextIndex p).getD 1 ≤ (s.nodes a).log.length + 1 := by
  obtain ⟨s', hs', hleading, hnode, hother⟩ := h.propose command
  have hfresh : ∀ b ∈ cfg.ids, Fresh ((s.nodes a).log.length + 1) (s.nodes b) := fun b hb =>
    ⟨Nat.lt_succ_of_le (hbound b hb).1, Nat.lt_succ_of_le (hbound b hb).2⟩
  refine ⟨s', hs', ⟨hleading, by rw [hnode]; rfl, Nat.succ_pos _, ?_, ?_⟩, fun p hp => ⟨?_, ?_⟩⟩
  · rw [hnode]
    exact ⟨List.length_append, List.getLast?_concat, Or.inl (hfresh a h.mem)⟩
  · rw [hnode]
    refine ⟨{ entry := newEntry (s.nodes a) command }, List.getElem?_concat_length, rfl, rfl, Or.inr ⟨rfl, ?_, ?_⟩⟩
    · exact Function.update_self _ _ _
    · exact hfresh a h.mem
  · obtain ⟨hne, hmem⟩ := (cfg.mem_peers h.mem).1 hp
    rw [hother p hne]
    exact hfresh p hmem
  · rw [hnode]
    exact hnext p hp

/-! ### The command -/

private theorem calls_length_le {s' : Cluster ι κ} (h : Transition.Reach (Steps cfg) s s') (a : ι) :
    (s.nodes a).calls.length ≤ (s'.nodes a).calls.length := by
  by_contra hlt
  have hlast := List.getElem?_eq_getElem (Nat.not_le.1 hlt)
  obtain ⟨c, hc, -⟩ := call_entry h hlast
  rw [List.getElem?_eq_none le_rfl] at hc
  cases hc

/-- The call whose entry has been applied returns `True`. -/
theorem Serving.reach_returned (h : Serving cfg e L q s a) (hf : Finished e L (s.nodes a)) : ∃ s' c,
    Transition.Reach (Steps cfg) s s' ∧ s'.nodes a = proposeReturn (s.nodes a) q ∧ (∀ b ≠ a, s'.nodes b = s.nodes b) ∧
      (s'.nodes a).calls[q]? = some c ∧ c.entry = e ∧ c.returned = some true := by
  obtain ⟨c, hc, hentry, hreturned, hfuture⟩ := h.awaits
  have hresolved : c.future = .resolved := by
    rcases hfuture with hresolved | ⟨-, -, hfresh⟩
    · exact hresolved
    · exact absurd hfresh.1 (Nat.not_lt.2 hf.commitIndex.ge)
  have hstep : step cfg s (.proposeReturn a q) = some (s.act a (proposeReturn (s.nodes a) q) s.network [] []) := by
    simp only [step, hc, Option.bind_some, hresolved, hreturned, and_self, ↓reduceIte]
  refine ⟨_, { c with returned := some true }, Steps.reach hstep, act_nodes_self, fun b hb => act_nodes_ne hb, ?_,
    hentry, rfl⟩
  rw [act_nodes_self, proposeReturn, Positions.getElem?_modify_of_some hc, if_pos rfl]

/-- A cluster of two or more nodes never gets stuck: from every state, whatever has happened before, it can go on so
that a new command is appended by a leader, its call returns `True`, and every node has it as the last entry of its log
and the last one that it has applied, in the term of the leader, whom all others follow. -/
theorem command_applied (hids : 2 ≤ cfg.ids.length) (s : Cluster ι κ) (command : κ) : ∃ s' a e q c,
    Transition.Reach (Steps cfg) s s' ∧ a ∈ cfg.ids ∧ e.command = command ∧ (s'.nodes a).state = .leader ∧
      (s.nodes a).calls.length ≤ q ∧ (s'.nodes a).calls[q]? = some c ∧ c.entry = e ∧ c.returned = some true ∧
      ∀ b ∈ cfg.ids, (s'.nodes b).currentTerm = e.term ∧ (s'.nodes b).log.length = e.index ∧
        (s'.nodes b).log.getLast? = some e ∧ (s'.nodes b).commitIndex = e.index ∧
        (s'.nodes b).lastApplied = e.index ∧ (s'.nodes b).applied.getLast? = some e ∧
        (b ≠ a → (s'.nodes b).state = .follower ∧ (s'.nodes b).leaderId = some a) := by
  have hne : cfg.ids ≠ [] := by
    rintro hnil
    rw [hnil] at hids
    cases hids
  -- a node leads
  obtain ⟨t, a, ht, hleading⟩ := exists_leading hne s
  have hpeers : cfg.peers a ≠ [] := by
    intro hnil
    have hlen := (cfg.peers_perm a hleading.mem).length_eq
    rw [hnil, List.length_erase_of_mem hleading.mem, List.length_nil] at hlen
    omega
  -- its log grows past every index
  obtain ⟨bound, hbound⟩ := (cfg.ids.toFinset.image fun b =>
    max (max (t.nodes b).commitIndex (t.nodes b).lastApplied) (((t.nodes a).nextIndex b).getD 1)).exists_le
  obtain ⟨u, hu, huleading, hulen, husame, hunext⟩ := hleading.reach_longer command bound
  have hindexes : ∀ b ∈ cfg.ids, (t.nodes b).commitIndex ≤ (u.nodes a).log.length ∧
      (t.nodes b).lastApplied ≤ (u.nodes a).log.length ∧
      ((t.nodes a).nextIndex b).getD 1 ≤ (u.nodes a).log.length := by
    intro b hb
    have hle := (hbound _ (Finset.mem_image_of_mem _ (List.mem_toFinset.2 hb))).trans hulen
    rw [max_le_iff, max_le_iff] at hle
    exact ⟨hle.1.1, hle.1.2, hle.2⟩
  -- the command is proposed
  obtain ⟨v, hv, hserving, hfresh⟩ := huleading.reach_serving command
    (fun b hb => by
      rw [(husame b).1, (husame b).2]
      exact ⟨(hindexes b hb).1, (hindexes b hb).2.1⟩)
    (fun p hp => by
      rw [hunext]
      exact (hindexes p ((cfg.mem_peers hleading.mem).1 hp).2).2.2.trans (Nat.le_succ _))
  -- all have it, all apply it, and the call returns
  obtain ⟨w, hw, hwserving, hsynced⟩ := hserving.reach_all_synced hfresh
  obtain ⟨x, hx, hxserving, hleader, hfinished⟩ := hwserving.reach_all_finished hpeers hsynced
  obtain ⟨y, c, hy, hynode, hyother, hcall, hentry, hreturned⟩ := hxserving.reach_returned hleader
  have hreach := ((((ht.trans hu).trans hv).trans hw).trans hx).trans hy
  refine ⟨y, a, newEntry (u.nodes a) command, (u.nodes a).calls.length, c, hreach, hleading.mem, rfl, ?_,
    calls_length_le (ht.trans hu) a, hcall, hentry, hreturned, fun b hb => ?_⟩
  · rw [hynode]
    exact hxserving.leading.leader
  · by_cases hba : b = a
    · rw [hba, hynode]
      exact ⟨hxserving.term, hxserving.holds.length, hxserving.holds.last, hleader.commitIndex, hleader.lastApplied,
        hleader.applied, fun h => absurd rfl h⟩
    · obtain ⟨hbsynced, hbfinished⟩ := hfinished b ((cfg.mem_peers hleading.mem).2 ⟨hba, hb⟩)
      rw [hyother b hba]
      exact ⟨hbsynced.term, hbsynced.holds.length, hbsynced.holds.last, hbfinished.commitIndex, hbfinished.lastApplied,
        hbfinished.applied, fun _ => ⟨hbsynced.follower, hbsynced.leaderId⟩⟩

/-- Also when a node has lost an entry that it has applied. -/
theorem command_applied_run : ∃ s : Cluster (Fin 3) Nat, (s.nodes 1).log.length < (s.nodes 1).commitIndex ∧
    ∃ s' a e q c, Transition.Reach (Steps trio) s s' ∧ a ∈ trio.ids ∧ e.command = 9 ∧ (s'.nodes a).state = .leader ∧
      (s.nodes a).calls.length ≤ q ∧ (s'.nodes a).calls[q]? = some c ∧ c.entry = e ∧ c.returned = some true ∧
      ∀ b ∈ trio.ids, (s'.nodes b).currentTerm = e.term ∧ (s'.nodes b).log.length = e.index ∧
        (s'.nodes b).log.getLast? = some e ∧ (s'.nodes b).commitIndex = e.index ∧
        (s'.nodes b).lastApplied = e.index ∧ (s'.nodes b).applied.getLast? = some e ∧
        (b ≠ a → (s'.nodes b).state = .follower ∧ (s'.nodes b).leaderId = some a) := by
  have hrun : ((Transition.run (step trio) (Cluster.init : Cluster (Fin 3) Nat)
      [.startElection 0, .deliver 0, .deliver 1, .countVotes 0, .propose 0 7, .propose 0 8, .deliver 3, .deliver 4,
        .replicate 0, .deliver 4, .deliver 1]).map fun s =>
      ((s.nodes 1).log.length, (s.nodes 1).commitIndex)) = some (1, 2) := by decide
  obtain ⟨s, -, hobs⟩ := Option.map_eq_some_iff.1 hrun
  simp only [Prod.mk.injEq] at hobs
  obtain ⟨hlen, hci⟩ := hobs
  exact ⟨s, by omega, command_applied (by decide) s 9⟩

end DistributedSync.Raft
