import DistributedSync.Raft.Bookkeeping

/-!
# Logs and the requests that carry them

An `APPEND_ENTRIES` is a snapshot of the leader's log at the moment it was built (`Snapshot`), however late it
arrives.  `Effect` sorts the steps of a cluster by what they do to terms, roles and logs.
-/

namespace DistributedSync.Raft

variable {ι κ : Type}

/-! ### Terms, roles and logs -/

/-- The node keeps its role and term, or falls back to `FOLLOWER`, possibly in a later term. -/
def Stays (n n' : RaftNode ι κ) : Prop :=
  n.currentTerm ≤ n'.currentTerm ∧ (n'.state = .follower ∨ n'.currentTerm = n.currentTerm ∧ n'.state = n.state)

theorem Stays.refl (n : RaftNode ι κ) : Stays n n := ⟨le_rfl, Or.inr ⟨rfl, rfl⟩⟩

theorem Advances.stays {n n' : RaftNode ι κ} (h : Advances n n') : Stays n n' :=
  ⟨h.term, h.state.imp_right fun h => ⟨h.1, h.2.1⟩⟩

/-! ### Snapshots -/

/-- The request carries the part of the log `S` from some position on. -/
def Snapshot (S : List (LogEntry κ)) (msg : RaftMessage ι κ) : Prop := ∃ pli,
  msg.data.prevLogIndex = some pli ∧ msg.data.entries = some (S.drop pli) ∧
    msg.data.prevLogTerm = some (if 0 < pli then (S[pli - 1]?.map LogEntry.term).getD 0 else 0)

theorem appendRequest_snapshot (me : Self ι) (n : RaftNode ι κ) (p : ι) : Snapshot n.log (appendRequest me n p) := by
  refine ⟨(n.nextIndex p).getD 1 - 1, rfl, ?_, rfl⟩
  simp only [appendRequest]
  split
  · rfl
  · rw [List.drop_of_length_le (by omega)]

/-! ### The index field -/

/-- The index of every entry is its position in the log, counted from one. -/
def Indexed (log : List (LogEntry κ)) : Prop := ∀ i e, log[i]? = some e → e.index = i + 1

theorem Indexed.append {log : List (LogEntry κ)} (h : Indexed log) {e : LogEntry κ} (he : e.index = log.length + 1) :
    Indexed (log ++ [e]) := by
  intro i e' hi
  rcases Positions.getElem?_concat hi with ⟨-, hold⟩ | ⟨rfl, rfl⟩
  · exact h i e' hold
  · exact he

theorem le_length_of_prevMatches {log : List (LogEntry κ)} {pli plt : Nat} (h : prevMatches log pli plt = true) :
    pli ≤ log.length := by
  have hcases : pli = 0 ∨ log[pli - 1]?.map LogEntry.term = some plt := by simpa [prevMatches] using h
  rcases hcases with rfl | hsome
  · exact Nat.zero_le _
  · obtain ⟨e, he, -⟩ := Option.map_eq_some_iff.1 hsome
    have := (List.getElem?_eq_some_iff.1 he).1
    omega

/-- Logs with entries of the same term at a position are the same up to it. -/
def LogsMatch (log log' : List (LogEntry κ)) : Prop := ∀ i e e', log[i]? = some e → log'[i]? = some e' →
  e.term = e'.term → log.take (i + 1) = log'.take (i + 1)

/-- A snapshot that passes the consistency check starts inside the log it was taken of, and the log of the receiver
agrees with it up to there. -/
theorem LogsMatch.agree {log S : List (LogEntry κ)} (h : LogsMatch log S) (hpos : ∀ e ∈ log, 1 ≤ e.term) {pli : Nat}
    (hp : prevMatches log pli (if 0 < pli then (S[pli - 1]?.map LogEntry.term).getD 0 else 0) = true) :
    pli ≤ S.length ∧ log.take pli = S.take pli := by
  rcases Nat.eq_zero_or_pos pli with rfl | hpli
  · simp
  · obtain ⟨e, he, hte⟩ : ∃ e, log[pli - 1]? = some e ∧ e.term = (S[pli - 1]?.map LogEntry.term).getD 0 := by
      simpa [prevMatches, hpli, Nat.ne_of_gt hpli, Option.map_eq_some_iff] using hp
    cases hs : S[pli - 1]? with
    | none =>
      -- the snapshot claims term `0` for the entry before it
      have hzero : e.term = 0 := by simpa [hs] using hte
      have := hpos e (List.mem_of_getElem? he)
      omega
    | some e' =>
      have hlt := (List.getElem?_eq_some_iff.1 hs).1
      have hmatch := h (pli - 1) e e' he hs (by simpa [hs] using hte)
      rw [Nat.sub_add_cancel hpli] at hmatch
      exact ⟨by omega, hmatch⟩

theorem Indexed.installEntries {log S : List (LogEntry κ)} (h : Indexed log) (hS : Indexed S) {pli : Nat}
    (hpli : pli ≤ log.length) : Indexed (installEntries log pli (S.drop pli)) := by
  unfold Raft.installEntries
  split
  · exact h
  · intro i e hi
    have hlen : (log.take pli).length = pli := by simp [hpli]
    rcases Nat.lt_or_ge i pli with hlt | hge
    · rw [List.getElem?_append_left (by omega), List.getElem?_take_of_lt hlt] at hi
      exact h i e hi
    · rw [List.getElem?_append_right (by omega), hlen, List.getElem?_drop, Nat.add_sub_cancel' hge] at hi
      exact hS i e hi

/-- The logs are indexed, and so are the snapshots under way. -/
structure IndexBook (s : Cluster ι κ) : Prop where
  log : ∀ a, Indexed (s.nodes a).log
  sent : ∀ dst msg, .sent dst msg ∈ s.history → msg.msgType = .appendEntries → ∃ S, Indexed S ∧ Snapshot S msg

theorem IndexBook.init : IndexBook (Cluster.init : Cluster ι κ) := by
  constructor <;> simp [Cluster.init, Indexed]

/-! ### Steps -/

variable [DecidableEq ι]

/-- The steps that matter for elections and logs.  All others are `quiet`. -/
inductive Effect (cfg : ClusterConfig ι) (s : Cluster ι κ) (act : Action ι κ) (a : ι) (n : RaftNode ι κ) :
    List (ι × RaftMessage ι κ) → List (Event ι κ) → Prop where
  | started (hn : n = startElection (cfg.self a) (s.nodes a)) :
    Effect cfg s act a n (broadcastVote (cfg.self a) n) [.started a n.currentTerm n.log]
  | won (el : Election ι) (he : (s.nodes a).election = some el) (hw : wins (cfg.self a) (s.nodes a) el = true)
      (hn : n = becomeLeader (cfg.self a) { s.nodes a with election := none }) :
    Effect cfg s act a n [] [.elected a (s.nodes a).currentTerm (s.nodes a).log]
  | proposed (command : κ) (hl : (s.nodes a).state = .leader) (hn : n = propose (s.nodes a) command) :
    Effect cfg s act a n (replicateEntries (cfg.self a) n) []
  | voted (msg : RaftMessage ι κ) (resp : Reply ι) (hk : .request a msg ∈ s.network)
      (hm : msg.msgType = .voteRequest) (ht : (s.nodes a).currentTerm ≤ msg.term)
      (hup : upToDate msg.data (s.nodes a).log = true) (hterm : n.currentTerm = msg.term)
      (hlog : n.log = (s.nodes a).log) (hstays : Stays (s.nodes a) n)
      (hv : (Event.answered a msg resp).vote = some (a, msg.term, msg.senderId)) (hs : resp.success ≠ some true) :
    Effect cfg s act a n [] [.answered a msg resp]
  | accepted (msg : RaftMessage ι κ) (resp : Reply ι) (hk : .request a msg ∈ s.network)
      (hreq : s.requestAt act = some (a, msg)) (hm : msg.msgType = .appendEntries)
      (ht : (s.nodes a).currentTerm ≤ msg.term)
      (hp : prevMatches (s.nodes a).log (msg.data.prevLogIndex.getD 0) (msg.data.prevLogTerm.getD 0) = true)
      (hn : n = (acceptEntries (follow (s.nodes a) msg.senderId msg.term) msg.data).state) :
    Effect cfg s act a n [] [.answered a msg resp]
  | quiet (reqs : List (ι × RaftMessage ι κ)) (evs : List (Event ι κ)) (hstays : Stays (s.nodes a) n)
      (hlog : n.log = (s.nodes a).log) (hreqs : ∀ r ∈ reqs, r ∈ replicateEntries (cfg.self a) n)
      (hevs : ∀ e ∈ evs, ∃ msg resp, e = .answered a msg resp ∧ e.vote = none ∧ resp.success ≠ some true) :
    Effect cfg s act a n reqs evs

variable {cfg : ClusterConfig ι} {s : Cluster ι κ} {act : Action ι κ} {a : ι} {n : RaftNode ι κ}
  {net : List (Packet ι κ)} {reqs : List (ι × RaftMessage ι κ)} {evs : List (Event ι κ)}

theorem Processed.log {me : Self ι} {m : RaftNode ι κ} {src : ι} {msg : RaftMessage ι κ} {resp : Reply ι}
    (h : Processed me m src msg resp n) : n.log = m.log := by
  cases h with
  | stepDown ht => rfl
  | rejected hs => rfl
  | keyError => rfl
  | heartbeat ht hs he =>
    obtain ⟨ci, la, ap, pr, cs, hf, -⟩ := tryAdvanceCommit_spec me m
    rw [hf]
  | matched pli ht hs he hp =>
    obtain ⟨ci, la, ap, pr, cs, hf, -⟩ :=
      tryAdvanceCommit_spec me (recordMatch m src (pli + (msg.data.entries.getD []).length))
    rw [hf]
    rfl

/-- A vote response only touches the running election. -/
theorem collectVote_frame (n : RaftNode ι κ) (src : ι) (msg : RaftMessage ι κ) (resp : Reply ι) :
    ∃ el, collectVote n src msg resp = { n with election := el } := by
  unfold collectVote
  split
  · exact ⟨n.election, rfl⟩
  · split
    · exact ⟨_, rfl⟩
    · exact ⟨n.election, rfl⟩

theorem Local.effect (hl : Local cfg s act a n net reqs evs) : Effect cfg s act a n reqs evs := by
  cases hl with
  | startElection _ ha hl he => exact .started rfl
  | won _ el he hw => exact .won el he hw rfl
  | lost _ el he hw => exact .quiet [] [] (.refl _) rfl (by simp) (by simp)
  | replicate => exact .quiet _ [] (.refl _) rfl (fun r hr => hr) (by simp)
  | propose _ command hl => exact .proposed command hl rfl
  | proposeReturn _ call c hc hf => exact .quiet [] [] (.refl _) rfl (by simp) (by simp)
  | proposeTimeout _ call c hc hf => exact .quiet [] [] (.refl _) rfl (by simp) (by simp)
  | request k _ msg _ resp hk hh =>
    have hstays := hh.advances.1.stays
    cases hh with
    | ignored resp hv hs =>
      exact .quiet [] _ hstays (observeTerm_log _ _) (by simp) (by simp [Event.vote, hv, hs])
    | voted hm ht hfree hup =>
      exact .voted msg _ (List.mem_of_getElem? hk) hm ht hup rfl (observeTerm_log _ _) hstays
        (by simp [Event.vote, hm]) (by simp)
    | rejected hm ht hp => exact .quiet [] _ hstays rfl (by simp) (by simp [Event.vote, hm, Raft.appendReply])
    | accepted hm ht hp => exact .accepted msg _ (List.mem_of_getElem? hk) (requestAt_deliver hk) hm ht hp rfl
  | voteReply k src msg resp hk hm =>
    obtain ⟨el, hf⟩ := collectVote_frame (s.nodes msg.senderId) src msg resp
    rw [hf]
    exact .quiet [] [] (.refl _) rfl (by simp) (by simp)
  | appendReply k src msg resp _ hk hm hp => exact .quiet [] [] hp.advances.stays hp.log (by simp) (by simp)
  | drop _ _ k => exact .quiet [] [] (.refl _) rfl (by simp) (by simp)

theorem Local.owner (hl : Local cfg s act a n net reqs evs) : ∀ e ∈ evs, e.owner = some a := by
  cases hl <;> simp [Event.owner]

/-- The requests that a step sends are vote requests, or the leader's snapshots of its log after the step. -/
theorem Effect.sends (h : Effect cfg s act a n reqs evs) {r : ι × RaftMessage ι κ} (hr : r ∈ reqs) :
    r.2.msgType = .voteRequest ∨ n.state = .leader ∧ r.2 = appendRequest (cfg.self a) n r.1 := by
  have hrep : r ∈ replicateEntries (cfg.self a) n →
      r.2.msgType = .voteRequest ∨ n.state = .leader ∧ r.2 = appendRequest (cfg.self a) n r.1 := by
    intro hr
    obtain ⟨hs, -, hm⟩ := mem_replicateEntries.1 hr
    exact Or.inr ⟨hs, hm⟩
  cases h with
  | started hn => exact Or.inl (by rw [(mem_broadcastVote.1 hr).2]; rfl)
  | won el he hw hn => cases hr
  | proposed command hl hn => exact hrep hr
  | voted msg resp hk hm ht hup hterm hlog hstays hv hs => cases hr
  | accepted msg resp hk hreq hm ht hp hn => cases hr
  | quiet _ _ hstays hlog hreqs hevs => exact hrep (hreqs r hr)

/-- The requests sent so far are those sent before the step, and the new ones. -/
theorem Local.sent_cases (hl : Local cfg s act a n net reqs evs) {dst : ι} {msg : RaftMessage ι κ}
    (hs : .sent dst msg ∈ (s.act a n net reqs evs).history) :
    .sent dst msg ∈ s.history ∨ msg.msgType = .voteRequest ∨
      n.state = .leader ∧ msg = appendRequest (cfg.self a) n dst := by
  rcases mem_act_history.1 hs with hs | hs | ⟨r, hr, heq⟩
  · exact Or.inl hs
  · exact absurd (hl.owner _ hs) (by simp [Event.owner])
  · cases heq
    exact Or.inr (hl.effect.sends hr)

theorem IndexBook.step (h : IndexBook s) (hb : Book cfg s) (he : Effect cfg s act a n reqs evs)
    (howner : ∀ e ∈ evs, e.owner = some a) : IndexBook (s.act a n net reqs evs) := by
  have hlog : Indexed n.log := by
    cases he with
    | started hn => rw [hn]; exact h.log a
    | won el he hw hn => rw [hn]; exact h.log a
    | proposed command hl hn => rw [hn]; exact (h.log a).append rfl
    | voted msg resp hk hm ht hup hterm hlog hstays hv hs => rw [hlog]; exact h.log a
    | accepted msg resp hk hreq hm ht hp hn =>
      obtain ⟨S, hS, pli, hpli, hents, -⟩ := h.sent _ _ (hb.request _ _ hk) hm
      obtain ⟨ci, la, ap, pr, cs, hf, -⟩ := acceptEntries_spec (follow (s.nodes a) msg.senderId msg.term) msg.data
      have hle := le_length_of_prevMatches hp
      simp only [hpli, hents, Option.getD_some] at hf hle
      rw [hn, hf]
      exact (h.log a).installEntries hS hle
    | quiet _ _ hstays hlog hreqs hevs => rw [hlog]; exact h.log a
  refine ⟨fun b => act_nodes_ind (P := fun _ m => Indexed m.log) hlog h.log b, fun dst msg hs hm => ?_⟩
  rcases mem_act_history.1 hs with hs | hs | ⟨r, hr, heq⟩
  · exact h.sent dst msg hs hm
  · exact absurd (howner _ hs) (by simp [Event.owner])
  · cases heq
    rcases he.sends hr with hv | ⟨-, hreq⟩
    · rw [hv] at hm; cases hm
    · exact ⟨n.log, hlog, hreq ▸ appendRequest_snapshot _ n r.1⟩

theorem IndexBook.of_reach {ok : Cluster ι κ → Action ι κ → Prop} (h : ReachWhile cfg ok s) : IndexBook s :=
  h.of_local IndexBook.init fun _ _ _ _ _ _ _ hr ih _ hl => ih.step (Book.of_reach hr) hl.effect hl.owner

end DistributedSync.Raft
