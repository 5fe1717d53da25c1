import Mathlib.Data.Finset.Card
import DistributedSync.Library.Positions
import DistributedSync.Raft.Node

/-!
# What the handlers do to a node

One lemma for each handler, with everything the handler can do and the guards under which it does it, so that no
later proof unfolds it.  No handler raises: the loops of `_apply_committed` and `_try_advance_commit` stay inside
the log (`applyCommitted_ok`, `tryAdvanceCommit_spec`).
-/

namespace DistributedSync.Raft

variable {ι κ : Type} {s : RaftNode ι κ}

/-! ### Applying committed entries -/

theorem resolvePending_frame (s : RaftNode ι κ) (i : Nat) :
    ∃ pr cs, s.resolvePending i = { s with pendingRequests := pr, calls := cs } := by
  unfold RaftNode.resolvePending
  split
  · exact ⟨s.pendingRequests, s.calls, rfl⟩
  · exact ⟨_, _, rfl⟩

/-- `_apply_committed` only touches the applied entries and the pending proposals. -/
theorem applyLoop_frame (n : Nat) (s : RaftNode ι κ) : ∃ la ap pr cs, (s.applyLoop n).state =
    { s with lastApplied := la, applied := ap, pendingRequests := pr, calls := cs } := by
  induction n generalizing s with
  | zero => exact ⟨_, _, _, _, rfl⟩
  | succ n ih =>
    simp only [RaftNode.applyLoop]
    split
    · exact ⟨_, _, _, _, rfl⟩
    · rename_i entry _
      obtain ⟨pr, cs, h⟩ := resolvePending_frame
        { s with lastApplied := s.lastApplied + 1, applied := s.applied ++ [entry] } entry.index
      obtain ⟨la, ap, pr', cs', h'⟩ :=
        ih ({ s with lastApplied := s.lastApplied + 1, applied := s.applied ++ [entry] }.resolvePending entry.index)
      exact ⟨la, ap, pr', cs', by rw [h', h]⟩

/-- Inside the log, the loop applies the next `n` entries. -/
theorem applyLoop_spec (n : Nat) (s : RaftNode ι κ) (h : s.lastApplied + n ≤ s.log.length) :
    (s.applyLoop n).result = .ok () ∧ (s.applyLoop n).state.lastApplied = s.lastApplied + n ∧
      (s.applyLoop n).state.applied = s.applied ++ (s.log.drop s.lastApplied).take n := by
  induction n generalizing s with
  | zero => simp [RaftNode.applyLoop]
  | succ n ih =>
    have hlt : s.lastApplied < s.log.length := by omega
    have hget : s.log[s.lastApplied + 1 - 1]? = some s.log[s.lastApplied] := by simp [hlt]
    simp only [RaftNode.applyLoop, hget]
    obtain ⟨pr, cs, hf⟩ := resolvePending_frame
      { s with lastApplied := s.lastApplied + 1, applied := s.applied ++ [s.log[s.lastApplied]] }
      s.log[s.lastApplied].index
    obtain ⟨h1, h2, h3⟩ := ih ({ s with
      lastApplied := s.lastApplied + 1, applied := s.applied ++ [s.log[s.lastApplied]] }.resolvePending
        s.log[s.lastApplied].index) (by rw [hf]; simp only; omega)
    refine ⟨h1, ?_, ?_⟩
    · rw [h2, hf]; simp only; omega
    · rw [h3, hf]
      simp only [List.append_assoc, List.singleton_append]
      rw [List.drop_eq_getElem_cons hlt, List.take_succ_cons]

theorem applyCommitted_frame (s : RaftNode ι κ) : ∃ la ap pr cs, s.applyCommitted.state =
    { s with lastApplied := la, applied := ap, pendingRequests := pr, calls := cs } :=
  applyLoop_frame _ s

/-- With the commit index inside the log, `_apply_committed` never raises. -/
theorem applyCommitted_ok (h : s.commitIndex ≤ s.log.length) : s.applyCommitted.result = .ok () := by
  rcases Nat.le_total s.commitIndex s.lastApplied with hle | hle
  · simp [RaftNode.applyCommitted, Nat.sub_eq_zero_of_le hle, RaftNode.applyLoop]
  · exact (applyLoop_spec _ s (by omega)).1

/-- On top of what `n` had applied, `n'` has applied the entries of its log above `last_applied` up to `c`. -/
structure AppliesTo (n n' : RaftNode ι κ) (c : Nat) : Prop where
  inside : c ≤ n'.log.length
  lastApplied : n'.lastApplied = max n.lastApplied c
  applied : n'.applied = n.applied ++ (n'.log.take c).drop n.lastApplied

theorem applyCommitted_spec (h : s.commitIndex ≤ s.log.length) :
    AppliesTo s s.applyCommitted.state s.commitIndex := by
  obtain ⟨_, _, _, _, hf⟩ := applyCommitted_frame s
  have hlog : s.applyCommitted.state.log = s.log := by rw [hf]
  refine ⟨hlog ▸ h, ?_, ?_⟩
  · rcases Nat.le_total s.commitIndex s.lastApplied with hle | hle
    · simp [RaftNode.applyCommitted, Nat.sub_eq_zero_of_le hle, RaftNode.applyLoop, hle]
    · exact (applyLoop_spec _ s (by omega)).2.1.trans (by omega)
  · rw [hlog, List.drop_take]
    rcases Nat.le_total s.commitIndex s.lastApplied with hle | hle
    · simp [RaftNode.applyCommitted, Nat.sub_eq_zero_of_le hle, RaftNode.applyLoop]
    · exact (applyLoop_spec _ s (by omega)).2.2

theorem AppliesTo.trans {n n' n'' : RaftNode ι κ} {c d : Nat} (h : AppliesTo n n' c) (h' : AppliesTo n' n'' d)
    (hlog : n''.log = n'.log) : AppliesTo n n'' (max c d) := by
  refine ⟨?_, ?_, ?_⟩
  · exact max_le (hlog ▸ h.inside) h'.inside
  · rw [h'.lastApplied, h.lastApplied]
    omega
  · rw [h'.applied, h.applied, h.lastApplied, hlog, List.append_assoc, Positions.drop_take_append]

/-- The applied entries are the log up to `last_applied`, and nothing committed is left to apply. -/
def UpToCommit (s : RaftNode ι κ) : Prop := s.lastApplied = s.commitIndex ∧ s.applied = s.log.take s.lastApplied

/-- Moving the commit index forward inside the log and applying keeps `I`. -/
def Applies (I : RaftNode ι κ → Prop) : Prop := ∀ s c, I s → s.commitIndex ≤ c → c ≤ s.log.length →
  I ({ s with commitIndex := c }.applyCommitted).state

theorem UpToCommit.applies : Applies fun s : RaftNode ι κ => UpToCommit s := by
  intro s c h hc hlen
  have happ := applyCommitted_spec (s := { s with commitIndex := c }) hlen
  obtain ⟨_, _, _, _, hf⟩ := applyCommitted_frame { s with commitIndex := c }
  have hle : s.lastApplied ≤ c := h.1.trans_le hc
  have hla : max s.lastApplied c = c := max_eq_right hle
  refine ⟨by rw [happ.lastApplied, hf]; exact hla, ?_⟩
  have htake : s.log.take s.lastApplied = (s.log.take c).take s.lastApplied := by
    rw [List.take_take, Nat.min_eq_left hle]
  rw [happ.applied, happ.lastApplied, hf]
  simp only [hla]
  rw [h.2, htake, List.take_append_drop]

/-! ### Advancing the commit index -/

/-- The index `n` passes the test of `_try_advance_commit`. -/
def CanCommit (me : Self ι) (s : RaftNode ι κ) (n : Nat) : Prop :=
  (∃ e, s.log[n - 1]? = some e ∧ e.term = s.currentTerm) ∧ me.quorumSize ≤ replicated me s n

/-- The loop over ascending indices above the commit index ends at the last index that can be committed. -/
theorem advanceLoop_spec (me : Self ι) (ns : List Nat) (s : RaftNode ι κ) (hns : ns.Pairwise (· < ·))
    (hlow : ∀ n ∈ ns, s.commitIndex < n) (hlen : ∀ n ∈ ns, n ≤ s.log.length) :
    ∃ ci la ap pr cs,
      advanceLoop me ns s =
        ⟨{ s with commitIndex := ci, lastApplied := la, applied := ap, pendingRequests := pr, calls := cs }, .ok ()⟩ ∧
      (ci = s.commitIndex ∨ ci ∈ ns ∧ CanCommit me s ci) ∧ (∀ n ∈ ns, CanCommit me s n → n ≤ ci) ∧
      ∀ I, Applies I → I s → I (advanceLoop me ns s).state := by
  induction ns generalizing s with
  | nil => exact ⟨_, _, _, _, _, rfl, Or.inl rfl, by simp, fun _ _ h => h⟩
  | cons n ns ih =>
    rw [List.pairwise_cons] at hns
    have hn0 := hlow n (by simp)
    have hnlen := hlen n (by simp)
    have hget : s.log[n - 1]? = some s.log[n - 1] := List.getElem?_eq_getElem (by omega)
    by_cases hcan : CanCommit me s n
    · -- the index is committed and everything up to it applied
      have hterm : ¬s.log[n - 1].term ≠ s.currentTerm := by
        obtain ⟨⟨e, he, ht⟩, -⟩ := hcan
        rw [hget] at he
        cases he
        exact not_not.2 ht
      have hok := applyCommitted_ok (s := { s with commitIndex := n }) hnlen
      obtain ⟨la, ap, pr, cs, hf⟩ := applyCommitted_frame { s with commitIndex := n }
      have hloop : advanceLoop me (n :: ns) s =
          advanceLoop me ns ({ s with commitIndex := n }.applyCommitted).state := by
        rw [advanceLoop, hget]
        simp only [hterm, ↓reduceIte, hcan.2]
        revert hok
        rcases ({ s with commitIndex := n } : RaftNode ι κ).applyCommitted with ⟨s', r⟩
        rintro rfl
        rfl
      obtain ⟨ci, la', ap', pr', cs', h1, h2, h3, h4⟩ := ih ({ s with commitIndex := n }.applyCommitted).state hns.2
        (by rw [hf]; exact hns.1) (by rw [hf]; exact fun m hm => hlen m (by simp [hm]))
      rw [hf] at h1 h2 h3
      refine ⟨ci, la', ap', pr', cs', by rw [hloop, hf, h1], ?_, ?_, ?_⟩
      · rcases h2 with rfl | ⟨hm, hc⟩
        · exact Or.inr ⟨by simp, hcan⟩
        · exact Or.inr ⟨by simp [hm], hc⟩
      · intro m hm hc
        rcases List.mem_cons.1 hm with rfl | hm
        · rcases h2 with rfl | ⟨hci, -⟩
          · exact le_rfl
          · exact (hns.1 _ hci).le
        · exact h3 m hm hc
      · intro I hI hs
        rw [hloop]
        exact h4 I hI (hI s n hs hn0.le hnlen)
    · -- the index is skipped
      have hloop : advanceLoop me (n :: ns) s = advanceLoop me ns s := by
        rw [advanceLoop, hget]
        by_cases hterm : s.log[n - 1].term = s.currentTerm
        · have hq : ¬me.quorumSize ≤ replicated me s n := fun hq => hcan ⟨⟨_, hget, hterm⟩, hq⟩
          simp [hterm, hq]
        · simp [hterm]
      obtain ⟨ci, la, ap, pr, cs, h1, h2, h3, h4⟩ := ih s hns.2 (fun m hm => hlow m (by simp [hm]))
        (fun m hm => hlen m (by simp [hm]))
      refine ⟨ci, la, ap, pr, cs, by rw [hloop, h1], h2.imp_right fun h => ⟨by simp [h.1], h.2⟩, ?_, ?_⟩
      · intro m hm hc
        rcases List.mem_cons.1 hm with rfl | hm
        · exact absurd hc hcan
        · exact h3 m hm hc
      · rw [hloop]
        exact h4

/-- `_try_advance_commit` moves the commit index of a leader to the last index that can be committed, and changes
nothing on other nodes. -/
theorem tryAdvanceCommit_spec (me : Self ι) (s : RaftNode ι κ) :
    ∃ ci la ap pr cs,
      tryAdvanceCommit me s =
        ⟨{ s with commitIndex := ci, lastApplied := la, applied := ap, pendingRequests := pr, calls := cs }, .ok ()⟩ ∧
      (ci = s.commitIndex ∨ s.state = .leader ∧ s.commitIndex < ci ∧ ci ≤ s.log.length ∧ CanCommit me s ci) ∧
      (s.state = .leader → ∀ n ≤ s.log.length, CanCommit me s n → n ≤ ci) ∧
      ∀ I, Applies I → I s → I (tryAdvanceCommit me s).state := by
  unfold tryAdvanceCommit
  split
  · rename_i hl
    have hmem : ∀ n, n ∈ List.range' (s.commitIndex + 1) (s.log.length - s.commitIndex) ↔
        s.commitIndex < n ∧ n ≤ s.log.length := by
      intro n
      rw [List.mem_range'_1]
      omega
    obtain ⟨ci, la, ap, pr, cs, h1, h2, h3, h4⟩ := advanceLoop_spec me _ s List.pairwise_lt_range'
      (fun n hn => ((hmem n).1 hn).1) (fun n hn => ((hmem n).1 hn).2)
    refine ⟨ci, la, ap, pr, cs, h1, ?_, ?_, h4⟩
    · exact h2.imp_right fun h => ⟨hl, ((hmem ci).1 h.1).1, ((hmem ci).1 h.1).2, h.2⟩
    · intro _ n hn hc
      rcases Nat.lt_or_ge s.commitIndex n with hlt | hge
      · exact h3 n ((hmem n).2 ⟨hlt, hn⟩) hc
      · rcases h2 with rfl | ⟨hci, -⟩
        · exact hge
        · have := ((hmem ci).1 hci).1
          omega
  · rename_i hl
    exact ⟨_, _, _, _, _, rfl, Or.inl rfl, fun h => absurd h hl, fun _ _ h => h⟩

/-! ### Terms and commit indices of others -/

theorem observeTerm_follow (s : RaftNode ι κ) (a : ι) (t : Nat) : follow (observeTerm s t) a t = follow s a t := by
  unfold observeTerm
  split <;> rfl

theorem observeTerm_currentTerm (s : RaftNode ι κ) (t : Nat) :
    (observeTerm s t).currentTerm = max s.currentTerm t := by
  unfold observeTerm
  split
  · simp only; omega
  · omega

/-- The step down only touches the term, the role, the vote and the leader. -/
theorem observeTerm_frame (s : RaftNode ι κ) (t : Nat) : ∃ ct st v l,
    observeTerm s t = { s with currentTerm := ct, state := st, votedFor := v, leaderId := l } := by
  unfold observeTerm
  split <;> exact ⟨_, _, _, _, rfl⟩

theorem observeTerm_log (s : RaftNode ι κ) (t : Nat) : (observeTerm s t).log = s.log := by
  obtain ⟨ct, st, v, l, hf⟩ := observeTerm_frame s t
  rw [hf]

/-- The commit index moves to the leader's or to the end of a shorter log, and nothing is raised. -/
theorem adoptCommit_spec (s : RaftNode ι κ) (lc : Nat) : ∃ ci la ap pr cs,
    adoptCommit s lc =
      ⟨{ s with commitIndex := ci, lastApplied := la, applied := ap, pendingRequests := pr, calls := cs }, .ok ()⟩ ∧
    (ci = s.commitIndex ∧ lc ≤ s.commitIndex ∨ s.commitIndex < lc ∧ ci = min lc s.log.length) := by
  unfold adoptCommit
  split
  · rename_i hlt
    obtain ⟨la, ap, pr, cs, hf⟩ := applyCommitted_frame { s with commitIndex := min lc s.log.length }
    have hok := applyCommitted_ok (s := { s with commitIndex := min lc s.log.length }) (Nat.min_le_right _ _)
    exact ⟨_, la, ap, pr, cs, by rw [← hf, ← hok], Or.inr ⟨hlt, rfl⟩⟩
  · exact ⟨_, _, _, _, _, rfl, Or.inl ⟨rfl, by omega⟩⟩

/-- The fields of a node that has accepted an `APPEND_ENTRIES`. -/
theorem acceptEntries_spec (s : RaftNode ι κ) (data : RaftData κ) : ∃ ci la ap pr cs,
    acceptEntries s data =
      ⟨{ s with
          log := installEntries s.log (data.prevLogIndex.getD 0) (data.entries.getD [])
          commitIndex := ci, lastApplied := la, applied := ap, pendingRequests := pr, calls := cs }, .ok ()⟩ ∧
    (ci = s.commitIndex ∧ data.leaderCommit.getD 0 ≤ s.commitIndex ∨
      s.commitIndex < data.leaderCommit.getD 0 ∧ ci = min (data.leaderCommit.getD 0)
        (installEntries s.log (data.prevLogIndex.getD 0) (data.entries.getD [])).length) :=
  adoptCommit_spec { s with log := installEntries s.log (data.prevLogIndex.getD 0) (data.entries.getD []) }
    (data.leaderCommit.getD 0)

theorem UpToCommit.adoptCommit (h : UpToCommit s) (hlen : s.commitIndex ≤ s.log.length) (lc : Nat) :
    UpToCommit (adoptCommit s lc).state := by
  unfold Raft.adoptCommit
  split
  · exact UpToCommit.applies s _ h (by omega) (Nat.min_le_right _ _)
  · exact h

/-! ### Requests -/

/-- Everything `handle_message` can do, with the reply. -/
inductive Handled (me : Self ι) (s : RaftNode ι κ) (msg : RaftMessage ι κ) : RaftNode ι κ → Reply ι → Prop where
  | ignored (resp : Reply ι) (hv : resp.voteGranted ≠ some true) (hs : resp.success ≠ some true) :
    Handled me s msg (observeTerm s msg.term) resp
  | voted (hm : msg.msgType = .voteRequest) (ht : s.currentTerm ≤ msg.term)
      (hfree : s.currentTerm = msg.term → s.votedFor = none ∨ s.votedFor = some msg.senderId)
      (hup : upToDate msg.data s.log) : Handled me s msg
      { observeTerm s msg.term with votedFor := some msg.senderId, currentTerm := msg.term }
      { term := some msg.term, voteGranted := some true, voterId := some me.nodeId }
  | rejected (hm : msg.msgType = .appendEntries) (ht : s.currentTerm ≤ msg.term)
      (hp : prevMatches s.log (msg.data.prevLogIndex.getD 0) (msg.data.prevLogTerm.getD 0) = false) :
      Handled me s msg (follow s msg.senderId msg.term) (appendReply me (follow s msg.senderId msg.term) false)
  | accepted (hm : msg.msgType = .appendEntries) (ht : s.currentTerm ≤ msg.term)
      (hp : prevMatches s.log (msg.data.prevLogIndex.getD 0) (msg.data.prevLogTerm.getD 0) = true) :
      Handled me s msg (acceptEntries (follow s msg.senderId msg.term) msg.data).state
        (appendReply me (follow s msg.senderId msg.term) true)

private theorem handleAppendEntries_cases (me : Self ι) (s : RaftNode ι κ) (msg : RaftMessage ι κ)
    (hm : msg.msgType = .appendEntries) : ∃ n resp,
      handleAppendEntries me (observeTerm s msg.term) msg = ⟨n, .ok resp⟩ ∧ Handled me s msg n resp := by
  unfold handleAppendEntries
  split
  · rename_i ht
    rw [observeTerm_currentTerm] at ht
    simp only [observeTerm_follow]
    split
    · rename_i hp
      obtain ⟨ci, la, ap, pr, cs, hf, -⟩ := acceptEntries_spec (follow s msg.senderId msg.term) msg.data
      have hacc : Handled me s msg _ _ := .accepted hm (by omega) hp
      rw [hf] at hacc ⊢
      exact ⟨_, _, rfl, hacc⟩
    · rename_i hp
      exact ⟨_, _, rfl, .rejected hm (by omega) (by simpa [follow] using hp)⟩
  · exact ⟨_, _, rfl, .ignored _ (by simp [appendReply]) (by simp [appendReply])⟩

/-- What a handler may do to the term, the state, the log and the running election of a node. -/
structure Advances (n n' : RaftNode ι κ) : Prop where
  term : n.currentTerm ≤ n'.currentTerm
  state : n'.state = .follower ∨ n'.currentTerm = n.currentTerm ∧ n'.state = n.state ∧ n'.log = n.log
  election : n'.election = n.election

private theorem advances_observeTerm (n : RaftNode ι κ) (t : Nat) : Advances n (observeTerm n t) := by
  unfold observeTerm
  split
  · rename_i h
    exact ⟨h.le, Or.inl rfl, rfl⟩
  · exact ⟨le_rfl, Or.inr ⟨rfl, rfl, rfl⟩, rfl⟩

theorem Handled.advances {n : RaftNode ι κ} {msg : RaftMessage ι κ} {resp : Reply ι}
    (h : Handled me s msg n resp) : Advances s n ∧ msg.term ≤ n.currentTerm := by
  have ho := advances_observeTerm s msg.term
  have hmax := observeTerm_currentTerm s msg.term
  cases h with
  | ignored resp hv hs => exact ⟨ho, by omega⟩
  | voted hm ht hfree hup =>
    have heq : msg.term = (observeTerm s msg.term).currentTerm := by omega
    exact ⟨⟨ht, by simpa [← heq] using ho.state, ho.election⟩, le_rfl⟩
  | rejected hm ht hp => exact ⟨⟨ht, Or.inl rfl, rfl⟩, le_rfl⟩
  | accepted hm ht hp =>
    obtain ⟨ci, la, ap, pr, cs, hf, -⟩ := acceptEntries_spec (follow s msg.senderId msg.term) msg.data
    rw [hf]
    exact ⟨⟨ht, Or.inl rfl, rfl⟩, le_rfl⟩

variable [DecidableEq ι]

/-! ### Append responses -/

/-- Everything `_process_ae_resp` can do. -/
inductive Processed (me : Self ι) (s : RaftNode ι κ) (src : ι) (msg : RaftMessage ι κ) (resp : Reply ι) :
    RaftNode ι κ → Prop where
  | stepDown (ht : s.currentTerm < resp.term.getD 0) : Processed me s src msg resp
      { s with currentTerm := resp.term.getD 0, state := .follower, votedFor := none }
  | rejected (hs : resp.success.getD false = false) : Processed me s src msg resp
      { s with nextIndex := Function.update s.nextIndex src (some (max 1 ((s.nextIndex src).getD 1 - 1))) }
  | keyError : Processed me s src msg resp s
  | heartbeat (ht : resp.term.getD 0 ≤ s.currentTerm) (hs : resp.success.getD false = true)
      (he : msg.data.entries.getD [] = []) : Processed me s src msg resp (tryAdvanceCommit me s).state
  | matched (pli : Nat) (ht : resp.term.getD 0 ≤ s.currentTerm) (hs : resp.success.getD false = true)
      (he : msg.data.entries.getD [] ≠ []) (hp : msg.data.prevLogIndex = some pli) : Processed me s src msg resp
      (tryAdvanceCommit me (recordMatch s src (pli + (msg.data.entries.getD []).length))).state

theorem processAeResp_cases (me : Self ι) (s : RaftNode ι κ) (src : ι) (msg : RaftMessage ι κ) (resp : Reply ι) :
    Processed me s src msg resp (processAeResp me s src msg resp).state := by
  unfold processAeResp
  split
  · rename_i ht
    exact .stepDown ht
  · rename_i ht
    split
    · rename_i hs
      split
      · rename_i he
        exact .heartbeat (by omega) hs he
      · exact .keyError
      · rename_i e es pli he hp
        have hmatched : Processed me s src msg resp _ := .matched pli (by omega) hs (by simp [he]) hp
        rwa [he] at hmatched
    · rename_i hs
      exact .rejected (by simpa using hs)

private theorem handleVoteRequest_cases (me : Self ι) (s : RaftNode ι κ) (msg : RaftMessage ι κ)
    (hm : msg.msgType = .voteRequest) : ∃ n resp,
      handleVoteRequest me (observeTerm s msg.term) msg = ⟨n, .ok resp⟩ ∧ Handled me s msg n resp := by
  unfold handleVoteRequest
  split
  · rename_i h
    obtain ⟨ht, hv, hup⟩ := h
    rw [observeTerm_currentTerm] at ht
    rw [observeTerm_log] at hup
    refine ⟨_, _, rfl, .voted hm (by omega) (fun heq => ?_) hup⟩
    simpa [observeTerm, heq] using hv
  · exact ⟨_, _, rfl, .ignored _ (by simp) (by simp)⟩

/-- `handle_message` always answers. -/
theorem handleMessage_cases (me : Self ι) (s : RaftNode ι κ) (msg : RaftMessage ι κ) :
    ∃ n resp, handleMessage me s msg = ⟨n, .ok resp⟩ ∧ Handled me s msg n resp := by
  unfold handleMessage
  split
  · rename_i hm
    exact handleVoteRequest_cases me s msg hm
  · rename_i hm
    exact handleAppendEntries_cases me s msg hm
  all_goals exact ⟨_, _, rfl, .ignored _ (by simp) (by simp)⟩

theorem Processed.advances {n : RaftNode ι κ} {src : ι} {msg : RaftMessage ι κ} {resp : Reply ι}
    (h : Processed me s src msg resp n) : Advances s n := by
  cases h with
  | stepDown ht => exact ⟨ht.le, Or.inl rfl, rfl⟩
  | rejected hs => exact ⟨le_rfl, Or.inr ⟨rfl, rfl, rfl⟩, rfl⟩
  | keyError => exact ⟨le_rfl, Or.inr ⟨rfl, rfl, rfl⟩, rfl⟩
  | heartbeat ht hs he =>
    obtain ⟨ci, la, ap, pr, cs, hf, -⟩ := tryAdvanceCommit_spec me s
    rw [hf]
    exact ⟨le_rfl, Or.inr ⟨rfl, rfl, rfl⟩, rfl⟩
  | matched pli ht hs he hp =>
    obtain ⟨ci, la, ap, pr, cs, hf, -⟩ :=
      tryAdvanceCommit_spec me (recordMatch s src (pli + (msg.data.entries.getD []).length))
    rw [hf]
    exact ⟨le_rfl, Or.inr ⟨rfl, rfl, rfl⟩, rfl⟩

end DistributedSync.Raft
