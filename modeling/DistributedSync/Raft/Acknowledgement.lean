import Mathlib.Data.Fintype.Basic
import DistributedSync.Raft.Replication

/-!
# What a match index stands for

`_process_ae_resp` does not look at the term of the request it gets a reply to.  A send task that survives the end
of a leadership can therefore raise `match_index` in a later leadership of the same node, for entries that the peer
does not hold any more.  As long as no reply to an earlier leadership does that (`AcksCurrent`), a positive match
index stands for an acknowledgement of the current term, and replies to earlier leaderships change nothing
(`NodeAck`).
-/

namespace DistributedSync.Raft

variable {ι κ : Type}

/-- `p` has answered with success, in the term of the leader `n`, a request that `a` sent in this term and that
carried entries of its log up to index `m`. -/
def Acked (h : List (Event ι κ)) (a : ι) (n : RaftNode ι κ) (p : ι) (m : Nat) : Prop :=
  ∃ msg resp S, .sent p msg ∈ h ∧ .answered p msg resp ∈ h ∧ msg.msgType = .appendEntries ∧ msg.senderId = a ∧
    msg.term = n.currentTerm ∧ resp.success = some true ∧ resp.term = some n.currentTerm ∧
    msg.data.entries.getD [] ≠ [] ∧ Snapshot S msg ∧ S <+: n.log ∧ m ≤ S.length

/-! ### Indices that can be committed -/

section CanCommit

variable {me : Self ι} {n m : RaftNode ι κ} {i : Nat}

/-- Lower match indices allow no more commits. -/
theorem CanCommit.mono (h : CanCommit me n i) (hlog : n.log = m.log) (hterm : n.currentTerm = m.currentTerm)
    (hmatch : ∀ p, (n.matchIndex p).getD 0 ≤ (m.matchIndex p).getD 0) : CanCommit me m i := by
  obtain ⟨⟨e, he, ht⟩, hq⟩ := h
  refine ⟨⟨e, hlog ▸ he, hterm ▸ ht⟩, hq.trans ?_⟩
  refine Nat.add_le_add_left (List.countP_mono_left fun p _ hp => ?_) 1
  simp only [decide_eq_true_eq] at hp ⊢
  exact hp.trans (hmatch p)

/-- A commit needs a peer whose match index reaches it, unless the node is alone. -/
theorem CanCommit.exists_peer (h : CanCommit me n i) (hp : me.peers ≠ []) :
    ∃ p ∈ me.peers, i ≤ (n.matchIndex p).getD 0 := by
  have hq : me.quorumSize ≤ replicated me n i := h.2
  have hlen := List.length_pos_iff.2 hp
  have hpos : 0 < me.peers.countP fun p => i ≤ (n.matchIndex p).getD 0 := by
    simp only [replicated, Self.quorumSize] at hq
    omega
  obtain ⟨p, hp, hi⟩ := List.countP_pos_iff.1 hpos
  exact ⟨p, hp, by simpa using hi⟩

end CanCommit

/-! ### Acknowledged indices -/

section

variable {a : ι} {n n' : RaftNode ι κ} {h h' : List (Event ι κ)}

theorem Acked.mono {p : ι} {m m' : Nat} (hack : Acked h a n p m) (hsub : ∀ e ∈ h, e ∈ h')
    (hterm : n'.currentTerm = n.currentTerm) (hlog : n.log <+: n'.log) (hm : m' ≤ m) : Acked h' a n' p m' := by
  obtain ⟨msg, resp, S, hs, ha, hty, hsend, ht, hsucc, hrt, hne, hsnap, hpre, hle⟩ := hack
  exact ⟨msg, resp, S, hsub _ hs, hsub _ ha, hty, hsend, by rw [hterm]; exact ht, hsucc, by rw [hterm]; exact hrt,
    hne, hsnap, hpre.trans hlog, hm.trans hle⟩

theorem Acked.le_length {p : ι} {m : Nat} (hack : Acked h a n p m) : m ≤ n.log.length := by
  obtain ⟨_, _, S, -, -, -, -, -, -, -, -, -, hpre, hle⟩ := hack
  exact hle.trans hpre.length_le

/-- The last index that a request with entries carries. -/
theorem Snapshot.length {S : List (LogEntry κ)} {msg : RaftMessage ι κ} (hs : Snapshot S msg)
    (hne : msg.data.entries.getD [] ≠ []) :
    msg.data.prevLogIndex.getD 0 + (msg.data.entries.getD []).length = S.length := by
  obtain ⟨pli, hpli, hents, -⟩ := hs
  simp only [hpli, hents, Option.getD_some, List.length_drop, ne_eq, List.drop_eq_nil_iff, not_le] at hne ⊢
  omega

/-- After `_try_advance_commit`, a leader has committed whatever can be. -/
theorem tryAdvanceCommit_all (me : Self ι) (m : RaftNode ι κ) (hl : m.state = .leader) :
    ∀ i, 0 < i → CanCommit me (tryAdvanceCommit me m).state i → i ≤ (tryAdvanceCommit me m).state.commitIndex := by
  intro i hi hc
  obtain ⟨ci, la, ap, pr, cs, hf, -, hmax, -⟩ := tryAdvanceCommit_spec me m
  rw [hf] at hc ⊢
  obtain ⟨e, he, -⟩ := hc.1
  have hlen : i - 1 < m.log.length := (List.getElem?_eq_some_iff.1 he).1
  exact hmax hl i (by omega) hc

/-- A node that still leads after a request has not changed. -/
theorem Handled.still_leader {me : Self ι} {m : RaftNode ι κ} {msg : RaftMessage ι κ} {resp : Reply ι}
    (hh : Handled me m msg n resp) (hs : n.state = .leader) :
    m.state = .leader ∧ n.currentTerm = m.currentTerm ∧ n.log = m.log ∧ n.matchIndex = m.matchIndex ∧
      n.commitIndex = m.commitIndex := by
  cases hh with
  | ignored resp hv hsucc =>
    unfold observeTerm at hs ⊢
    split at hs
    · cases hs
    · rename_i hlt
      rw [if_neg hlt]
      exact ⟨hs, rfl, rfl, rfl, rfl⟩
  | voted hm ht hfree hup =>
    have hs' : (observeTerm m msg.term).state = .leader := hs
    unfold observeTerm at hs' ⊢
    split at hs'
    · cases hs'
    · rename_i hlt
      rw [if_neg hlt]
      exact ⟨hs', le_antisymm (not_lt.1 hlt) ht, rfl, rfl, rfl⟩
  | rejected hm ht hp => cases hs
  | accepted hm ht hp =>
    obtain ⟨ci, la, ap, pr, cs, hf, -⟩ := acceptEntries_spec (follow m msg.senderId msg.term) msg.data
    rw [hf] at hs
    cases hs

end

variable [DecidableEq ι]

/-- The step delivers to a leader the successful reply to a request of another term, which raises `match_index`. -/
def StaleAck (s : Cluster ι κ) (act : Action ι κ) : Prop :=
  ∃ r ∈ s.replyAt act, r.2.1.msgType = .appendEntries ∧
    r.2.1.term ≠ (s.nodes r.2.1.senderId).currentTerm ∧ (s.nodes r.2.1.senderId).state = .leader ∧
    r.2.2.term.getD 0 ≤ (s.nodes r.2.1.senderId).currentTerm ∧ r.2.2.success.getD false = true ∧
    r.2.1.data.entries.getD [] ≠ [] ∧ ((s.nodes r.2.1.senderId).matchIndex r.1).getD 0 <
      r.2.1.data.prevLogIndex.getD 0 + (r.2.1.data.entries.getD []).length

def AcksCurrent (s : Cluster ι κ) (act : Action ι κ) : Prop := ¬StaleAck s act

instance (s : Cluster ι κ) (act : Action ι κ) : Decidable (AcksCurrent s act) := by
  unfold AcksCurrent StaleAck
  infer_instance

/-- The match indices of the leaders are backed by acknowledgements. -/
def MatchSound (cfg : ClusterConfig ι) (s : Cluster ι κ) : Prop :=
  ∀ a p m, (s.nodes a).state = .leader → p ∈ cfg.peers a → (s.nodes a).matchIndex p = some m → 0 < m →
    Acked s.history a (s.nodes a) p m

/-! ### The acknowledgements of one leader -/

/-- What a leader knows about its term: its requests carry prefixes of its log, its match indices are backed by
acknowledgements, and every index that can be committed is. -/
structure NodeAck (cfg : ClusterConfig ι) (h : List (Event ι κ)) (a : ι) (n : RaftNode ι κ) : Prop where
  own : ∀ dst msg, .sent dst msg ∈ h → msg.msgType = .appendEntries → msg.senderId = a →
    msg.term = n.currentTerm → ∃ S, S <+: n.log ∧ Snapshot S msg
  sound : ∀ p m, p ∈ cfg.peers a → n.matchIndex p = some m → 0 < m → Acked h a n p m
  commit : cfg.peers a ≠ [] → ∀ i, 0 < i → CanCommit (cfg.self a) n i → i ≤ n.commitIndex

def AckBook (cfg : ClusterConfig ι) (s : Cluster ι κ) : Prop :=
  ∀ a, (s.nodes a).state = .leader → NodeAck cfg s.history a (s.nodes a)

variable {cfg : ClusterConfig ι} {s : Cluster ι κ} {act : Action ι κ} {a : ι} {n n' : RaftNode ι κ}
  {net : List (Packet ι κ)} {reqs : List (ι × RaftMessage ι κ)} {evs : List (Event ι κ)} {h h' : List (Event ι κ)}

/-- A leader that goes on leading its term. -/
theorem NodeAck.stay (hk : NodeAck cfg h a n)
    (hsent : ∀ dst msg, .sent dst msg ∈ h' → .sent dst msg ∈ h ∨ msg.msgType = .voteRequest ∨ Snapshot n'.log msg)
    (hterm : n'.currentTerm = n.currentTerm) (hlog : n.log <+: n'.log)
    (hmatch : ∀ p m, p ∈ cfg.peers a → n'.matchIndex p = some m → 0 < m → Acked h' a n' p m)
    (hcommit : cfg.peers a ≠ [] → ∀ i, 0 < i → CanCommit (cfg.self a) n' i → i ≤ n'.commitIndex) :
    NodeAck cfg h' a n' := by
  refine ⟨fun dst msg hs hm hsend ht => ?_, hmatch, hcommit⟩
  rcases hsent dst msg hs with hold | hv | hsnap
  · obtain ⟨S, hS, hsnap⟩ := hk.own dst msg hold hm hsend (ht.trans hterm)
    exact ⟨S, hS.trans hlog, hsnap⟩
  · rw [hm] at hv; cases hv
  · exact ⟨n'.log, List.prefix_rfl, hsnap⟩

/-- The match indices and the commit index of the node do not change. -/
theorem NodeAck.same (hk : NodeAck cfg h a n) (hsub : ∀ e ∈ h, e ∈ h')
    (hsent : ∀ dst msg, .sent dst msg ∈ h' → .sent dst msg ∈ h ∨ msg.msgType = .voteRequest ∨ Snapshot n'.log msg)
    (hterm : n'.currentTerm = n.currentTerm) (hlog : n'.log = n.log) (hmatch : n'.matchIndex = n.matchIndex)
    (hci : n'.commitIndex = n.commitIndex) : NodeAck cfg h' a n' := by
  refine hk.stay hsent hterm (hlog ▸ List.prefix_rfl) (fun p m hp hm hpos => ?_) (fun hp i hi hc => ?_)
  · exact (hk.sound p m hp (hmatch ▸ hm) hpos).mono hsub hterm (hlog ▸ List.prefix_rfl) le_rfl
  · rw [hci]
    exact hk.commit hp i hi (hc.mono hlog hterm fun p => by rw [hmatch])

/-- A new leader has no acknowledgements, and has sent nothing in its term. -/
theorem NodeAck.won (hsent : ∀ dst msg, .sent dst msg ∈ h → msg.msgType = .appendEntries → msg.senderId = a →
    msg.term ≠ n.currentTerm) (hmatch : ∀ p, p ∈ cfg.peers a → n.matchIndex p = some 0) : NodeAck cfg h a n := by
  refine ⟨fun dst msg hs hm hsend ht => absurd ht (hsent dst msg hs hm hsend), fun p m hp hm hpos => ?_,
    fun hp i hi hc => ?_⟩
  · rw [hmatch p hp] at hm
    cases hm
    exact absurd hpos (Nat.lt_irrefl 0)
  · obtain ⟨p, hp, hle⟩ := hc.exists_peer hp
    rw [hmatch p hp] at hle
    exact absurd hi (by simpa using hle)

/-- A new entry cannot be committed before it is acknowledged. -/
theorem NodeAck.propose (hk : NodeAck cfg h a n) (hsub : ∀ e ∈ h, e ∈ h') (command : κ)
    (hsent : ∀ dst msg, .sent dst msg ∈ h' →
      .sent dst msg ∈ h ∨ msg.msgType = .voteRequest ∨ Snapshot (propose n command).log msg) :
    NodeAck cfg h' a (propose n command) := by
  have hpre : n.log <+: (Raft.propose n command).log := List.prefix_append _ _
  refine hk.stay hsent rfl hpre (fun p m hp hm hpos => ?_) (fun hp i hi hc => ?_)
  · exact (hk.sound p m hp hm hpos).mono hsub rfl hpre le_rfl
  · -- the index is inside the old log, since a peer has acknowledged it
    obtain ⟨p, hpeer, hle⟩ := hc.exists_peer hp
    have hlen : i ≤ n.log.length := by
      cases hm : n.matchIndex p with
      | none =>
        have : i ≤ (n.matchIndex p).getD 0 := hle
        rw [hm] at this
        exact absurd hi (by simpa using this)
      | some m =>
        have hle' : i ≤ (n.matchIndex p).getD 0 := hle
        rw [hm, Option.getD_some] at hle'
        exact hle'.trans (hk.sound p m hpeer hm (hi.trans_le hle')).le_length
    refine hk.commit hp i hi ⟨?_, hc.2⟩
    obtain ⟨e, he, ht⟩ := hc.1
    refine ⟨e, ?_, ht⟩
    have he' : (n.log ++ [newEntry n command])[i - 1]? = some e := he
    rwa [List.getElem?_append_left (by omega)] at he'

/-- A leader processes the reply to its request, unless this is a stale reply that raises the match index. -/
theorem NodeAck.processed {src : ι} {msg : RaftMessage ι κ} {resp : Reply ι} (hk : NodeAck cfg h a n)
    (hp : Processed (cfg.self a) n src msg resp n') (hl : n'.state = .leader) (hsent : .sent src msg ∈ h)
    (hans : .answered src msg resp ∈ h) (hm : msg.msgType = .appendEntries) (hsend : msg.senderId = a)
    (hresp : resp.success = some true → resp.term = some msg.term)
    (hcur : msg.term ≠ n.currentTerm → n.state = .leader → resp.term.getD 0 ≤ n.currentTerm →
      resp.success.getD false = true → msg.data.entries.getD [] ≠ [] →
      msg.data.prevLogIndex.getD 0 + (msg.data.entries.getD []).length ≤ (n.matchIndex src).getD 0) :
    NodeAck cfg h a n' := by
  have hsame : ∀ m : RaftNode ι κ, m.currentTerm = n.currentTerm → m.log = n.log → m.matchIndex = n.matchIndex →
      m.commitIndex = n.commitIndex → NodeAck cfg h a m := fun m =>
    hk.same (fun e he => he) fun _ _ hs => Or.inl hs
  cases hp with
  | stepDown ht => cases hl
  | rejected hs => exact hsame _ rfl rfl rfl rfl
  | keyError => exact hk
  | heartbeat ht hs he =>
    obtain ⟨ci, la, ap, pr, cs, hf, -⟩ := tryAdvanceCommit_spec (cfg.self a) n
    rw [hf] at hl
    have hall := tryAdvanceCommit_all (cfg.self a) n hl
    rw [hf] at hall ⊢
    exact hk.stay (fun _ _ hs => Or.inl hs) rfl List.prefix_rfl hk.sound fun _ => hall
  | matched pli ht hs he hpli =>
    obtain ⟨ci, la, ap, pr, cs, hf, -⟩ :=
      tryAdvanceCommit_spec (cfg.self a) (recordMatch n src (pli + (msg.data.entries.getD []).length))
    rw [hf] at hl
    have hall := tryAdvanceCommit_all (cfg.self a) (recordMatch n src (pli + (msg.data.entries.getD []).length)) hl
    rw [hf] at hall ⊢
    refine hk.stay (fun _ _ hs => Or.inl hs) rfl List.prefix_rfl (fun p m hpeer hpm hpos => ?_) fun _ => hall
    have hpm' : (Function.update n.matchIndex src (some (pli + (msg.data.entries.getD []).length))) p = some m := hpm
    by_cases hps : p = src
    · subst hps
      rw [Function.update_self, Option.some.injEq] at hpm'
      subst hpm'
      by_cases hterm : msg.term = n.currentTerm
      · -- a reply of the current term
        obtain ⟨S, hS, hsnap⟩ := hk.own p msg hsent hm hsend hterm
        have hsucc : resp.success = some true := by
          cases hr : resp.success with
          | none => simp [hr] at hs
          | some b => simpa [hr] using hs
        have hlen := hsnap.length he
        rw [hpli, Option.getD_some] at hlen
        exact ⟨msg, resp, S, hsent, hans, hm, hsend, hterm, hsucc, (hresp hsucc).trans (congrArg some hterm), he,
          hsnap, hS, hlen.le⟩
      · -- a stale reply, which does not raise the match index
        have hle := hcur hterm hl ht hs he
        rw [hpli, Option.getD_some] at hle
        cases hold : n.matchIndex p with
        | none =>
          rw [hold, Option.getD_none] at hle
          omega
        | some m₀ =>
          rw [hold, Option.getD_some] at hle
          exact (hk.sound p m₀ hpeer hold (by omega)).mono (fun e he => he) rfl List.prefix_rfl hle
    · rw [Function.update_of_ne hps] at hpm'
      exact (hk.sound p m hpeer hpm' hpos).mono (fun e he => he) rfl List.prefix_rfl le_rfl

/-- A reply that does not raise a match index does not raise the commit index either. -/
theorem NodeAck.not_raised {src : ι} {msg : RaftMessage ι κ} {resp : Reply ι} (hk : NodeAck cfg h a n)
    (hp : Processed (cfg.self a) n src msg resp n') (hpeers : cfg.peers a ≠ [])
    (hle : resp.term.getD 0 ≤ n.currentTerm → resp.success.getD false = true → msg.data.entries.getD [] ≠ [] →
      msg.data.prevLogIndex.getD 0 + (msg.data.entries.getD []).length ≤ (n.matchIndex src).getD 0) :
    (∀ p, (n'.matchIndex p).getD 0 ≤ (n.matchIndex p).getD 0) ∧ n'.commitIndex ≤ n.commitIndex := by
  have hcommit : ∀ m : RaftNode ι κ, m.log = n.log → m.currentTerm = n.currentTerm → m.commitIndex = n.commitIndex →
      (∀ p, (m.matchIndex p).getD 0 ≤ (n.matchIndex p).getD 0) →
      (∀ p, ((tryAdvanceCommit (cfg.self a) m).state.matchIndex p).getD 0 ≤ (n.matchIndex p).getD 0) ∧
        (tryAdvanceCommit (cfg.self a) m).state.commitIndex ≤ n.commitIndex := by
    intro m hlog hterm hci hmatch
    obtain ⟨ci, la, ap, pr, cs, hf, hstep, -⟩ := tryAdvanceCommit_spec (cfg.self a) m
    rw [hf]
    refine ⟨hmatch, ?_⟩
    rcases hstep with rfl | ⟨-, hlt, -, hc⟩
    · exact hci.le
    · exact hk.commit hpeers ci (by omega) (hc.mono hlog hterm hmatch)
  cases hp with
  | stepDown ht => exact ⟨fun _ => le_rfl, le_rfl⟩
  | rejected hs => exact ⟨fun _ => le_rfl, le_rfl⟩
  | keyError => exact ⟨fun _ => le_rfl, le_rfl⟩
  | heartbeat ht hs he => exact hcommit n rfl rfl rfl fun _ => le_rfl
  | matched pli ht hs he hpli =>
    refine hcommit _ rfl rfl rfl fun p => ?_
    have hlow := hle ht hs he
    rw [hpli, Option.getD_some] at hlow
    by_cases hps : p = src
    · subst hps
      simpa [recordMatch] using hlow
    · simp [recordMatch, hps]

/-! ### The leaders of a cluster -/

theorem AckBook.of_act (hk : AckBook cfg s) (hsend : ∀ r ∈ reqs, r.2.senderId = a)
    (howner : ∀ e ∈ evs, e.owner = some a)
    (hself : n.state = .leader → NodeAck cfg (s.act a n net reqs evs).history a n) :
    AckBook cfg (s.act a n net reqs evs) := by
  intro b hb
  have hsub : ∀ e ∈ s.history, e ∈ (s.act a n net reqs evs).history := fun _ => mem_history_act
  by_cases hba : b = a
  · subst hba
    rw [act_nodes_self] at hb ⊢
    exact hself hb
  · rw [act_nodes_ne hba] at hb ⊢
    have hkb := hk b hb
    refine ⟨fun dst msg hs hm hsender ht => ?_, fun p m hp hm hpos => ?_, hkb.commit⟩
    · rcases mem_act_history.1 hs with hs | hs | ⟨r, hr, heq⟩
      · exact hkb.own dst msg hs hm hsender ht
      · exact absurd (howner _ hs) (by simp [Event.owner])
      · cases heq
        exact absurd (hsender.symm.trans (hsend r hr)) hba
    · exact (hkb.sound p m hp hm hpos).mono hsub rfl List.prefix_rfl le_rfl

/-- A node sends requests in its own name. -/
theorem Local.sender (hl : Local cfg s act a n net reqs evs) : ∀ r ∈ reqs, r.2.senderId = a := by
  intro r hr
  cases hl with
  | startElection => rw [(mem_broadcastVote.1 hr).2]; rfl
  | replicate => rw [(mem_replicateEntries.1 hr).2.2]; rfl
  | propose => rw [(mem_replicateEntries.1 hr).2.2]; rfl
  | won | lost | proposeReturn | proposeTimeout | request | voteReply | appendReply | drop => cases hr

private theorem Local.sent_snapshot (hl : Local cfg s act a n net reqs evs) (dst : ι) (msg : RaftMessage ι κ)
    (hs : .sent dst msg ∈ (s.act a n net reqs evs).history) :
    .sent dst msg ∈ s.history ∨ msg.msgType = .voteRequest ∨ Snapshot n.log msg := by
  rcases hl.sent_cases hs with hs | hv | ⟨-, hreq⟩
  · exact Or.inl hs
  · exact Or.inr (Or.inl hv)
  · exact Or.inr (Or.inr (hreq ▸ appendRequest_snapshot _ n dst))

/-- A step that changes nothing that the acknowledgements are about, unless the node stops leading. -/
theorem AckBook.quiet (hk : AckBook cfg s) (hl : Local cfg s act a n net reqs evs)
    (hs : n.state = .leader → (s.nodes a).state = .leader ∧ n.currentTerm = (s.nodes a).currentTerm ∧
      n.log = (s.nodes a).log ∧ n.matchIndex = (s.nodes a).matchIndex ∧ n.commitIndex = (s.nodes a).commitIndex) :
    AckBook cfg (s.act a n net reqs evs) := by
  refine hk.of_act hl.sender hl.owner fun hlead => ?_
  obtain ⟨hst, hterm, hlog, hmatch, hci⟩ := hs hlead
  exact (hk a hst).same (fun _ => mem_history_act) hl.sent_snapshot hterm hlog hmatch hci

/-- A candidate has sent no `APPEND_ENTRIES` in its term: that would come from an earlier win of the same term. -/
theorem Book.term_ne_of_wins (hb : Book cfg s) {el : Election ι} (hw : wins (cfg.self a) (s.nodes a) el = true)
    {dst : ι} {msg : RaftMessage ι κ} (hs : .sent dst msg ∈ s.history) (hm : msg.msgType = .appendEntries)
    (hsend : msg.senderId = a) : msg.term ≠ (s.nodes a).currentTerm := by
  have hcand : (s.nodes a).state = .candidate := by
    simp only [wins, decide_eq_true_eq] at hw
    exact hw.1
  rcases hb.backed dst msg hs with ⟨hv, -⟩ | ⟨-, ℓ, hℓ⟩
  · rw [hm] at hv; cases hv
  · rw [hsend] at hℓ
    have hlt := ((hb.node a).elected _ ℓ hℓ).2 hcand
    omega

theorem AckBook.step (hk : AckBook cfg s) (hb : Book cfg s) (hok : AcksCurrent s act)
    (hl : Local cfg s act a n net reqs evs) : AckBook cfg (s.act a n net reqs evs) := by
  have hsender := hl.sender
  have howner := hl.owner
  have hsent := hl.sent_snapshot
  have hquiet := hk.quiet hl
  cases hl with
  | startElection _ ha hl he => exact hquiet fun hs => by cases hs
  | won _ el he hw =>
    refine hk.of_act hsender howner fun _ => .won (fun dst msg hs hm hsend => ?_) fun p hp => ?_
    · have hold : .sent dst msg ∈ s.history := by simpa [Cluster.act] using hs
      exact hb.term_ne_of_wins hw hold hm hsend
    · simp [becomeLeader, ClusterConfig.self, hp]
  | lost _ el he hw => exact hquiet fun hs => ⟨hs, rfl, rfl, rfl, rfl⟩
  | replicate => exact hquiet fun hs => ⟨hs, rfl, rfl, rfl, rfl⟩
  | propose _ command hl =>
    exact hk.of_act hsender howner fun _ => (hk a hl).propose (fun _ => mem_history_act) command hsent
  | proposeReturn _ call c hc hf => exact hquiet fun hs => ⟨hs, rfl, rfl, rfl, rfl⟩
  | proposeTimeout _ call c hc hf => exact hquiet fun hs => ⟨hs, rfl, rfl, rfl, rfl⟩
  | request k _ msg _ resp hkk hh => exact hquiet hh.still_leader
  | voteReply k src msg resp hkk hm =>
    obtain ⟨el, hf⟩ := collectVote_frame (s.nodes msg.senderId) src msg resp
    refine hquiet fun hs => ?_
    rw [hf] at hs ⊢
    exact ⟨hs, rfl, rfl, rfl, rfl⟩
  | appendReply k src msg resp _ hkk hm hp =>
    have hans := hb.reply src msg resp (List.mem_of_getElem? hkk)
    obtain ⟨hsent', hresp⟩ := hb.answered src msg resp hans
    refine hk.of_act hsender howner fun hlead => ?_
    have hst : (s.nodes msg.senderId).state = .leader := by
      rcases hp.advances.state with hf | ⟨-, hsame, -⟩
      · rw [hf] at hlead; cases hlead
      · exact hsame ▸ hlead
    refine NodeAck.same ((hk _ hst).processed hp hlead hsent' hans hm rfl (fun hs => (hresp hs).2) ?_)
      (fun _ => mem_history_act) (fun dst m hs => Or.inl (by simpa [Cluster.act] using hs)) rfl rfl rfl rfl
    intro hne _ hle hsucc hents
    by_contra hlt
    exact hok ⟨_, replyAt_eq_some.2 ⟨k, rfl, hkk⟩, hm, hne, hst, hle, hsucc, hents, not_le.1 hlt⟩
  | drop _ _ k => exact hquiet fun hs => ⟨hs, rfl, rfl, rfl, rfl⟩

theorem AckBook.of_reach {ok : Cluster ι κ → Action ι κ → Prop} (hok : ∀ s act, ok s act → AcksCurrent s act)
    (h : ReachWhile cfg ok s) : AckBook cfg s :=
  h.of_local (fun _ => nofun) fun _ _ _ _ _ _ _ hr ih ha hl => ih.step (Book.of_reach hr) (hok _ _ ha) hl

private theorem AckBook.matchSound (hk : AckBook cfg s) : MatchSound cfg s :=
  fun a p m hl hp hm hpos => (hk a hl).sound p m hp hm hpos

/-- As long as no stale reply raises a match index, a positive match index of a leader stands for an acknowledgement
of its term, and the replies to requests of earlier leaderships raise neither a match index nor the commit index. -/
theorem match_index_sound (cfg : ClusterConfig ι) {s : Cluster ι κ} (h : ReachWhile cfg AcksCurrent s) :
    MatchSound cfg s ∧
    ∀ act s' src msg resp, AcksCurrent s act → Steps cfg s act s' → s.replyAt act = some (src, msg, resp) →
      msg.msgType = .appendEntries → msg.term ≠ (s.nodes msg.senderId).currentTerm →
      (s.nodes msg.senderId).state = .leader →
      (∀ p, ((s'.nodes msg.senderId).matchIndex p).getD 0 ≤ ((s.nodes msg.senderId).matchIndex p).getD 0) ∧
        (s'.nodes msg.senderId).commitIndex ≤ (s.nodes msg.senderId).commitIndex := by
  have hk : AckBook cfg s := .of_reach (fun _ _ h => h) h
  have hb : Book cfg s := .of_reach h
  refine ⟨hk.matchSound, fun act s' src msg resp hok hstep hreply hm hne hlead => ?_⟩
  obtain ⟨k, hact, hkk⟩ : ∃ k, act = .deliver k ∧ s.network[k]? = some (.reply src msg resp) :=
    replyAt_eq_some.1 hreply
  subst hact
  have hs' : s' = deliver cfg s (s.network.eraseIdx k) (.reply src msg resp) := by
    simpa [Steps, step, hkk, eq_comm] using hstep
  have hnode : s'.nodes msg.senderId =
      (processAeResp (cfg.self msg.senderId) (s.nodes msg.senderId) src msg resp).state := by
    simp [hs', deliver, receiveReply, hm]
  rw [hnode]
  obtain ⟨hsent, -⟩ := hb.answered src msg resp (hb.reply src msg resp (List.mem_of_getElem? hkk))
  refine (hk _ hlead).not_raised (processAeResp_cases _ _ src msg resp)
    (List.ne_nil_of_mem (hb.peer src msg hsent)) fun hle hsucc hents => ?_
  by_contra hlt
  exact hok ⟨_, hreply, hm, hne, hlead, hle, hsucc, hents, not_le.1 hlt⟩

/-- Node `1` acknowledges the first entry of the leader `0`. -/
theorem match_index_sound_run : ∃ s : Cluster (Fin 3) Nat, Transition.run (step trio) Cluster.init
      [.startElection 0, .deliver 0, .deliver 1, .countVotes 0, .propose 0 7, .deliver 1, .deliver 2] = some s ∧
    (s.nodes 0).matchIndex 1 = some 1 ∧ Acked s.history 0 (s.nodes 0) 1 1 := by
  have hrun : ((Transition.runWhile (step trio) AcksCurrent (Cluster.init : Cluster (Fin 3) Nat)
      [.startElection 0, .deliver 0, .deliver 1, .countVotes 0, .propose 0 7, .deliver 1, .deliver 2]).map fun s =>
        ((s.nodes 0).state, (s.nodes 0).matchIndex 1)) = some (.leader, some 1) := by decide
  obtain ⟨s, hs, hobs⟩ := Option.map_eq_some_iff.1 hrun
  obtain ⟨hl, hm⟩ := Prod.mk.inj hobs
  obtain ⟨hr, hrun⟩ := Transition.ReachWhile.of_runWhile .refl hs
  exact ⟨s, hrun, hm, (match_index_sound trio hr).1 0 1 1 hl (by decide) hm (by decide)⟩

/-- The node and the term of a successful answer. -/
def Event.success : Event ι κ → Option (ι × Nat)
  | .answered p msg resp => if resp.success = some true then some (p, msg.term) else none
  | _ => none

/-- Node `0` leads term `1`, loses it to a candidate of term `2`, and leads term `3`; then the answer of node `1` to
its request of term `1` arrives. -/
theorem stale_reply_raises_match_index : ∃ s : Cluster (Fin 3) Nat, Reach trio s ∧ ¬MatchSound trio s := by
  have hrun : ((Transition.run (step trio) (Cluster.init : Cluster (Fin 3) Nat)
      [.startElection 0, .deliver 0, .deliver 1, .countVotes 0, .propose 0 7, .deliver 1, .deliver 0,
        .startElection 2, .deliver 3, .startElection 0, .deliver 5, .deliver 6, .countVotes 0, .deliver 1]).map
      fun s => ((s.nodes 0).state, (s.nodes 0).currentTerm, (s.nodes 0).matchIndex 1,
        s.history.filterMap Event.success)) = some (.leader, 3, some 1, [(1, 1)]) := by decide
  obtain ⟨s, hs, hobs⟩ := Option.map_eq_some_iff.1 hrun
  simp only [Prod.mk.injEq] at hobs
  obtain ⟨hl, ht, hm, hacks⟩ := hobs
  refine ⟨s, Transition.reach_of_run hs, fun hsound => ?_⟩
  obtain ⟨msg, resp, S, -, hans, -, -, hterm, hsucc, -⟩ := hsound 0 1 1 hl (by decide) hm (by decide)
  have hmem : (1, msg.term) ∈ s.history.filterMap Event.success :=
    List.mem_filterMap.2 ⟨_, hans, by simp [Event.success, hsucc]⟩
  rw [hacks, hterm, ht] at hmem
  exact absurd hmem (by decide)

end DistributedSync.Raft
