import DistributedSync.Library.Quorum
import DistributedSync.Raft.Steps

/-!
# Where messages, votes and leaders come from

The facts about a cluster that need no assumption on its runs: every packet in flight was sent or answered by the
node it names, the terms of what a node did in the past do not exceed its current term, a running election has the
term of its candidate, and a leader was elected by a majority of votes.
-/

namespace DistributedSync.Raft

variable {ι κ : Type}

/-- The vote cast in an event, as voter, term and candidate: the own vote of `_start_election`, or a granted one. -/
def Event.vote : Event ι κ → Option (ι × Nat × ι)
  | .started a t _ => some (a, t, a)
  | .answered a msg resp =>
    if msg.msgType = .voteRequest ∧ resp.voteGranted = some true then some (a, msg.term, msg.senderId) else none
  | _ => none

/-- `p` voted for `c` in term `t`. -/
def Voted (h : List (Event ι κ)) (p : ι) (t : Nat) (c : ι) : Prop := (p, t, c) ∈ h.filterMap Event.vote

theorem voted_iff {h : List (Event ι κ)} {p : ι} {t : Nat} {c : ι} : Voted h p t c ↔
    (c = p ∧ ∃ ℓ, .started p t ℓ ∈ h) ∨ ∃ msg resp, .answered p msg resp ∈ h ∧ msg.senderId = c ∧ msg.term = t ∧
      msg.msgType = .voteRequest ∧ resp.voteGranted = some true := by
  simp only [Voted, List.mem_filterMap]
  constructor
  · rintro ⟨e, he, hv⟩
    cases e with
    | started a u ℓ =>
      simp only [Event.vote, Option.some.injEq, Prod.mk.injEq] at hv
      obtain ⟨rfl, rfl, rfl⟩ := hv
      exact Or.inl ⟨rfl, ℓ, he⟩
    | answered a msg resp =>
      simp only [Event.vote, Option.ite_none_right_eq_some, Option.some.injEq, Prod.mk.injEq] at hv
      obtain ⟨⟨hm, hg⟩, rfl, rfl, rfl⟩ := hv
      exact Or.inr ⟨msg, resp, he, rfl, rfl, hm, hg⟩
    | elected a u ℓ => cases hv
    | sent dst msg => cases hv
  · rintro (⟨rfl, ℓ, he⟩ | ⟨msg, resp, he, rfl, rfl, hm, hg⟩)
    · exact ⟨_, he, rfl⟩
    · exact ⟨_, he, by simp [Event.vote, hm, hg]⟩

/-- What a request in flight is backed by. -/
def Backed (h : List (Event ι κ)) (msg : RaftMessage ι κ) : Prop :=
  (msg.msgType = .voteRequest ∧ ∃ ℓ, .started msg.senderId msg.term ℓ ∈ h ∧
    msg.data.lastLogIndex = some ℓ.length ∧ msg.data.lastLogTerm = some (lastTerm ℓ)) ∨
  (msg.msgType = .appendEntries ∧ ∃ ℓ, .elected msg.senderId msg.term ℓ ∈ h)

/-- The past of the node `a` and its state `n`. -/
structure NodeBook (h : List (Event ι κ)) (a : ι) (n : RaftNode ι κ) : Prop where
  started : ∀ t ℓ, .started a t ℓ ∈ h → t ≤ n.currentTerm
  elected : ∀ t ℓ, .elected a t ℓ ∈ h → t ≤ n.currentTerm ∧ (n.state = .candidate → t < n.currentTerm)
  answered : ∀ msg resp, .answered a msg resp ∈ h → msg.term ≤ n.currentTerm
  leader : n.state = .leader → ∃ ℓ, .elected a n.currentTerm ℓ ∈ h
  candidate : n.state = .candidate → .started a n.currentTerm n.log ∈ h
  running : ∀ el, n.election = some el → (∃ ℓ, .started a el.term ℓ ∈ h) ∧
    (n.state = .candidate → el.term = n.currentTerm) ∧
    ∀ src resp, el.responses src = some resp →
      ∃ msg, .answered src msg resp ∈ h ∧ msg.senderId = a ∧ msg.term = el.term ∧ msg.msgType = .voteRequest

/-! ### The nodes -/

def Event.owner : Event ι κ → Option ι
  | .started a _ _ => some a
  | .elected a _ _ => some a
  | .answered a _ _ => some a
  | .sent _ _ => none

variable {h h' : List (Event ι κ)} {a : ι} {n n' : RaftNode ι κ}

/-- The past of a node stays in order when its term and state change as a handler changes them, and the only new
events of the node are requests it answered in a term it has reached. -/
theorem NodeBook.advance (hb : NodeBook h a n) (hsub : ∀ e ∈ h, e ∈ h')
    (hnew : ∀ e ∈ h', e ∈ h ∨ e.owner ≠ some a ∨ ∃ msg resp, e = .answered a msg resp ∧ msg.term ≤ n'.currentTerm)
    (hterm : n.currentTerm ≤ n'.currentTerm)
    (hstate : n'.state = .follower ∨
      n'.currentTerm = n.currentTerm ∧ n'.state = n.state ∧ (n.state = .candidate → n'.log = n.log))
    (helec : n'.election = n.election ∨ n'.election = none) : NodeBook h' a n' := by
  have hst : ∀ t ℓ, .started a t ℓ ∈ h' → .started a t ℓ ∈ h := by
    intro t ℓ he
    rcases hnew _ he with he | he | ⟨_, _, he, _⟩
    · exact he
    · exact absurd rfl he
    · cases he
  have hel : ∀ t ℓ, .elected a t ℓ ∈ h' → .elected a t ℓ ∈ h := by
    intro t ℓ he
    rcases hnew _ he with he | he | ⟨_, _, he, _⟩
    · exact he
    · exact absurd rfl he
    · cases he
  refine ⟨fun t ℓ he => (hb.started t ℓ (hst t ℓ he)).trans hterm, fun t ℓ he => ?_, fun msg resp he => ?_, ?_, ?_, ?_⟩
  · obtain ⟨hle, hcand⟩ := hb.elected t ℓ (hel t ℓ he)
    refine ⟨hle.trans hterm, fun hc => ?_⟩
    rcases hstate with hf | ⟨ht, hs, -⟩
    · rw [hf] at hc; cases hc
    · rw [ht]; exact hcand (hs ▸ hc)
  · rcases hnew _ he with he | he | ⟨_, _, heq, ht⟩
    · exact (hb.answered msg resp he).trans hterm
    · exact absurd rfl he
    · cases heq; exact ht
  · intro hl
    rcases hstate with hf | ⟨ht, hs, -⟩
    · rw [hf] at hl; cases hl
    · obtain ⟨ℓ, hℓ⟩ := hb.leader (hs ▸ hl)
      exact ⟨ℓ, ht ▸ hsub _ hℓ⟩
  · intro hc
    rcases hstate with hf | ⟨ht, hs, hlog⟩
    · rw [hf] at hc; cases hc
    · rw [ht, hlog (hs ▸ hc)]
      exact hsub _ (hb.candidate (hs ▸ hc))
  · intro el hsome
    rcases helec with heq | hnone
    · obtain ⟨⟨ℓ, hℓ⟩, hcand, hresp⟩ := hb.running el (heq ▸ hsome)
      refine ⟨⟨ℓ, hsub _ hℓ⟩, fun hc => ?_, fun src resp hr => ?_⟩
      · rcases hstate with hf | ⟨ht, hs, -⟩
        · rw [hf] at hc; cases hc
        · rw [ht]; exact hcand (hs ▸ hc)
      · obtain ⟨msg, hmsg, hrest⟩ := hresp src resp hr
        exact ⟨msg, hsub _ hmsg, hrest⟩
    · rw [hnone] at hsome; cases hsome

/-- A node that does not act keeps its past, since the new events are not its own. -/
theorem NodeBook.other (hb : NodeBook h a n) (hsub : ∀ e ∈ h, e ∈ h') (hnew : ∀ e ∈ h', e ∈ h ∨ e.owner ≠ some a) :
    NodeBook h' a n :=
  hb.advance hsub (fun e he => (hnew e he).imp_right Or.inl) le_rfl (Or.inr ⟨rfl, rfl, fun _ => rfl⟩) (Or.inl rfl)

theorem NodeBook.startElection {me : Self ι} (hb : NodeBook h a n)
    (hnew : ∀ e ∈ h', e ∈ h ∨ e = .started a (n.currentTerm + 1) n.log ∨ e.owner = none)
    (hmem : .started a (n.currentTerm + 1) n.log ∈ h') : NodeBook h' a (startElection me n) := by
  refine ⟨fun t ℓ he => ?_, fun t ℓ he => ?_, fun msg resp he => ?_, nofun, fun _ => hmem, ?_⟩
  · rcases hnew _ he with he | he | he
    · exact (hb.started t ℓ he).trans (Nat.le_succ _)
    · cases he; exact le_rfl
    · cases he
  · rcases hnew _ he with he | he | he
    · have := (hb.elected t ℓ he).1
      exact ⟨this.trans (Nat.le_succ _), fun _ => Nat.lt_succ_of_le this⟩
    · cases he
    · cases he
  · rcases hnew _ he with he | he | he
    · exact (hb.answered msg resp he).trans (Nat.le_succ _)
    · cases he
    · cases he
  · rintro el he
    obtain rfl : { term := n.currentTerm + 1 } = el := by simpa [Raft.startElection] using he
    exact ⟨⟨n.log, hmem⟩, fun _ => rfl, nofun⟩

theorem Voted.mono {p : ι} {t : Nat} {c : ι} (hv : Voted h p t c) (hsub : ∀ e ∈ h, e ∈ h') : Voted h' p t c := by
  obtain ⟨e, he, hvote⟩ := List.mem_filterMap.1 hv
  exact List.mem_filterMap.2 ⟨e, hsub e he, hvote⟩

theorem Backed.mono {msg : RaftMessage ι κ} (hb : Backed h msg) (hsub : ∀ e ∈ h, e ∈ h') : Backed h' msg := by
  rcases hb with ⟨hm, ℓ, hℓ, hrest⟩ | ⟨hm, ℓ, hℓ⟩
  · exact Or.inl ⟨hm, ℓ, hsub _ hℓ, hrest⟩
  · exact Or.inr ⟨hm, ℓ, hsub _ hℓ⟩

/-- A successful reply answers an `APPEND_ENTRIES` and carries its term. -/
theorem Handled.success {me : Self ι} {msg : RaftMessage ι κ} {resp : Reply ι} {m : RaftNode ι κ}
    (hh : Handled me m msg n resp) (hs : resp.success = some true) :
    msg.msgType = .appendEntries ∧ resp.term = some msg.term := by
  cases hh with
  | ignored resp hv hs' => exact absurd hs hs'
  | voted hm ht hfree hup => cases hs
  | rejected hm ht hp => simp [appendReply] at hs
  | accepted hm ht hp => exact ⟨hm, rfl⟩

variable [DecidableEq ι]

structure Book (cfg : ClusterConfig ι) (s : Cluster ι κ) : Prop where
  node : ∀ a, NodeBook s.history a (s.nodes a)
  request : ∀ dst msg, .request dst msg ∈ s.network → .sent dst msg ∈ s.history
  reply : ∀ src msg resp, .reply src msg resp ∈ s.network → .answered src msg resp ∈ s.history
  peer : ∀ dst msg, .sent dst msg ∈ s.history → dst ∈ cfg.peers msg.senderId
  backed : ∀ dst msg, .sent dst msg ∈ s.history → Backed s.history msg
  answered : ∀ dst msg resp, .answered dst msg resp ∈ s.history → .sent dst msg ∈ s.history ∧
    (resp.success = some true → msg.msgType = .appendEntries ∧ resp.term = some msg.term)
  startedOnce : ∀ a t ℓ ℓ', .started a t ℓ ∈ s.history → .started a t ℓ' ∈ s.history → ℓ = ℓ'
  candidate : ∀ a t ℓ, .started a t ℓ ∈ s.history → a ∈ cfg.ids ∧ 0 < t
  quorum : ∀ a t ℓ, .elected a t ℓ ∈ s.history →
    ∃ Q, (QuorumSystem.majority cfg.ids.toFinset).IsQuorum Q ∧ ∀ p ∈ Q, Voted s.history p t a

theorem NodeBook.won {me : Self ι} (hb : NodeBook h a n)
    (hnew : ∀ e ∈ h', e ∈ h ∨ e = .elected a n.currentTerm n.log)
    (hmem : .elected a n.currentTerm n.log ∈ h') : NodeBook h' a (becomeLeader me { n with election := none }) := by
  refine ⟨fun t ℓ he => ?_, fun t ℓ he => ⟨?_, nofun⟩, fun msg resp he => ?_, fun _ => ⟨_, hmem⟩, nofun, nofun⟩
  · rcases hnew _ he with he | he
    · exact hb.started t ℓ he
    · cases he
  · rcases hnew _ he with he | he
    · exact (hb.elected t ℓ he).1
    · cases he; exact le_rfl
  · rcases hnew _ he with he | he
    · exact hb.answered msg resp he
    · cases he

theorem NodeBook.collectVote {src : ι} {msg : RaftMessage ι κ} {resp : Reply ι} (hb : NodeBook h msg.senderId n)
    (hans : .answered src msg resp ∈ h) (hm : msg.msgType = .voteRequest) :
    NodeBook h msg.senderId (collectVote n src msg resp) := by
  unfold Raft.collectVote
  split
  · exact hb
  · rename_i el hel
    split
    · rename_i ht
      refine ⟨hb.started, hb.elected, hb.answered, hb.leader, hb.candidate, fun el' hel' => ?_⟩
      obtain rfl : { el with responses := Function.update el.responses src (some resp) } = el' := by simpa using hel'
      obtain ⟨hst, hcand, hresp⟩ := hb.running el hel
      refine ⟨hst, hcand, fun q r hr => ?_⟩
      by_cases hq : q = src
      · subst hq
        obtain rfl : resp = r := by simpa using hr
        exact ⟨msg, hans, rfl, ht.symm, hm⟩
      · exact hresp q r (by simpa [hq] using hr)
    · exact hb

/-! ### The cluster -/

variable {cfg : ClusterConfig ι} {s : Cluster ι κ} {net : List (Packet ι κ)} {reqs : List (ι × RaftMessage ι κ)}
  {evs : List (Event ι κ)}

theorem voted_act {p : ι} {t : Nat} {c : ι} : Voted (s.act a n net reqs evs).history p t c ↔
    Voted s.history p t c ∨ (p, t, c) ∈ evs.filterMap Event.vote := by
  have hsent : (reqs.map fun r => (Event.sent r.1 r.2 : Event ι κ)).filterMap Event.vote = [] := by
    simp [List.filterMap_eq_nil_iff, Event.vote]
  simp only [Voted, Cluster.act, List.filterMap_append, hsent, List.append_nil, List.mem_append]

theorem Book.init : Book cfg (Cluster.init : Cluster ι κ) where
  node := fun _ => ⟨by simp [Cluster.init], by simp [Cluster.init], by simp [Cluster.init], by simp [Cluster.init],
    by simp [Cluster.init], by simp [Cluster.init]⟩
  request := by simp [Cluster.init]
  reply := by simp [Cluster.init]
  peer := by simp [Cluster.init]
  backed := by simp [Cluster.init]
  answered := by simp [Cluster.init]
  startedOnce := by simp [Cluster.init]
  candidate := by simp [Cluster.init]
  quorum := by simp [Cluster.init]

/-- What has to be checked of a step of the node `a`. -/
theorem Book.act (hb : Book cfg s) (hnode : NodeBook (s.act a n net reqs evs).history a n)
    (howner : ∀ e ∈ evs, e.owner = some a)
    (hnet : ∀ p ∈ net, p ∈ s.network ∨ ∃ src msg resp, p = .reply src msg resp ∧ .answered src msg resp ∈ evs)
    (hreqs : ∀ r ∈ reqs, r.1 ∈ cfg.peers r.2.senderId ∧ Backed (s.act a n net reqs evs).history r.2)
    (hans : ∀ dst msg resp, .answered dst msg resp ∈ evs → .sent dst msg ∈ s.history ∧
      (resp.success = some true → msg.msgType = .appendEntries ∧ resp.term = some msg.term))
    (honce : ∀ b t ℓ ℓ', .started b t ℓ ∈ evs → .started b t ℓ' ∈ s.history ∨ .started b t ℓ' ∈ evs → ℓ = ℓ')
    (hcand : ∀ b t ℓ, .started b t ℓ ∈ evs → b ∈ cfg.ids ∧ 0 < t)
    (hquo : ∀ b t ℓ, .elected b t ℓ ∈ evs →
      ∃ Q, (QuorumSystem.majority cfg.ids.toFinset).IsQuorum Q ∧ ∀ p ∈ Q, Voted s.history p t b) :
    Book cfg (s.act a n net reqs evs) := by
  have hsub : ∀ e ∈ s.history, e ∈ (s.act a n net reqs evs).history := fun _ => mem_history_act
  have hnew : ∀ {e}, e ∈ (s.act a n net reqs evs).history → e.owner ≠ none → e ∈ s.history ∨ e ∈ evs := by
    intro e he ho
    rcases mem_act_history.1 he with he | he | ⟨r, -, rfl⟩
    · exact Or.inl he
    · exact Or.inr he
    · exact absurd rfl ho
  refine ⟨fun b => ?_, fun dst msg hp => ?_, fun src msg resp hp => ?_, fun dst msg he => ?_, fun dst msg he => ?_,
    fun dst msg resp he => ?_, fun b t ℓ ℓ' he he' => ?_, fun b t ℓ he => ?_, fun b t ℓ he => ?_⟩
  · by_cases hba : b = a
    · subst hba; simpa using hnode
    · rw [act_nodes_ne hba]
      refine (hb.node b).other hsub fun e he => ?_
      rcases mem_act_history.1 he with he | he | ⟨r, -, rfl⟩
      · exact Or.inl he
      · right; rw [howner e he]; simpa using Ne.symm hba
      · right; simp [Event.owner]
  · rcases mem_act_network.1 hp with hp | ⟨r, hr, heq⟩
    · rcases hnet _ hp with hp | ⟨_, _, _, hp, -⟩
      · exact hsub _ (hb.request dst msg hp)
      · cases hp
    · cases heq
      exact mem_act_history.2 (Or.inr (Or.inr ⟨r, hr, rfl⟩))
  · rcases mem_act_network.1 hp with hp | ⟨r, hr, heq⟩
    · rcases hnet _ hp with hp | ⟨_, _, _, hp, he⟩
      · exact hsub _ (hb.reply src msg resp hp)
      · cases hp; exact mem_act_history.2 (Or.inr (Or.inl he))
    · cases heq
  · rcases mem_act_history.1 he with he | he | ⟨r, hr, heq⟩
    · exact hb.peer dst msg he
    · exact absurd (howner _ he) (by simp [Event.owner])
    · cases heq; exact (hreqs r hr).1
  · rcases mem_act_history.1 he with he | he | ⟨r, hr, heq⟩
    · exact (hb.backed dst msg he).mono hsub
    · exact absurd (howner _ he) (by simp [Event.owner])
    · cases heq; exact (hreqs r hr).2
  · rcases hnew he (by simp [Event.owner]) with he | he
    · exact (hb.answered dst msg resp he).imp_left (hsub _)
    · exact (hans dst msg resp he).imp_left (hsub _)
  · rcases hnew he (by simp [Event.owner]), hnew he' (by simp [Event.owner]) with ⟨he | he, he' | he'⟩
    · exact hb.startedOnce b t ℓ ℓ' he he'
    · exact (honce b t ℓ' ℓ he' (Or.inl he)).symm
    · exact honce b t ℓ ℓ' he (Or.inl he')
    · exact honce b t ℓ ℓ' he (Or.inr he')
  · rcases hnew he (by simp [Event.owner]) with he | he
    · exact hb.candidate b t ℓ he
    · exact hcand b t ℓ he
  · have hvotes : ∃ Q, (QuorumSystem.majority cfg.ids.toFinset).IsQuorum Q ∧ ∀ p ∈ Q, Voted s.history p t b := by
      rcases hnew he (by simp [Event.owner]) with he | he
      · exact hb.quorum b t ℓ he
      · exact hquo b t ℓ he
    obtain ⟨Q, hQ, hv⟩ := hvotes
    exact ⟨Q, hQ, fun p hp => (hv p hp).mono hsub⟩

/-- A step that records nothing but its requests. -/
theorem Book.act_silent (hb : Book cfg s) (hnode : NodeBook (s.act a n net reqs []).history a n)
    (hnet : ∀ p ∈ net, p ∈ s.network)
    (hreqs : ∀ r ∈ reqs, r.1 ∈ cfg.peers r.2.senderId ∧ Backed s.history r.2) : Book cfg (s.act a n net reqs []) := by
  have hsub : ∀ e ∈ s.history, e ∈ (s.act a n net reqs []).history := fun _ => mem_history_act
  exact hb.act hnode (by simp) (fun p hp => Or.inl (hnet p hp))
    (fun r hr => (hreqs r hr).imp_right fun h => h.mono hsub) (by simp) (by simp) (by simp) (by simp)

/-- Enough peers make a majority together with the node itself. -/
theorem ClusterConfig.majority_of_countP (cfg : ClusterConfig ι) {a : ι} (ha : a ∈ cfg.ids) (P : ι → Bool)
    (hq : (cfg.self a).quorumSize ≤ 1 + (cfg.peers a).countP P) :
    (QuorumSystem.majority cfg.ids.toFinset).IsQuorum (insert a ((cfg.peers a).filter P).toFinset) := by
  have hperm := cfg.peers_perm a ha
  have hnd : ((cfg.peers a).filter P).Nodup := (hperm.nodup_iff.2 (cfg.nodup.erase a)).filter _
  have hmem : ∀ p ∈ cfg.peers a, p ∈ cfg.ids ∧ p ≠ a := by
    intro p hp
    have := (cfg.nodup.mem_erase_iff).1 (hperm.mem_iff.1 hp)
    exact ⟨this.2, this.1⟩
  refine ⟨fun p hp => ?_, ?_⟩
  · rcases Finset.mem_insert.1 hp with rfl | hp
    · simpa using ha
    · have := (List.mem_filter.1 (List.mem_toFinset.1 hp)).1
      simpa using (hmem p this).1
  · have hna : a ∉ ((cfg.peers a).filter P).toFinset := by
      intro h
      exact (hmem a (List.mem_filter.1 (List.mem_toFinset.1 h)).1).2 rfl
    have hlen := hperm.length_eq
    rw [List.length_erase_of_mem ha] at hlen
    have hpos := List.length_pos_of_mem ha
    rw [Finset.card_insert_of_notMem hna, List.toFinset_card_of_nodup hnd, List.toFinset_card_of_nodup cfg.nodup]
    simp only [Self.quorumSize, ClusterConfig.self, List.countP_eq_length_filter] at hq
    omega

/-- An `APPEND_ENTRIES` of a leader is backed by its election. -/
theorem Book.backed_replicate (hb : Book cfg s) {n : RaftNode ι κ} (ht : n.currentTerm = (s.nodes a).currentTerm)
    (hs : n.state = (s.nodes a).state) {r : ι × RaftMessage ι κ} (hr : r ∈ replicateEntries (cfg.self a) n) :
    r.1 ∈ cfg.peers r.2.senderId ∧ Backed s.history r.2 := by
  obtain ⟨hl, hp, hm⟩ := mem_replicateEntries.1 hr
  obtain ⟨ℓ, hℓ⟩ := (hb.node a).leader (hs ▸ hl)
  rw [hm]
  exact ⟨hp, Or.inr ⟨rfl, ℓ, by simpa [appendRequest, ht, ClusterConfig.self] using hℓ⟩⟩

/-- The votes that a winning candidate has counted. -/
theorem Book.voted_of_wins (hb : Book cfg s) {el : Election ι} (he : (s.nodes a).election = some el)
    (hw : wins (cfg.self a) (s.nodes a) el = true) :
    ∃ Q, (QuorumSystem.majority cfg.ids.toFinset).IsQuorum Q ∧
      ∀ p ∈ Q, Voted s.history p (s.nodes a).currentTerm a := by
  have hwin : (s.nodes a).state = .candidate ∧ (cfg.self a).quorumSize ≤ el.votes (cfg.self a) := by
    simpa [wins] using hw
  obtain ⟨⟨ℓ, hst⟩, hterm, hresp⟩ := (hb.node a).running el he
  rw [hterm hwin.1] at hst
  refine ⟨_, cfg.majority_of_countP (hb.candidate a _ _ hst).1 _ hwin.2, fun p hp => ?_⟩
  rcases Finset.mem_insert.1 hp with rfl | hp
  · exact voted_iff.2 (Or.inl ⟨rfl, ℓ, hst⟩)
  · have hg : granted (el.responses p) = true := (List.mem_filter.1 (List.mem_toFinset.1 hp)).2
    cases hr : el.responses p with
    | none => simp [hr, granted] at hg
    | some resp =>
      obtain ⟨msg, hans, hsend, ht, hm⟩ := hresp p resp hr
      refine voted_iff.2 (Or.inr ⟨msg, resp, hans, hsend, ht.trans (hterm hwin.1), hm, ?_⟩)
      cases hv : resp.voteGranted with
      | none => simp [hr, granted, hv] at hg
      | some b => simpa [hr, granted, hv] using hg

/-- A node that advances, in a step that records nothing but its requests. -/
theorem Book.advances (hb : Book cfg s) (hadv : Advances (s.nodes a) n) :
    NodeBook (s.act a n net reqs []).history a n := by
  have hsub : ∀ e ∈ s.history, e ∈ (s.act a n net reqs []).history := fun _ => mem_history_act
  refine (hb.node a).advance hsub (fun e he => ?_) hadv.term ?_ (Or.inl hadv.election)
  · rcases mem_act_history.1 he with he | he | ⟨r, -, rfl⟩
    · exact Or.inl he
    · cases he
    · exact Or.inr (Or.inl (by simp [Event.owner]))
  · exact hadv.state.imp_right fun h => ⟨h.1, h.2.1, fun _ => h.2.2⟩

theorem Book.startElection (hb : Book cfg s) (ha : a ∈ cfg.ids) :
    Book cfg (s.act a (startElection (cfg.self a) (s.nodes a)) s.network
      (broadcastVote (cfg.self a) (startElection (cfg.self a) (s.nodes a)))
      [.started a ((s.nodes a).currentTerm + 1) (s.nodes a).log]) := by
  refine hb.act ((hb.node a).startElection (fun e he => ?_) ?_) (by simp [Event.owner]) (fun p hp => Or.inl hp)
    (fun r hr => ?_) (by simp) ?_ ?_ (by simp)
  · rcases mem_act_history.1 he with he | he | ⟨r, -, rfl⟩
    · exact Or.inl he
    · exact Or.inr (Or.inl (by simpa using he))
    · exact Or.inr (Or.inr rfl)
  · exact mem_act_history.2 (Or.inr (Or.inl (by simp)))
  · obtain ⟨hp, hm⟩ := mem_broadcastVote.1 hr
    rw [hm]
    exact ⟨hp, Or.inl ⟨rfl, (s.nodes a).log, mem_act_history.2 (Or.inr (Or.inl (by
      simp [voteRequest, Raft.startElection, ClusterConfig.self]))), rfl, rfl⟩⟩
  · -- all elections started so far are of earlier terms
    rintro b t ℓ ℓ' hnew (hold | hnew')
    · obtain ⟨rfl, rfl, rfl⟩ : b = a ∧ t = (s.nodes a).currentTerm + 1 ∧ ℓ = (s.nodes a).log := by simpa using hnew
      have := (hb.node b).started _ ℓ' hold
      omega
    · simp only [List.mem_singleton, Event.started.injEq] at hnew hnew'
      rw [hnew.2.2, hnew'.2.2]
  · intro b t ℓ hnew
    obtain ⟨rfl, rfl, -⟩ : b = a ∧ t = (s.nodes a).currentTerm + 1 ∧ ℓ = (s.nodes a).log := by simpa using hnew
    exact ⟨ha, Nat.succ_pos _⟩

theorem Book.won (hb : Book cfg s) {el : Election ι} (he : (s.nodes a).election = some el)
    (hw : wins (cfg.self a) (s.nodes a) el = true) :
    Book cfg (s.act a (becomeLeader (cfg.self a) { s.nodes a with election := none }) s.network []
      [.elected a (s.nodes a).currentTerm (s.nodes a).log]) := by
  refine hb.act ((hb.node a).won (fun e he => ?_) ?_) (by simp [Event.owner]) (fun p hp => Or.inl hp)
    (by simp) (by simp) (by simp) (by simp) ?_
  · rcases mem_act_history.1 he with he | he | ⟨r, hr, -⟩
    · exact Or.inl he
    · exact Or.inr (by simpa using he)
    · cases hr
  · exact mem_act_history.2 (Or.inr (Or.inl (by simp)))
  · rintro b t ℓ hel
    obtain ⟨rfl, rfl, -⟩ : b = a ∧ t = (s.nodes a).currentTerm ∧ ℓ = (s.nodes a).log := by simpa using hel
    exact hb.voted_of_wins he hw

theorem Book.answer (hb : Book cfg s) {k : Nat} {msg : RaftMessage ι κ} {resp : Reply ι}
    (hk : s.network[k]? = some (.request a msg)) (hh : Handled (cfg.self a) (s.nodes a) msg n resp) :
    Book cfg (s.act a n (s.network.eraseIdx k ++ [.reply a msg resp]) [] [.answered a msg resp]) := by
  obtain ⟨hadv, hterm⟩ := hh.advances
  refine hb.act ((hb.node a).advance (fun _ => mem_history_act) (fun e he => ?_) hadv.term
    (hadv.state.imp_right fun h => ⟨h.1, h.2.1, fun _ => h.2.2⟩) (Or.inl hadv.election)) (by simp [Event.owner])
    (fun p hp => ?_) (by simp) (fun dst' msg' resp' he => ?_) (by simp) (by simp) (by simp)
  · rcases mem_act_history.1 he with he | he | ⟨r, hr, -⟩
    · exact Or.inl he
    · exact Or.inr (Or.inr ⟨msg, resp, by simpa using he, hterm⟩)
    · cases hr
  · rcases List.mem_append.1 hp with hp | hp
    · exact Or.inl (List.mem_of_mem_eraseIdx hp)
    · exact Or.inr ⟨a, msg, resp, by simpa using hp, by simp⟩
  · obtain ⟨rfl, rfl, rfl⟩ : dst' = a ∧ msg' = msg ∧ resp' = resp := by simpa using he
    exact ⟨hb.request _ _ (List.mem_of_getElem? hk), hh.success⟩

theorem Book.step (hb : Book cfg s) {act : Action ι κ} (hl : Local cfg s act a n net reqs evs) :
    Book cfg (s.act a n net reqs evs) := by
  have hsame : Advances (s.nodes a) (s.nodes a) := ⟨le_rfl, Or.inr ⟨rfl, rfl, rfl⟩, rfl⟩
  cases hl with
  | startElection _ ha hl he => exact hb.startElection ha
  | won _ el he hw => exact hb.won he hw
  | lost _ el he hw =>
    refine hb.act_silent ?_ (fun _ hp => hp) (by simp)
    refine (hb.node a).advance (fun _ => mem_history_act) (fun e he => ?_) le_rfl (Or.inr ⟨rfl, rfl, fun _ => rfl⟩)
      (Or.inr rfl)
    simpa [Cluster.act] using Or.inl he
  | replicate =>
    exact hb.act_silent (hb.advances hsame) (fun _ hp => hp) fun r hr => hb.backed_replicate rfl rfl hr
  | propose _ command hl =>
    have hreqs : ∀ r ∈ replicateEntries (cfg.self a) (propose (s.nodes a) command),
        r.1 ∈ cfg.peers r.2.senderId ∧ Backed s.history r.2 := fun r hr =>
      hb.backed_replicate (n := propose (s.nodes a) command) rfl rfl hr
    refine hb.act_silent ?_ (fun _ hp => hp) hreqs
    refine (hb.node a).advance (fun _ => mem_history_act) (fun e he => ?_) le_rfl (Or.inr ⟨rfl, rfl, fun hc => ?_⟩)
      (Or.inl rfl)
    · rcases mem_act_history.1 he with he | he | ⟨r, -, rfl⟩
      · exact Or.inl he
      · cases he
      · exact Or.inr (Or.inl (by simp [Event.owner]))
    · rw [hl] at hc; cases hc
  | proposeReturn _ call c hc hf =>
    exact hb.act_silent (hb.advances ⟨le_rfl, Or.inr ⟨rfl, rfl, rfl⟩, rfl⟩) (fun _ hp => hp) (by simp)
  | proposeTimeout _ call c hc hf =>
    exact hb.act_silent (hb.advances ⟨le_rfl, Or.inr ⟨rfl, rfl, rfl⟩, rfl⟩) (fun _ hp => hp) (by simp)
  | request k _ msg _ resp hk hh => exact hb.answer hk hh
  | voteReply k src msg resp hk hm =>
    refine hb.act_silent ?_ (fun _ hp => List.mem_of_mem_eraseIdx hp) (by simp)
    have hans := hb.reply _ _ _ (List.mem_of_getElem? hk)
    simpa [Cluster.act] using (hb.node msg.senderId).collectVote hans hm
  | appendReply k src msg resp _ hk hm hp =>
    exact hb.act_silent (hb.advances hp.advances) (fun _ hp => List.mem_of_mem_eraseIdx hp) (by simp)
  | drop _ _ k => exact hb.act_silent (hb.advances hsame) (fun _ hp => List.mem_of_mem_eraseIdx hp) (by simp)

/-- The candidate of a vote started an election in the term of the vote. -/
theorem Book.started_of_voted (hb : Book cfg s) {p c : ι} {t : Nat} (hv : Voted s.history p t c) :
    ∃ ℓ, .started c t ℓ ∈ s.history := by
  rcases voted_iff.1 hv with ⟨rfl, ℓ, hst⟩ | ⟨msg, resp, hans, rfl, rfl, hm, -⟩
  · exact ⟨ℓ, hst⟩
  · rcases hb.backed p msg (hb.answered p msg resp hans).1 with ⟨-, ℓ, hst, -⟩ | ⟨hm', -⟩
    · exact ⟨ℓ, hst⟩
    · rw [hm] at hm'; cases hm'

/-- A leader is a node of the cluster, and leads a term that is not the initial one. -/
theorem Book.elected_candidate (hb : Book cfg s) {t : Nat} {ℓ : List (LogEntry κ)} (he : .elected a t ℓ ∈ s.history) :
    a ∈ cfg.ids ∧ 0 < t := by
  obtain ⟨Q, hQ, hv⟩ := hb.quorum a t ℓ he
  obtain ⟨p, hp⟩ := (QuorumSystem.majority cfg.ids.toFinset).nonempty hQ
  obtain ⟨ℓ', hst⟩ := hb.started_of_voted (hv p hp)
  exact hb.candidate a t ℓ' hst

/-- Every reachable cluster is in order. -/
theorem Book.of_reach {ok : Cluster ι κ → Action ι κ → Prop} (h : ReachWhile cfg ok s) : Book cfg s :=
  h.of_local Book.init fun _ _ _ _ _ _ _ _ ih _ hl => ih.step hl

end DistributedSync.Raft
