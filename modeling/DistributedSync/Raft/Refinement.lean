import DistributedSync.Library.CommitSafety
import DistributedSync.Raft.Replication

/-!
# The cluster refines the replicated log

As long as no term has two leaders, a cluster behaves like the abstract replicated log: the log of a leader is the
leader's log of its term, an `APPEND_ENTRIES` carries a prefix of it, and accepting one with entries replaces the
log of the receiver by that prefix.  Log matching follows from the abstract protocol.
-/

namespace DistributedSync.Raft

open ReplicatedLog (Inv Keeps Step Grows)

variable {ι κ : Type}

/-- The abstract state of a cluster. -/
structure Refines (s : Cluster ι κ) (A : ReplicatedLog.State ι (LogEntry κ)) : Prop where
  term : ∀ a, A.term a = (s.nodes a).currentTerm
  log : ∀ a, A.log a = (s.nodes a).log
  elected : ∀ t ℓ, A.elected t = some ℓ ↔ ∃ a, .elected a t ℓ ∈ s.history
  leader : ∀ a, (s.nodes a).state = .leader → (s.nodes a).log = A.leaderLog (s.nodes a).currentTerm ∧
    (a, (s.nodes a).currentTerm, (s.nodes a).log.length) ∈ A.acks
  sent : ∀ dst msg, .sent dst msg ∈ s.history → msg.msgType = .appendEntries →
    ∃ S, S <+: A.leaderLog msg.term ∧ Snapshot S msg
  votes : ∀ p t c, Voted s.history p t c → ∃ ℓ, .started c t ℓ ∈ s.history ∧ (p, t, ℓ) ∈ A.ballots
  acks : ∀ p msg resp, .answered p msg resp ∈ s.history → resp.success = some true →
    msg.data.entries.getD [] ≠ [] →
    (p, msg.term, msg.data.prevLogIndex.getD 0 + (msg.data.entries.getD []).length) ∈ A.acks

theorem Refines.init : Refines (Cluster.init : Cluster ι κ) .init where
  term := fun _ => rfl
  log := fun _ => rfl
  elected := by simp [Cluster.init, ReplicatedLog.State.init]
  leader := by simp [Cluster.init]
  sent := by simp [Cluster.init]
  votes := by simp [Cluster.init, Voted]
  acks := by simp [Cluster.init]

/-! ### What an accepted snapshot does to a log -/

/-- The step accepts an `APPEND_ENTRIES` whose entries are already in the log, and cuts off what follows them. -/
def Truncates (s : Cluster ι κ) (act : Action ι κ) : Prop :=
  ∃ r ∈ s.requestAt act, r.2.msgType = .appendEntries ∧ (s.nodes r.1).currentTerm ≤ r.2.term ∧
    prevMatches (s.nodes r.1).log (r.2.data.prevLogIndex.getD 0) (r.2.data.prevLogTerm.getD 0) = true ∧
    r.2.data.entries.getD [] ≠ [] ∧
    r.2.data.entries.getD [] <+: (s.nodes r.1).log.drop (r.2.data.prevLogIndex.getD 0) ∧
    (r.2.data.entries.getD []).length < ((s.nodes r.1).log.drop (r.2.data.prevLogIndex.getD 0)).length

def KeepsLog (s : Cluster ι κ) (act : Action ι κ) : Prop := ¬Truncates s act

/-- With entries, the log of the receiver becomes the snapshot; without, it goes on as the snapshot does. -/
theorem installEntries_snapshot {log S : List (LogEntry κ)} {pli : Nat}
    (hagree : log.take pli = S.take pli) :
    (S.drop pli ≠ [] → installEntries log pli (S.drop pli) = S) ∧ S <+: installEntries log pli (S.drop pli) := by
  unfold installEntries
  split
  · rename_i hnil
    have hlen : S.length ≤ pli := List.drop_eq_nil_iff.1 hnil
    refine ⟨fun h => absurd hnil h, ?_⟩
    rw [List.take_of_length_le hlen] at hagree
    exact hagree ▸ List.take_prefix pli log
  · have hS : log.take pli ++ S.drop pli = S := by rw [hagree, List.take_append_drop]
    exact ⟨fun _ => hS, by rw [hS]⟩

section

variable {s : Cluster ι κ} {act : Action ι κ}

/-- Outside the truncating steps, a snapshot with entries that is a prefix of the log is the whole log. -/
theorem KeepsLog.eq_of_isPrefix (hk : KeepsLog s act) {msg : RaftMessage ι κ} (hreq : s.requestAt act = some (a, msg))
    (hm : msg.msgType = .appendEntries) (ht : (s.nodes a).currentTerm ≤ msg.term)
    (hp : prevMatches (s.nodes a).log (msg.data.prevLogIndex.getD 0) (msg.data.prevLogTerm.getD 0) = true)
    {S : List (LogEntry κ)} {pli : Nat} (hpli : msg.data.prevLogIndex = some pli)
    (hents : msg.data.entries = some (S.drop pli)) (hne : S.drop pli ≠ []) (hpre : S <+: (s.nodes a).log) :
    S = (s.nodes a).log := by
  have hlen := hpre.length_le
  have hlt : pli < S.length := by
    by_contra hge
    exact hne (List.drop_of_length_le (by omega))
  refine hpre.eq_of_length_le ?_
  by_contra hshort
  refine hk ⟨_, hreq, hm, ht, hp, by simpa [hents] using hne, ?_, ?_⟩
  · simpa [hents, hpli] using hpre.drop pli
  · simp only [hents, hpli, Option.getD_some, List.length_drop]
    omega

end

/-- The requests are vote requests, or snapshots of the log of the leader `n`. -/
def SendsLog (n : RaftNode ι κ) (reqs : List (ι × RaftMessage ι κ)) : Prop :=
  ∀ r ∈ reqs, r.2.msgType = .voteRequest ∨ n.state = .leader ∧ r.2.term = n.currentTerm ∧ Snapshot n.log r.2

private theorem sendsLog_nil (n : RaftNode ι κ) : SendsLog n [] := fun _ hr => absurd hr List.not_mem_nil

private theorem sendsLog_replicateEntries (me : Self ι) (n : RaftNode ι κ) {reqs : List (ι × RaftMessage ι κ)}
    (hreqs : ∀ r ∈ reqs, r ∈ replicateEntries me n) : SendsLog n reqs := by
  intro r hr
  obtain ⟨hl, -, hm⟩ := mem_replicateEntries.1 (hreqs r hr)
  exact Or.inr ⟨hl, by rw [hm]; rfl, hm ▸ appendRequest_snapshot me n r.1⟩

/-! ### Logs of the cluster and of the abstract system -/

variable [DecidableEq ι]

/-- The quorums of the cluster. -/
abbrev ClusterConfig.quorums (cfg : ClusterConfig ι) : QuorumSystem ι := .majority cfg.ids.toFinset

/-- The abstract steps over the entries of a log. -/
abbrev AbsStep (cfg : ClusterConfig ι) := Step (E := LogEntry κ) LogEntry.term cfg.quorums

variable {cfg : ClusterConfig ι} {s : Cluster ι κ} {act : Action ι κ} {a : ι} {n : RaftNode ι κ}
  {net : List (Packet ι κ)} {reqs : List (ι × RaftMessage ι κ)} {evs : List (Event ι κ)}
  {A A' : ReplicatedLog.State ι (LogEntry κ)}

instance [DecidableEq κ] (s : Cluster ι κ) (act : Action ι κ) : Decidable (KeepsLog s act) := by
  unfold KeepsLog Truncates
  infer_instance

private theorem Refines.elected_zero (h : Refines s A) (hb : Book cfg s) : A.elected 0 = none := by
  cases he : A.elected 0 with
  | none => rfl
  | some ℓ =>
    obtain ⟨a, ha⟩ := (h.elected 0 ℓ).1 he
    exact absurd (hb.elected_candidate ha).2 (Nat.lt_irrefl 0)

/-- No log has an entry of term `0`. -/
theorem Refines.term_pos (h : Refines s A) (hb : Book cfg s) (hI : Inv LogEntry.term A) :
    ∀ e ∈ (s.nodes a).log, 1 ≤ e.term := by
  intro e he
  obtain ⟨i, hi⟩ := List.mem_iff_getElem?.1 he
  rw [← h.log a] at hi
  have hel : A.elected e.term ≠ none := (hI.log_origin hi).2.1
  by_contra hlt
  have hzero : e.term = 0 := by omega
  exact hel (hzero ▸ h.elected_zero hb)

/-- A snapshot that passes the consistency check starts inside the leader's log, and the log of the receiver agrees
with it up to there. -/
theorem Refines.agree (h : Refines s A) (hb : Book cfg s) (hI : Inv LogEntry.term A) {S : List (LogEntry κ)} {t : Nat}
    (hS : S <+: A.leaderLog t) {msg : RaftMessage ι κ} (hsnap : Snapshot S msg)
    (hp : prevMatches (s.nodes a).log (msg.data.prevLogIndex.getD 0) (msg.data.prevLogTerm.getD 0) = true) :
    ∃ pli, msg.data.prevLogIndex = some pli ∧ msg.data.entries = some (S.drop pli) ∧ pli ≤ S.length ∧
      (s.nodes a).log.take pli = S.take pli := by
  obtain ⟨pli, hpli, hents, hplt⟩ := hsnap
  refine ⟨pli, hpli, hents, ?_⟩
  rw [hpli, hplt] at hp
  refine LogsMatch.agree (fun i e e' he he' ht => ?_) (h.term_pos hb hI) hp
  rw [← h.log a] at he ⊢
  exact hI.log_matching_leader hS he he' ht

/-! ### Simulation -/

private theorem refines_update {β : Type} {f : ι → β} {g : RaftNode ι κ → β} (h : ∀ b, f b = g (s.nodes b)) :
    ∀ b, Function.update f a (g n) b = g ((s.act a n net reqs evs).nodes b) := by
  intro b
  by_cases hb : b = a
  · subst hb; simp
  · simp [hb, h b]

/-- What has to be checked of an abstract state that follows a step of the node `a`. -/
theorem Refines.of_act (h : Refines s A) (hg : Grows A A') (howner : ∀ e ∈ evs, e.owner = some a)
    (hreqs : SendsLog n reqs)
    (hterm : ∀ b, A'.term b = ((s.act a n net reqs evs).nodes b).currentTerm)
    (hlog : ∀ b, A'.log b = ((s.act a n net reqs evs).nodes b).log)
    (helected : ∀ t ℓ, A'.elected t = some ℓ ↔ A.elected t = some ℓ ∨ .elected a t ℓ ∈ evs)
    (hleader : n.state = .leader → n.log = A'.leaderLog n.currentTerm ∧ (a, n.currentTerm, n.log.length) ∈ A'.acks)
    (hothers : ∀ b, b ≠ a → (s.nodes b).state = .leader →
      A'.leaderLog (s.nodes b).currentTerm = A.leaderLog (s.nodes b).currentTerm)
    (hvotes : ∀ p t c, (p, t, c) ∈ evs.filterMap Event.vote →
      ∃ ℓ, .started c t ℓ ∈ (s.act a n net reqs evs).history ∧ (p, t, ℓ) ∈ A'.ballots)
    (hacks : ∀ msg resp, .answered a msg resp ∈ evs → resp.success = some true → msg.data.entries.getD [] ≠ [] →
      (a, msg.term, msg.data.prevLogIndex.getD 0 + (msg.data.entries.getD []).length) ∈ A'.acks) :
    Refines (s.act a n net reqs evs) A' := by
  refine ⟨hterm, hlog, fun t ℓ => ?_, fun b hb => ?_, fun dst msg hs hm => ?_, fun p t c hv => ?_,
    fun p msg resp he hs hne => ?_⟩
  · rw [helected, h.elected]
    constructor
    · rintro (⟨b, hb⟩ | ha)
      · exact ⟨b, mem_history_act hb⟩
      · exact ⟨a, mem_act_history.2 (Or.inr (Or.inl ha))⟩
    · rintro ⟨b, hb⟩
      rcases mem_act_history.1 hb with hold | hnew | ⟨r, -, heq⟩
      · exact Or.inl ⟨b, hold⟩
      · obtain rfl : b = a := by simpa [Event.owner] using howner _ hnew
        exact Or.inr hnew
      · cases heq
  · by_cases hba : b = a
    · subst hba
      rw [act_nodes_self] at hb ⊢
      exact hleader hb
    · rw [act_nodes_ne hba] at hb ⊢
      rw [hothers b hba hb]
      exact ⟨(h.leader b hb).1, hg.acks (h.leader b hb).2⟩
  · rcases mem_act_history.1 hs with hs | hs | ⟨r, hr, heq⟩
    · obtain ⟨S, hS, hsnap⟩ := h.sent dst msg hs hm
      exact ⟨S, hS.trans (hg.leaderLog _), hsnap⟩
    · exact absurd (howner _ hs) (by simp [Event.owner])
    · cases heq
      rcases hreqs r hr with hv | ⟨hl, ht, hsnap⟩
      · rw [hv] at hm; cases hm
      · refine ⟨n.log, ?_, hsnap⟩
        rw [ht, (hleader hl).1]
  · rcases voted_act.1 hv with hv | hv
    · obtain ⟨ℓ, hst, hb⟩ := h.votes p t c hv
      exact ⟨ℓ, mem_history_act hst, hg.ballots hb⟩
    · exact hvotes p t c hv
  · rcases mem_act_history.1 he with hold | hnew | ⟨r, -, heq⟩
    · exact hg.acks (h.acks p msg resp hold hs hne)
    · obtain rfl : p = a := by simpa [Event.owner, eq_comm] using howner _ hnew
      exact hacks msg resp hnew hs hne
    · cases heq

/-- A step that keeps the log of the node and makes no leader of it. -/
theorem Refines.advance (h : Refines s A) (hg : Grows A A') (hterm : A'.term = Function.update A.term a n.currentTerm)
    (hlog : A'.log = A.log) (helected : A'.elected = A.elected) (hleaderLog : A'.leaderLog = A.leaderLog)
    (hrole : n.state = .leader → n.currentTerm = (s.nodes a).currentTerm ∧ (s.nodes a).state = .leader)
    (hn : n.log = (s.nodes a).log) (howner : ∀ e ∈ evs, e.owner = some a)
    (hreqs : SendsLog n reqs)
    (hel : ∀ t ℓ, .elected a t ℓ ∉ evs)
    (hvotes : ∀ p t c, (p, t, c) ∈ evs.filterMap Event.vote →
      ∃ ℓ, .started c t ℓ ∈ (s.act a n net reqs evs).history ∧ (p, t, ℓ) ∈ A'.ballots)
    (hacks : ∀ msg resp, .answered a msg resp ∈ evs → resp.success = some true → msg.data.entries.getD [] ≠ [] →
      (a, msg.term, msg.data.prevLogIndex.getD 0 + (msg.data.entries.getD []).length) ∈ A'.acks) :
    Refines (s.act a n net reqs evs) A' := by
  have hterm' : ∀ b, A'.term b = ((s.act a n net reqs evs).nodes b).currentTerm := by
    rw [hterm]
    exact refines_update (g := RaftNode.currentTerm) h.term
  have hlog' : ∀ b, A'.log b = ((s.act a n net reqs evs).nodes b).log := by
    intro b
    by_cases hb : b = a
    · subst hb; rw [hlog, h.log, act_nodes_self, hn]
    · rw [hlog, h.log, act_nodes_ne hb]
  refine h.of_act hg howner hreqs hterm' hlog' (fun t ℓ => ?_) (fun hl => ?_) (fun b _ _ => by rw [hleaderLog])
    hvotes hacks
  · rw [helected]
    simp [hel t ℓ]
  · obtain ⟨ht, hs⟩ := hrole hl
    rw [hn, ht, hleaderLog]
    exact ⟨(h.leader a hs).1, hg.acks (h.leader a hs).2⟩

section Simulation

variable {okT : ReplicatedLog.State ι (LogEntry κ) → ReplicatedLog.Action ι (LogEntry κ) → Prop}

/-- A vote, of the node for itself or for another candidate. -/
theorem Refines.vote (h : Refines s A) (hI : Inv LogEntry.term A) {e : Event ι κ} {c : ι} {t : Nat}
    {ℓ : List (LogEntry κ)} (hev : e.vote = some (a, t, c)) (he : ∀ t ℓ, e ≠ .elected a t ℓ)
    (hack : ∀ msg resp, e = .answered a msg resp → resp.success ≠ some true) (howner : e.owner = some a)
    (hst : .started c t ℓ ∈ (s.act a n net reqs [e]).history) (hℓ : ∃ t₀ < t, ℓ <+: A.leaderLog t₀)
    (hup : ReplicatedLog.NotOlder LogEntry.term ℓ (s.nodes a).log) (ht : (s.nodes a).currentTerm ≤ t)
    (hterm : n.currentTerm = t) (hlog : n.log = (s.nodes a).log)
    (hrole : n.state = .leader → n.currentTerm = (s.nodes a).currentTerm ∧ (s.nodes a).state = .leader)
    (hreqs : SendsLog n reqs) (hok : okT A (.vote a t ℓ)) :
    ∃ A', Transition.ReachWhile (AbsStep cfg) okT A A' ∧ Refines (s.act a n net reqs [e]) A' := by
  have hs : AbsStep cfg A (.vote a t ℓ)
      { A with term := Function.update A.term a t, ballots := insert (a, t, ℓ) A.ballots } :=
    .vote a t ℓ (by rw [h.term]; exact ht) hℓ (by rw [h.log]; exact hup)
  refine ⟨_, .tail .refl hok hs, h.advance (hs.grows hI.unelected) (by rw [hterm]) rfl rfl rfl hrole hlog
    (by simpa using howner) hreqs (by simpa [eq_comm] using he) (fun p u c' hv => ?_) (fun msg resp hmem hsucc => ?_)⟩
  · obtain ⟨rfl, rfl, rfl⟩ : p = a ∧ u = t ∧ c' = c := by simpa [hev, eq_comm] using hv
    exact ⟨ℓ, hst, Set.mem_insert _ _⟩
  · exact absurd hsucc (hack msg resp (by simpa using (List.mem_singleton.1 hmem).symm))

private theorem Refines.step_started (h : Refines s A) (hI : Inv LogEntry.term A)
    (hn : n = startElection (cfg.self a) (s.nodes a)) (hok : ∀ B x, Keeps B x → okT B x) :
    ∃ A', Transition.ReachWhile (AbsStep cfg) okT A A' ∧
      Refines (s.act a n net (broadcastVote (cfg.self a) n) [.started a n.currentTerm n.log]) A' := by
  obtain ⟨t₀, ht₀, hpre⟩ := hI.log a
  rw [h.log] at hpre
  rw [h.term] at ht₀
  have hterm : n.currentTerm = (s.nodes a).currentTerm + 1 := by rw [hn]; rfl
  have hlog : n.log = (s.nodes a).log := by rw [hn]; rfl
  have hstate : n.state = .candidate := by rw [hn]; rfl
  refine h.vote hI rfl (by simp) (by simp) rfl (mem_act_history.2 (Or.inr (Or.inl (by simp))))
    ⟨t₀, by omega, hlog ▸ hpre⟩ (hlog ▸ Or.inr ⟨rfl, le_rfl⟩) (by omega) rfl hlog (fun hl => ?_) (fun r hr => ?_)
    (hok _ _ trivial)
  · rw [hstate] at hl; cases hl
  · exact Or.inl (by rw [(mem_broadcastVote.1 hr).2]; rfl)

private theorem Refines.step_voted (h : Refines s A) (hb : Book cfg s) (hI : Inv LogEntry.term A)
    {msg : RaftMessage ι κ} {resp : Reply ι} (hk : .request a msg ∈ s.network) (hm : msg.msgType = .voteRequest)
    (hv : (Event.answered a msg resp).vote = some (a, msg.term, msg.senderId))
    (ht : (s.nodes a).currentTerm ≤ msg.term) (hup : upToDate msg.data (s.nodes a).log = true)
    (hterm : n.currentTerm = msg.term) (hlog : n.log = (s.nodes a).log) (hstays : Stays (s.nodes a) n)
    (hs : resp.success ≠ some true) (hok : ∀ B x, Keeps B x → okT B x) :
    ∃ A', Transition.ReachWhile (AbsStep cfg) okT A A' ∧ Refines (s.act a n net [] [.answered a msg resp]) A' := by
  rcases hb.backed a msg (hb.request a msg hk) with ⟨-, ℓ, hst, hidx, htm⟩ | ⟨hm', -⟩
  · -- the log that the candidate started with is the one it has supported itself
    obtain ⟨ℓ', hst', hball⟩ := h.votes _ _ _ (voted_iff.2 (Or.inl ⟨rfl, ℓ, hst⟩))
    obtain rfl := hb.startedOnce _ _ _ _ hst hst'
    obtain ⟨-, t₀, ht₀, hpre⟩ := hI.ballot _ _ _ hball
    have hnotOlder : lastTerm (s.nodes a).log < lastTerm ℓ ∨
        (lastTerm ℓ = lastTerm (s.nodes a).log ∧ (s.nodes a).log.length ≤ ℓ.length) := by
      simpa [upToDate, hidx, htm] using hup
    refine h.vote hI hv (by simp) (fun _ r heq => ?_) rfl (mem_history_act hst) ⟨t₀, ht₀, hpre⟩ hnotOlder ht
      hterm hlog (fun hl => ?_) (sendsLog_nil n) (hok _ _ trivial)
    · cases heq; exact hs
    · rcases hstays.2 with hf | hsame
      · rw [hf] at hl; cases hl
      · exact ⟨hsame.1, hsame.2 ▸ hl⟩
  · rw [hm] at hm'; cases hm'

private theorem Refines.step_won (h : Refines s A) (hb : Book cfg s) (hI : Inv LogEntry.term A)
    (hone : OneLeader (s.act a n net [] [.elected a (s.nodes a).currentTerm (s.nodes a).log])) {el : Election ι}
    (he : (s.nodes a).election = some el) (hw : wins (cfg.self a) (s.nodes a) el = true)
    (hn : n = becomeLeader (cfg.self a) { s.nodes a with election := none }) (hok : ∀ B x, Keeps B x → okT B x) :
    ∃ A', Transition.ReachWhile (AbsStep cfg) okT A A' ∧
      Refines (s.act a n net [] [.elected a (s.nodes a).currentTerm (s.nodes a).log]) A' := by
  set t := (s.nodes a).currentTerm with ht
  set ℓ := (s.nodes a).log with hℓ
  have hcand : (s.nodes a).state = .candidate := by
    have := hw
    simp only [wins, decide_eq_true_eq] at this
    exact this.1
  -- the term has not been won before
  have hnew : A.elected t = none := by
    cases hel : A.elected t with
    | none => rfl
    | some ℓ' =>
      obtain ⟨b, hb'⟩ := (h.elected t ℓ').1 hel
      have hab := hone a b t ℓ ℓ' (mem_act_history.2 (Or.inr (Or.inl (by simp))))
        (mem_history_act hb')
      subst hab
      exact absurd (((hb.node a).elected t ℓ' hb').2 hcand) (Nat.lt_irrefl _)
  obtain ⟨Q, hQ, hvotes⟩ := hb.voted_of_wins he hw
  have hballots : ∀ p ∈ Q, (p, t, ℓ) ∈ A.ballots := by
    intro p hp
    obtain ⟨ℓ', hst, hball⟩ := h.votes p t a (hvotes p hp)
    rwa [← hb.startedOnce a t ℓ' ℓ hst ((hb.node a).candidate hcand)]
  -- the leader takes over its own log
  have hs₁ : AbsStep cfg A (.elect t ℓ) _ := .elect t ℓ Q hnew hQ hballots
  set A₁ : ReplicatedLog.State ι (LogEntry κ) := { A with
    elected := Function.update A.elected t (some ℓ), leaderLog := Function.update A.leaderLog t ℓ } with hA₁
  have hs₂ : AbsStep cfg A₁ (.accept a t ℓ) _ :=
    .accept a t ℓ (by simp [hA₁]) (by simp [hA₁, h.term, ht]) (by simp [hA₁])
  have hg₁ := hs₁.grows hI.unelected
  have hg := hg₁.trans (hs₂.grows (hI.step hs₁).unelected)
  have hkeep : Keeps A₁ (.accept a t ℓ) := fun _ => (h.log a).symm
  refine ⟨_, .tail (.tail .refl (hok A (.elect t ℓ) trivial) hs₁) (hok A₁ (.accept a t ℓ) hkeep) hs₂,
    h.of_act hg (by simp [Event.owner]) (sendsLog_nil n) (fun b => ?_) (fun b => ?_) (fun u ℓ' => ?_)
      (fun _ => ?_) (fun b hba hl => ?_) (by simp [Event.vote]) (by simp)⟩
  · have hterm : n.currentTerm = t := by rw [hn]; rfl
    exact hterm ▸ refines_update (g := RaftNode.currentTerm) h.term b
  · have hlog : n.log = ℓ := by rw [hn]; rfl
    exact hlog ▸ refines_update (g := RaftNode.log) h.log b
  · by_cases hu : u = t
    · subst hu
      simp [hA₁, hnew, eq_comm]
    · simp [hA₁, hu]
  · rw [hn]
    simp [hA₁, becomeLeader, ← ht, ← hℓ]
  · -- another leader leads another term
    have hne : (s.nodes b).currentTerm ≠ t := by
      intro heq
      obtain ⟨ℓ', hb'⟩ := (hb.node b).leader hl
      have := (h.elected t ℓ').2 ⟨b, heq ▸ hb'⟩
      rw [hnew] at this
      cases this
    simp [hA₁, hne]

private theorem Refines.step_proposed (h : Refines s A) (hb : Book cfg s) (hI : Inv LogEntry.term A)
    (hone : OneLeader s) {command : κ} (hl : (s.nodes a).state = .leader) (hn : n = propose (s.nodes a) command)
    (hok : ∀ B x, Keeps B x → okT B x) : ∃ A', Transition.ReachWhile (AbsStep cfg) okT A A' ∧
      Refines (s.act a n net (replicateEntries (cfg.self a) n) []) A' := by
  set t := (s.nodes a).currentTerm with ht
  obtain ⟨hlog, hack⟩ := h.leader a hl
  obtain ⟨ℓ, helected⟩ := (hb.node a).leader hl
  have hel : A.elected t ≠ none := by
    rw [(h.elected t ℓ).2 ⟨a, helected⟩]
    simp
  have hterm : n.currentTerm = t := by rw [hn]; rfl
  have hnlog : n.log = A.leaderLog t ++ [newEntry (s.nodes a) command] := by rw [hn, ← hlog]; rfl
  have hs₁ : AbsStep cfg A (.extend t (newEntry (s.nodes a) command)) _ := .extend t _ hel rfl
  set A₁ : ReplicatedLog.State ι (LogEntry κ) := { A with
    leaderLog := Function.update A.leaderLog t (A.leaderLog t ++ [newEntry (s.nodes a) command]) } with hA₁
  have hs₂ : AbsStep cfg A₁ (.accept a t n.log) _ :=
    .accept a t n.log hel (by simp [hA₁, h.term, ht]) (by simp [hA₁, hnlog])
  have hg := (hs₁.grows hI.unelected).trans (hs₂.grows (hI.step hs₁).unelected)
  have hkeep : Keeps A₁ (.accept a t n.log) := by
    intro hpre
    have hle : n.log.length ≤ (s.nodes a).log.length := (h.log a) ▸ hpre.length_le
    rw [hnlog, ← hlog, List.length_append, List.length_singleton] at hle
    omega
  refine ⟨_, .tail (.tail .refl (hok A (.extend t (newEntry (s.nodes a) command)) trivial) hs₁)
      (hok A₁ (.accept a t n.log) hkeep) hs₂,
    h.of_act hg (by simp) (sendsLog_replicateEntries (cfg.self a) n fun r hr => hr) (fun b => ?_) (fun b => ?_)
      (fun u ℓ' => ?_) (fun _ => ?_)
      (fun b hba hlb => ?_) (by simp) (by simp)⟩
  · exact hterm ▸ refines_update (g := RaftNode.currentTerm) h.term b
  · exact refines_update (g := RaftNode.log) h.log b
  · simp [hA₁]
  · simp [hA₁, hterm, hnlog]
  · -- another leader leads another term
    have hne : (s.nodes b).currentTerm ≠ t := by
      intro heq
      obtain ⟨ℓ', hb'⟩ := (hb.node b).leader hlb
      exact hba (hone b a t ℓ' ℓ (heq ▸ hb') helected)
    simp [hA₁, hne]

private theorem Refines.step_accepted (h : Refines s A) (hb : Book cfg s) (hI : Inv LogEntry.term A)
    {msg : RaftMessage ι κ} {resp : Reply ι} (hk : .request a msg ∈ s.network) (hreq : s.requestAt act = some (a, msg))
    (hm : msg.msgType = .appendEntries) (ht : (s.nodes a).currentTerm ≤ msg.term)
    (hp : prevMatches (s.nodes a).log (msg.data.prevLogIndex.getD 0) (msg.data.prevLogTerm.getD 0) = true)
    (hn : n = (acceptEntries (follow (s.nodes a) msg.senderId msg.term) msg.data).state)
    (hok : ∀ B x, (KeepsLog s act → Keeps B x) → okT B x) :
    ∃ A', Transition.ReachWhile (AbsStep cfg) okT A A' ∧ Refines (s.act a n net [] [.answered a msg resp]) A' := by
  have hsent := hb.request a msg hk
  obtain ⟨S, hS, hsnap⟩ := h.sent a msg hsent hm
  obtain ⟨pli, hpli, hents, hle, hagree⟩ := h.agree hb hI hS hsnap hp
  obtain ⟨ci, la, ap, pr, cs, hf, -⟩ := acceptEntries_spec (follow (s.nodes a) msg.senderId msg.term) msg.data
  simp only [hpli, hents, Option.getD_some] at hf
  rw [hf] at hn
  have hterm : n.currentTerm = msg.term := by rw [hn]; rfl
  have hlog : n.log = installEntries (s.nodes a).log pli (S.drop pli) := by rw [hn]; rfl
  have hstate : n.state = .follower := by rw [hn]; rfl
  have hvote : (Event.answered a msg resp).vote = none := by simp [Event.vote, hm]
  by_cases hne : S.drop pli = []
  · -- a heartbeat
    have hs : AbsStep cfg A (.advance a msg.term) _ := .advance a msg.term (by rw [h.term]; exact ht)
    refine ⟨_, .tail .refl (hok A (.advance a msg.term) fun _ => trivial) hs, h.advance (hs.grows hI.unelected)
      (by rw [hterm]) rfl rfl rfl (by simp [hstate]) (by rw [hlog, hne]; rfl) (by simp [Event.owner])
      (sendsLog_nil n) (by simp) (by simp [hvote]) (fun msg' resp' hmem _ hents' => ?_)⟩
    obtain ⟨rfl, rfl⟩ : msg' = msg ∧ resp' = resp := by simpa using hmem
    exact absurd (by rw [hents, Option.getD_some, hne]) hents'
  · -- the log becomes the snapshot
    have hinst : n.log = S := by rw [hlog, (installEntries_snapshot hagree).1 hne]
    have hel : A.elected msg.term ≠ none := by
      rcases hb.backed a msg hsent with ⟨hm', -⟩ | ⟨-, ℓ, hℓ⟩
      · rw [hm] at hm'; cases hm'
      · rw [(h.elected _ ℓ).2 ⟨_, hℓ⟩]
        simp
    have hs : AbsStep cfg A (.accept a msg.term S) _ := .accept a msg.term S hel (by rw [h.term]; exact ht) hS
    have hkeep : KeepsLog s act → Keeps A (.accept a msg.term S) := by
      intro hk hpre
      rw [h.log] at hpre ⊢
      exact hk.eq_of_isPrefix hreq hm ht hp hpli hents hne hpre
    refine ⟨_, .tail .refl (hok A (.accept a msg.term S) hkeep) hs, h.of_act (hs.grows hI.unelected)
      (by simp [Event.owner]) (sendsLog_nil n) (fun b => ?_) (fun b => ?_) (by simp) (by simp [hstate])
      (fun _ _ _ => rfl) (by simp [hvote]) (fun msg' resp' hmem _ _ => ?_)⟩
    · exact hterm ▸ refines_update (g := RaftNode.currentTerm) h.term b
    · exact hinst ▸ refines_update (g := RaftNode.log) h.log b
    · obtain ⟨rfl, rfl⟩ : msg' = msg ∧ resp' = resp := by simpa using hmem
      left
      simp only [hpli, hents, Option.getD_some, List.length_drop]
      rw [Nat.add_sub_cancel' hle]

private theorem Refines.step_quiet (h : Refines s A) (hI : Inv LogEntry.term A) (hstays : Stays (s.nodes a) n)
    (hlog : n.log = (s.nodes a).log) (hreqs : ∀ r ∈ reqs, r ∈ replicateEntries (cfg.self a) n)
    (hevs : ∀ e ∈ evs, ∃ msg resp, e = .answered a msg resp ∧ e.vote = none ∧ resp.success ≠ some true)
    (hok : ∀ B x, Keeps B x → okT B x) :
    ∃ A', Transition.ReachWhile (AbsStep cfg) okT A A' ∧ Refines (s.act a n net reqs evs) A' := by
  have hs : AbsStep cfg A (.advance a n.currentTerm) _ := .advance a n.currentTerm (by rw [h.term]; exact hstays.1)
  refine ⟨_, .tail .refl (hok A (.advance a n.currentTerm) trivial) hs,
    h.advance (hs.grows hI.unelected) rfl rfl rfl rfl (fun hl => ?_) hlog (fun e he => ?_)
      (sendsLog_replicateEntries (cfg.self a) n hreqs) (fun t ℓ he => ?_) (fun p t c hv => ?_)
      (fun msg resp he hsucc => ?_)⟩
  · rcases hstays.2 with hf | hsame
    · rw [hf] at hl; cases hl
    · exact ⟨hsame.1, hsame.2 ▸ hl⟩
  · obtain ⟨msg, resp, rfl, -⟩ := hevs e he
    rfl
  · obtain ⟨msg, resp, heq, -⟩ := hevs _ he
    cases heq
  · obtain ⟨e, he, hvote⟩ := List.mem_filterMap.1 hv
    obtain ⟨-, -, -, hnone, -⟩ := hevs e he
    rw [hnone] at hvote
    cases hvote
  · obtain ⟨_, _, heq, -, hns⟩ := hevs _ he
    cases heq
    exact absurd hsucc hns

/-- One step of the cluster is matched by abstract steps; they keep logs if the step does. -/
theorem Refines.step (h : Refines s A) (hb : Book cfg s) (hI : Inv LogEntry.term A)
    (heff : Effect cfg s act a n reqs evs) (hone : OneLeader (s.act a n net reqs evs))
    (hok : ∀ B x, (KeepsLog s act → Keeps B x) → okT B x) :
    ∃ A', Transition.ReachWhile (AbsStep cfg) okT A A' ∧ Refines (s.act a n net reqs evs) A' := by
  have hok' : ∀ B x, Keeps B x → okT B x := fun B x hx => hok B x fun _ => hx
  cases heff with
  | started hn => exact h.step_started hI hn hok'
  | won el he hw hn => exact h.step_won hb hI hone he hw hn hok'
  | proposed command hl hn => exact h.step_proposed hb hI hone.of_act hl hn hok'
  | voted msg resp hk hm ht hup hterm hlog hstays hv hs =>
    exact h.step_voted hb hI hk hm hv ht hup hterm hlog hstays hs hok'
  | accepted msg resp hk hreq hm ht hp hn => exact h.step_accepted hb hI hk hreq hm ht hp hn hok
  | quiet _ _ hstays hlog hreqs hevs => exact h.step_quiet hI hstays hlog hreqs hevs hok'

end Simulation

/-- Every cluster reached without two leaders in one term refines a state of the abstract protocol. -/
theorem Refines.of_reach (h : Reach cfg s) (hone : OneLeader s) :
    ∃ A, Transition.Reach (AbsStep cfg) .init A ∧ Refines s A := by
  revert hone
  refine ReachWhile.of_local (I := fun r => OneLeader r → ∃ A, Transition.Reach (AbsStep cfg) .init A ∧ Refines r A)
    (fun _ => ⟨_, .refl, Refines.init⟩) (fun s act a n net reqs evs hr ih _ hl hone => ?_) h
  obtain ⟨A, hA, hR⟩ := ih hone.of_act
  obtain ⟨A', hA', hR'⟩ := hR.step (Book.of_reach hr) (Inv.of_reach hA) hl.effect hone fun _ _ _ => trivial
  exact ⟨A', hA.trans hA', hR'⟩

/-- Log matching: without two leaders in one term, logs that hold an entry of the same term at the same position are
the same up to this position, and the index of every entry is its position. -/
theorem log_matching (cfg : ClusterConfig ι) {s : Cluster ι κ} (h : Reach cfg s) (hone : OneLeader s) :
    (∀ a i e, (s.nodes a).log[i]? = some e → e.index = i + 1) ∧
    ∀ a b i e e', (s.nodes a).log[i]? = some e → (s.nodes b).log[i]? = some e' → e.term = e'.term →
      (s.nodes a).log.take (i + 1) = (s.nodes b).log.take (i + 1) := by
  obtain ⟨A, hA, hR⟩ := Refines.of_reach h hone
  refine ⟨(IndexBook.of_reach h).log, fun a b i e e' he he' ht => ?_⟩
  rw [← hR.log] at he he' ⊢
  rw [← hR.log b]
  exact (Inv.of_reach hA).logs_agree he he' ht

/-- Node `0` leads and replicates one entry to node `1`. -/
theorem log_matching_run : ∃ s : Cluster (Fin 3) Nat, Transition.run (step trio) Cluster.init
      [.startElection 0, .deliver 0, .deliver 1, .countVotes 0, .propose 0 7, .deliver 1] = some s ∧
    (s.nodes 0).log = [⟨1, 1, 7⟩] ∧ (s.nodes 1).log = [⟨1, 1, 7⟩] ∧
    (s.nodes 0).log.take 1 = (s.nodes 1).log.take 1 := by
  have hrun : ((Transition.run (step trio) (Cluster.init : Cluster (Fin 3) Nat)
      [.startElection 0, .deliver 0, .deliver 1, .countVotes 0, .propose 0 7, .deliver 1]).map fun s =>
        (decide (OneLeader s), (s.nodes 0).log, (s.nodes 1).log)) = some (true, [⟨1, 1, 7⟩], [⟨1, 1, 7⟩]) := by decide
  obtain ⟨s, hs, hobs⟩ := Option.map_eq_some_iff.1 hrun
  simp only [Prod.mk.injEq, decide_eq_true_eq] at hobs
  obtain ⟨hone, h0, h1⟩ := hobs
  have hmatch := (log_matching trio (Transition.reach_of_run hs) hone).2 0 1 0 ⟨1, 1, 7⟩ ⟨1, 1, 7⟩
  exact ⟨s, hs, h0, h1, hmatch (by rw [h0]; rfl) (by rw [h1]; rfl) rfl⟩

end DistributedSync.Raft
