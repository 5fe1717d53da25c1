import DistributedSync.Raft.Acknowledgement

/-!
# Append responses in any order

The tasks that send to a peer run at the same time, so the responses reach `_process_ae_resp` in any order.  A success
with entries assigns the index where they end to `match_index`, whatever is there already.  So the order does not
matter just if the responses of each peer end at the same index, and none of them below the current `match_index`
(`append_responses_commute_iff`).
-/

namespace DistributedSync.Raft

/-- The response of `peer` to a request, as `_send_ae` hands it to `_process_ae_resp`. -/
structure Response (ι κ : Type) where
  peer : ι
  request : RaftMessage ι κ
  reply : Reply ι

variable {ι κ : Type}

/-- The index where the entries of the request end, `none` when it has no entries. -/
def Response.stop (r : Response ι κ) : Option Nat :=
  match r.request.data.entries.getD [] with
  | [] => none
  | e :: es => some (r.request.data.prevLogIndex.getD 0 + (e :: es).length)

/-- A success in no later term, to a request that says where its entries start. -/
def Response.Confirms (s : RaftNode ι κ) (r : Response ι κ) : Prop :=
  r.reply.success = some true ∧ r.reply.term.getD 0 ≤ s.currentTerm ∧ r.request.data.prevLogIndex.isSome = true

instance (s : RaftNode ι κ) (r : Response ι κ) : Decidable (r.Confirms s) := by
  unfold Response.Confirms
  infer_instance

/-- The responses in flight. -/
def Packet.response : Packet ι κ → Option (Response ι κ)
  | .request _ _ => none
  | .reply src msg resp => some ⟨src, msg, resp⟩

/-- `match_index` does not decrease from `n` to `n'`. -/
def MatchLe (n n' : RaftNode ι κ) : Prop := ∀ p, (n.matchIndex p).getD 0 ≤ (n'.matchIndex p).getD 0

/-- The responses of a peer end at the same index, and not below its `match_index`. -/
def SameStop (s : RaftNode ι κ) (rs : List (Response ι κ)) : Prop :=
  ∀ x ∈ rs, ∀ m ∈ x.stop, (s.matchIndex x.peer).getD 0 ≤ m ∧ ∀ y ∈ rs, y.peer = x.peer → ∀ m' ∈ y.stop, m' = m

/-! ### Nodes after some responses -/

variable {me : Self ι} {s t : RaftNode ι κ} {r : Response ι κ} {rs pre : List (Response ι κ)}

/-- What the responses leave of the node `s`: each peer has the index of one of its responses, if there is any with
entries. -/
structure After (s : RaftNode ι κ) (rs : List (Response ι κ)) (t : RaftNode ι κ) : Prop where
  state : t.state = s.state
  term : t.currentTerm = s.currentTerm
  log : t.log = s.log
  indices : ∀ p, (∃ r ∈ rs, r.peer = p ∧ ∃ m, r.stop = some m ∧ t.matchIndex p = some m ∧
      t.nextIndex p = some (m + 1)) ∨
    ((∀ r ∈ rs, r.peer = p → r.stop = none) ∧ t.matchIndex p = s.matchIndex p ∧ t.nextIndex p = s.nextIndex p)

/-- The commit index after the responses is the old one or can be committed, and nothing above it can, once there has
been a response. -/
structure Committed (me : Self ι) (s : RaftNode ι κ) (rs : List (Response ι κ)) (t : RaftNode ι κ) : Prop where
  source : t.commitIndex = s.commitIndex ∨ s.commitIndex < t.commitIndex ∧ CanCommit me t t.commitIndex
  greatest : rs ≠ [] → ∀ n, 0 < n → CanCommit me t n → n ≤ t.commitIndex

theorem After.tryAdvanceCommit (h : After s rs t) (me : Self ι) : After s rs (tryAdvanceCommit me t).state := by
  obtain ⟨ci, la, ap, pr, cs, hf, -⟩ := tryAdvanceCommit_spec me t
  rw [hf]
  exact ⟨h.state, h.term, h.log, h.indices⟩

theorem Response.Confirms.after (h : r.Confirms s) (ht : After s rs t) : r.Confirms t := by
  obtain ⟨hs, hterm, hp⟩ := h
  exact ⟨hs, ht.term ▸ hterm, hp⟩

theorem SameStop.perm (h : SameStop s rs) {rs' : List (Response ι κ)} (hp : rs'.Perm rs) : SameStop s rs' := by
  intro x hx m hm
  obtain ⟨hle, hsame⟩ := h x (hp.mem_iff.1 hx) m hm
  exact ⟨hle, fun y hy => hsame y (hp.mem_iff.1 hy)⟩

theorem MatchLe.canCommit (h : MatchLe s t) (hlog : s.log = t.log) (hterm : s.currentTerm = t.currentTerm) {n : Nat}
    (hc : CanCommit me s n) : CanCommit me t n :=
  hc.mono hlog hterm h

private theorem matchLe_tryAdvanceCommit (me : Self ι) (n : RaftNode ι κ) : MatchLe n (tryAdvanceCommit me n).state ∧
    MatchLe (tryAdvanceCommit me n).state n := by
  obtain ⟨ci, la, ap, pr, cs, hf, -⟩ := tryAdvanceCommit_spec me n
  rw [hf]
  exact ⟨fun p => le_rfl, fun p => le_rfl⟩

/-- Higher match indices give no lower commit index. -/
theorem Committed.le {t' : RaftNode ι κ} {rs' : List (Response ι κ)} (h : Committed me s rs t)
    (h' : Committed me s rs' t') (hne : rs' ≠ []) (hle : MatchLe t t') (hlog : t.log = t'.log)
    (hterm : t.currentTerm = t'.currentTerm) : t.commitIndex ≤ t'.commitIndex := by
  rcases h.source with heq | ⟨hlt, hcan⟩
  · rw [heq]
    rcases h'.source with heq' | ⟨hlt', -⟩
    · exact heq'.ge
    · exact hlt'.le
  · exact h'.greatest hne _ (by omega) (hle.canCommit hlog hterm hcan)

private theorem After.same_indices {rs' : List (Response ι κ)} {t' : RaftNode ι κ} (h : SameStop s rs)
    (ht : After s rs t) (ht' : After s rs' t') (hp : rs'.Perm rs) :
    t.matchIndex = t'.matchIndex ∧ t.nextIndex = t'.nextIndex := by
  have hpoint : ∀ p, t.matchIndex p = t'.matchIndex p ∧ t.nextIndex p = t'.nextIndex p := by
    intro p
    rcases ht.indices p with ⟨r, hr, hpr, m, hm, hmatch, hnext⟩ | ⟨hnone, hmatch, hnext⟩
    · rcases ht'.indices p with ⟨r', hr', hpr', m', hm', hmatch', hnext'⟩ | ⟨hnone', -⟩
      · have hmm : m' = m := (h r hr m hm).2 r' (hp.mem_iff.1 hr') (hpr'.trans hpr.symm) m' hm'
        rw [hmatch, hnext, hmatch', hnext', hmm]
        exact ⟨rfl, rfl⟩
      · rw [hnone' r (hp.mem_iff.2 hr) hpr] at hm
        cases hm
    · rcases ht'.indices p with ⟨r', hr', hpr', m', hm', -⟩ | ⟨-, hmatch', hnext'⟩
      · rw [hnone r' (hp.mem_iff.1 hr') hpr'] at hm'
        cases hm'
      · rw [hmatch, hnext, hmatch', hnext']
        exact ⟨rfl, rfl⟩
  exact ⟨funext fun p => (hpoint p).1, funext fun p => (hpoint p).2⟩

variable [DecidableEq ι]

structure SameIndices (n n' : RaftNode ι κ) : Prop where
  matchIndex : n.matchIndex = n'.matchIndex
  nextIndex : n.nextIndex = n'.nextIndex
  commitIndex : n.commitIndex = n'.commitIndex

instance (s : RaftNode ι κ) (rs : List (Response ι κ)) : Decidable (SameStop s rs) := by
  unfold SameStop
  infer_instance

/-- The responses are processed one after the other. -/
def processAll (me : Self ι) (s : RaftNode ι κ) (rs : List (Response ι κ)) : RaftNode ι κ :=
  rs.foldl (fun s r => (processAeResp me s r.peer r.request r.reply).state) s

/-- None of the responses decreases `match_index`. -/
def MatchGrows (me : Self ι) (s : RaftNode ι κ) (rs : List (Response ι κ)) : Prop :=
  ∀ pre r, pre ++ [r] <+: rs → MatchLe (processAll me s pre) (processAll me s (pre ++ [r]))

/-! ### One response -/

/-- The node with what the response says about its peer. -/
def Response.record (s : RaftNode ι κ) (r : Response ι κ) : RaftNode ι κ :=
  match r.stop with
  | none => s
  | some m => recordMatch s r.peer m

private theorem processAeResp_confirms (h : r.Confirms s) :
    processAeResp me s r.peer r.request r.reply = tryAdvanceCommit me (r.record s) := by
  obtain ⟨hs, ht, hp⟩ := h
  obtain ⟨pli, hpli⟩ := Option.isSome_iff_exists.1 hp
  have hterm : ¬s.currentTerm < r.reply.term.getD 0 := by omega
  unfold processAeResp Response.record Response.stop
  rw [if_neg hterm, hs, hpli]
  cases r.request.data.entries.getD [] with
  | nil => rfl
  | cons e es => rfl

private theorem processAll_concat (me : Self ι) (s : RaftNode ι κ) (pre : List (Response ι κ)) (r : Response ι κ) :
    processAll me s (pre ++ [r]) = (processAeResp me (processAll me s pre) r.peer r.request r.reply).state := by
  simp [processAll]

theorem After.record (h : After s pre t) (r : Response ι κ) : After s (pre ++ [r]) (r.record t) := by
  unfold Response.record
  cases hr : r.stop with
  | none =>
    refine ⟨h.state, h.term, h.log, fun p => ?_⟩
    rcases h.indices p with ⟨r', hr', hp, hm⟩ | ⟨hnone, hsame⟩
    · exact Or.inl ⟨r', by simp [hr'], hp, hm⟩
    · refine Or.inr ⟨fun r' hr' hp => ?_, hsame⟩
      rcases List.mem_append.1 hr' with hr' | hr'
      · exact hnone r' hr' hp
      · rw [List.mem_singleton.1 hr', hr]
  | some m =>
    refine ⟨h.state, h.term, h.log, fun p => ?_⟩
    by_cases hp : p = r.peer
    · -- the peer of the response
      exact Or.inl ⟨r, by simp, hp.symm, m, hr, by simp [recordMatch, hp], by simp [recordMatch, hp]⟩
    · have hmatch : (recordMatch t r.peer m).matchIndex p = t.matchIndex p := by simp [recordMatch, hp]
      have hnext : (recordMatch t r.peer m).nextIndex p = t.nextIndex p := by simp [recordMatch, hp]
      rw [hmatch, hnext]
      rcases h.indices p with ⟨r', hr', hp', hm⟩ | ⟨hnone, hsame⟩
      · exact Or.inl ⟨r', by simp [hr'], hp', hm⟩
      · refine Or.inr ⟨fun r' hr' hp' => ?_, hsame⟩
        rcases List.mem_append.1 hr' with hr' | hr'
        · exact hnone r' hr' hp'
        · rw [List.mem_singleton.1 hr'] at hp'
          exact absurd hp'.symm hp

/-- The responses all confirmed, in any order. -/
theorem processAll_after (me : Self ι) (hrs : ∀ r ∈ rs, r.Confirms s) : After s rs (processAll me s rs) := by
  induction rs using List.reverseRecOn with
  | nil => exact ⟨rfl, rfl, rfl, fun p => Or.inr ⟨by simp, rfl, rfl⟩⟩
  | append_singleton pre r ih =>
    have hpre : After s pre (processAll me s pre) := ih fun x hx => hrs x (by simp [hx])
    rw [processAll_concat, processAeResp_confirms ((hrs r (by simp)).after hpre)]
    exact (hpre.record r).tryAdvanceCommit me

/-- The last response decides about its peer. -/
theorem processAll_matchIndex (me : Self ι) (pre : List (Response ι κ)) (hrs : ∀ x ∈ pre ++ [r], x.Confirms s)
    {m : Nat} (hm : r.stop = some m) :
    (processAll me s (pre ++ [r])).matchIndex r.peer = some m := by
  have hpre : After s pre (processAll me s pre) := processAll_after me fun x hx => hrs x (by simp [hx])
  rw [processAll_concat, processAeResp_confirms ((hrs r (by simp)).after hpre)]
  obtain ⟨ci, la, ap, pr, cs, hf, -⟩ := tryAdvanceCommit_spec me (r.record (processAll me s pre))
  rw [hf]
  simp [Response.record, hm, recordMatch]

/-! ### Responses that end at the same index -/

/-- A further response at the same index does not decrease `match_index`. -/
theorem SameStop.matchLe_record (h : SameStop s rs) (ht : After s pre t) (hpre : pre ⊆ rs) (hr : r ∈ rs) :
    MatchLe t (r.record t) := by
  intro p
  unfold Response.record
  cases hm : r.stop with
  | none => exact le_rfl
  | some m =>
    by_cases hp : p = r.peer
    · subst hp
      have hrec : ((recordMatch t r.peer m).matchIndex r.peer).getD 0 = m := by simp [recordMatch]
      obtain ⟨hle, hsame⟩ := h r hr m hm
      rw [hrec]
      rcases ht.indices r.peer with ⟨r', hr', hp', m', hm', hmatch, -⟩ | ⟨-, hmatch, -⟩
      · rw [hmatch, Option.getD_some]
        exact (hsame r' (hpre hr') hp' m' hm').le
      · rw [hmatch]
        exact hle
    · simp [recordMatch, hp]

private theorem SameStop.matchGrows (h : SameStop s rs) (hrs : ∀ r ∈ rs, r.Confirms s) : MatchGrows me s rs := by
  intro pre r hpre p
  have hmem : ∀ x ∈ pre ++ [r], x ∈ rs := fun x hx => hpre.subset hx
  have hafter : After s pre (processAll me s pre) := processAll_after me fun x hx => hrs x (hmem x (by simp [hx]))
  have hrec : MatchLe (processAll me s pre) (r.record (processAll me s pre)) :=
    h.matchLe_record hafter (fun x hx => hmem x (by simp [hx])) (hmem r (by simp))
  rw [processAll_concat, processAeResp_confirms ((hrs r (hmem r (by simp))).after hafter)]
  exact (hrec p).trans ((matchLe_tryAdvanceCommit me _).1 p)

theorem SameStop.committed (h : SameStop s rs) (me : Self ι) (hl : s.state = .leader) (hrs : ∀ r ∈ rs, r.Confirms s) :
    Committed me s rs (processAll me s rs) := by
  induction rs using List.reverseRecOn with
  | nil => exact ⟨Or.inl rfl, fun hne => absurd rfl hne⟩
  | append_singleton pre r ih =>
    have hbefore : ∀ x ∈ pre, x.Confirms s := fun x hx => hrs x (by simp [hx])
    have hafter : After s pre (processAll me s pre) := processAll_after me hbefore
    have hpre : SameStop s pre := fun x hx m hm =>
      ⟨(h x (by simp [hx]) m hm).1, fun y hy => (h x (by simp [hx]) m hm).2 y (by simp [hy])⟩
    obtain ⟨hsrc, -⟩ := ih hpre hbefore
    have hrec : MatchLe (processAll me s pre) (r.record (processAll me s pre)) :=
      h.matchLe_record hafter (fun x hx => by simp [hx]) (by simp)
    have hnext := hafter.record r
    have hci : (r.record (processAll me s pre)).commitIndex = (processAll me s pre).commitIndex := by
      unfold Response.record
      split <;> rfl
    rw [processAll_concat, processAeResp_confirms ((hrs r (by simp)).after hafter)]
    have hall := tryAdvanceCommit_all me (r.record (processAll me s pre)) (hnext.state.trans hl)
    obtain ⟨ci, la, ap, pr, cs, hf, hcases, -⟩ := tryAdvanceCommit_spec me (r.record (processAll me s pre))
    rw [hf] at hall ⊢
    refine ⟨?_, fun _ n hn hc => hall n hn hc⟩
    rcases hcases with heq | ⟨-, hlt, -, hcan⟩
    · -- the commit index stays, and what could be committed still can
      simp only [heq, hci]
      refine hsrc.imp_right fun hc => ⟨hc.1, ?_⟩
      exact hrec.canCommit (hafter.log.trans hnext.log.symm) (hafter.term.trans hnext.term.symm) hc.2
    · refine Or.inr ⟨?_, hcan⟩
      rw [hci] at hlt
      rcases hsrc with heq | hc
      · exact heq ▸ hlt
      · exact hc.1.trans hlt

private theorem SameStop.sameIndices (h : SameStop s rs) (hl : s.state = .leader) (hrs : ∀ r ∈ rs, r.Confirms s)
    {rs' : List (Response ι κ)} (hp : rs'.Perm rs) : SameIndices (processAll me s rs) (processAll me s rs') := by
  have hrs' : ∀ r ∈ rs', r.Confirms s := fun r hr => hrs r (hp.mem_iff.1 hr)
  have ht := processAll_after me hrs
  have ht' := processAll_after me hrs'
  obtain ⟨hmatch, hnext⟩ := After.same_indices h ht ht' hp
  refine ⟨hmatch, hnext, ?_⟩
  rcases eq_or_ne rs [] with rfl | hne
  · rw [hp.eq_nil]
  · have hne' : rs' ≠ [] := fun hnil => hne (by simpa [hnil] using hp.symm)
    have hc := h.committed me hl hrs
    have hc' := (h.perm hp).committed me hl hrs'
    have hlog := ht.log.trans ht'.log.symm
    have hterm := ht.term.trans ht'.term.symm
    have hle : MatchLe (processAll me s rs) (processAll me s rs') := fun p => by rw [hmatch]
    have hge : MatchLe (processAll me s rs') (processAll me s rs) := fun p => by rw [hmatch]
    exact le_antisymm (hc.le hc' hne' hle hlog hterm) (hc'.le hc hne hge hlog.symm hterm.symm)

/-! ### Responses that end at different indices -/

/-- When no order decreases `match_index`, the responses of a peer end at the same index: of two that do not, the one
that ends earlier may come last. -/
theorem SameStop.of_matchGrows (hrs : ∀ r ∈ rs, r.Confirms s) (h : ∀ rs', rs'.Perm rs → MatchGrows me s rs') :
    SameStop s rs := by
  have hfirst : ∀ x ∈ rs, ∀ m, x.stop = some m → (s.matchIndex x.peer).getD 0 ≤ m := by
    intro x hx m hm
    obtain ⟨l, l', rfl⟩ := List.append_of_mem hx
    have hgrow := h (x :: (l ++ l')) List.perm_middle.symm [] x (by simp) x.peer
    rw [processAll_matchIndex me [] (by simpa using hrs x hx) hm] at hgrow
    exact hgrow
  have hle : ∀ x ∈ rs, ∀ m, x.stop = some m → ∀ y ∈ rs, y.peer = x.peer → ∀ m', y.stop = some m' → m ≤ m' := by
    intro x hx m hm y hy hpeer m' hm'
    by_cases hxy : y = x
    · subst hxy
      exact (Option.some.inj (hm.symm.trans hm')).le
    · obtain ⟨l, l', rfl⟩ := List.append_of_mem hx
      have hy' : y ∈ l ++ l' := by simpa [hxy] using hy
      obtain ⟨k, k', hk⟩ := List.append_of_mem hy'
      have hperm : (x :: y :: (k ++ k')).Perm (l ++ x :: l') := by
        refine List.Perm.trans ?_ List.perm_middle.symm
        rw [hk]
        exact List.Perm.cons x List.perm_middle.symm
      have hgrow := h _ hperm [x] y (by simp) x.peer
      have hx1 := processAll_matchIndex me [] (by simpa using hrs x hx) hm
      have hboth : ∀ z ∈ [x] ++ [y], z.Confirms s := by simpa using ⟨hrs x hx, hrs y hy⟩
      have hy1 := processAll_matchIndex me [x] hboth hm'
      rw [hpeer] at hy1
      rw [List.nil_append] at hx1
      rw [hx1, hy1] at hgrow
      exact hgrow
  intro x hx m hm
  exact ⟨hfirst x hx m hm, fun y hy hpeer m' hm' => le_antisymm (hle y hy m' hm' x hx hpeer.symm m hm)
    (hle x hx m hm y hy hpeer m' hm')⟩

/-- Append responses commute, and no order of them decreases `match_index`, just if those of each peer end at the same
index and not below its `match_index`. -/
theorem append_responses_commute_iff (me : Self ι) (s : RaftNode ι κ) (hl : s.state = .leader)
    (rs : List (Response ι κ)) (hrs : ∀ r ∈ rs, r.Confirms s) :
    ((∀ rs₁ rs₂, rs₁.Perm rs → rs₂.Perm rs → SameIndices (processAll me s rs₁) (processAll me s rs₂)) ∧
      ∀ rs', rs'.Perm rs → MatchGrows me s rs') ↔ SameStop s rs := by
  constructor
  · rintro ⟨-, hgrows⟩
    exact .of_matchGrows hrs hgrows
  · intro h
    have hrs' : ∀ rs' : List (Response ι κ), rs'.Perm rs → ∀ r ∈ rs', r.Confirms s :=
      fun _ hp r hr => hrs r (hp.mem_iff.1 hr)
    exact ⟨fun rs₁ rs₂ hp hq => (h.perm hp).sameIndices hl (hrs' rs₁ hp) (hq.trans hp.symm),
      fun rs' hp => (h.perm hp).matchGrows (hrs' rs' hp)⟩

/-- Two peers confirm both entries of the leader. -/
theorem append_responses_commute_both : ∃ (s : RaftNode (Fin 3) Nat) (x y : Response (Fin 3) Nat),
    s.state = .leader ∧ x.peer = 1 ∧ y.peer = 2 ∧ x.stop = some 2 ∧ y.stop = some 2 ∧
    SameIndices (processAll ⟨0, [1, 2]⟩ s [x, y]) (processAll ⟨0, [1, 2]⟩ s [y, x]) := by
  let s : RaftNode (Fin 3) Nat := { currentTerm := 1, state := .leader, log := [⟨1, 1, 7⟩, ⟨1, 2, 8⟩] }
  let x : Response (Fin 3) Nat := ⟨1, appendRequest ⟨0, [1, 2]⟩ s 1, { term := some 1, success := some true }⟩
  let y : Response (Fin 3) Nat := ⟨2, appendRequest ⟨0, [1, 2]⟩ s 2, { term := some 1, success := some true }⟩
  have hboth := (append_responses_commute_iff ⟨0, [1, 2]⟩ s rfl [x, y] (by decide)).2 (by decide)
  exact ⟨s, x, y, rfl, rfl, rfl, rfl, rfl, hboth.1 [x, y] [y, x] (.refl _) (.swap x y [])⟩

/-- The leader proposes twice before the first response: the requests to a peer both start at index `1`, and the
response to the shorter one, processed last, takes `match_index` back from `2` to `1`. -/
theorem append_responses_do_not_commute : ∃ (c : Cluster (Fin 3) Nat) (x y : Response (Fin 3) Nat),
    Reach trio c ∧ (c.nodes 0).state = .leader ∧ c.network.filterMap Packet.response = [x, y] ∧
    (∀ r ∈ [x, y], r.Confirms (c.nodes 0) ∧ r.request.senderId = 0 ∧
      r.request.term = (c.nodes 0).currentTerm) ∧
    (processAll (trio.self 0) (c.nodes 0) [x, y]).matchIndex 1 = some 2 ∧
    (processAll (trio.self 0) (c.nodes 0) [y, x]).matchIndex 1 = some 1 ∧
    ¬MatchGrows (trio.self 0) (c.nodes 0) [y, x] := by
  have hrun : ((Transition.run (step trio) (Cluster.init : Cluster (Fin 3) Nat)
      [.startElection 0, .deliver 0, .deliver 1, .countVotes 0, .propose 0 7, .propose 0 8, .deliver 1,
        .deliver 2]).map fun c => decide ((c.nodes 0).state = .leader ∧
      (c.network.filterMap Packet.response).length = 2 ∧
      (∀ r ∈ c.network.filterMap Packet.response, r.Confirms (c.nodes 0) ∧ r.request.senderId = 0 ∧
        r.request.term = (c.nodes 0).currentTerm) ∧
      (processAll (trio.self 0) (c.nodes 0) (c.network.filterMap Packet.response)).matchIndex 1 = some 2 ∧
      (processAll (trio.self 0) (c.nodes 0) (c.network.filterMap Packet.response).reverse).matchIndex 1 = some 1 ∧
      (processAll (trio.self 0) (c.nodes 0) ((c.network.filterMap Packet.response).drop 1)).matchIndex 1 =
        some 2)) = some true := by decide
  obtain ⟨c, hc, hobs⟩ := Option.map_eq_some_iff.1 hrun
  obtain ⟨hl, hlen, hconf, hxy, hyx, hy⟩ := of_decide_eq_true hobs
  obtain ⟨x, y, hresp⟩ := List.length_eq_two.1 hlen
  rw [hresp] at hconf hxy hyx hy
  refine ⟨c, x, y, Transition.reach_of_run hc, hl, hresp, hconf, hxy, hyx, fun hgrows => ?_⟩
  -- the response `x` takes the index back
  have hle := hgrows [y] x List.prefix_rfl 1
  rw [show [y] ++ [x] = [x, y].reverse from rfl, hyx, show [y] = [x, y].drop 1 from rfl, hy] at hle
  exact absurd hle (by decide)

end DistributedSync.Raft
