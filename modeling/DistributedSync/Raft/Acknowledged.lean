import DistributedSync.Raft.Leadership
import DistributedSync.Raft.Proposal
import DistributedSync.Raft.Registration

/-!
# What an acknowledged proposal is worth

In runs outside the defects, a command whose `propose` has returned `True` is never lost: every node that gets as far
applies it at its index, and every leader of the same or a later term has it (`acknowledged_durable`).  Acknowledged
commands are applied in an order that respects real time: a command proposed after another one was acknowledged, on
whatever node, comes after it (`acknowledged_in_real_time`).
-/

namespace DistributedSync.Raft

open ReplicatedLog (Inv Keeps Kept Grows Committed)

variable {ι κ : Type}

/-- The steps outside the three defects and the one of `_pending_requests`. -/
def Faithful (s : Cluster ι κ) (act : Action ι κ) : Prop := Safe s act ∧ KeepsPending s act

private theorem faithful_propose (c : Cluster ι κ) (b : ι) (command : κ) : Faithful c (.propose b command) := by
  refine ⟨⟨?_, ?_, ?_⟩, ?_⟩
  · rintro ⟨r, hr, -⟩
    cases hr
  · rintro ⟨r, hr, -⟩
    cases hr
  · rintro ⟨r, hr, -⟩
    cases hr
  · rintro ⟨r, hr, -⟩
    cases hr

variable [DecidableEq ι]

instance [DecidableEq κ] (s : Cluster ι κ) (act : Action ι κ) : Decidable (Faithful s act) :=
  inferInstanceAs (Decidable (_ ∧ _))

variable {cfg : ClusterConfig ι} {c c' : Cluster ι κ} {A A' : ReplicatedLog.State ι (LogEntry κ)} {a b : ι}

theorem safe_of_faithful (h : ReachWhile cfg Faithful c) : ReachWhile cfg Safe c := h.mono fun _ _ h => h.1

/-- What one node has applied at one moment and another one at a later moment agree. -/
theorem applied_isPrefix_or (h : ReachWhile cfg Safe c) (h' : Transition.ReachWhile (Steps cfg) Safe c c') (a b : ι) :
    (c.nodes a).applied <+: (c'.nodes b).applied ∨ (c'.nodes b).applied <+: (c.nodes a).applied := by
  obtain ⟨A, hA⟩ := Committing.of_safe h
  obtain ⟨A', hA', hg⟩ := hA.later h h'
  exact ((hA.applied_committed a).grows hg le_rfl).comparable (hA'.applied_committed b) (Inv.of_reach hA'.reach)
    (Kept.of_reach hA'.reach)

theorem length_applied (h : ReachWhile cfg Safe c) (a : ι) : (c.nodes a).applied.length = (c.nodes a).lastApplied :=
  (h.node a).length_applied

/-- Where both have got to, they have applied the same. -/
theorem applied_eq_of_lt (h : ReachWhile cfg Safe c) (h' : Transition.ReachWhile (Steps cfg) Safe c c') {i : Nat}
    {e : LogEntry κ} (he : (c.nodes a).applied[i]? = some e) (hi : i < (c'.nodes b).lastApplied) :
    (c'.nodes b).applied[i]? = some e := by
  rcases applied_isPrefix_or h h' a b with hpre | hpre
  · exact Positions.getElem?_of_isPrefix hpre he
  · rw [← length_applied (h.trans h')] at hi
    have hx := Positions.getElem?_of_isPrefix hpre (List.getElem?_eq_getElem hi)
    rw [he] at hx
    rw [List.getElem?_eq_getElem hi, hx]

/-- The entry of a call that has returned `True` is applied at its index. -/
theorem acknowledged_applied (h : ReachWhile cfg Faithful c) {k : Nat} {call : ProposeCall κ}
    (hcall : (c.nodes a).calls[k]? = some call) (hret : call.returned = some true) :
    0 < call.entry.index ∧ (c.nodes a).applied[call.entry.index - 1]? = some call.entry := by
  have hbook := PendingBook.of_reach (h.mono fun _ _ h => h.2) a
  have happlied := hbook.resolved k call hcall (hbook.returned k call hcall hret)
  -- applied entries are at their indices
  obtain ⟨A, hA⟩ := Committing.of_safe (safe_of_faithful h)
  have hlog : (c.nodes a).log[call.entry.index - 1]? = some call.entry := by
    refine Positions.getElem?_of_isPrefix ?_ happlied
    rw [(hA.book.node a).upToCommit.2]
    exact List.take_prefix _ _
  have hindex := (IndexBook.of_reach h).log a _ _ hlog
  exact ⟨by omega, happlied⟩

/-- An acknowledged command stays: every node that gets to its index applies it there, and every leader of the same or
a later term has it. -/
theorem acknowledged_durable (cfg : ClusterConfig ι) (h : ReachWhile cfg Faithful c)
    (h' : Transition.ReachWhile (Steps cfg) Safe c c') {k : Nat} {call : ProposeCall κ}
    (hcall : (c.nodes a).calls[k]? = some call) (hret : call.returned = some true) :
    (∀ b, call.entry.index ≤ (c'.nodes b).lastApplied →
      (c'.nodes b).applied[call.entry.index - 1]? = some call.entry) ∧
    ∀ b, (c'.nodes b).state = .leader → (c.nodes a).currentTerm ≤ (c'.nodes b).currentTerm →
      (c'.nodes b).log[call.entry.index - 1]? = some call.entry := by
  obtain ⟨hpos, happlied⟩ := acknowledged_applied h hcall hret
  have hsafe := safe_of_faithful h
  refine ⟨fun b hb => applied_eq_of_lt hsafe h' happlied (by omega), fun b hlead hterm => ?_⟩
  obtain ⟨A, hA⟩ := Committing.of_safe hsafe
  obtain ⟨A', hA', hg⟩ := hA.later hsafe h'
  have hpre := hA'.isPrefix_log (Book.of_reach (hsafe.trans h')) ((hA.applied_committed a).grows hg le_rfl) hlead hterm
  exact Positions.getElem?_of_isPrefix hpre happlied

/-- Node `0` acknowledges its first command in term `1`; node `1` has it when it leads in term `2`. -/
theorem acknowledged_durable_run : ∃ c c' : Cluster (Fin 3) Nat, Transition.run (step trio) Cluster.init
      [.startElection 0, .deliver 0, .deliver 1, .countVotes 0, .propose 0 7, .deliver 1, .deliver 2,
        .proposeReturn 0 0] = some c ∧
    (c.nodes 0).calls[0]? = some ⟨⟨1, 1, 7⟩, .resolved, some true⟩ ∧ (c'.nodes 1).currentTerm = 2 ∧
    (c'.nodes 1).applied[0]? = some ⟨1, 1, 7⟩ ∧ (c'.nodes 1).log[0]? = some ⟨1, 1, 7⟩ := by
  have hrun : ((Transition.runWhile (step trio) Faithful (Cluster.init : Cluster (Fin 3) Nat)
      [.startElection 0, .deliver 0, .deliver 1, .countVotes 0, .propose 0 7, .deliver 1, .deliver 2,
        .proposeReturn 0 0]).bind fun c =>
      (Transition.runWhile (step trio) Safe c [.startElection 1, .deliver 3, .deliver 3, .countVotes 1, .propose 1 8,
        .deliver 3, .deliver 4]).map fun c' => ((c.nodes 0).calls[0]?, (c.nodes 0).currentTerm,
          (c'.nodes 1).currentTerm, (c'.nodes 1).state, (c'.nodes 1).lastApplied)) =
      some (some ⟨⟨1, 1, 7⟩, .resolved, some true⟩, 1, 2, .leader, 2) := by decide
  obtain ⟨c, hc, hrest⟩ := Option.bind_eq_some_iff.1 hrun
  obtain ⟨c', hc', hobs⟩ := Option.map_eq_some_iff.1 hrest
  simp only [Prod.mk.injEq] at hobs
  obtain ⟨hcall, hterm, hterm', hlead, hlast⟩ := hobs
  obtain ⟨hr, hrun⟩ := Transition.ReachWhile.of_runWhile .refl hc
  obtain ⟨hr', -⟩ := Transition.ReachWhile.of_runWhile .refl hc'
  obtain ⟨happlied, hlog⟩ := acknowledged_durable trio hr hr' hcall rfl
  have hone : (1 : Nat) ≤ (c'.nodes 1).lastApplied := by omega
  exact ⟨c, c', hrun, hcall, hterm', happlied 1 hone, hlog 1 hlead (by omega)⟩

/-- What a leader appends lies behind everything that has been applied with an entry of its term there. -/
theorem lt_length_of_applied (h : ReachWhile cfg Safe c) (h' : Transition.ReachWhile (Steps cfg) Safe c c')
    (hlead : (c'.nodes b).state = .leader) {i : Nat} {e : LogEntry κ} (he : (c.nodes a).applied[i]? = some e)
    (hterm : e.term = (c'.nodes b).currentTerm) : i < (c'.nodes b).log.length := by
  obtain ⟨A, hA⟩ := Committing.of_safe h
  obtain ⟨A', hA', hg⟩ := hA.later h h'
  have hlog : (A.log a)[i]? = some e := by
    rw [hA.refines.log]
    refine Positions.getElem?_of_isPrefix ?_ he
    rw [(hA.book.node a).upToCommit.2]
    exact List.take_prefix _ _
  -- the leader of the term had the entry at the earlier moment
  have horigin := (Inv.of_reach hA.reach).log_origin hlog
  have hleader : (A.leaderLog e.term)[i]? = some e := by
    have hi := congrArg (fun ℓ => ℓ[i]?) horigin.2.2
    simpa only [List.getElem?_take_of_lt (Nat.lt_succ_self i), hlog] using hi.symm
  have hlater := Positions.getElem?_of_isPrefix (hg.leaderLog e.term) hleader
  rw [hterm, ← (hA'.refines.leader b hlead).1] at hlater
  exact (List.getElem?_eq_some_iff.1 hlater).1

/-- Acknowledged commands are applied in an order that respects real time: a command proposed after another one was
acknowledged, on whatever node, has the greater index, so a node that has applied it has applied both. -/
theorem acknowledged_in_real_time (cfg : ClusterConfig ι) {c₀ c₁ c₂ c₃ : Cluster ι κ} {k : Nat}
    {call call' : ProposeCall κ} {command : κ} (h₀ : ReachWhile cfg Faithful c₀)
    (hcall : (c₀.nodes a).calls[k]? = some call) (hret : call.returned = some true)
    (h₁ : Transition.ReachWhile (Steps cfg) Faithful c₀ c₁) (hpropose : Steps cfg c₁ (.propose b command) c₂)
    (h₂ : Transition.ReachWhile (Steps cfg) Faithful c₂ c₃)
    (hcall' : (c₃.nodes b).calls[(c₁.nodes b).calls.length]? = some call') (hret' : call'.returned = some true) :
    call'.entry.command = command ∧ call.entry.index < call'.entry.index ∧
      ∀ n, call'.entry.index ≤ (c₃.nodes n).lastApplied →
        (c₃.nodes n).applied[call.entry.index - 1]? = some call.entry ∧
        (c₃.nodes n).applied[call'.entry.index - 1]? = some call'.entry := by
  have hstep : (c₁.nodes b).state = .leader ∧ (c₂.nodes b) = propose (c₁.nodes b) command := by
    rw [Steps, step, Option.ite_none_right_eq_some, Option.some.injEq] at hpropose
    obtain ⟨hlead, rfl⟩ := hpropose
    exact ⟨hlead, act_nodes_self⟩
  obtain ⟨hlead, hnode⟩ := hstep
  have hfrom₁ : Transition.ReachWhile (Steps cfg) Faithful c₁ c₃ :=
    (Transition.ReachWhile.tail .refl (faithful_propose c₁ b command) hpropose).trans h₂
  have hpath : Transition.ReachWhile (Steps cfg) Safe c₀ c₃ := (h₁.trans hfrom₁).mono fun _ _ h => h.1
  have h₃ : ReachWhile cfg Faithful c₃ := (h₀.trans h₁).trans hfrom₁
  -- the second call has appended the next entry of its leader
  have hentry : call'.entry = newEntry (c₁.nodes b) command := by
    have hnew : (c₂.nodes b).calls[(c₁.nodes b).calls.length]? =
        some { entry := newEntry (c₁.nodes b) command } := by
      rw [hnode]
      exact List.getElem?_concat_length
    obtain ⟨x, hx, hxe⟩ := call_entry h₂.reach hnew
    rw [hcall'] at hx
    rw [Option.some.inj hx, hxe]
  obtain ⟨hpos, happlied⟩ := acknowledged_applied h₀ hcall hret
  obtain ⟨hpos', happlied'⟩ := acknowledged_applied h₃ hcall' hret'
  have hlength := length_applied (safe_of_faithful h₃) b
  have hlt' := (List.getElem?_eq_some_iff.1 happlied').1
  have hlt : call.entry.index < call'.entry.index := by
    by_contra hle
    have hlen : call'.entry.index - 1 < (c₀.nodes a).applied.length := by
      have := (List.getElem?_eq_some_iff.1 happlied).1
      omega
    -- the second entry would have been applied before it was proposed
    have hx := List.getElem?_eq_getElem hlen
    have hsame := applied_eq_of_lt (b := b) (safe_of_faithful h₀) hpath hx (by omega)
    rw [happlied'] at hsame
    rw [← Option.some.inj hsame] at hx
    have hinside := lt_length_of_applied (safe_of_faithful h₀) (h₁.mono fun _ _ h => h.1) hlead hx
      (by rw [hentry]; rfl)
    rw [hentry, newEntry, Nat.add_sub_cancel] at hinside
    exact lt_irrefl _ hinside
  refine ⟨by rw [hentry]; rfl, hlt, fun n hn => ⟨?_, ?_⟩⟩
  · exact applied_eq_of_lt (safe_of_faithful h₀) hpath happlied (by omega)
  · exact applied_eq_of_lt (safe_of_faithful h₃) .refl happlied' (by omega)

/-- The leader `0` acknowledges `7` in term `1`; after that, the leader `1` of term `2` gets `8` and acknowledges it. -/
theorem acknowledged_in_real_time_run : ∃ c₀ c₃ : Cluster (Fin 3) Nat, ∃ call call' : ProposeCall Nat,
    (c₀.nodes 0).calls[0]? = some call ∧ (c₃.nodes 1).calls[0]? = some call' ∧
    call'.entry.command = 8 ∧ call.entry.index < call'.entry.index ∧
      ∀ n, call'.entry.index ≤ (c₃.nodes n).lastApplied →
        (c₃.nodes n).applied[call.entry.index - 1]? = some call.entry ∧
        (c₃.nodes n).applied[call'.entry.index - 1]? = some call'.entry := by
  have hrun : ((Transition.runWhile (step trio) Faithful (Cluster.init : Cluster (Fin 3) Nat)
      [.startElection 0, .deliver 0, .deliver 1, .countVotes 0, .propose 0 7, .deliver 1, .deliver 2,
        .proposeReturn 0 0]).bind fun c₀ =>
      (Transition.runWhile (step trio) Faithful c₀ [.startElection 1, .deliver 3, .deliver 3, .countVotes 1]).bind
        fun c₁ => (step trio c₁ (.propose 1 8)).bind fun c₂ =>
      (Transition.runWhile (step trio) Faithful c₂ [.deliver 3, .deliver 4, .proposeReturn 1 0]).map fun c₃ =>
        ((c₀.nodes 0).calls[0]?, (c₁.nodes 1).calls.length, (c₃.nodes 1).calls[0]?)) =
      some (some ⟨⟨1, 1, 7⟩, .resolved, some true⟩, 0, some ⟨⟨2, 2, 8⟩, .resolved, some true⟩) := by decide
  obtain ⟨c₀, hc₀, hrest⟩ := Option.bind_eq_some_iff.1 hrun
  obtain ⟨c₁, hc₁, hrest⟩ := Option.bind_eq_some_iff.1 hrest
  obtain ⟨c₂, hc₂, hrest⟩ := Option.bind_eq_some_iff.1 hrest
  obtain ⟨c₃, hc₃, hobs⟩ := Option.map_eq_some_iff.1 hrest
  simp only [Prod.mk.injEq] at hobs
  obtain ⟨hcall, hlen, hcall'⟩ := hobs
  obtain ⟨hr₀, -⟩ := Transition.ReachWhile.of_runWhile .refl hc₀
  obtain ⟨hr₁, -⟩ := Transition.ReachWhile.of_runWhile .refl hc₁
  obtain ⟨hr₃, -⟩ := Transition.ReachWhile.of_runWhile .refl hc₃
  exact ⟨c₀, c₃, _, _, hcall, hcall',
    acknowledged_in_real_time trio hr₀ hcall rfl hr₁ hc₂ hr₃ (by rw [hlen]; exact hcall') rfl⟩

end DistributedSync.Raft
