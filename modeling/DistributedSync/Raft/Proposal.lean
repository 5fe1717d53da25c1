import Mathlib.Data.Fintype.Basic
import DistributedSync.Raft.Replication

/-!
# Proposals

`propose` registers its future under the index of the entry it appends, and `_apply_committed` resolves whatever
future is registered under the index of an applied entry.  A node that loses its leadership keeps the registrations,
so when another leader puts a different entry at such an index, the proposal of the lost entry succeeds.  As long as
no accepted request does that (`KeepsPending`), a successful proposal has had its own entry applied.
-/

namespace DistributedSync.Raft

variable {ι κ : Type}

/-! ### The proposals of a node -/

/-- The entry at position `i - 1` of the log, if there is one, is `e`. -/
def HoldsAt (log : List (LogEntry κ)) (i : Nat) (e : LogEntry κ) : Prop := ∀ e', log[i - 1]? = some e' → e' = e

/-- A resolved future belongs to an applied entry, and a registered one to an entry that nothing else has replaced. -/
structure PendingBook (n : RaftNode ι κ) : Prop where
  length : n.applied.length = n.lastApplied
  returned : ∀ (k : Nat) c, n.calls[k]? = some c → c.returned = some true → c.future = .resolved
  resolved : ∀ (k : Nat) c, n.calls[k]? = some c → c.future = .resolved → n.applied[c.entry.index - 1]? = some c.entry
  pending : ∀ i k, n.pendingRequests i = some k →
    0 < i ∧ ∃ c, n.calls[k]? = some c ∧ c.entry.index = i ∧ HoldsAt n.log i c.entry

variable {n n' : RaftNode ι κ}

theorem propose_pendingRequests (n : RaftNode ι κ) (command : κ) (i : Nat) : (propose n command).pendingRequests i =
    if i = n.log.length + 1 then some n.calls.length else n.pendingRequests i :=
  Function.update_apply n.pendingRequests (n.log.length + 1) (some n.calls.length) i

theorem proposeTimeout_pendingRequests (n : RaftNode ι κ) (call : Nat) (c : ProposeCall κ) (i : Nat) :
    (proposeTimeout n call c).pendingRequests i = if i = c.entry.index then none else n.pendingRequests i :=
  Function.update_apply n.pendingRequests c.entry.index none i

theorem ProposeCall.resolve_entry (c : ProposeCall κ) : c.resolve.entry = c.entry := by
  unfold ProposeCall.resolve
  split <;> rfl

theorem ProposeCall.resolve_returned (c : ProposeCall κ) : c.resolve.returned = c.returned := by
  unfold ProposeCall.resolve
  split <;> rfl

/-- Nothing that the proposals depend on changes, up to entries that the log gives up or gets back. -/
theorem PendingBook.of_eq (h : PendingBook n) (hlog : ∀ i k c, n.pendingRequests i = some k → 0 < i →
      n.calls[k]? = some c → c.entry.index = i → HoldsAt n.log i c.entry → HoldsAt n'.log i c.entry)
    (hla : n'.lastApplied = n.lastApplied) (hap : n'.applied = n.applied) (hcalls : n'.calls = n.calls)
    (hpend : n'.pendingRequests = n.pendingRequests) : PendingBook n' := by
  refine ⟨by rw [hap, hla]; exact h.length, by rw [hcalls]; exact h.returned, by rw [hcalls, hap]; exact h.resolved,
    fun i k hk => ?_⟩
  rw [hpend] at hk
  obtain ⟨hi, c, hc, hidx, hheld⟩ := h.pending i k hk
  exact ⟨hi, c, by rw [hcalls]; exact hc, hidx, hlog i k c hk hi hc hidx hheld⟩

/-- A round of `_apply_committed` resolves the future of the entry that it applies. -/
theorem PendingBook.round (h : PendingBook n) (hix : Indexed n.log) {e : LogEntry κ}
    (he : n.log[n.lastApplied]? = some e) :
    PendingBook ({ n with lastApplied := n.lastApplied + 1, applied := n.applied ++ [e] }.resolvePending e.index) := by
  have hidx : e.index = n.lastApplied + 1 := hix _ _ he
  have hold : ∀ {i : Nat} {x : LogEntry κ}, n.applied[i]? = some x → (n.applied ++ [e])[i]? = some x := fun hx =>
    Positions.getElem?_append_of_some hx [e]
  have hnew : (n.applied ++ [e])[e.index - 1]? = some e := by
    rw [hidx, Nat.add_sub_cancel, ← h.length]
    exact List.getElem?_concat_length
  unfold RaftNode.resolvePending
  split
  · -- no future is registered under the index
    exact ⟨by simp [h.length], h.returned, fun k c hk hr => hold (h.resolved k c hk hr), h.pending⟩
  · rename_i call hcall
    obtain ⟨-, c₀, hc₀, hidx₀, hheld⟩ := h.pending e.index call hcall
    have hc₀e : e = c₀.entry := hheld e (by rw [hidx, Nat.add_sub_cancel]; exact he)
    refine ⟨by simp [h.length], fun k c hk hr => ?_, fun k c hk hr => ?_, fun i k hk => ?_⟩
    · obtain ⟨c', hc', rfl⟩ := Positions.getElem?_modify_some hk
      split at hr
      · rw [if_pos ‹_›]
        rw [ProposeCall.resolve_returned] at hr
        simp [ProposeCall.resolve, h.returned k c' hc' hr]
      · rw [if_neg ‹_›]
        exact h.returned k c' hc' hr
    · obtain ⟨c', hc', rfl⟩ := Positions.getElem?_modify_some hk
      split at hr
      · rename_i hcallk
        subst hcallk
        -- the call whose future is resolved is the one that appended the entry
        obtain rfl : c' = c₀ := Option.some.inj (hc'.symm.trans hc₀)
        rw [if_pos rfl, ProposeCall.resolve_entry, ← hc₀e]
        exact hnew
      · rw [if_neg ‹_›]
        exact hold (h.resolved k c' hc' hr)
    · have hi : i ≠ e.index := by
        rintro rfl
        simp at hk
      obtain ⟨hpos, c', hc', hidx', hheld'⟩ := h.pending i k (by simpa [hi] using hk)
      refine ⟨hpos, _, Positions.getElem?_modify_of_some hc' _, ?_⟩
      split
      · rw [ProposeCall.resolve_entry]
        exact ⟨hidx', hheld'⟩
      · exact ⟨hidx', hheld'⟩

theorem PendingBook.applyLoop (h : PendingBook n) (hix : Indexed n.log) (k : Nat)
    (hlen : n.lastApplied + k ≤ n.log.length) : PendingBook (n.applyLoop k).state := by
  induction k generalizing n with
  | zero => exact h
  | succ k ih =>
    have hget : n.log[n.lastApplied]? = some n.log[n.lastApplied] := List.getElem?_eq_getElem (by omega)
    simp only [RaftNode.applyLoop, Nat.add_sub_cancel, hget]
    obtain ⟨pr, cs, hf⟩ := resolvePending_frame
      { n with lastApplied := n.lastApplied + 1, applied := n.applied ++ [n.log[n.lastApplied]] }
      n.log[n.lastApplied].index
    refine ih (h.round hix hget) (by rw [hf]; exact hix) ?_
    rw [hf]
    simp only
    omega

/-- Applying up to a commit index inside the log. -/
theorem PendingBook.applyCommitted (h : PendingBook n) (hix : Indexed n.log) (hlen : n.commitIndex ≤ n.log.length) :
    PendingBook n.applyCommitted.state := by
  rcases Nat.le_total n.commitIndex n.lastApplied with hle | hle
  · simpa [RaftNode.applyCommitted, Nat.sub_eq_zero_of_le hle, RaftNode.applyLoop] using h
  · exact h.applyLoop hix _ (by omega)

theorem PendingBook.adoptCommit (h : PendingBook n) (hix : Indexed n.log) (lc : Nat) :
    PendingBook (adoptCommit n lc).state := by
  unfold Raft.adoptCommit
  split
  · have hc : PendingBook { n with commitIndex := min lc n.log.length } :=
      h.of_eq (fun _ _ _ _ _ _ _ hheld => hheld) rfl rfl rfl rfl
    exact hc.applyCommitted hix (Nat.min_le_right _ _)
  · exact h

theorem pendingBook_applies : Applies fun n : RaftNode ι κ => PendingBook n ∧ Indexed n.log := by
  rintro n c ⟨h, hix⟩ - hlen
  have hc : PendingBook { n with commitIndex := c } :=
    h.of_eq (fun _ _ _ _ _ _ _ hheld => hheld) rfl rfl rfl rfl
  obtain ⟨_, _, _, _, hf⟩ := applyCommitted_frame { n with commitIndex := c }
  exact ⟨hc.applyCommitted hix hlen, by rw [hf]; exact hix⟩

theorem PendingBook.tryAdvanceCommit (h : PendingBook n) (hix : Indexed n.log) (me : Self ι) :
    PendingBook (tryAdvanceCommit me n).state := by
  obtain ⟨_, _, _, _, _, -, -, -, happ⟩ := tryAdvanceCommit_spec me n
  exact (happ _ pendingBook_applies ⟨h, hix⟩).1

/-- A proposal registers its own entry, possibly in the place of one that the log has lost. -/
theorem PendingBook.propose (h : PendingBook n) (command : κ) : PendingBook (propose n command) := by
  refine ⟨h.length, fun k c hk hr => ?_, fun k c hk hr => ?_, fun i k hk => ?_⟩
  · rcases Positions.getElem?_concat hk with ⟨-, hk⟩ | ⟨-, rfl⟩
    · exact h.returned k c hk hr
    · cases hr
  · rcases Positions.getElem?_concat hk with ⟨-, hk⟩ | ⟨-, rfl⟩
    · exact h.resolved k c hk hr
    · cases hr
  · rw [propose_pendingRequests] at hk
    split at hk
    · -- the new registration
      rename_i hi
      obtain rfl : n.calls.length = k := Option.some.inj hk
      refine ⟨by omega, _, List.getElem?_concat_length, hi.symm, fun e he => ?_⟩
      subst hi
      simpa [Raft.propose, eq_comm] using he
    · obtain ⟨hpos, c, hc, hidx, hheld⟩ := h.pending i k hk
      refine ⟨hpos, c, Positions.getElem?_append_of_some hc _, hidx, fun e he => ?_⟩
      rcases Positions.getElem?_concat he with ⟨-, hold⟩ | ⟨hlen, -⟩
      · exact hheld e hold
      · omega

theorem PendingBook.proposeReturn (h : PendingBook n) {call : Nat} {c : ProposeCall κ} (hc : n.calls[call]? = some c)
    (hf : c.future = .resolved) : PendingBook (proposeReturn n call) := by
  refine ⟨h.length, fun k c' hk hr => ?_, fun k c' hk hr => ?_, fun i k hk => ?_⟩
  · obtain ⟨x, hx, rfl⟩ := Positions.getElem?_modify_some hk
    split at hr
    · rename_i hcall
      subst hcall
      obtain rfl : x = c := Option.some.inj (hx.symm.trans hc)
      simpa using hf
    · rw [if_neg ‹_›]
      exact h.returned k x hx hr
  · obtain ⟨x, hx, rfl⟩ := Positions.getElem?_modify_some hk
    split at hr
    · rw [if_pos ‹_›]
      exact h.resolved k x hx hr
    · rw [if_neg ‹_›]
      exact h.resolved k x hx hr
  · obtain ⟨hi, x, hx, hidx, hheld⟩ := h.pending i k hk
    refine ⟨hi, _, Positions.getElem?_modify_of_some hx _, ?_⟩
    split <;> exact ⟨hidx, hheld⟩

theorem PendingBook.proposeTimeout (h : PendingBook n) {call : Nat} {c : ProposeCall κ} (hc : n.calls[call]? = some c) :
    PendingBook (proposeTimeout n call c) := by
  refine ⟨h.length, fun k c' hk hr => ?_, fun k c' hk hr => ?_, fun i k hk => ?_⟩
  · obtain ⟨x, hx, rfl⟩ := Positions.getElem?_modify_some hk
    split at hr
    · simp at hr
    · rw [if_neg ‹_›]
      exact h.returned k x hx hr
  · obtain ⟨x, hx, rfl⟩ := Positions.getElem?_modify_some hk
    split at hr
    · simp at hr
    · rw [if_neg ‹_›]
      exact h.resolved k x hx hr
  · rw [proposeTimeout_pendingRequests] at hk
    split at hk
    · cases hk
    · rename_i hne
      obtain ⟨hi, x, hx, hidx, hheld⟩ := h.pending i k hk
      have hcall : call ≠ k := by
        rintro rfl
        obtain rfl : x = c := Option.some.inj (hx.symm.trans hc)
        exact hne hidx.symm
      refine ⟨hi, _, Positions.getElem?_modify_of_some hx _, ?_⟩
      rw [if_neg hcall]
      exact ⟨hidx, hheld⟩

/-! ### Runs -/

variable [DecidableEq ι]

/-- The step accepts an `APPEND_ENTRIES` with an entry at the index of a pending proposal, other than the one that
the proposal appended. -/
def OverwritesPending (s : Cluster ι κ) (act : Action ι κ) : Prop :=
  ∃ r ∈ s.requestAt act, r.2.msgType = .appendEntries ∧ (s.nodes r.1).currentTerm ≤ r.2.term ∧
    prevMatches (s.nodes r.1).log (r.2.data.prevLogIndex.getD 0) (r.2.data.prevLogTerm.getD 0) = true ∧
    ∃ e ∈ r.2.data.entries.getD [], ∃ k ∈ (s.nodes r.1).pendingRequests e.index,
      ∃ c ∈ (s.nodes r.1).calls[k]?, c.entry ≠ e

def KeepsPending (s : Cluster ι κ) (act : Action ι κ) : Prop := ¬OverwritesPending s act

instance [DecidableEq κ] (s : Cluster ι κ) (act : Action ι κ) : Decidable (KeepsPending s act) := by
  unfold KeepsPending OverwritesPending
  infer_instance

variable {cfg : ClusterConfig ι} {s : Cluster ι κ} {act : Action ι κ} {a : ι} {net : List (Packet ι κ)}
  {reqs : List (ι × RaftMessage ι κ)} {evs : List (Event ι κ)}

/-- Accepting a request keeps the book, when its entries at pending indices are those of the proposals. -/
theorem PendingBook.accepted (h : PendingBook (s.nodes a)) (hix : IndexBook s) (hb : Book cfg s)
    (hok : KeepsPending s act) {msg : RaftMessage ι κ} (hk : .request a msg ∈ s.network)
    (hreq : s.requestAt act = some (a, msg)) (hm : msg.msgType = .appendEntries)
    (ht : (s.nodes a).currentTerm ≤ msg.term)
    (hp : prevMatches (s.nodes a).log (msg.data.prevLogIndex.getD 0) (msg.data.prevLogTerm.getD 0) = true) :
    PendingBook (acceptEntries (follow (s.nodes a) msg.senderId msg.term) msg.data).state := by
  obtain ⟨S, hS, pli, hpli, hents, -⟩ := hix.sent a msg (hb.request a msg hk) hm
  have hle := le_length_of_prevMatches hp
  rw [hpli, Option.getD_some] at hle
  set ℓ := installEntries (s.nodes a).log pli (S.drop pli) with hℓ
  have hixℓ : Indexed ℓ := (hix.log a).installEntries hS hle
  -- the new log holds no foreign entry at a pending index
  have hinst : PendingBook { follow (s.nodes a) msg.senderId msg.term with log := ℓ } := by
    refine h.of_eq (fun i k c hk hi hc hidx hheld e he => ?_) rfl rfl rfl rfl
    have he' : ℓ[i - 1]? = some e := he
    by_cases hnil : S.drop pli = []
    · rw [hℓ, hnil] at he'
      exact hheld e he'
    · have hlen : ((s.nodes a).log.take pli).length = pli := by simp [hle]
      rw [hℓ, installEntries, if_neg hnil] at he'
      rcases Nat.lt_or_ge (i - 1) pli with hlt | hge
      · rw [List.getElem?_append_left (by omega), List.getElem?_take_of_lt hlt] at he'
        exact hheld e he'
      · rw [List.getElem?_append_right (by omega), hlen] at he'
        have hei : e.index = i := by
          rw [List.getElem?_drop, Nat.add_sub_cancel' hge] at he'
          have := hS _ _ he'
          omega
        by_contra hne
        refine hok ⟨_, hreq, hm, ht, hp, e, ?_, k, ?_, c, hc, Ne.symm hne⟩
        · simpa [hents] using List.mem_of_getElem? he'
        · rw [hei]; exact hk
  unfold acceptEntries
  simp only [hpli, hents, Option.getD_some]
  exact hinst.adoptCommit hixℓ _

theorem PendingBook.step (h : PendingBook (s.nodes a)) (hix : IndexBook s) (hb : Book cfg s)
    (hok : KeepsPending s act) (hl : Local cfg s act a n net reqs evs) : PendingBook n := by
  have hsame : ∀ {m : RaftNode ι κ}, m.log = (s.nodes a).log → m.lastApplied = (s.nodes a).lastApplied →
      m.applied = (s.nodes a).applied → m.calls = (s.nodes a).calls →
      m.pendingRequests = (s.nodes a).pendingRequests → PendingBook m := fun hlog =>
    h.of_eq fun _ _ _ _ _ _ _ hheld => hlog ▸ hheld
  cases hl with
  | startElection _ ha hl he => exact hsame rfl rfl rfl rfl rfl
  | won _ el he hw => exact hsame rfl rfl rfl rfl rfl
  | lost _ el he hw => exact hsame rfl rfl rfl rfl rfl
  | replicate => exact h
  | propose _ command hl => exact h.propose command
  | proposeReturn _ call c hc hf => exact h.proposeReturn hc hf
  | proposeTimeout _ call c hc hf => exact h.proposeTimeout hc
  | request k _ msg _ resp hk hh =>
    obtain ⟨ct, st, v, l, hobs⟩ := observeTerm_frame (s.nodes a) msg.term
    cases hh with
    | ignored resp hv hs =>
      rw [hobs]
      exact hsame rfl rfl rfl rfl rfl
    | voted hm ht hfree hup =>
      rw [hobs]
      exact hsame rfl rfl rfl rfl rfl
    | rejected hm ht hp => exact hsame rfl rfl rfl rfl rfl
    | accepted hm ht hp =>
      exact h.accepted hix hb hok (List.mem_of_getElem? hk) (requestAt_deliver hk) hm ht hp
  | voteReply k src msg resp hk hm =>
    obtain ⟨el, hf⟩ := collectVote_frame (s.nodes msg.senderId) src msg resp
    rw [hf]
    exact hsame rfl rfl rfl rfl rfl
  | appendReply k src msg resp _ hk hm hp =>
    cases hp with
    | stepDown ht => exact hsame rfl rfl rfl rfl rfl
    | rejected hs => exact hsame rfl rfl rfl rfl rfl
    | keyError => exact h
    | heartbeat ht hs he => exact h.tryAdvanceCommit (hix.log _) _
    | matched pli ht hs he hpli =>
      have hrec : PendingBook (recordMatch (s.nodes msg.senderId) src (pli + (msg.data.entries.getD []).length)) :=
        hsame rfl rfl rfl rfl rfl
      exact hrec.tryAdvanceCommit (hix.log _) _
  | drop _ _ k => exact h

theorem PendingBook.of_reach (h : ReachWhile cfg KeepsPending s) : ∀ a, PendingBook (s.nodes a) := by
  refine ReachWhile.of_local (I := fun s => ∀ a, PendingBook (s.nodes a)) (fun a => ?_)
    (fun s act a n net reqs evs hr ih hok hl => ?_) h
  · exact ⟨rfl, by simp [Cluster.init], by simp [Cluster.init], by simp [Cluster.init]⟩
  · exact act_nodes_ind (P := fun _ m => PendingBook m)
      ((ih a).step (IndexBook.of_reach hr) (Book.of_reach hr) hok hl) ih

/-- When `propose` returns `True`, the entry applied at its index is the one that it appended, in runs in which no
accepted request puts another entry at the index of a pending proposal. -/
theorem propose_applied (cfg : ClusterConfig ι) {s : Cluster ι κ} (h : ReachWhile cfg KeepsPending s) :
    ∀ (a : ι) (k : Nat) c, (s.nodes a).calls[k]? = some c → c.returned = some true →
      (s.nodes a).applied[c.entry.index - 1]? = some c.entry := by
  intro a k c hc hr
  have hbook := PendingBook.of_reach h a
  exact hbook.resolved k c hc (hbook.returned k c hc hr)

/-- The first proposal of the leader `0` is acknowledged by node `1`, applied, and succeeds. -/
theorem propose_applied_run : ∃ s : Cluster (Fin 3) Nat, Transition.run (step trio) Cluster.init
      [.startElection 0, .deliver 0, .deliver 1, .countVotes 0, .propose 0 7, .deliver 1, .deliver 2,
        .proposeReturn 0 0] = some s ∧
    (s.nodes 0).calls[0]? = some ⟨⟨1, 1, 7⟩, .resolved, some true⟩ ∧ (s.nodes 0).applied[0]? = some ⟨1, 1, 7⟩ := by
  have hrun : ((Transition.runWhile (step trio) KeepsPending (Cluster.init : Cluster (Fin 3) Nat)
      [.startElection 0, .deliver 0, .deliver 1, .countVotes 0, .propose 0 7, .deliver 1, .deliver 2,
        .proposeReturn 0 0]).map fun s => (s.nodes 0).calls[0]?) =
      some (some ⟨⟨1, 1, 7⟩, .resolved, some true⟩) := by decide
  obtain ⟨s, hs, hc⟩ := Option.map_eq_some_iff.1 hrun
  obtain ⟨hr, hrun⟩ := Transition.ReachWhile.of_runWhile .refl hs
  exact ⟨s, hrun, hc, propose_applied trio hr 0 0 _ hc rfl⟩

/-- Node `0` proposes `7` and loses its leadership before it is replicated; node `1` commits `9` at the same index,
and the proposal of `7` succeeds when node `0` applies `9`. -/
theorem lost_proposal_succeeds : ∃ s : Cluster (Fin 3) Nat, Reach trio s ∧ OneLeader s ∧
    (s.nodes 0).calls[0]? = some ⟨⟨1, 1, 7⟩, .resolved, some true⟩ ∧ (s.nodes 0).applied[0]? = some ⟨2, 1, 9⟩ := by
  have hrun : ((Transition.run (step trio) (Cluster.init : Cluster (Fin 3) Nat)
      [.startElection 0, .deliver 0, .deliver 1, .countVotes 0, .propose 0 7, .startElection 1, .deliver 4, .deliver 4,
        .countVotes 1, .propose 1 9, .deliver 4, .deliver 5, .replicate 1, .deliver 5, .proposeReturn 0 0]).map fun s =>
      (decide (OneLeader s), (s.nodes 0).calls[0]?, (s.nodes 0).applied[0]?)) =
      some (true, some ⟨⟨1, 1, 7⟩, .resolved, some true⟩, some ⟨2, 1, 9⟩) := by decide
  obtain ⟨s, hs, hobs⟩ := Option.map_eq_some_iff.1 hrun
  simp only [Prod.mk.injEq, decide_eq_true_eq] at hobs
  exact ⟨s, Transition.reach_of_run hs, hobs⟩

end DistributedSync.Raft
