import DistributedSync.Raft.NodeRun
import DistributedSync.Raft.Proposal

/-!
# Futures that share an index

`propose` registers its future under the index of its entry, and its timeout pops whatever is registered there.  A
node that has lost its leadership and its log may give the same index to a second proposal while the first one still
waits.  Then the timeout of the first pops the future of the second (`Disturbs`), and `_apply_committed` no longer
finds it: the second proposal times out although its own entry has been applied.  Apart from that a proposal whose
entry is applied in time succeeds (`own_entry_applied_iff`).
-/

namespace DistributedSync.Raft

/-! ### Futures resolved along a list of entries -/

section Resolve

variable {ι κ : Type} {n n' n'' : RaftNode ι κ} {es es' : List (LogEntry κ)}

private theorem resolvePending_pendingRequests (n : RaftNode ι κ) (i j : Nat) :
    (n.resolvePending i).pendingRequests j = if j = i then none else n.pendingRequests j := by
  unfold RaftNode.resolvePending
  split
  · rename_i hnone
    split
    · rename_i hj
      rw [hj, hnone]
    · rfl
  · exact Function.update_apply n.pendingRequests i none j

private theorem resolvePending_calls (n : RaftNode ι κ) (i k : Nat) : (n.resolvePending i).calls[k]? =
    if n.pendingRequests i = some k then n.calls[k]?.map ProposeCall.resolve else n.calls[k]? := by
  unfold RaftNode.resolvePending
  split
  · rename_i hnone
    rw [if_neg (by simp [hnone])]
  · rename_i call hcall
    simp only [List.getElem?_modify, hcall, Option.some.injEq, Option.map_eq_map]
    split
    · rfl
    · simp

/-- The futures registered under the indices of the entries are resolved, one entry after the other. -/
def RaftNode.resolveAll (n : RaftNode ι κ) (es : List (LogEntry κ)) : RaftNode ι κ :=
  es.foldl (fun n e => n.resolvePending e.index) n

theorem resolveAll_pendingRequests (n : RaftNode ι κ) (es : List (LogEntry κ)) (j : Nat) :
    (n.resolveAll es).pendingRequests j = if ∃ e ∈ es, e.index = j then none else n.pendingRequests j := by
  induction es generalizing n with
  | nil => simp [RaftNode.resolveAll]
  | cons e es ih =>
    show ((n.resolvePending e.index).resolveAll es).pendingRequests j = _
    rw [ih, resolvePending_pendingRequests]
    by_cases hj : j = e.index
    · simp [hj]
    · simp [hj, Ne.symm hj]

private theorem resolve_resolve (c : ProposeCall κ) : c.resolve.resolve = c.resolve := by
  unfold ProposeCall.resolve
  by_cases hf : c.future = .pending
  · simp [hf]
  · simp [hf]

theorem resolveAll_calls (n : RaftNode ι κ) (es : List (LogEntry κ)) (k : Nat) : (n.resolveAll es).calls[k]? =
    if ∃ e ∈ es, n.pendingRequests e.index = some k then n.calls[k]?.map ProposeCall.resolve else n.calls[k]? := by
  induction es generalizing n with
  | nil => simp [RaftNode.resolveAll]
  | cons e es ih =>
    show ((n.resolvePending e.index).resolveAll es).calls[k]? = _
    rw [ih, resolvePending_calls]
    by_cases he : n.pendingRequests e.index = some k
    · -- a future resolved twice is resolved
      have hex : ∃ e' ∈ e :: es, n.pendingRequests e'.index = some k := ⟨e, by simp, he⟩
      rw [if_pos he, if_pos hex]
      split
      · rw [Option.map_map]
        congr 1
        exact funext resolve_resolve
      · rfl
    · have hiff : (∃ e' ∈ es, (n.resolvePending e.index).pendingRequests e'.index = some k) ↔
          ∃ e' ∈ e :: es, n.pendingRequests e'.index = some k := by
        simp only [resolvePending_pendingRequests, List.mem_cons, exists_eq_or_imp, he, false_or]
        refine exists_congr fun e' => and_congr_right fun _ => ?_
        by_cases hi : e'.index = e.index
        · simp [hi, he]
        · simp [hi]
      rw [if_neg he]
      simp only [hiff]

private theorem resolveAll_congr (hc : n.calls = n'.calls) (hp : n.pendingRequests = n'.pendingRequests)
    (es : List (LogEntry κ)) : (n.resolveAll es).calls = (n'.resolveAll es).calls ∧
      (n.resolveAll es).pendingRequests = (n'.resolveAll es).pendingRequests := by
  constructor
  · refine List.ext_getElem? fun k => ?_
    rw [resolveAll_calls, resolveAll_calls, hc, hp]
  · refine funext fun j => ?_
    rw [resolveAll_pendingRequests, resolveAll_pendingRequests, hp]

/-- The node has applied the entries `es` and resolved the futures that it found for them. -/
structure Settles (n n' : RaftNode ι κ) (es : List (LogEntry κ)) : Prop where
  applied : n'.applied = n.applied ++ es
  calls : n'.calls = (n.resolveAll es).calls
  pending : n'.pendingRequests = (n.resolveAll es).pendingRequests

private theorem settles_nil (ha : n'.applied = n.applied) (hc : n'.calls = n.calls)
    (hp : n'.pendingRequests = n.pendingRequests) : ∃ es, Settles n n' es :=
  ⟨[], by simp [ha], hc, hp⟩

theorem Settles.trans (h : Settles n n' es) (h' : Settles n' n'' es') : Settles n n'' (es ++ es') := by
  obtain ⟨hcalls, hpending⟩ := resolveAll_congr h.calls h.pending es'
  have happend : n.resolveAll (es ++ es') = (n.resolveAll es).resolveAll es' := List.foldl_append
  refine ⟨?_, ?_, ?_⟩
  · rw [h'.applied, h.applied, List.append_assoc]
  · rw [h'.calls, hcalls, happend]
  · rw [h'.pending, hpending, happend]

/-- Only the applied entries and the futures of the first node matter. -/
theorem Settles.of_eq {m : RaftNode ι κ} (h : Settles m n' es) (ha : m.applied = n.applied) (hc : m.calls = n.calls)
    (hp : m.pendingRequests = n.pendingRequests) : Settles n n' es := by
  obtain ⟨hcalls, hpending⟩ := resolveAll_congr hc hp es
  exact ⟨ha ▸ h.applied, h.calls.trans hcalls, h.pending.trans hpending⟩

/-- A round of `_apply_committed`. -/
theorem Settles.round (n : RaftNode ι κ) (la : Nat) (e : LogEntry κ) :
    Settles n ({ n with lastApplied := la, applied := n.applied ++ [e] }.resolvePending e.index) [e] := by
  let m : RaftNode ι κ := { n with lastApplied := la, applied := n.applied ++ [e] }
  have hc : m.calls = n.calls := rfl
  have hp : m.pendingRequests = n.pendingRequests := rfl
  obtain ⟨hcalls, hpending⟩ := resolveAll_congr hc hp [e]
  obtain ⟨pr, cs, hf⟩ := resolvePending_frame m e.index
  exact ⟨by rw [hf], hcalls, hpending⟩

private theorem applyLoop_settles (k : Nat) (n : RaftNode ι κ) : ∃ es, Settles n (n.applyLoop k).state es := by
  induction k generalizing n with
  | zero => exact settles_nil rfl rfl rfl
  | succ k ih =>
    cases hget : n.log[n.lastApplied + 1 - 1]? with
    | none =>
      simp only [RaftNode.applyLoop, hget]
      exact settles_nil rfl rfl rfl
    | some e =>
      simp only [RaftNode.applyLoop, hget]
      obtain ⟨es, hes⟩ := ih ({ n with
        lastApplied := n.lastApplied + 1, applied := n.applied ++ [e] }.resolvePending e.index)
      exact ⟨[e] ++ es, (Settles.round n _ e).trans hes⟩

theorem settles_applyCommitted (n : RaftNode ι κ) (ci : Nat) :
    ∃ es, Settles n ({ n with commitIndex := ci }.applyCommitted).state es := by
  obtain ⟨es, hes⟩ := applyLoop_settles (ci - n.lastApplied) { n with commitIndex := ci }
  exact ⟨es, hes.of_eq rfl rfl rfl⟩

private theorem settles_applies (n : RaftNode ι κ) : Applies fun m : RaftNode ι κ => ∃ es, Settles n m es := by
  rintro m c ⟨es, hes⟩ - -
  obtain ⟨es', hes'⟩ := settles_applyCommitted m c
  exact ⟨es ++ es', hes.trans hes'⟩

end Resolve

/-! ### What a step does to the futures -/

variable {ι κ : Type} {n n' s s' : RaftNode ι κ} {q : Nat}

/-- The call `q` waits, and the step takes its future out of the map: a proposal that gets the same index replaces
it, or the timeout of another proposal with that index pops it. -/
def Disturbs (q : Nat) (s : RaftNode ι κ) : NodeAction ι κ → Prop
  | .propose _ => ∃ c ∈ s.calls[q]?, c.future = .pending ∧ c.entry.index = s.log.length + 1
  | .proposeTimeout call => call ≠ q ∧ ∃ c ∈ s.calls[q]?, c.future = .pending ∧
      ∃ c' ∈ s.calls[call]?, c'.entry.index = c.entry.index
  | _ => False

instance (q : Nat) (s : RaftNode ι κ) (act : NodeAction ι κ) : Decidable (Disturbs q s act) := by
  cases act <;> (unfold Disturbs; infer_instance)

/-- What a step does to the applied entries and the futures. -/
inductive FutureEffect (s : RaftNode ι κ) : NodeAction ι κ → RaftNode ι κ → Prop where
  | proposed (command : κ) : FutureEffect s (.propose command) (propose s command)
  | returned (call : Nat) (c : ProposeCall κ) (hc : s.calls[call]? = some c) (hf : c.future = .resolved) :
    FutureEffect s (.proposeReturn call) (proposeReturn s call)
  | timedOut (call : Nat) (c : ProposeCall κ) (hc : s.calls[call]? = some c) (hf : c.future = .pending) :
    FutureEffect s (.proposeTimeout call) (proposeTimeout s call c)
  | settled (act : NodeAction ι κ) (n : RaftNode ι κ) (es : List (LogEntry κ)) (hact : ∀ q, ¬Disturbs q s act)
      (hs : Settles s n es) : FutureEffect s act n

private theorem tryAdvanceCommit_settles (me : Self ι) (n : RaftNode ι κ) :
    ∃ es, Settles n (tryAdvanceCommit me n).state es := by
  obtain ⟨_, _, _, _, _, -, -, -, happ⟩ := tryAdvanceCommit_spec me n
  exact happ _ (settles_applies n) (settles_nil rfl rfl rfl)

private theorem adoptCommit_settles (n : RaftNode ι κ) (lc : Nat) : ∃ es, Settles n (adoptCommit n lc).state es := by
  unfold adoptCommit
  split
  · exact settles_applyCommitted n _
  · exact settles_nil rfl rfl rfl

private theorem NodeLocal.futureEffect [DecidableEq ι] {me : Self ι} {act : NodeAction ι κ}
    (h : NodeLocal me s act s') : FutureEffect s act s' := by
  have hsettled : ∀ {act : NodeAction ι κ} {n : RaftNode ι κ}, (∀ q, ¬Disturbs q s act) →
      (∃ es, Settles s n es) → FutureEffect s act n := fun hact ⟨es, hes⟩ => .settled _ _ es hact hes
  cases h with
  | startElection hl he => exact hsettled (fun _ hd => hd) (settles_nil rfl rfl rfl)
  | collectVote src msg resp =>
    obtain ⟨el, hf⟩ := collectVote_frame s src msg resp
    rw [hf]
    exact hsettled (fun _ hd => hd) (settles_nil rfl rfl rfl)
  | won el he hw => exact hsettled (fun _ hd => hd) (settles_nil rfl rfl rfl)
  | lost el he hw => exact hsettled (fun _ hd => hd) (settles_nil rfl rfl rfl)
  | propose command hl => exact .proposed command
  | proposeReturn call c hc hf hr => exact .returned call c hc hf
  | proposeTimeout call c hc hf => exact .timedOut call c hc hf
  | response pid msg resp n hp =>
    refine hsettled (fun _ hd => hd) ?_
    cases hp with
    | stepDown ht => exact settles_nil rfl rfl rfl
    | rejected hs => exact settles_nil rfl rfl rfl
    | keyError => exact settles_nil rfl rfl rfl
    | heartbeat ht hs he => exact tryAdvanceCommit_settles me s
    | matched pli ht hs he hp =>
      obtain ⟨es, hes⟩ := tryAdvanceCommit_settles me (recordMatch s pid (pli + (msg.data.entries.getD []).length))
      exact ⟨es, hes.of_eq rfl rfl rfl⟩
  | request msg n resp hh =>
    refine hsettled (fun _ hd => hd) ?_
    have hobs : ∃ es, Settles s (observeTerm s msg.term) es := by
      obtain ⟨ct, st, v, l, hf⟩ := observeTerm_frame s msg.term
      rw [hf]
      exact settles_nil rfl rfl rfl
    cases hh with
    | ignored resp hv hs => exact hobs
    | voted hm ht hfree hup =>
      obtain ⟨es, hes⟩ := hobs
      exact ⟨es, hes.applied, hes.calls, hes.pending⟩
    | rejected hm ht hp => exact settles_nil rfl rfl rfl
    | accepted hm ht hp =>
      obtain ⟨es, hes⟩ := adoptCommit_settles { follow s msg.senderId msg.term with
        log := installEntries s.log (msg.data.prevLogIndex.getD 0) (msg.data.entries.getD []) }
        (msg.data.leaderCommit.getD 0)
      exact ⟨es, hes.of_eq rfl rfl rfl⟩

/-- Calls are never forgotten, nor are the entries that they have appended. -/
theorem FutureEffect.entry {act : NodeAction ι κ} {c : ProposeCall κ} (h : FutureEffect s act s')
    (hc : s.calls[q]? = some c) : ∃ c', s'.calls[q]? = some c' ∧ c'.entry = c.entry := by
  cases h with
  | proposed command => exact ⟨c, Positions.getElem?_append_of_some hc _, rfl⟩
  | returned call c' hc' hf => exact ⟨_, Positions.getElem?_modify_of_some hc _, by split <;> rfl⟩
  | timedOut call c' hc' hf => exact ⟨_, Positions.getElem?_modify_of_some hc _, by split <;> rfl⟩
  | settled act n es hact hs =>
    rw [hs.calls, resolveAll_calls, hc]
    split
    · exact ⟨c.resolve, rfl, c.resolve_entry⟩
    · exact ⟨c, rfl, rfl⟩

theorem call_entry [DecidableEq ι] {cfg : ClusterConfig ι} {r r' : Cluster ι κ} {a : ι} {c : ProposeCall κ}
    (h : Transition.Reach (Steps cfg) r r') (hc : (r.nodes a).calls[q]? = some c) :
    ∃ c', (r'.nodes a).calls[q]? = some c' ∧ c'.entry = c.entry := by
  refine Transition.ReachWhile.invariant (I := fun t => ∃ c', (t.nodes a).calls[q]? = some c' ∧ c'.entry = c.entry) h
    ⟨c, hc, rfl⟩ fun t act t' _ ht _ hst => ?_
  obtain ⟨c', hc', hentry⟩ := ht
  rcases Steps.node hst a with hsame | ⟨x, hx⟩
  · exact ⟨c', by rw [hsame, hc'], hentry⟩
  · obtain ⟨c'', hc'', hentry'⟩ := (NodeSteps.local hx).futureEffect.entry hc'
    exact ⟨c'', hc'', hentry'.trans hentry⟩

/-! ### Waiting, lost and resolved calls -/

variable {act : NodeAction ι κ} {c : ProposeCall κ} {es : List (LogEntry κ)}

/-- Futures are registered under the indices of their entries, and only a cancelled one belongs to a call that has
returned `False`. -/
structure CallBook (n : RaftNode ι κ) : Prop where
  keyed : ∀ i k, n.pendingRequests i = some k → ∃ c, n.calls[k]? = some c ∧ c.entry.index = i
  returned : ∀ (k : Nat) c, n.calls[k]? = some c → c.future ≠ .cancelled → c.returned ≠ some false

/-- As long as the call `q` waits, its future is registered. -/
def Waiting (q : Nat) (n : RaftNode ι κ) : Prop :=
  ∀ c, n.calls[q]? = some c → c.future = .pending → n.pendingRequests c.entry.index = some q

/-- The future of the call `q` is not resolved, and nothing refers to it any more. -/
def Lost (q : Nat) (n : RaftNode ι κ) : Prop :=
  (∃ c, n.calls[q]? = some c ∧ c.future ≠ .resolved) ∧ ∀ i, n.pendingRequests i ≠ some q

/-- The future of the call `q` is resolved, and the call has returned `True` or has not returned yet. -/
def Done (q : Nat) (n : RaftNode ι κ) : Prop :=
  ∃ c, n.calls[q]? = some c ∧ c.future = .resolved ∧ c.returned ≠ some false

theorem resolve_of_not_pending (h : c.future ≠ .pending) : c.resolve = c := by
  simp [ProposeCall.resolve, h]

private theorem resolve_future_ne (c : ProposeCall κ) : c.resolve.future ≠ .pending := by
  unfold ProposeCall.resolve
  split
  · simp
  · assumption

/-- A call after entries have been applied is the same or has its future resolved. -/
theorem Settles.call (h : Settles n n' es) (hc : n'.calls[q]? = some c) : ∃ c₀, n.calls[q]? = some c₀ ∧
    (c = c₀ ∧ (∀ e ∈ es, n.pendingRequests e.index ≠ some q) ∨ c = c₀.resolve) := by
  rw [h.calls, resolveAll_calls] at hc
  split at hc
  · obtain ⟨c₀, hc₀, rfl⟩ := Option.map_eq_some_iff.1 hc
    exact ⟨c₀, hc₀, Or.inr rfl⟩
  · rename_i hnone
    push Not at hnone
    exact ⟨c, hc, Or.inl ⟨rfl, hnone⟩⟩

/-- No future is registered while entries are applied. -/
theorem Settles.registered (h : Settles n n' es) {i : Nat} (hp : n'.pendingRequests i = some q) :
    n.pendingRequests i = some q := by
  rw [h.pending, resolveAll_pendingRequests] at hp
  split at hp
  · cases hp
  · exact hp

theorem CallBook.step (h : CallBook s) (he : FutureEffect s act s') : CallBook s' := by
  cases he with
  | proposed command =>
    refine ⟨fun i k hk => ?_, fun k c hc hf => ?_⟩
    · rw [propose_pendingRequests] at hk
      split at hk
      · rename_i hi
        obtain rfl : s.calls.length = k := Option.some.inj hk
        exact ⟨_, List.getElem?_concat_length, hi.symm⟩
      · obtain ⟨c, hc, hidx⟩ := h.keyed i k hk
        exact ⟨c, Positions.getElem?_append_of_some hc _, hidx⟩
    · rcases Positions.getElem?_concat hc with ⟨-, hc⟩ | ⟨-, rfl⟩
      · exact h.returned k c hc hf
      · simp
  | returned call c hc hf =>
    refine ⟨fun i k hk => ?_, fun k c' hk hf' => ?_⟩
    · obtain ⟨x, hx, hidx⟩ := h.keyed i k hk
      refine ⟨_, Positions.getElem?_modify_of_some hx _, ?_⟩
      split <;> exact hidx
    · obtain ⟨x, hx, rfl⟩ := Positions.getElem?_modify_some hk
      split
      · simp
      · rw [if_neg ‹_›] at hf'
        exact h.returned k x hx hf'
  | timedOut call c hc hf =>
    refine ⟨fun i k hk => ?_, fun k c' hk hf' => ?_⟩
    · rw [proposeTimeout_pendingRequests] at hk
      split at hk
      · cases hk
      · obtain ⟨x, hx, hidx⟩ := h.keyed i k hk
        refine ⟨_, Positions.getElem?_modify_of_some hx _, ?_⟩
        split <;> exact hidx
    · obtain ⟨x, hx, rfl⟩ := Positions.getElem?_modify_some hk
      split at hf'
      · simp at hf'
      · rw [if_neg ‹_›]
        exact h.returned k x hx hf'
  | settled act n es hact hs =>
    refine ⟨fun i k hk => ?_, fun k c hc hf => ?_⟩
    · obtain ⟨x, hx, hidx⟩ := h.keyed i k (hs.registered hk)
      rw [hs.calls, resolveAll_calls, hx]
      split
      · exact ⟨x.resolve, rfl, (congrArg LogEntry.index (ProposeCall.resolve_entry x)).trans hidx⟩
      · exact ⟨x, rfl, hidx⟩
    · obtain ⟨x, hx, ⟨rfl, -⟩ | rfl⟩ := hs.call hc
      · exact h.returned k c hx hf
      · rw [ProposeCall.resolve_returned]
        refine h.returned k x hx fun hx' => hf ?_
        rw [resolve_of_not_pending (by simp [hx']), hx']

/-- The future of a waiting call stays registered, just if the step does not disturb it. -/
theorem Waiting.step_iff (h : Waiting q s) (he : FutureEffect s act s') : ¬Disturbs q s act ↔ Waiting q s' := by
  cases he with
  | proposed command =>
    constructor
    · intro hd c hc hf
      rcases Positions.getElem?_concat hc with ⟨-, hold⟩ | ⟨rfl, rfl⟩
      · have hidx : c.entry.index ≠ s.log.length + 1 := fun hidx => hd ⟨c, hold, hf, hidx⟩
        rw [propose_pendingRequests, if_neg hidx]
        exact h c hold hf
      · rw [propose_pendingRequests]
        exact if_pos rfl
    · rintro hw ⟨c, hc, hf, hidx⟩
      have hlt := (List.getElem?_eq_some_iff.1 hc).1
      have hreg := hw c (Positions.getElem?_append_of_some hc _) hf
      rw [propose_pendingRequests, if_pos hidx] at hreg
      have hlen : s.calls.length = q := Option.some.inj hreg
      omega
  | returned call c hc hf =>
    refine ⟨fun _ c' hc' hf' => ?_, fun _ hd => hd⟩
    obtain ⟨x, hx, rfl⟩ := Positions.getElem?_modify_some hc'
    split at hf'
    · rw [if_pos ‹_›]
      exact h x hx hf'
    · rw [if_neg ‹_›]
      exact h x hx hf'
  | timedOut call c hc hf =>
    constructor
    · intro hd c' hc' hf'
      obtain ⟨x, hx, rfl⟩ := Positions.getElem?_modify_some hc'
      by_cases hcall : call = q
      · rw [if_pos hcall] at hf'
        cases hf'
      · rw [if_neg hcall] at hf' ⊢
        have hidx : x.entry.index ≠ c.entry.index := fun hidx => hd ⟨hcall, x, hx, hf', c, hc, hidx.symm⟩
        rw [proposeTimeout_pendingRequests, if_neg hidx]
        exact h x hx hf'
    · rintro hw ⟨hcall, x, hx, hf', c', hc', hidx⟩
      obtain rfl : c' = c := Option.some.inj (hc'.symm.trans hc)
      have hkept : (proposeTimeout s call c').calls[q]? = some x := by
        have hmod := Positions.getElem?_modify_of_some (i := call) hx
          fun c => { c with future := .cancelled, returned := some false }
        rwa [if_neg hcall] at hmod
      have hreg := hw x hkept hf'
      rw [proposeTimeout_pendingRequests, if_pos hidx.symm] at hreg
      cases hreg
  | settled act n es hact hs =>
    refine ⟨fun _ c hc hf => ?_, fun _ => hact q⟩
    obtain ⟨x, hx, ⟨rfl, hnone⟩ | rfl⟩ := hs.call hc
    · have hreg := h c hx hf
      have hother : ¬∃ e ∈ es, e.index = c.entry.index := by
        rintro ⟨e, he, hidx⟩
        exact hnone e he (by rw [hidx, hreg])
      rw [hs.pending, resolveAll_pendingRequests, if_neg hother, hreg]
    · exact absurd hf (resolve_future_ne x)

/-- A call whose future is not registered any more is lost. -/
theorem CallBook.lost (h : CallBook n) (hw : ¬Waiting q n) : Lost q n := by
  unfold Waiting at hw
  push Not at hw
  obtain ⟨c, hc, hf, hreg⟩ := hw
  refine ⟨⟨c, hc, by simp [hf]⟩, fun i hi => ?_⟩
  obtain ⟨c', hc', hidx⟩ := h.keyed i q hi
  obtain rfl : c' = c := Option.some.inj (hc'.symm.trans hc)
  exact hreg (hidx ▸ hi)

theorem Lost.step (h : Lost q s) (he : FutureEffect s act s') : Lost q s' := by
  obtain ⟨⟨c, hc, hf⟩, hnone⟩ := h
  cases he with
  | proposed command =>
    have hlt := (List.getElem?_eq_some_iff.1 hc).1
    refine ⟨⟨c, Positions.getElem?_append_of_some hc _, hf⟩, fun i hi => ?_⟩
    rw [propose_pendingRequests] at hi
    split at hi
    · have hlen : s.calls.length = q := Option.some.inj hi
      omega
    · exact hnone i hi
  | returned call x hx hfx =>
    refine ⟨⟨_, Positions.getElem?_modify_of_some hc _, ?_⟩, hnone⟩
    split <;> exact hf
  | timedOut call x hx hfx =>
    refine ⟨⟨_, Positions.getElem?_modify_of_some hc _, ?_⟩, fun i hi => ?_⟩
    · split
      · simp
      · exact hf
    · rw [proposeTimeout_pendingRequests] at hi
      split at hi
      · cases hi
      · exact hnone i hi
  | settled act n es hact hs =>
    refine ⟨⟨c, ?_, hf⟩, fun i hi => hnone i (hs.registered hi)⟩
    have hother : ¬∃ e ∈ es, s.pendingRequests e.index = some q := by
      rintro ⟨e, -, he⟩
      exact hnone e.index he
    rw [hs.calls, resolveAll_calls, if_neg hother, hc]

theorem Done.step (h : Done q s) (he : FutureEffect s act s') : Done q s' := by
  obtain ⟨c, hc, hf, hr⟩ := h
  cases he with
  | proposed command => exact ⟨c, Positions.getElem?_append_of_some hc _, hf, hr⟩
  | returned call x hx hfx =>
    refine ⟨_, Positions.getElem?_modify_of_some hc _, ?_, ?_⟩
    · split <;> exact hf
    · split
      · simp
      · exact hr
  | timedOut call x hx hfx =>
    have hcall : call ≠ q := by
      rintro rfl
      obtain rfl : x = c := Option.some.inj (hx.symm.trans hc)
      rw [hf] at hfx
      cases hfx
    refine ⟨_, Positions.getElem?_modify_of_some hc _, ?_⟩
    rw [if_neg hcall]
    exact ⟨hf, hr⟩
  | settled act n es hact hs =>
    refine ⟨c, ?_, hf, hr⟩
    rw [hs.calls, resolveAll_calls, hc]
    split
    · exact congrArg some (resolve_of_not_pending (by simp [hf]))
    · rfl

/-- Applying the entry of a waiting call resolves its future. -/
theorem Waiting.applied (h : Waiting q s) (hb : CallBook s) (he : FutureEffect s act s') (hc : s.calls[q]? = some c)
    (hf : c.future = .pending) {k : Nat} (hk : s.applied.length ≤ k) (happ : s'.applied[k]? = some c.entry) :
    Done q s' := by
  have hnew : s'.applied ≠ s.applied := by
    intro hsame
    rw [hsame, List.getElem?_eq_none hk] at happ
    cases happ
  cases he with
  | proposed command => exact absurd rfl hnew
  | returned call x hx hfx => exact absurd rfl hnew
  | timedOut call x hx hfx => exact absurd rfl hnew
  | settled act n es hact hs =>
    rw [hs.applied, List.getElem?_append_right hk] at happ
    have hmem : ∃ e ∈ es, s.pendingRequests e.index = some q := ⟨c.entry, List.mem_of_getElem? happ, h c hc hf⟩
    refine ⟨c.resolve, ?_, by simp [ProposeCall.resolve, hf], ?_⟩
    · rw [hs.calls, resolveAll_calls, if_pos hmem, hc]
      rfl
    · rw [ProposeCall.resolve_returned]
      exact hb.returned q c hc (by simp [hf])

/-! ### Runs -/

variable [DecidableEq ι] {me : Self ι}

private theorem NodeReach.callBook (h : NodeReach me s) : CallBook s :=
  NodeReach.invariant (I := fun n => CallBook n) h ⟨by simp, by simp⟩ fun _ _ _ hb hl => hb.step hl.futureEffect

/-- No step of the run disturbs the call `q`. -/
def Undisturbed (me : Self ι) (q : Nat) (acts : List (NodeAction ι κ)) : Prop :=
  ∀ pre act s s', pre ++ [act] <+: acts → Transition.run (nodeNext me) {} pre = some s →
    nodeNext me s act = some s' → ¬Disturbs q s act

/-- Whatever the node does from now on, the future of the call is resolved and the call returns nothing but `True`. -/
def Succeeds (me : Self ι) (q : Nat) (s : RaftNode ι κ) : Prop :=
  ∀ t, Transition.Reach (NodeSteps me) s t → Done q t

/-- Along a run, a waiting call has its future registered just if no step disturbs it. -/
theorem undisturbed_iff (me : Self ι) (q : Nat) (acts : List (NodeAction ι κ)) :
    (∀ pre, pre <+: acts → ∀ s, Transition.run (nodeNext me) {} pre = some s → Waiting q s) ↔
      Undisturbed me q acts :=
  Transition.forall_prefix_iff (I := fun _ => True) trivial (fun _ _ _ _ _ => trivial) (fun _ hc => by simp at hc)
    (fun _ _ _ _ hw hst => hw.step_iff (NodeSteps.local hst).futureEffect) acts

/-- A call whose own entry is applied before its timeout succeeds, just if no step before took its future out of the
map. -/
theorem own_entry_applied_iff (me : Self ι) {acts : List (NodeAction ι κ)} {s s' : RaftNode ι κ}
    (hrun : Transition.run (nodeNext me) {} acts = some s) {q : Nat} {c : ProposeCall κ}
    (hc : s.calls[q]? = some c) (hf : c.future ≠ .cancelled) {act : NodeAction ι κ} (hst : nodeNext me s act = some s')
    {k : Nat} (hk : s.applied.length ≤ k) (happ : s'.applied[k]? = some c.entry) :
    Succeeds me q s' ↔ Undisturbed me q acts := by
  rw [← undisturbed_iff]
  constructor
  · -- a call that is lost on the way stays lost
    intro hsucc pre hpre t ht
    by_contra hw
    obtain ⟨rest, rfl⟩ := hpre
    rw [Transition.run_append, ht, Option.bind_some] at hrun
    have hreach : NodeReach me t := Transition.reach_of_run ht
    have hlost : Lost q s := (Transition.reach_of_run hrun).invariant (hreach.callBook.lost hw)
      fun _ _ _ _ hl _ hst => hl.step (NodeSteps.local hst).futureEffect
    obtain ⟨⟨x, hx, hne⟩, -⟩ := hlost.step (NodeSteps.local hst).futureEffect
    obtain ⟨y, hy, hres, -⟩ := hsucc s' .refl
    obtain rfl : x = y := Option.some.inj (hx.symm.trans hy)
    exact hne hres
  · intro hwait t ht
    have hreach : NodeReach me s := Transition.reach_of_run hrun
    have hb := hreach.callBook
    have heff := (NodeSteps.local hst).futureEffect
    have hdone : Done q s' := by
      cases hfc : c.future with
      | pending => exact (hwait acts List.prefix_rfl s hrun).applied hb heff hc hfc hk happ
      | resolved => exact Done.step ⟨c, hc, hfc, hb.returned q c hc hf⟩ heff
      | cancelled => exact absurd hfc hf
    exact ht.invariant hdone fun _ _ _ _ hd _ hst => hd.step (NodeSteps.local hst).futureEffect

/-- The only proposal of a leader is confirmed by its peer. -/
theorem own_entry_applied_run : ∃ s s' : RaftNode (Fin 2) Nat, Transition.run (nodeNext ⟨0, [1]⟩) {} [
      .startElection, .collectVote 1 (voteRequest ⟨0, [1]⟩ { currentTerm := 1 }) { voteGranted := some true },
      .countVotes, .propose 7] = some s ∧
    nodeNext ⟨0, [1]⟩ s (.processAeResp 1 (appendRequest ⟨0, [1]⟩ { log := [⟨1, 1, 7⟩] } 1)
      { success := some true }) = some s' ∧
    s'.applied = [⟨1, 1, 7⟩] ∧ Succeeds ⟨0, [1]⟩ 0 s' := by
  have hrun : ((Transition.runWhile (nodeNext ⟨0, [1]⟩) (fun s act => ¬Disturbs 0 s act)
      ({} : RaftNode (Fin 2) Nat) [.startElection,
      .collectVote 1 (voteRequest ⟨0, [1]⟩ { currentTerm := 1 }) { voteGranted := some true },
      .countVotes, .propose 7]).bind fun s => (nodeNext ⟨0, [1]⟩ s (.processAeResp 1
        (appendRequest ⟨0, [1]⟩ { log := [⟨1, 1, 7⟩] } 1) { success := some true })).map fun s' =>
          (s.calls, s.applied, s'.applied)) = some ([⟨⟨1, 1, 7⟩, .pending, none⟩], [], [⟨1, 1, 7⟩]) := by decide
  obtain ⟨s, hs, hstep⟩ := Option.bind_eq_some_iff.1 hrun
  obtain ⟨s', hs', hobs⟩ := Option.map_eq_some_iff.1 hstep
  simp only [Prod.mk.injEq] at hobs
  obtain ⟨hcalls, hbefore, hafter⟩ := hobs
  have hplain := (Transition.ReachWhile.of_runWhile .refl hs).2
  refine ⟨s, s', hplain, hs', hafter, ?_⟩
  refine (own_entry_applied_iff ⟨0, [1]⟩ hplain (q := 0) (c := ⟨⟨1, 1, 7⟩, .pending, none⟩) (by rw [hcalls]; rfl)
    (by decide) hs' (k := 0) (by rw [hbefore]; decide) (by rw [hafter]; rfl)).2 ?_
  exact fun pre act t _ hpre ht _ => Transition.ok_of_runWhile hs hpre ht

/-- Node `0` loses its leadership with an entry at index `2`, whose proposal still waits when the node leads again
and gives index `2` to another one.  The first timeout pops the second future, so the second proposal returns
`False` although its entry has been applied. -/
theorem applied_proposal_times_out : ∃ c c' : Cluster (Fin 3) Nat, Reach trio c ∧
    Steps trio c (.proposeTimeout 0 2) c' ∧ (c.nodes 0).calls[2]? = some ⟨⟨3, 2, 5⟩, .pending, none⟩ ∧
    (c.nodes 0).applied[1]? = some ⟨3, 2, 5⟩ ∧
    (c'.nodes 0).calls[2]? = some ⟨⟨3, 2, 5⟩, .cancelled, some false⟩ := by
  have hrun : ((Transition.run (step trio) (Cluster.init : Cluster (Fin 3) Nat) [
      -- node `0` leads in term 1 and proposes twice, and nothing arrives
      .startElection 0, .deliver 0, .deliver 1, .deliver 0, .lose 0, .countVotes 0,
      .propose 0 7, .lose 0, .lose 0, .propose 0 8, .lose 0, .lose 0,
      -- node `1` leads in term 2 and replaces the log of node `0`
      .startElection 1, .lose 0, .deliver 0, .deliver 0, .countVotes 1, .propose 1 9, .lose 1, .deliver 0, .lose 0,
      -- node `0` leads in term 3, and its old proposal times out
      .startElection 0, .deliver 0, .deliver 1, .lose 0, .countVotes 0, .propose 0 5, .proposeTimeout 0 1,
      .deliver 0, .deliver 1]).bind fun c => (step trio c (.proposeTimeout 0 2)).map fun c' =>
        decide ((c.nodes 0).calls[2]? = some ⟨⟨3, 2, 5⟩, .pending, none⟩ ∧
          (c.nodes 0).applied[1]? = some ⟨3, 2, 5⟩ ∧
          (c'.nodes 0).calls[2]? = some ⟨⟨3, 2, 5⟩, .cancelled, some false⟩)) = some true := by decide
  obtain ⟨c, hc, hstep⟩ := Option.bind_eq_some_iff.1 hrun
  obtain ⟨c', hc', hobs⟩ := Option.map_eq_some_iff.1 hstep
  exact ⟨c, c', Transition.reach_of_run hc, hc', of_decide_eq_true hobs⟩

end DistributedSync.Raft
