import Mathlib.Order.Bounds.Defs
import DistributedSync.Raft.Handlers

/-!
# The commit rule and the commit callbacks

`_apply_committed` hands each entry to the functions registered with `on_commit`.  Here these are arbitrary: they work
on a state of their own and may raise, which the loop logs and goes on.  The node does what it does without callbacks,
and the callbacks are given the entries that `applied` lists (`Fed`), so everything about the node carries over.
-/

namespace DistributedSync.Raft

/-- A function registered with `on_commit`, with the state that it works on. -/
abbrev Callback (κ σ : Type) := LogEntry κ → σ → Outcome σ Unit

variable {ι κ σ : Type}

/-- Every callback gets the entry; one that raises keeps what it has done so far. -/
def runCallbacks (cbs : List (Callback κ σ)) (m : σ) (entry : LogEntry κ) : σ :=
  cbs.foldl (fun m cb => (cb entry m).state) m

/-- The `while` loop of `_apply_committed`, `n` rounds of it. -/
def applyLoopWith (cbs : List (Callback κ σ)) : Nat → RaftNode ι κ → σ → Outcome (RaftNode ι κ × σ) Unit
  | 0, s, m => ⟨(s, m), .ok ()⟩
  | n + 1, s, m =>
    let s := { s with lastApplied := s.lastApplied + 1 }
    match s.log[s.lastApplied - 1]? with
    | none => ⟨(s, m), .error .indexError⟩
    | some entry => applyLoopWith cbs n ({ s with applied := s.applied ++ [entry] }.resolvePending entry.index)
        (runCallbacks cbs m entry)

def applyCommittedWith (cbs : List (Callback κ σ)) (s : RaftNode ι κ) (m : σ) : Outcome (RaftNode ι κ × σ) Unit :=
  applyLoopWith cbs (s.commitIndex - s.lastApplied) s m

/-- The `for` loop of `_try_advance_commit` over the indices `ns`. -/
def advanceLoopWith (me : Self ι) (cbs : List (Callback κ σ)) :
    List Nat → RaftNode ι κ → σ → Outcome (RaftNode ι κ × σ) Unit
  | [], s, m => ⟨(s, m), .ok ()⟩
  | n :: ns, s, m =>
    match s.log[n - 1]? with
    | none => ⟨(s, m), .error .indexError⟩
    | some entry =>
      if entry.term ≠ s.currentTerm then advanceLoopWith me cbs ns s m
      else if me.quorumSize ≤ replicated me s n then
        match applyCommittedWith cbs { s with commitIndex := n } m with
        | ⟨(s, m), .ok _⟩ => advanceLoopWith me cbs ns s m
        | ⟨(s, m), .error e⟩ => ⟨(s, m), .error e⟩
      else advanceLoopWith me cbs ns s m

def tryAdvanceCommitWith (me : Self ι) (cbs : List (Callback κ σ)) (s : RaftNode ι κ) (m : σ) :
    Outcome (RaftNode ι κ × σ) Unit :=
  if s.state = .leader then
    advanceLoopWith me cbs (List.range' (s.commitIndex + 1) (s.log.length - s.commitIndex)) s m
  else ⟨(s, m), .ok ()⟩

/-! ### The node without its callbacks -/

/-- The node and the result are those of `o`, and the callbacks have been given what `o` adds to the applied
entries. -/
def Fed (cbs : List (Callback κ σ)) (s : RaftNode ι κ) (m : σ) (o : Outcome (RaftNode ι κ) Unit)
    (o' : Outcome (RaftNode ι κ × σ) Unit) : Prop :=
  ∃ new, o.state.applied = s.applied ++ new ∧ o' = ⟨(o.state, new.foldl (runCallbacks cbs) m), o.result⟩

variable {cbs : List (Callback κ σ)}

theorem Fed.refl (s : RaftNode ι κ) (m : σ) (r : Except PyError Unit) : Fed cbs s m ⟨s, r⟩ ⟨(s, m), r⟩ :=
  ⟨[], by simp, rfl⟩

private theorem applyLoop_fed (n : Nat) (s : RaftNode ι κ) (m : σ) :
    Fed cbs s m (s.applyLoop n) (applyLoopWith cbs n s m) := by
  induction n generalizing s m with
  | zero => exact .refl s m _
  | succ n ih =>
    cases hget : s.log[s.lastApplied + 1 - 1]? with
    | none =>
      simp only [RaftNode.applyLoop, applyLoopWith, hget]
      exact ⟨[], by simp, rfl⟩
    | some entry =>
      simp only [RaftNode.applyLoop, applyLoopWith, hget]
      obtain ⟨pr, cs, hf⟩ := resolvePending_frame
        { s with lastApplied := s.lastApplied + 1, applied := s.applied ++ [entry] } entry.index
      obtain ⟨new, happ, hout⟩ := ih ({ s with
        lastApplied := s.lastApplied + 1, applied := s.applied ++ [entry] }.resolvePending entry.index)
        (runCallbacks cbs m entry)
      refine ⟨entry :: new, ?_, hout⟩
      rw [happ, hf]
      simp

private theorem applyCommitted_fed (cbs : List (Callback κ σ)) (s : RaftNode ι κ) (m : σ) :
    Fed cbs s m s.applyCommitted (applyCommittedWith cbs s m) :=
  applyLoop_fed (s.commitIndex - s.lastApplied) s m

private theorem advanceLoop_fed (me : Self ι) (ns : List Nat) (s : RaftNode ι κ) (m : σ) :
    Fed cbs s m (advanceLoop me ns s) (advanceLoopWith me cbs ns s m) := by
  induction ns generalizing s m with
  | nil => exact .refl s m _
  | cons n ns ih =>
    unfold advanceLoop advanceLoopWith
    cases hget : s.log[n - 1]? with
    | none => exact .refl s m _
    | some entry =>
      by_cases hterm : entry.term = s.currentTerm
      · by_cases hq : me.quorumSize ≤ replicated me s n
        · -- the index is committed, and the loop goes on after the entries up to it
          simp only [hterm, ne_eq, not_true_eq_false, ↓reduceIte, hq]
          obtain ⟨new, hnew, hwith⟩ := applyCommitted_fed cbs { s with commitIndex := n } m
          rw [hwith]
          revert hnew
          rcases ({ s with commitIndex := n } : RaftNode ι κ).applyCommitted with ⟨s', _ | _⟩
          · exact fun hnew => ⟨new, hnew, rfl⟩
          · intro (hnew : s'.applied = s.applied ++ new)
            obtain ⟨rest, happ, hout⟩ := ih s' (new.foldl (runCallbacks cbs) m)
            refine ⟨new ++ rest, ?_, ?_⟩
            · show (advanceLoop me ns s').state.applied = s.applied ++ (new ++ rest)
              rw [happ, hnew, List.append_assoc]
            · simp only [hout, List.foldl_append]
        · simp only [hterm, ne_eq, not_true_eq_false, ↓reduceIte, hq]
          exact ih s m
      · simp only [ne_eq, hterm, not_false_eq_true, ↓reduceIte]
        exact ih s m

private theorem tryAdvanceCommit_fed (me : Self ι) (cbs : List (Callback κ σ)) (s : RaftNode ι κ) (m : σ) :
    Fed cbs s m (tryAdvanceCommit me s) (tryAdvanceCommitWith me cbs s m) := by
  unfold tryAdvanceCommit tryAdvanceCommitWith
  split
  · exact advanceLoop_fed me _ s m
  · exact .refl s m _

/-! ### The commit rule -/

/-- Nothing is applied as long as the commit index stays, and afterwards everything up to it. -/
theorem appliesTo_applies (s : RaftNode ι κ) : Applies fun n : RaftNode ι κ => n.log = s.log ∧
    s.commitIndex ≤ n.commitIndex ∧ (n.commitIndex = s.commitIndex ∧ n.lastApplied = s.lastApplied ∧
      n.applied = s.applied ∨ AppliesTo s n n.commitIndex) := by
  rintro n c ⟨hlog, hle, h⟩ hc hlen
  have happ := applyCommitted_spec (s := { n with commitIndex := c }) hlen
  obtain ⟨la, ap, pr, cs, hf⟩ := applyCommitted_frame { n with commitIndex := c }
  rw [hf] at happ ⊢
  refine ⟨hlog, hle.trans hc, Or.inr ?_⟩
  rcases h with ⟨-, hla, hap⟩ | h
  · exact ⟨happ.inside, happ.lastApplied.trans (by simp only [hla]), happ.applied.trans (by simp only [hla, hap])⟩
  · have hbefore : AppliesTo s { n with commitIndex := c } n.commitIndex := ⟨h.inside, h.lastApplied, h.applied⟩
    have htrans := hbefore.trans happ rfl
    simp only [max_eq_right hc] at htrans
    exact htrans

/-- The commit rule is exact, whatever the callbacks do: on a leader the commit index becomes the greatest of the
old one and the indices in the log that can be committed, and if it moved, the callbacks were given the entries
after `last_applied` up to it in order, each once. -/
theorem commit_rule_exact (me : Self ι) (cbs : List (Callback κ σ)) (s : RaftNode ι κ) (m : σ)
    (hl : s.state = .leader) : ∃ s' m', tryAdvanceCommitWith me cbs s m = ⟨(s', m'), .ok ()⟩ ∧
      IsGreatest {n | n = s.commitIndex ∨ s.commitIndex < n ∧ n ≤ s.log.length ∧ CanCommit me s n} s'.commitIndex ∧
      (s'.commitIndex ≠ s.commitIndex →
        s'.applied = s.applied ++ (s.log.take s'.commitIndex).drop s.lastApplied ∧
        m' = ((s.log.take s'.commitIndex).drop s.lastApplied).foldl (runCallbacks cbs) m) := by
  obtain ⟨ci, la, ap, pr, cs, hf, hci, hmax, happ⟩ := tryAdvanceCommit_spec me s
  obtain ⟨new, hnew, hwith⟩ := tryAdvanceCommit_fed me cbs s m
  obtain ⟨-, hle, hfrom⟩ := happ _ (appliesTo_applies s) ⟨rfl, le_rfl, Or.inl ⟨rfl, rfl, rfl⟩⟩
  rw [hf] at hnew hwith hle hfrom
  refine ⟨_, _, hwith, ⟨hci.imp_right fun h => h.2, fun n hn => ?_⟩, fun hmoved => ?_⟩
  · rcases hn with rfl | ⟨-, hlen, hcan⟩
    · exact hle
    · exact hmax hl n hlen hcan
  · rcases hfrom with ⟨hsame, -⟩ | hto
    · exact absurd hsame hmoved
    · have hentries : new = (s.log.take ci).drop s.lastApplied :=
        List.append_cancel_left (hnew.symm.trans hto.applied)
      exact ⟨hto.applied, by rw [hentries]⟩

/-- Both entries reach the callback, although it raises on each. -/
theorem commit_rule_exact_raising : ∃ s : RaftNode (Fin 3) Nat, s.log = [⟨1, 1, 7⟩, ⟨2, 2, 8⟩] ∧ s.commitIndex = 0 ∧
    ∃ s' m', tryAdvanceCommitWith ⟨0, [1, 2]⟩ [fun e m => ⟨m ++ [e.command], .error .keyError⟩] s [] =
      ⟨(s', m'), .ok ()⟩ ∧ s'.commitIndex = 2 ∧ m' = [7, 8] := by
  let s : RaftNode (Fin 3) Nat := {
    currentTerm := 2
    state := .leader
    log := [⟨1, 1, 7⟩, ⟨2, 2, 8⟩]
    matchIndex := fun _ => some 2 }
  obtain ⟨s', m', hrun, ⟨hmem, hmax⟩, hfed⟩ :=
    commit_rule_exact ⟨0, [1, 2]⟩ [fun e m => ⟨m ++ [e.command], .error .keyError⟩] s [] rfl
  have hcan : CanCommit ⟨0, [1, 2]⟩ s 2 := ⟨⟨_, rfl, rfl⟩, by decide⟩
  have hge : 2 ≤ s'.commitIndex := hmax (Or.inr ⟨by decide, by decide, hcan⟩)
  have hle : s'.commitIndex ≤ 2 := by
    rcases hmem with h | ⟨-, h, -⟩
    · exact h.trans_le (by decide)
    · exact h
  have hci : s'.commitIndex = 2 := le_antisymm hle hge
  refine ⟨s, rfl, rfl, s', m', hrun, hci, ?_⟩
  rw [(hfed (by rw [hci]; decide)).2, hci]
  rfl

end DistributedSync.Raft
