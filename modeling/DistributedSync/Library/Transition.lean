import Mathlib.Data.List.Induction
import Mathlib.Logic.Relation

/-!
# Runs of a labelled transition system

A run may be restricted by a condition `ok` on the state before a step and on the label of the step.  The
induction over runs is stated once (`ReachWhile.invariant`).  `run` executes a partial step function on a list of
labels, `countRun` counts the steps of a kind on the way, and `runWhile` goes on as long as the condition holds.
-/

namespace Transition

variable {σ α : Type}

/-- The states reached from `init` by steps whose label meets `ok` in the state before it. -/
inductive ReachWhile (step : σ → α → σ → Prop) (ok : σ → α → Prop) (init : σ) : σ → Prop where
  | refl : ReachWhile step ok init init
  | tail {s s' : σ} {a : α} : ReachWhile step ok init s → ok s a → step s a s' → ReachWhile step ok init s'

/-- The states reached from `init`. -/
abbrev Reach (step : σ → α → σ → Prop) (init : σ) : σ → Prop := ReachWhile step (fun _ _ => True) init

variable {step : σ → α → σ → Prop} {ok ok' : σ → α → Prop} {init s : σ}

theorem ReachWhile.mono (h : ReachWhile step ok init s) (hok : ∀ s a, ok s a → ok' s a) :
    ReachWhile step ok' init s := by
  induction h with
  | refl => exact .refl
  | tail _ ha hs ih => exact .tail ih (hok _ _ ha) hs

theorem ReachWhile.reach (h : ReachWhile step ok init s) : Reach step init s :=
  h.mono fun _ _ _ => trivial

theorem ReachWhile.trans {s' : σ} (h : ReachWhile step ok init s) (h' : ReachWhile step ok s s') :
    ReachWhile step ok init s' := by
  induction h' with
  | refl => exact h
  | tail _ ha hs ih => exact .tail ih ha hs

/-- The invariant rule. -/
theorem ReachWhile.invariant {I : σ → Prop} (h : ReachWhile step ok init s) (h0 : I init)
    (hs : ∀ s a s', ReachWhile step ok init s → I s → ok s a → step s a s' → I s') : I s := by
  induction h with
  | refl => exact h0
  | tail hr ha hst ih => exact hs _ _ _ hr ih ha hst

/-- What can be brought about for one member of a list after the other, without undoing it for those before, can be
brought about for all of them. -/
theorem reach_forall_mem {β : Type} {I : σ → Prop} {G : β → σ → Prop} {l : List β}
    (h : ∀ b ∈ l, ∀ s, I s → ∃ s', Reach step s s' ∧ I s' ∧ G b s' ∧ ∀ c ∈ l, G c s → G c s') (hs : I s) :
    ∃ s', Reach step s s' ∧ I s' ∧ ∀ b ∈ l, G b s' := by
  -- by induction on the members that are left
  have hrest : ∀ rest : List β, (∀ b ∈ rest, b ∈ l) → ∀ s, I s →
      ∃ s', Reach step s s' ∧ I s' ∧ (∀ b ∈ rest, G b s') ∧ ∀ c ∈ l, G c s → G c s' := by
    intro rest
    induction rest with
    | nil => exact fun _ s hs => ⟨s, .refl, hs, List.forall_mem_nil _, fun _ _ hc => hc⟩
    | cons b rest ih =>
      intro hmem s hs
      obtain ⟨t, ht, hIt, hb, hkeep⟩ := h b (hmem b List.mem_cons_self) s hs
      obtain ⟨s', hs', hIs', hall, hkeep'⟩ := ih (fun c hc => hmem c (List.mem_cons_of_mem _ hc)) t hIt
      refine ⟨s', ht.trans hs', hIs', ?_, fun c hc hG => hkeep' c hc (hkeep c hc hG)⟩
      rw [List.forall_mem_cons]
      exact ⟨hkeep' b (hmem b List.mem_cons_self) hb, hall⟩
  obtain ⟨s', hs', hIs', hall, -⟩ := hrest l (fun _ hb => hb) s hs
  exact ⟨s', hs', hIs', hall⟩

/-! ### Executing a list of labels -/

/-- Execute the labels in order; `none` when one of them is not enabled. -/
def run (next : σ → α → Option σ) (s : σ) : List α → Option σ
  | [] => some s
  | a :: as => (next s a).bind fun s' => run next s' as

variable {next : σ → α → Option σ}

theorem run_cons {s s' : σ} {a : α} {as : List α} :
    run next s (a :: as) = some s' ↔ ∃ t, next s a = some t ∧ run next t as = some s' := by
  simp [run, Option.bind_eq_some_iff]

private theorem reach_of_run_from {as : List α} {s' : σ} (h : Reach (fun s a s' => next s a = some s') init s)
    (hrun : run next s as = some s') : Reach (fun s a s' => next s a = some s') init s' := by
  induction as generalizing s with
  | nil => cases hrun; exact h
  | cons a as ih =>
    obtain ⟨t, ha, hrun⟩ := run_cons.1 hrun
    exact ih (.tail h trivial ha) hrun

/-- An execution reaches only reachable states. -/
theorem reach_of_run {as : List α} {s' : σ} (hrun : run next init as = some s') :
    Reach (fun s a s' => next s a = some s') init s' :=
  reach_of_run_from .refl hrun

theorem run_append {s : σ} {as bs : List α} :
    run next s (as ++ bs) = (run next s as).bind fun t => run next t bs := by
  induction as generalizing s with
  | nil => rfl
  | cons a as ih => simp only [List.cons_append, run, ih, Option.bind_assoc]

theorem run_concat {s s' : σ} {a : α} {as : List α} :
    run next s (as ++ [a]) = some s' ↔ ∃ t, run next s as = some t ∧ next t a = some s' := by
  induction as generalizing s with
  | nil => simp [run]
  | cons b as ih =>
    rw [List.cons_append, run_cons]
    constructor
    · rintro ⟨u, hu, h⟩
      obtain ⟨t, ht, ha⟩ := ih.1 h
      exact ⟨t, run_cons.2 ⟨u, hu, ht⟩, ha⟩
    · rintro ⟨t, ht, ha⟩
      obtain ⟨u, hu, h⟩ := run_cons.1 ht
      exact ⟨u, hu, ih.2 ⟨t, h, ha⟩⟩

/-- How many steps of the execution meet `p` in the state before them. -/
def countRun (next : σ → α → Option σ) (p : σ → α → Prop) [∀ s a, Decidable (p s a)] (s : σ) : List α → Nat
  | [] => 0
  | a :: as => (if p s a then 1 else 0) + (next s a).elim 0 fun s' => countRun next p s' as

theorem countRun_cons {p : σ → α → Prop} [∀ s a, Decidable (p s a)] {s s' : σ} {a : α} (h : next s a = some s')
    (as : List α) : countRun next p s (a :: as) = (if p s a then 1 else 0) + countRun next p s' as := by
  rw [countRun, h, Option.elim_some]

/-- Steps that do to the image of a state what `next` does run to the image of what `next` runs to. -/
theorem run_map {τ : Type} {next' : τ → α → Option τ} {f : τ → σ} (h : ∀ t a, (next' t a).map f = next (f t) a)
    (t : τ) (as : List α) : (run next' t as).map f = run next (f t) as := by
  induction as generalizing t with
  | nil => rfl
  | cons a as ih =>
    simp only [run]
    rw [← h, Option.map_bind, Option.bind_map]
    exact congrArg _ (funext ih)

/-- When a step of a run from a state with the property `P` leads to one just if it meets `ok`, all states of the run
have the property just if all its steps meet `ok`. -/
theorem forall_prefix_iff_of_mem {I P : σ → Prop} {ok : σ → α → Prop} (hI : I init)
    (hstep : ∀ s a s', I s → next s a = some s' → I s') (hP : P init) (as : List α)
    (hok : ∀ s a s', a ∈ as → I s → P s → next s a = some s' → (ok s a ↔ P s')) :
    (∀ pre, pre <+: as → ∀ s, run next init pre = some s → P s) ↔
      ∀ pre a s s', pre ++ [a] <+: as → run next init pre = some s → next s a = some s' → ok s a := by
  have hinv : ∀ pre s, run next init pre = some s → I s := by
    intro pre s hrun
    exact (reach_of_run hrun).invariant hI fun s a s' _ hs _ hst => hstep s a s' hs hst
  have hmem : ∀ {pre a}, pre ++ [a] <+: as → a ∈ as := fun hpre =>
    hpre.subset (List.mem_append_right _ (List.mem_singleton_self _))
  constructor
  · intro h pre a s s' hpre hrun hs
    have hbefore : P s := h pre ((List.prefix_append pre [a]).trans hpre) s hrun
    exact (hok s a s' (hmem hpre) (hinv pre s hrun) hbefore hs).2 (h _ hpre s' (run_concat.2 ⟨s, hrun, hs⟩))
  · intro h pre hpre
    induction pre using List.reverseRecOn with
    | nil =>
      intro s hrun
      cases hrun
      exact hP
    | append_singleton pre a ih =>
      intro s' hrun
      obtain ⟨s, hbefore, hs⟩ := run_concat.1 hrun
      have hPs : P s := ih ((List.prefix_append pre [a]).trans hpre) s hbefore
      exact (hok s a s' (hmem hpre) (hinv pre s hbefore) hPs hs).1 (h pre a s s' hpre hbefore hs)

theorem forall_prefix_iff {I P : σ → Prop} {ok : σ → α → Prop} (hI : I init)
    (hstep : ∀ s a s', I s → next s a = some s' → I s') (hP : P init)
    (hok : ∀ s a s', I s → P s → next s a = some s' → (ok s a ↔ P s')) (as : List α) :
    (∀ pre, pre <+: as → ∀ s, run next init pre = some s → P s) ↔
      ∀ pre a s s', pre ++ [a] <+: as → run next init pre = some s → next s a = some s' → ok s a :=
  forall_prefix_iff_of_mem hI hstep hP as fun s a s' _ => hok s a s'

/-- Execute the labels in order as long as every step meets `ok`. -/
def runWhile (next : σ → α → Option σ) (ok : σ → α → Prop) [∀ s a, Decidable (ok s a)] (s : σ) : List α → Option σ
  | [] => some s
  | a :: as => if ok s a then (next s a).bind fun s' => runWhile next ok s' as else none

variable [∀ s a, Decidable (ok s a)]

theorem ReachWhile.of_runWhile {as : List α} {s' : σ}
    (h : ReachWhile (fun s a s' => next s a = some s') ok init s) (hrun : runWhile next ok s as = some s') :
    ReachWhile (fun s a s' => next s a = some s') ok init s' ∧ run next s as = some s' := by
  induction as generalizing s with
  | nil => cases hrun; exact ⟨h, rfl⟩
  | cons a as ih =>
    simp only [runWhile, Option.ite_none_right_eq_some, Option.bind_eq_some_iff] at hrun
    obtain ⟨hok, t, ha, hrun⟩ := hrun
    obtain ⟨hr, hrest⟩ := ih (.tail h hok ha) hrun
    exact ⟨hr, run_cons.2 ⟨t, ha, hrest⟩⟩

/-- The steps of such an execution meet the condition. -/
theorem ok_of_runWhile {as pre : List α} {s s' t : σ} {a : α} (hrun : runWhile next ok s as = some s')
    (hpre : pre ++ [a] <+: as) (ht : run next s pre = some t) : ok t a := by
  induction as generalizing s pre with
  | nil => simp at hpre
  | cons b as ih =>
    simp only [runWhile, Option.ite_none_right_eq_some, Option.bind_eq_some_iff] at hrun
    obtain ⟨hok, u, hu, hrest⟩ := hrun
    cases pre with
    | nil =>
      obtain ⟨rfl, -⟩ := List.cons_prefix_cons.1 hpre
      cases ht
      exact hok
    | cons b' pre =>
      obtain ⟨rfl, hpre'⟩ := List.cons_prefix_cons.1 hpre
      obtain ⟨u', hu', ht'⟩ := run_cons.1 ht
      obtain rfl : u = u' := Option.some.inj (hu.symm.trans hu')
      exact ih hrest hpre' ht'

end Transition
