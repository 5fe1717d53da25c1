import DistributedSync.Lock.WaitFor

/-!
# Deadlock detection and the lock table

Every edge of the wait-for graph stands for a client in a waiting list and a holder of that lock, so what
`detect_cycles` reports are real deadlocks (`deadlock_reports_real`).  The converse holds as long as no step forgets
a client that another one still waits for, or that still waits itself (`deadlocks_reported`): an acquire that is
granted at once drops the edges of all the other waits of the client, and nothing puts them back
(`step_recorded_iff`).
-/

namespace DistributedSync

variable {ν : Type} [Number ν]

namespace LockManagerNode

variable {s s' : LockManagerNode ν} {a : LockAction ν}

/-! ### Edges and waits -/

/-- Every edge of the graph stands for a wait. -/
def Justified (s : LockManagerNode ν) : Prop :=
  ∀ w h, s.deadlockDetector.Edge w h → w ≠ h ∧ ∃ r, w ∈ (s.locks.view r).waiters ∧ h ∈ (s.locks.view r).holders

/-- Every wait for another client has an edge. -/
def Recorded (s : LockManagerNode ν) : Prop :=
  ∀ r, ∀ w ∈ (s.locks.view r).waiters, ∀ h ∈ (s.locks.view r).holders, w ≠ h → s.deadlockDetector.Edge w h

private theorem Forgets.justified {D : Finset (Key ν)} (h : Forgets D s s') (hs : s.Justified) : s'.Justified := by
  intro w x he
  obtain ⟨he, hw, hx⟩ := (h.edges w x).1 he
  obtain ⟨hne, r, hwait, hhold⟩ := hs w x he
  exact ⟨hne, r, (h.locks r w hw).2.2 hwait, (h.locks r x hx).1.2 hhold⟩

private theorem Queues.justified {c r : Key ν} (h : Queues c r s s') (hs : s.Justified) : s'.Justified := by
  intro w x he
  rcases (h.edges w x).1 he with he | ⟨rfl, hx, hne⟩
  · obtain ⟨hne, r', hwait, hhold⟩ := hs w x he
    refine ⟨hne, r', (h.waiters r' w).2 (Or.inl hwait), ?_⟩
    rw [h.holders]
    exact hhold
  · refine ⟨hne.symm, r, (h.waiters r w).2 (Or.inr ⟨rfl, rfl⟩), ?_⟩
    rw [h.holders]
    exact hx

/-- Nobody that the step forgets waits for another client after it, or is waited for. -/
def Undisturbed (s : LockManagerNode ν) (a : LockAction ν) : Prop :=
  ∀ r ∈ s.locks.keys, ∀ w ∈ (s.viewAfter a r).waiters, ∀ h ∈ (s.viewAfter a r).holders, w ≠ h →
    w ∉ s.forgotten a ∧ h ∉ s.forgotten a

instance (s : LockManagerNode ν) (a : LockAction ν) : Decidable (s.Undisturbed a) :=
  inferInstanceAs (Decidable (∀ r ∈ s.locks.keys, ∀ w ∈ (s.viewAfter a r).waiters,
    ∀ h ∈ (s.viewAfter a r).holders, w ≠ h → w ∉ s.forgotten a ∧ h ∉ s.forgotten a))

/-- Nobody waits for a lock that the step creates. -/
theorem waiters_of_new (s : LockManagerNode ν) (a : LockAction ν) {r : Key ν} (hr : r ∉ s.locks.keys) :
    (s.viewAfter a r).waiters = [] := by
  have hview : s.locks.view r = {} := LockTable.view_of_none (Dict.get?_eq_none hr)
  have hempty : LockView.waiters ({} : LockView ν) = [] := rfl
  cases a with
  | apply now cmd =>
    rw [viewAfter, hview]
    by_cases hcmd : cmd.resource.key? = some r
    · rw [if_pos hcmd, LockView.apply]
      by_cases hacq : cmd.action.isStr "acquire"
      · rw [if_pos hacq, LockView.request]
        cases cmd.lockType? with
        | none => exact hempty
        | some lockType =>
          simp only [LockView.acquire]
          cases cmd.clientId.key? with
          | none => rfl
          | some c => rfl
      · rw [if_neg hacq]
        by_cases hrel : cmd.action.isStr "release"
        · rw [if_pos hrel, LockView.release_new]
          exact hempty
        · rw [if_neg hrel]
          exact hempty
    · rw [if_neg hcmd]
      exact hempty
  | sweep env =>
    rw [viewAfter, hview, LockTable.getOrNew, Dict.get?_eq_none hr]
    exact hempty

theorem Forgets.recorded (h : Forgets (s.forgotten a) s s') (hview : ∀ r, s'.locks.view r = s.viewAfter a r)
    (hok : s.Undisturbed a) (hs : s.Recorded) : s'.Recorded := by
  intro r w hw x hx hne
  by_cases hr : r ∈ s.locks.keys
  · have hkept : w ∉ s.forgotten a ∧ x ∉ s.forgotten a := by
      rw [hview] at hw hx
      exact hok r hr w hw x hx hne
    have hwait := (h.locks r w hkept.1).2.1 hw
    have hhold := (h.locks r x hkept.2).1.1 hx
    exact (h.edges w x).2 ⟨hs r w hwait x hhold hne, hkept⟩
  · rw [hview, waiters_of_new s a hr] at hw
    cases hw

theorem Queues.recorded {c r : Key ν} (h : Queues c r s s') (hs : s.Recorded) : s'.Recorded := by
  intro r' w hw x hx hne
  rw [h.holders] at hx
  rcases (h.waiters r' w).1 hw with hw | ⟨rfl, rfl⟩
  · exact (h.edges w x).2 (Or.inl (hs r' w hw x hx hne))
  · exact (h.edges w x).2 (Or.inr ⟨rfl, hx, hne.symm⟩)

end LockManagerNode

/-! ### Cycles -/

/-- The client `w` is in the waiting list of a resource that `h` holds. -/
def LockTable.Waits (locks : LockTable ν) (w h : Key ν) : Prop :=
  ∃ r lock, locks.get? r = some lock ∧ (∃ q ∈ lock.waiting, q.clientId.key? = some w) ∧ h ∈ lock.holders

private theorem LockTable.waits_iff {locks : LockTable ν} {w h : Key ν} :
    locks.Waits w h ↔ ∃ r, w ∈ (locks.view r).waiters ∧ h ∈ (locks.view r).holders := by
  have hmem : ∀ lock : LockState ν, w ∈ lock.view.waiters ↔ ∃ q ∈ lock.waiting, q.clientId.key? = some w := by
    intro lock
    rw [LockView.waiters, LockView.clientsOf, LockState.view, List.filterMap_map, List.mem_filterMap]
    exact Iff.rfl
  constructor
  · rintro ⟨r, lock, hl, hw, hh⟩
    refine ⟨r, ?_⟩
    rw [LockTable.view_of_get? hl]
    exact ⟨(hmem lock).2 hw, hh⟩
  · rintro ⟨r, hw, hh⟩
    cases hl : locks.get? r with
    | none =>
      rw [LockTable.view_of_none hl] at hw
      cases hw
    | some lock =>
      rw [LockTable.view_of_get? hl] at hw hh
      exact ⟨r, lock, hl, (hmem lock).1 hw, hh⟩

namespace DeadlockDetector

variable {d : DeadlockDetector ν} {order : Key ν → List (Key ν)}

private theorem edge_neighbors (h : d.Lists order) : CycleSearch.Edge (d.neighbors order) = d.Edge := by
  funext w x
  rw [CycleSearch.Edge, Edge, neighbors, targets]
  apply propext
  by_cases hw : w ∈ d.waitFor.keys
  · obtain ⟨set, hset⟩ := Dict.mem_keys.1 hw
    have hlist : (order w).toFinset = set := (h (w, set) (Dict.mem_of_get? hset)).2
    rw [if_pos hw, hset, Option.getD_some, ← hlist, List.mem_toFinset]
  · rw [if_neg hw, Dict.get?_eq_none hw]
    simp

theorem Edge.mem_keys {w h : Key ν} (he : d.Edge w h) : w ∈ d.waitFor.keys := by
  by_contra hw
  rw [Edge, targets, Dict.get?_eq_none hw] at he
  cases he

/-- The search ends, reports cycles only, and finds one wherever there is one. -/
theorem detectCycles_spec (h : d.Lists order) : ∃ cycles, d.detectCycles order = some cycles ∧
    (∀ c ∈ cycles, CycleSearch.IsCycle d.Edge c) ∧
      ∀ v, Relation.TransGen d.Edge v v → ∃ c ∈ cycles, ∀ x ∈ c, CycleSearch.StronglyConnected d.Edge v x := by
  have hclosed : ∀ a ∈ d.clients, ∀ b ∈ d.neighbors order a, b ∈ d.clients := by
    intro a _ b hb
    have he : d.Edge a b := by
      rw [← edge_neighbors h]
      exact hb
    refine Finset.mem_union_right _ (Finset.mem_biUnion.2 ⟨a, ?_, he⟩)
    exact List.mem_toFinset.2 he.mem_keys
  have hroots : ∀ r ∈ d.waitFor.keys, r ∈ d.clients := fun r hr =>
    Finset.mem_union_left _ (List.mem_toFinset.2 hr)
  obtain ⟨s, hs⟩ := CycleSearch.detect_total hclosed hroots {}
  refine ⟨s.cycles, ?_, ?_, fun v hv => ?_⟩
  · rw [detectCycles, hs]
    rfl
  · rw [← edge_neighbors h]
    exact CycleSearch.detect_sound hs
  · obtain ⟨x, hvx, -⟩ := Relation.TransGen.head'_iff.1 hv
    rw [← edge_neighbors h] at hv ⊢
    exact CycleSearch.detect_complete hs hvx.mem_keys hv

/-- On every graph and in every order of visits the search ends, reports simple cycles only, and reports one from every
strongly connected part with a cycle, so that it reports nothing just if the graph has no cycle. -/
theorem detectCycles_correct (h : d.Lists order) : ∃ cycles, d.detectCycles order = some cycles ∧
    (∀ c ∈ cycles, CycleSearch.IsCycle d.Edge c) ∧
    (∀ v, Relation.TransGen d.Edge v v → ∃ c ∈ cycles, ∀ x ∈ c, CycleSearch.StronglyConnected d.Edge v x) ∧
    (cycles = [] ↔ ∀ v, ¬ Relation.TransGen d.Edge v v) := by
  obtain ⟨cycles, hcycles, hsound, hcomplete⟩ := detectCycles_spec h
  refine ⟨cycles, hcycles, hsound, hcomplete, ?_⟩
  constructor
  · rintro rfl v hv
    obtain ⟨c, hc, -⟩ := hcomplete v hv
    cases hc
  · intro hacyclic
    rw [List.eq_nil_iff_forall_not_mem]
    intro c hc
    obtain ⟨v, -, hv⟩ := (hsound c hc).exists_transGen
    exact hacyclic v hv

/-- Two clients wait for each other, one of them also for a client that waits for nobody, and a third client has an
edge to itself. -/
private def entangled : DeadlockDetector Int where
  waitFor := ((Dict.empty.set (.str "a") {.str "b"}).set (.str "b") {.str "z", .str "a"}).set (.str "c") {.str "c"}

private def entangledOrder : Key Int → List (Key Int)
  | .str "a" => [.str "b"]
  | .str "b" => [.str "z", .str "a"]
  | .str "c" => [.str "c"]
  | _ => []

theorem detectCycles_correct_entangled :
    entangled.detectCycles entangledOrder = some [[.str "a", .str "b"], [.str "c"]] ∧
    ∃ cycles, entangled.detectCycles entangledOrder = some cycles ∧
      (∀ c ∈ cycles, CycleSearch.IsCycle entangled.Edge c) ∧
      (∀ v, Relation.TransGen entangled.Edge v v →
        ∃ c ∈ cycles, ∀ x ∈ c, CycleSearch.StronglyConnected entangled.Edge v x) ∧
      (cycles = [] ↔ ∀ v, ¬ Relation.TransGen entangled.Edge v v) := by
  have hlists : entangled.Lists entangledOrder := by decide
  exact ⟨by decide, detectCycles_correct hlists⟩

end DeadlockDetector

namespace LockManagerNode

/-- Commands with string ids and numeric lease timeouts. -/
def Regular (_ : LockManagerNode ν) (a : LockAction ν) : Prop := a.StringIds ∧ a.NumericLease

instance (s : LockManagerNode ν) (a : LockAction ν) : Decidable (s.Regular a) :=
  inferInstanceAs (Decidable (_ ∧ _))

/-! ### Runs in which two clients wait for each other -/

/-- A client asks for an exclusive lock. -/
private def exclusive (now : Int) (r c : String) : LockAction Int :=
  .apply now (.acquire (.str r) (.str c) (.str "exclusive") none)

/-- `a` holds `r1` and `b` holds `r2`, and each of them then asks for the other resource. -/
private def crosswise : List (LockAction Int) :=
  [exclusive 1 "r1" "a", exclusive 2 "r2" "b", exclusive 3 "r2" "a", exclusive 4 "r1" "b"]

private def crosswiseOrder : Key Int → List (Key Int)
  | .str "a" => [.str "b"]
  | .str "b" => [.str "a"]
  | _ => []

private def onlyOrder : Key Int → List (Key Int)
  | .str "a" => [.str "b"]
  | _ => []

/-- Who waits for `r1` and `r2` and who holds them. -/
private def contended (s : LockManagerNode Int) : List (List (Key Int) × Finset (Key Int)) :=
  [((s.locks.view (.str "r1")).waiters, (s.locks.view (.str "r1")).holders),
    ((s.locks.view (.str "r2")).waiters, (s.locks.view (.str "r2")).holders)]

private theorem waits_of_contended {s : LockManagerNode Int}
    (h : s.contended = [([.str "b"], {.str "a"}), ([.str "a"], {.str "b"})]) :
    s.locks.Waits (.str "a") (.str "b") ∧ s.locks.Waits (.str "b") (.str "a") := by
  simp only [contended, List.cons.injEq, Prod.mk.injEq, and_true] at h
  obtain ⟨⟨hw, hh⟩, hw', hh'⟩ := h
  refine ⟨LockTable.waits_iff.2 ⟨.str "r2", ?_, ?_⟩, LockTable.waits_iff.2 ⟨.str "r1", ?_, ?_⟩⟩
  · rw [hw']
    exact List.mem_singleton_self _
  · rw [hh']
    exact Finset.mem_singleton_self _
  · rw [hw]
    exact List.mem_singleton_self _
  · rw [hh]
    exact Finset.mem_singleton_self _

private theorem walk_of_contended {s : LockManagerNode Int}
    (h : s.contended = [([.str "b"], {.str "a"}), ([.str "a"], {.str "b"})]) :
    CycleSearch.IsClosedWalk s.locks.Waits [.str "a", .str "b"] := by
  obtain ⟨hab, hba⟩ := waits_of_contended h
  exact ⟨.cons_cons hab (.singleton _), .str "a", rfl, .str "b", rfl, hba⟩

/-! ### What is reported -/

theorem justified_of_reach {leaseTimeout : ν} {s : LockManagerNode ν} (h : ReachWhile Regular leaseTimeout s) :
    s.Justified := by
  refine h.invariant (fun w h he => by cases he) ?_
  intro s a s' hr hs ha hstep
  have hsound := view_sound (hr.mono fun _ _ ha => ha.1)
  rcases step_forgets_or_queues hsound ha.1 ha.2 hstep with hf | ⟨-, c, r, hq⟩
  · exact hf.justified hs
  · exact hq.justified hs

/-- Every edge of the graph stands for a wait, and what `detect_cycles` returns are cycles of waiting clients. -/
theorem deadlock_reports_real {leaseTimeout : ν} {s : LockManagerNode ν} (h : ReachWhile Regular leaseTimeout s)
    {order : Key ν → List (Key ν)} (horder : s.deadlockDetector.Lists order) :
    (∀ w h, s.deadlockDetector.Edge w h → w ≠ h ∧ s.locks.Waits w h) ∧
      ∃ cycles, s.deadlockDetector.detectCycles order = some cycles ∧
        ∀ c ∈ cycles, CycleSearch.IsCycle (fun w h => w ≠ h ∧ s.locks.Waits w h) c := by
  have hedges : ∀ w h, s.deadlockDetector.Edge w h → w ≠ h ∧ s.locks.Waits w h := by
    intro w x he
    obtain ⟨hne, hwait⟩ := justified_of_reach h w x he
    exact ⟨hne, LockTable.waits_iff.2 hwait⟩
  obtain ⟨cycles, hcycles, hsound, -⟩ := DeadlockDetector.detectCycles_spec horder
  exact ⟨hedges, cycles, hcycles, fun c hc => ⟨(hsound c hc).imp hedges, (hsound c hc).nodup⟩⟩

/-- Two clients that wait for each other are reported, and both edges are real. -/
theorem deadlock_reports_real_run : ∃ s : LockManagerNode Int,
    s.deadlockDetector.detectCycles crosswiseOrder = some [[.str "a", .str "b"]] ∧ ReachWhile Regular 30 s ∧
      s.deadlockDetector.Lists crosswiseOrder ∧
      (∀ w h, s.deadlockDetector.Edge w h → w ≠ h ∧ s.locks.Waits w h) ∧
      ∃ cycles, s.deadlockDetector.detectCycles crosswiseOrder = some cycles ∧
        ∀ c ∈ cycles, CycleSearch.IsCycle (fun w h => w ≠ h ∧ s.locks.Waits w h) c := by
  have hrun : (Transition.runWhile step Regular (start 30) crosswise).map (fun s =>
      (s.deadlockDetector.detectCycles crosswiseOrder, decide (s.deadlockDetector.Lists crosswiseOrder))) =
      some (some [[.str "a", .str "b"]], true) := by decide
  obtain ⟨s, hs, hobs⟩ := Option.map_eq_some_iff.1 hrun
  obtain ⟨hcycles, hlists⟩ := Prod.mk.inj hobs
  have hreach := (Transition.ReachWhile.of_runWhile .refl hs).1
  have horder := of_decide_eq_true hlists
  exact ⟨s, hcycles, hreach, horder, deadlock_reports_real hreach horder⟩

/-- A step keeps every wait recorded exactly if it disturbs none: what it forgets is not put back. -/
theorem step_recorded_iff {s s' : LockManagerNode ν} {a : LockAction ν} (hsound : ∀ r, (s.locks.view r).Sound)
    (hs : s.Recorded) (ha : s.Regular a) (hstep : step s a = some s') : s'.Recorded ↔ s.Undisturbed a := by
  have hview := step_viewAfter hsound hstep
  rcases step_forgets_or_queues hsound ha.1 ha.2 hstep with hf | ⟨hnone, c, r, hq⟩
  · refine ⟨fun hs' r _ w hw h hh hne => ?_, fun hok => hf.recorded hview hok hs⟩
    rw [← hview] at hw hh
    exact ((hf.edges w h).1 (hs' r w hw h hh hne)).2
  · refine iff_of_true (hq.recorded hs) fun r _ w _ h _ _ => ?_
    rw [hnone]
    exact ⟨Finset.notMem_empty w, Finset.notMem_empty h⟩

theorem recorded_of_reach {leaseTimeout : ν} {s : LockManagerNode ν}
    (h : ReachWhile (fun s a => s.Regular a ∧ s.Undisturbed a) leaseTimeout s) : s.Recorded := by
  refine h.invariant (fun r w hw => by cases hw) ?_
  intro s a s' hr hs ha hstep
  exact (step_recorded_iff (view_sound (hr.mono fun _ _ ha => ha.1.1)) hs ha.1 hstep).2 ha.2

/-- As long as no step forgets a client that waits or is waited for, a circle of waiting clients is reported. -/
theorem deadlocks_reported {leaseTimeout : ν} {s : LockManagerNode ν}
    (h : ReachWhile (fun s a => s.Regular a ∧ s.Undisturbed a) leaseTimeout s) {clients : List (Key ν)}
    (hwaits : CycleSearch.IsClosedWalk s.locks.Waits clients) (htwo : ∃ a ∈ clients, ∃ b ∈ clients, a ≠ b)
    {order : Key ν → List (Key ν)} (horder : s.deadlockDetector.Lists order) :
    ∃ cycles, s.deadlockDetector.detectCycles order = some cycles ∧ cycles ≠ [] := by
  have hedges : ∀ w h, s.locks.Waits w h → w = h ∨ s.deadlockDetector.Edge w h := by
    intro w x hwait
    obtain ⟨r, hw, hx⟩ := LockTable.waits_iff.1 hwait
    rw [or_iff_not_imp_left]
    exact recorded_of_reach h r w hw x hx
  obtain ⟨a, ha, b, hb, hne⟩ := htwo
  obtain ⟨cycles, hcycles, -, hcomplete⟩ := DeadlockDetector.detectCycles_spec horder
  obtain ⟨c, hc, -⟩ := hcomplete a ((hwaits.imp hedges).transGen ha hb hne)
  exact ⟨cycles, hcycles, List.ne_nil_of_mem hc⟩

/-- Two clients that wait for each other, with no lock granted to them in between. -/
theorem deadlocks_reported_run : ∃ s : LockManagerNode Int,
    s.contended = [([.str "b"], {.str "a"}), ([.str "a"], {.str "b"})] ∧
      ReachWhile (fun s a => s.Regular a ∧ s.Undisturbed a) 30 s ∧ s.deadlockDetector.Lists crosswiseOrder ∧
      ∃ cycles, s.deadlockDetector.detectCycles crosswiseOrder = some cycles ∧ cycles ≠ [] := by
  have hrun : (Transition.runWhile step (fun s a => s.Regular a ∧ s.Undisturbed a) (start 30) crosswise).map
      (fun s => (s.contended, decide (s.deadlockDetector.Lists crosswiseOrder))) =
      some ([([.str "b"], {.str "a"}), ([.str "a"], {.str "b"})], true) := by decide
  obtain ⟨s, hs, hobs⟩ := Option.map_eq_some_iff.1 hrun
  obtain ⟨hwait, hlists⟩ := Prod.mk.inj hobs
  have hreach := (Transition.ReachWhile.of_runWhile .refl hs).1
  have horder := of_decide_eq_true hlists
  exact ⟨s, hwait, hreach, horder, deadlocks_reported hreach (walk_of_contended hwait)
    ⟨.str "a", by decide, .str "b", by decide, by decide⟩ horder⟩

/-- Between the two requests that wait, `a` is granted a third resource: the edge of `b` to `a` goes. -/
theorem deadlock_missed : ¬∀ s : LockManagerNode Int, ReachWhile Regular 30 s → ∀ clients,
    CycleSearch.IsClosedWalk s.locks.Waits clients → (∃ a ∈ clients, ∃ b ∈ clients, a ≠ b) →
      ∀ order, s.deadlockDetector.Lists order →
        ∃ cycles, s.deadlockDetector.detectCycles order = some cycles ∧ cycles ≠ [] := by
  intro hall
  have hrun : (Transition.runWhile step Regular (start 30) [exclusive 1 "r1" "a", exclusive 2 "r2" "b",
      exclusive 3 "r1" "b", exclusive 4 "r3" "a", exclusive 5 "r2" "a"]).map (fun s =>
      (s.contended,
        decide (s.deadlockDetector.Lists onlyOrder ∧ s.deadlockDetector.detectCycles onlyOrder = some []))) =
      some ([([.str "b"], {.str "a"}), ([.str "a"], {.str "b"})], true) := by decide
  obtain ⟨s, hs, hobs⟩ := Option.map_eq_some_iff.1 hrun
  obtain ⟨hwait, hobs⟩ := Prod.mk.inj hobs
  obtain ⟨hlists, hnone⟩ := of_decide_eq_true hobs
  have hreach := (Transition.ReachWhile.of_runWhile .refl hs).1
  obtain ⟨cycles, hcycles, hne⟩ := hall s hreach _ (walk_of_contended hwait)
    ⟨.str "a", by decide, .str "b", by decide, by decide⟩ onlyOrder hlists
  rw [hnone] at hcycles
  cases hcycles
  exact hne rfl

end LockManagerNode

end DistributedSync
