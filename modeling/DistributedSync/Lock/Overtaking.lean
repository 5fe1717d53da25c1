import DistributedSync.Library.TicketLine
import DistributedSync.Lock.Fencing
import DistributedSync.Lock.WaitFor

/-!
# Overtaking in the waiting list

The requests for a resource form a line (`TicketLine`): those that `_do_acquire` queues join it, and hand-overs move
it up.  A hand-over serves the head of the list first, so it never serves a request before an older exclusive one.
A direct grant does not look at the list: a shared request joins the holders of a shared lock while an exclusive
request waits, and so does a request for a lock that a failed hand-over has left free.  These are the only ways to
overtake a waiting exclusive request (`noOvertaking_iff`).
-/

namespace DistributedSync

variable {ν : Type}

namespace LockView

variable {v : LockView ν}

/-! ### Moving up -/

/-- The first requests leave the waiting list, and there are no more grants than that. -/
def MovesUp (v w : LockView ν) (gs : List (Grant ν)) : Prop :=
  ∃ left ≤ v.waiting.length, w.waiting = v.waiting.drop left ∧ gs.length ≤ left

theorem MovesUp.stays {w : LockView ν} (h : w.waiting = v.waiting) : MovesUp v w [] :=
  ⟨0, Nat.zero_le _, h, le_rfl⟩

theorem MovesUp.left_eq {w : LockView ν} {gs : List (Grant ν)} (h : MovesUp v w gs) :
    w.waiting = v.waiting.drop (v.waiting.length - w.waiting.length) ∧
      gs.length ≤ v.waiting.length - w.waiting.length := by
  obtain ⟨left, hle, hw, hgs⟩ := h
  have hleft : v.waiting.length - w.waiting.length = left := by
    rw [hw, List.length_drop]
    omega
  rw [hleft]
  exact ⟨hw, hgs⟩

end LockView

variable [Number ν]

namespace LockView

variable {v : LockView ν}

private theorem joinWaiting_movesUp (v : LockView ν) (token : Nat) (ws : List (Json ν × LockType)) :
    ∃ left ≤ ws.length, (v.joinWaiting ws).waiting = ws.drop left ∧ (joinGrants token ws).length ≤ left := by
  induction ws generalizing v with
  | nil => exact ⟨0, le_rfl, rfl, le_rfl⟩
  | cons w ws ih =>
    obtain ⟨clientId, lockType⟩ := w
    rw [joinWaiting, joinGrants]
    by_cases hs : lockType = .shared
    · rw [if_pos hs, if_pos hs]
      cases clientId.key? with
      | none => exact ⟨1, Nat.succ_pos _, rfl, Nat.zero_le 1⟩
      | some c =>
        obtain ⟨left, hle, hw, hgs⟩ := ih { v with holders := insert c v.holders }
        exact ⟨left + 1, Nat.succ_le_succ hle, hw, Nat.succ_le_succ hgs⟩
    · rw [if_neg hs, if_neg hs]
      exact ⟨0, Nat.zero_le _, rfl, le_rfl⟩

private theorem handOver_movesUp (v : LockView ν) : MovesUp v v.handOver v.handOverGrants := by
  rw [MovesUp, handOver, handOverGrants]
  cases hq : v.waiting with
  | nil => exact ⟨0, le_rfl, hq, le_rfl⟩
  | cons w rest =>
    obtain ⟨clientId, lockType⟩ := w
    cases hc : clientId.key? with
    | none =>
      simp only [hc]
      exact ⟨1, Nat.succ_pos _, rfl, Nat.zero_le 1⟩
    | some c =>
      simp only [hc]
      by_cases hs : lockType = .shared
      · rw [if_pos hs, if_pos hs]
        obtain ⟨left, hle, hw, hgs⟩ := joinWaiting_movesUp
          ⟨some lockType, insert c v.holders, rest, v.fencingToken + 1⟩ (v.fencingToken + 1) rest
        exact ⟨left + 1, Nat.succ_le_succ hle, hw, Nat.succ_le_succ hgs⟩
      · rw [if_neg hs, if_neg hs]
        exact ⟨1, Nat.succ_pos _, rfl, le_rfl⟩

private theorem release_movesUp (v : LockView ν) (clientId : Json ν) :
    MovesUp v (v.release clientId) (v.releaseGrants clientId) := by
  rw [release, releaseGrants]
  cases clientId.key? with
  | none => exact .stays rfl
  | some c =>
    simp only
    by_cases hfree : v.holders.erase c = ∅
    · rw [if_pos hfree, if_pos hfree]
      exact handOver_movesUp { v with holders := v.holders.erase c }
    · rw [if_neg hfree, if_neg hfree]
      exact .stays rfl

private theorem expire_movesUp (v : LockView ν) : MovesUp v v.expire v.expireGrants :=
  handOver_movesUp { v with holders := ∅ }

/-! ### Direct grants -/

theorem acquire_waiting_of_grants {lockType : LockType} (h : v.Grants lockType) (clientId : Json ν) :
    (v.acquire clientId lockType).waiting = v.waiting := by
  rw [acquire]
  by_cases hfree : v.holders = ∅
  · rw [if_pos hfree]
    cases clientId.key? <;> rfl
  · rw [if_neg hfree, if_pos (h.resolve_left hfree)]
    cases clientId.key? <;> rfl

theorem acquire_waiting_of_not_grants {lockType : LockType} (h : ¬ v.Grants lockType) (clientId : Json ν) :
    (v.acquire clientId lockType).waiting = v.waiting ++ [(clientId, lockType)] := by
  rw [Grants, not_or] at h
  rw [acquire, if_neg h.1, if_neg h.2]

private theorem acquireGrants_of_not_grants {lockType : LockType} (h : ¬ v.Grants lockType) (clientId : Json ν) :
    v.acquireGrants clientId lockType = [] := by
  rw [Grants, not_or] at h
  rw [acquireGrants]
  cases clientId.key? with
  | none => rfl
  | some c => simp only [if_neg h.1, if_neg h.2]

private theorem acquireGrants_ne_nil_iff {lockType : LockType} (h : v.Grants lockType) {clientId : Json ν} :
    v.acquireGrants clientId lockType ≠ [] ↔ clientId.key?.isSome := by
  rw [acquireGrants]
  cases clientId.key? with
  | none => simp
  | some c =>
    by_cases hfree : v.holders = ∅
    · simp [hfree]
    · simp [hfree, h.resolve_left hfree]

end LockView

namespace LockManagerNode

variable {s s' : LockManagerNode ν} {r : Key ν} {a : LockAction ν}

/-! ### The line of a resource -/

/-- The request for the resource that a step makes: the client and the mode. -/
def requested (r : Key ν) : LockAction ν → Option (Json ν × LockType)
  | .apply _ cmd =>
    if cmd.resource.key? = some r ∧ cmd.action.isStr "acquire" then
      cmd.lockType?.map fun lockType => (cmd.clientId, lockType)
    else none
  | .sweep _ => none

/-- The requests for a resource as a line. -/
abbrev RequestLine (ν : Type) := TicketLine (Json ν × LockType) (Grant ν)

/-- The line of the resource after the step `a` from `s` to `s'`. -/
def nextLine (r : Key ν) (s s' : LockManagerNode ν) (a : LockAction ν) (l : RequestLine ν) : RequestLine ν :=
  match requested r a with
  | some (clientId, lockType) =>
    if (s.locks.view r).Grants lockType then l.pass (s.grants r a) else l.join (clientId, lockType)
  | none => l.moveUp ((s.locks.view r).waiting.length - (s'.locks.view r).waiting.length) (s.grants r a)

/-- A node with the line of one resource. -/
structure Lined (ν : Type) where
  node : LockManagerNode ν
  line : RequestLine ν := {}

def Lined.step (r : Key ν) (σ : Lined ν) (a : LockAction ν) : Option (Lined ν) :=
  (σ.node.step a).map fun s' => ⟨s', nextLine r σ.node s' a σ.line⟩

/-- The line is the waiting list of the resource with tickets. -/
structure Lined.Aligned (r : Key ν) (σ : Lined ν) : Prop where
  waiting : σ.line.waiting.map Prod.snd = (σ.node.locks.view r).waiting
  sorted : σ.line.Sorted

/-- A step that requests the resource acts on its view as an acquire. -/
theorem step_of_requested (hstep : s.step a = some s') {clientId : Json ν} {lockType : LockType}
    (hreq : requested r a = some (clientId, lockType)) :
    s'.locks.view r = (s.locks.view r).acquire clientId lockType ∧
      s.grants r a = (s.locks.view r).acquireGrants clientId lockType := by
  cases a with
  | apply now cmd =>
    obtain rfl : (s.applyLockCommand now cmd).state = s' := by simpa [step] using hstep
    rw [requested] at hreq
    by_cases hcmd : cmd.resource.key? = some r ∧ cmd.action.isStr "acquire"
    · rw [if_pos hcmd] at hreq
      obtain ⟨lockType', htype, heq⟩ := Option.map_eq_some_iff.1 hreq
      obtain ⟨rfl, rfl⟩ := Prod.mk.inj heq
      rw [applyLockCommand_view, grants, if_pos hcmd.1, if_pos hcmd.1, LockView.apply, LockView.grants,
        LockView.request, if_pos hcmd.2, if_pos hcmd.2, htype]
      exact ⟨rfl, rfl⟩
    · rw [if_neg hcmd] at hreq
      cases hreq
  | sweep env => cases hreq

/-- What a step that does not request the resource does to its lock: a release, an expiry, or nothing. -/
theorem step_cases_of_not_requested (hstep : s.step a = some s') (hreq : requested r a = none) :
    (∃ now cmd, a = .apply now cmd ∧ cmd.resource.key? = some r ∧ cmd.action.isStr "release" ∧
      s'.locks.view r = (s.locks.view r).release cmd.clientId ∧
      s.grants r a = (s.locks.view r).releaseGrants cmd.clientId) ∨
    (∃ env, a = .sweep env ∧ r ∈ (s.sweep env).expired.toFinset ∧ s'.locks.view r = (s.locks.view r).expire ∧
      s.grants r a = (s.locks.view r).expireGrants) ∨
    (s'.locks.view r = s.locks.view r ∧ s.grants r a = []) := by
  cases a with
  | apply now cmd =>
    obtain rfl : (s.applyLockCommand now cmd).state = s' := by simpa [step] using hstep
    rw [applyLockCommand_view, grants]
    by_cases hr : cmd.resource.key? = some r
    · rw [if_pos hr, if_pos hr, LockView.apply, LockView.grants, LockView.request]
      by_cases ha : cmd.action.isStr "acquire"
      · -- it has no lock type
        rw [requested, if_pos ⟨hr, ha⟩, Option.map_eq_none_iff] at hreq
        rw [if_pos ha, if_pos ha, hreq]
        exact Or.inr (Or.inr ⟨rfl, rfl⟩)
      · rw [if_neg ha, if_neg ha]
        by_cases hrel : cmd.action.isStr "release"
        · rw [if_pos hrel, if_pos hrel]
          exact Or.inl ⟨now, cmd, rfl, hr, hrel, rfl, rfl⟩
        · rw [if_neg hrel, if_neg hrel]
          exact Or.inr (Or.inr ⟨rfl, rfl⟩)
    · rw [if_neg hr, if_neg hr]
      exact Or.inr (Or.inr ⟨rfl, rfl⟩)
  | sweep env =>
    obtain ⟨hlists, rfl⟩ : env.Lists s ∧ (s.sweep env).node = s' := by simpa [step] using hstep
    exact Or.inr ((sweep_view_cases hlists r).imp_left fun h => ⟨env, rfl, h⟩)

/-- A step that does not request the resource moves its line up. -/
theorem step_movesUp (hstep : s.step a = some s') (hreq : requested r a = none) :
    LockView.MovesUp (s.locks.view r) (s'.locks.view r) (s.grants r a) := by
  rcases step_cases_of_not_requested hstep hreq with ⟨now, cmd, -, -, -, hview, hgrants⟩ | ⟨env, -, -, hview, hgrants⟩ |
    ⟨hview, hgrants⟩
  · rw [hview, hgrants]
    exact LockView.release_movesUp _ cmd.clientId
  · rw [hview, hgrants]
    exact LockView.expire_movesUp _
  · rw [hview, hgrants]
    exact .stays rfl

/-! ### Runs -/

/-- The line only watches: the nodes of a run are those of the run without it. -/
theorem Lined.run_node (σ : Lined ν) (actions : List (LockAction ν)) :
    (Transition.run (Lined.step r) σ actions).map Lined.node = Transition.run LockManagerNode.step σ.node actions :=
  Transition.run_map (fun σ a => by rw [Lined.step, Option.map_map]; exact Option.map_id') σ actions

/-- The step is a request that is granted at once while an exclusive request waits. -/
def Overtakes (s : LockManagerNode ν) (r : Key ν) (a : LockAction ν) : Prop :=
  ∃ clientId lockType, requested r a = some (clientId, lockType) ∧ clientId.key?.isSome ∧
    (s.locks.view r).Grants lockType ∧ ∃ w ∈ (s.locks.view r).waiting, w.2 = .exclusive

/-- While an exclusive request for the resource waits, no later one has been granted. -/
def Lined.NoOvertaking (σ : Lined ν) : Prop := σ.line.NoOvertaking fun w => w.2 = .exclusive

theorem Lined.Aligned.step {σ σ' : Lined ν} (h : σ.Aligned r) (hstep : Lined.step r σ a = some σ') :
    σ'.Aligned r := by
  obtain ⟨s', hs', rfl⟩ := Option.map_eq_some_iff.1 hstep
  cases hq : requested r a with
  | none =>
    have hmoves := step_movesUp hs' hq
    simp only [nextLine, hq]
    refine ⟨?_, h.sorted.moveUp _ _⟩
    refine Eq.trans ?_ hmoves.left_eq.1.symm
    show (σ.line.waiting.drop _).map Prod.snd = _
    rw [List.map_drop, h.waiting]
  | some q =>
    obtain ⟨clientId, lockType⟩ := q
    have hacquire := step_of_requested hs' hq
    simp only [nextLine, hq]
    by_cases hg : (σ.node.locks.view r).Grants lockType
    · rw [if_pos hg]
      refine ⟨?_, h.sorted.pass _⟩
      show σ.line.waiting.map Prod.snd = (s'.locks.view r).waiting
      rw [hacquire.1, LockView.acquire_waiting_of_grants hg, h.waiting]
    · rw [if_neg hg]
      refine ⟨?_, h.sorted.join _⟩
      show (σ.line.waiting ++ [(σ.line.next, (clientId, lockType))]).map Prod.snd = (s'.locks.view r).waiting
      rw [hacquire.1, LockView.acquire_waiting_of_not_grants hg, List.map_append, h.waiting]
      rfl

theorem Lined.step_granted {σ σ' : Lined ν} (h : σ.Aligned r) (hstep : Lined.step r σ a = some σ') :
    σ'.line.granted.map Prod.snd = σ.line.granted.map Prod.snd ++ σ.node.grants r a := by
  obtain ⟨s', hs', rfl⟩ := Option.map_eq_some_iff.1 hstep
  cases hq : requested r a with
  | none =>
    have hmoves := step_movesUp hs' hq
    simp only [nextLine, hq]
    show (σ.line.granted ++ (σ.line.waiting.map Prod.fst).zip (σ.node.grants r a)).map Prod.snd = _
    have hlen : (σ.node.grants r a).length ≤ (σ.line.waiting.map Prod.fst).length := by
      have hgs := hmoves.left_eq.2
      rw [← h.waiting, List.length_map] at hgs
      rw [List.length_map]
      omega
    rw [List.map_append, List.map_snd_zip hlen]
  | some q =>
    obtain ⟨clientId, lockType⟩ := q
    have hacquire := step_of_requested hs' hq
    simp only [nextLine, hq]
    by_cases hg : (σ.node.locks.view r).Grants lockType
    · rw [if_pos hg]
      show (σ.line.granted ++ (σ.node.grants r a).map fun g => (σ.line.next, g)).map Prod.snd = _
      rw [List.map_append, List.map_map, Function.comp_def]
      simp only [List.map_id']
    · rw [if_neg hg, hacquire.2, LockView.acquireGrants_of_not_grants hg, List.append_nil]
      rfl

/-- The grants of the line are those of the run. -/
theorem Lined.run_granted {σ σ' : Lined ν} {actions : List (LockAction ν)} (h : σ.Aligned r)
    (hrun : Transition.run (Lined.step r) σ actions = some σ') :
    σ'.line.granted.map Prod.snd = σ.line.granted.map Prod.snd ++ grantLog r σ.node actions := by
  induction actions generalizing σ with
  | nil =>
    cases hrun
    rw [grantLog, List.append_nil]
  | cons a actions ih =>
    obtain ⟨τ, hstep, hrun⟩ := Transition.run_cons.1 hrun
    obtain ⟨s', hs', hτ⟩ := Option.map_eq_some_iff.1 hstep
    have hnode : τ.node = s' := by rw [← hτ]
    simp only [grantLog, hs']
    rw [ih (h.step hstep) hrun, Lined.step_granted h hstep, hnode, List.append_assoc]

private theorem Lined.step_noOvertaking_iff {σ σ' : Lined ν} (h : σ.Aligned r) (hno : σ.NoOvertaking)
    (hstep : Lined.step r σ a = some σ') : ¬ σ.node.Overtakes r a ↔ σ'.NoOvertaking := by
  obtain ⟨s', hs', rfl⟩ := Option.map_eq_some_iff.1 hstep
  have hwaiting : (∃ w ∈ (σ.node.locks.view r).waiting, w.2 = .exclusive) ↔
      ∃ t ∈ σ.line.waiting, t.2.2 = .exclusive := by
    rw [← h.waiting]
    simp only [List.mem_map, exists_exists_and_eq_and]
  cases hq : requested r a with
  | none =>
    have hmoves := step_movesUp hs' hq
    simp only [NoOvertaking, nextLine, hq]
    refine iff_of_true ?_ (hno.moveUp h.sorted hmoves.left_eq.2)
    rintro ⟨clientId, lockType, hsome, -⟩
    rw [hq] at hsome
    cases hsome
  | some q =>
    obtain ⟨clientId, lockType⟩ := q
    have hacquire := step_of_requested hs' hq
    simp only [NoOvertaking, nextLine, hq]
    by_cases hg : (σ.node.locks.view r).Grants lockType
    · rw [if_pos hg, TicketLine.pass_noOvertaking_iff hno h.sorted, hacquire.2, LockView.acquireGrants_ne_nil_iff hg]
      constructor
      · intro hnot hkey t ht hex
        exact hnot ⟨clientId, lockType, hq, hkey, hg, hwaiting.2 ⟨t, ht, hex⟩⟩
      · rintro hnone ⟨clientId', lockType', hsome, hkey, -, hex⟩
        rw [hq, Option.some.injEq, Prod.mk.injEq] at hsome
        obtain ⟨rfl, rfl⟩ := hsome
        obtain ⟨t, ht, htex⟩ := hwaiting.1 hex
        exact hnone hkey t ht htex
    · rw [if_neg hg]
      refine iff_of_true ?_ (hno.join h.sorted _)
      rintro ⟨clientId', lockType', hsome, -, hgrants, -⟩
      rw [hq, Option.some.injEq, Prod.mk.injEq] at hsome
      obtain ⟨-, rfl⟩ := hsome
      exact hg hgrants

/-- No exclusive request is overtaken in a run if and only if no request is granted at once while one waits. -/
theorem noOvertaking_iff (leaseTimeout : ν) (r : Key ν) (actions : List (LockAction ν)) :
    (∀ pre, pre <+: actions → ∀ σ, Transition.run (Lined.step r) ⟨start leaseTimeout, {}⟩ pre = some σ →
      σ.NoOvertaking) ↔
    ∀ pre a σ σ', pre ++ [a] <+: actions → Transition.run (Lined.step r) ⟨start leaseTimeout, {}⟩ pre = some σ →
      Lined.step r σ a = some σ' → ¬ σ.node.Overtakes r a := by
  have hstart : Lined.Aligned r (⟨start leaseTimeout, {}⟩ : Lined ν) := ⟨rfl, TicketLine.sorted_empty⟩
  exact Transition.forall_prefix_iff hstart (fun _ _ _ h hstep => h.step hstep) TicketLine.noOvertaking_empty
    (fun _ _ _ h hno hstep => Lined.step_noOvertaking_iff h hno hstep) actions

/-- `b` joins the shared lock of `a` while `w` waits for it exclusively. -/
theorem reader_overtakes : ¬∀ (r : Key Int) (actions : List (LockAction Int)) (σ : Lined Int),
    Transition.run (Lined.step r) ⟨start 30, {}⟩ actions = some σ → σ.NoOvertaking := by
  intro hall
  have hrun : (Transition.run (Lined.step (.str "r")) ⟨start (30 : Int), {}⟩
      [.apply 1 (.acquire (.str "r") (.str "a") (.str "shared") none),
        .apply 2 (.acquire (.str "r") (.str "w") (.str "exclusive") none),
        .apply 3 (.acquire (.str "r") (.str "b") (.str "shared") none)]).map (fun σ => decide
      (∃ t ∈ σ.line.waiting, t.2.2 = .exclusive ∧ ∃ g ∈ σ.line.granted, t.1 < g.1)) = some true := by decide
  obtain ⟨σ, hσ, hobs⟩ := Option.map_eq_some_iff.1 hrun
  obtain ⟨t, ht, hex, g, hg, hlt⟩ := of_decide_eq_true hobs
  have hle := hall _ _ σ hσ t ht hex g hg
  omega

end LockManagerNode

end DistributedSync
