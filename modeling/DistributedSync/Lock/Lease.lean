import Mathlib.Algebra.Order.Monoid.Defs
import Mathlib.Algebra.Order.Ring.Int
import DistributedSync.Lock.Overtaking

/-!
# How long a lease lasts

A client that is granted a lock has asked for a lease time, and may count on the lock until that time has passed
(`Leased.promises`).  A lock has one lease for all its holders.  A direct grant ends it no earlier than the client
asked for, and nothing shortens it as long as there is a holder; but the waiting list does not keep the lease time
of a request, and a hand-over gives everybody the lease time of the node.  So leases last as asked as long as no
request is promoted that has asked for more than that (`lease_lasts`), and a promotion of such a request breaks its
promise (`Leased.step_kept_iff`).
-/

namespace DistributedSync

namespace LockManagerNode

section

variable {ν : Type} [Number ν]

/-- The lease time that an acquire asks for, if it is a number. -/
def leaseAsked (s : LockManagerNode ν) : LockAction ν → Option ν
  | .apply _ cmd => (cmd.leaseTimeout.getD (.num s.leaseTimeout)).number?
  | .sweep _ => none

/-- The clock at the grants of the resource in a step. -/
def grantTime (r : Key ν) : LockAction ν → ν
  | .apply now _ => now
  | .sweep env => env.handOverTime r

/-- The step takes the resource from the client: a release by the client, or a pass that finds the lease expired. -/
def TakesFrom (s : LockManagerNode ν) (r : Key ν) (a : LockAction ν) (c : Key ν) : Prop :=
  match a with
  | .apply _ cmd => cmd.resource.key? = some r ∧ cmd.action.isStr "release" ∧ cmd.clientId.key? = some c
  | .sweep env => r ∈ (s.sweep env).expired.toFinset

instance (s : LockManagerNode ν) (r : Key ν) (a : LockAction ν) (c : Key ν) : Decidable (s.TakesFrom r a c) :=
  match a with
  | .apply _ cmd => inferInstanceAs (Decidable (cmd.resource.key? = some r ∧ _))
  | .sweep env => inferInstanceAs (Decidable (r ∈ (s.sweep env).expired.toFinset))

/-- What is promised by the grants `gs` at the time `t` to requests that have asked for the lease times `times`. -/
def promised (times : List (Option ν)) (gs : List (Grant ν)) (t : ν) : List (Key ν × ν) :=
  (times.zip gs).filterMap fun p => p.1.map fun T => (p.2.client, t + T)

/-- A node with the lease times that the requests in the waiting list of one resource have asked for, and what has
been promised to its holders: the client, and the time of the grant plus the lease time. -/
structure Leased (ν : Type) where
  node : LockManagerNode ν
  asked : List (Option ν) := []
  promises : List (Key ν × ν) := []

/-- A promise lasts until the lock is taken from the client. -/
def Leased.step (r : Key ν) (σ : Leased ν) (a : LockAction ν) : Option (Leased ν) :=
  (σ.node.step a).map fun s' => {
    node := s'
    asked := match requested r a with
      | some (_, lockType) =>
        if (σ.node.locks.view r).Grants lockType then σ.asked else σ.asked ++ [σ.node.leaseAsked a]
      | none => σ.asked.drop ((σ.node.locks.view r).waiting.length - (s'.locks.view r).waiting.length)
    promises := σ.promises.filter (fun p => ¬ σ.node.TakesFrom r a p.1) ++
      promised (if (requested r a).isSome then [σ.node.leaseAsked a] else σ.asked) (σ.node.grants r a)
        (grantTime r a) }

variable {s s' : LockManagerNode ν} {r : Key ν} {a : LockAction ν}

private theorem mem_promised {times : List (Option ν)} {gs : List (Grant ν)} {t : ν} {p : Key ν × ν} :
    p ∈ promised times gs t ↔ ∃ T g, (some T, g) ∈ times.zip gs ∧ p = (g.client, t + T) := by
  rw [promised, List.mem_filterMap]
  constructor
  · rintro ⟨⟨T, g⟩, hmem, hp⟩
    obtain ⟨T, rfl, rfl⟩ := Option.map_eq_some_iff.1 hp
    exact ⟨T, g, hmem, rfl⟩
  · rintro ⟨T, g, hmem, rfl⟩
    exact ⟨(some T, g), hmem, rfl⟩

/-- The lease times that have been asked for are those of the waiting list. -/
theorem Leased.step_asked {σ σ' : Leased ν} (h : σ.asked.length = (σ.node.locks.view r).waiting.length)
    (hstep : Leased.step r σ a = some σ') : σ'.asked.length = (σ'.node.locks.view r).waiting.length := by
  obtain ⟨s', hs', rfl⟩ := Option.map_eq_some_iff.1 hstep
  cases hq : requested r a with
  | none =>
    have hmoves := step_movesUp hs' hq
    simp only
    rw [List.length_drop, h]
    have hlen := congrArg List.length hmoves.left_eq.1
    rw [List.length_drop] at hlen
    omega
  | some q =>
    obtain ⟨clientId, lockType⟩ := q
    have hacquire := step_of_requested hs' hq
    simp only
    rw [hacquire.1]
    by_cases hg : (σ.node.locks.view r).Grants lockType
    · rw [if_pos hg, LockView.acquire_waiting_of_grants hg, h]
    · rw [if_neg hg, LockView.acquire_waiting_of_not_grants hg, List.length_append, List.length_append, h]
      rfl

/-- The lease times are only watched: the nodes of a run are those of the run without them. -/
theorem Leased.run_node (σ : Leased ν) (actions : List (LockAction ν)) :
    (Transition.run (Leased.step r) σ actions).map Leased.node = Transition.run LockManagerNode.step σ.node actions :=
  Transition.run_map (fun σ a => by rw [Leased.step, Option.map_map]; exact Option.map_id') σ actions

theorem Leased.asked_of_reach {leaseTimeout : ν} {σ : Leased ν}
    (h : Transition.Reach (fun σ a σ' => Leased.step r σ a = some σ') ⟨start leaseTimeout, [], []⟩ σ) :
    σ.asked.length = (σ.node.locks.view r).waiting.length :=
  h.invariant (I := fun σ => σ.asked.length = (σ.node.locks.view r).waiting.length) rfl
    fun _ _ _ _ hlen _ hstep => Leased.step_asked hlen hstep

/-! ### Who loses the lock -/

private theorem release_keeps {v : LockView ν} {clientId : Json ν} {c : Key ν} (hc : clientId.key? ≠ some c)
    (hmem : c ∈ v.holders) : c ∈ (v.release clientId).holders ∧ v.releaseGrants clientId = [] := by
  rw [LockView.release, LockView.releaseGrants]
  cases hkey : clientId.key? with
  | none => exact ⟨hmem, rfl⟩
  | some c' =>
    have hkept : c ∈ v.holders.erase c' := by
      refine Finset.mem_erase.2 ⟨?_, hmem⟩
      rintro rfl
      exact hc hkey
    have hheld : v.holders.erase c' ≠ ∅ := Finset.ne_empty_of_mem hkept
    simp only [if_neg hheld]
    exact ⟨hkept, trivial⟩

theorem acquire_keeps {v : LockView ν} {c : Key ν} (hmem : c ∈ v.holders) (clientId : Json ν) (lockType : LockType) :
    c ∈ (v.acquire clientId lockType).holders := by
  have hheld : v.holders ≠ ∅ := Finset.ne_empty_of_mem hmem
  rw [LockView.acquire, if_neg hheld]
  by_cases hs : lockType = .shared ∧ v.lockType = some .shared
  · rw [if_pos hs]
    cases clientId.key? with
    | none => exact hmem
    | some c' => exact Finset.mem_insert_of_mem hmem
  · rw [if_neg hs]
    exact hmem

/-- A holder from whom a step does not take the lock keeps it, and unless the step requests the resource it grants
nothing then. -/
theorem step_keeps (hstep : s.step a = some s') {c : Key ν} (hmem : c ∈ (s.locks.view r).holders)
    (hkeep : ¬ s.TakesFrom r a c) :
    c ∈ (s'.locks.view r).holders ∧ (requested r a = none → s.grants r a = []) := by
  cases hreq : requested r a with
  | none =>
    rcases step_cases_of_not_requested hstep hreq with ⟨now, cmd, rfl, hr, hrel, hview, hgrants⟩ |
      ⟨env, rfl, hexp, -, -⟩ | ⟨hview, hgrants⟩
    · have hother : cmd.clientId.key? ≠ some c := fun hc => hkeep ⟨hr, hrel, hc⟩
      rw [hview, hgrants]
      exact ⟨(release_keeps hother hmem).1, fun _ => (release_keeps hother hmem).2⟩
    · exact absurd hexp hkeep
    · rw [hview]
      exact ⟨hmem, fun _ => hgrants⟩
  | some q =>
    rw [(step_of_requested hstep hreq).1]
    exact ⟨acquire_keeps hmem _ _, fun h => by cases h⟩

/-! ### The lease of the lock -/

private theorem joinWaiting_lease (lock : LockState ν) (d : DeadlockDetector ν) (ws : List (Waiting ν)) :
    (lock.joinWaiting d ws).state.1.leaseExpiry = lock.leaseExpiry := by
  induction ws generalizing lock d with
  | nil => rfl
  | cons w ws ih =>
    rw [LockState.joinWaiting]
    by_cases hs : w.lockType = .shared
    · rw [if_pos hs]
      cases w.clientId.key? with
      | none => rfl
      | some c => exact ih { lock with holders := insert c lock.holders } (d.removeClient c)
    · rw [if_neg hs]

/-- A hand-over that grants the lock sets its lease, and any other one leaves it. -/
theorem handOver_lease (lock : LockState ν) (d : DeadlockDetector ν) (now leaseTimeout : ν) :
    (lock.view.handOverGrants = [] → (lock.handOver d now leaseTimeout).state.1.leaseExpiry = lock.leaseExpiry) ∧
      (lock.view.handOverGrants ≠ [] →
        (lock.handOver d now leaseTimeout).state.1.leaseExpiry = now + leaseTimeout) := by
  have hwaiting : lock.view.waiting = lock.waiting.map Waiting.request := rfl
  rw [LockState.handOver, LockView.handOverGrants, hwaiting]
  cases lock.waiting with
  | nil => exact ⟨fun _ => rfl, fun h => absurd rfl h⟩
  | cons next rest =>
    simp only [List.map_cons, Waiting.request]
    cases next.clientId.key? with
    | none => exact ⟨fun _ => rfl, fun h => absurd rfl h⟩
    | some c =>
      refine ⟨fun h => absurd h (List.cons_ne_nil _ _), fun _ => ?_⟩
      by_cases hs : next.lockType = .shared
      · simp only [if_pos hs]
        exact joinWaiting_lease _ _ rest
      · simp only [if_neg hs]

private theorem release_lease (lock : LockState ν) (d : DeadlockDetector ν) (now leaseTimeout : ν) (clientId : Json ν) :
    (lock.view.releaseGrants clientId = [] →
        (lock.release d now leaseTimeout clientId).state.1.leaseExpiry = lock.leaseExpiry) ∧
      (lock.view.releaseGrants clientId ≠ [] →
        (lock.release d now leaseTimeout clientId).state.1.leaseExpiry = now + leaseTimeout) := by
  have hholders : lock.view.holders = lock.holders := rfl
  rw [LockState.release, LockView.releaseGrants]
  cases clientId.key? with
  | none => exact ⟨fun _ => rfl, fun h => absurd rfl h⟩
  | some c =>
    simp only [hholders]
    by_cases hfree : lock.holders.erase c = ∅
    · rw [if_pos hfree, if_pos hfree]
      exact handOver_lease { lock with holders := lock.holders.erase c } _ now leaseTimeout
    · rw [if_neg hfree, if_neg hfree]
      exact ⟨fun _ => rfl, fun h => absurd rfl h⟩

/-- A command leaves the locks of all other resources. -/
theorem applyLockCommand_get?_of_ne (s : LockManagerNode ν) (now : ν) {cmd : LockCommand ν}
    (hr : cmd.resource.key? ≠ some r) : (s.applyLockCommand now cmd).state.locks.get? r = s.locks.get? r := by
  have hne : ∀ r', cmd.resource.key? = some r' → r ≠ r' := by
    rintro r' hr' rfl
    exact hr hr'
  unfold applyLockCommand
  by_cases ha : cmd.action.isStr "acquire"
  · rw [if_pos ha]
    cases cmd.lockType? with
    | none => rfl
    | some lockType =>
      simp only [doAcquire]
      cases hkey : cmd.resource.key? with
      | none => rfl
      | some r' => exact Dict.get?_set_of_ne s.locks _ (hne r' hkey)
  · rw [if_neg ha]
    by_cases hrel : cmd.action.isStr "release"
    · rw [if_pos hrel, doRelease]
      cases hkey : cmd.resource.key? with
      | none => rfl
      | some r' =>
        simp only
        cases s.locks.get? r' with
        | none => rfl
        | some lock => exact Dict.get?_set_of_ne s.locks _ (hne r' hkey)
    · rw [if_neg hrel]

/-- A step that does not request the resource sets its lease when it grants the lock, and leaves it otherwise. -/
theorem step_lease_of_not_requested (hstep : s.step a = some s') (hreq : requested r a = none) :
    (s.grants r a = [] → (s'.locks.getOrNew r).leaseExpiry = (s.locks.getOrNew r).leaseExpiry) ∧
      (s.grants r a ≠ [] → (s'.locks.getOrNew r).leaseExpiry = grantTime r a + s.leaseTimeout) := by
  have hsame : s'.locks.get? r = s.locks.get? r → s.grants r a = [] →
      (s.grants r a = [] → (s'.locks.getOrNew r).leaseExpiry = (s.locks.getOrNew r).leaseExpiry) ∧
      (s.grants r a ≠ [] → (s'.locks.getOrNew r).leaseExpiry = grantTime r a + s.leaseTimeout) := by
    intro hget hnone
    refine ⟨fun _ => ?_, fun h => absurd hnone h⟩
    rw [LockTable.getOrNew, hget, LockTable.getOrNew]
  cases a with
  | apply now cmd =>
    obtain rfl : (s.applyLockCommand now cmd).state = s' := by simpa [step] using hstep
    by_cases hr : cmd.resource.key? = some r
    · by_cases ha : cmd.action.isStr "acquire"
      · rw [requested, if_pos ⟨hr, ha⟩, Option.map_eq_none_iff] at hreq
        refine hsame ?_ ?_
        · rw [applyLockCommand, if_pos ha, hreq]
        · rw [grants, if_pos hr, LockView.grants, if_pos ha, hreq]
      · by_cases hrel : cmd.action.isStr "release"
        · have hgrants : s.grants r (.apply now cmd) = (s.locks.view r).releaseGrants cmd.clientId := by
            rw [grants, if_pos hr, LockView.grants, if_neg ha, if_pos hrel]
          have hrun : (s.applyLockCommand now cmd).state = (s.doRelease now cmd.resource cmd.clientId).state := by
            rw [applyLockCommand, if_neg ha, if_pos hrel]
          cases hl : s.locks.get? r with
          | none =>
            refine hsame ?_ ?_
            · rw [hrun, doRelease, hr]
              simp only [hl]
            · rw [hgrants, LockTable.view_of_none hl, LockView.releaseGrants]
              cases cmd.clientId.key? <;> rfl
          | some lock =>
            have hget : (s.applyLockCommand now cmd).state.locks.get? r =
                some (lock.release s.deadlockDetector now s.leaseTimeout cmd.clientId).state.1 := by
              rw [hrun, doRelease, hr]
              simp only [hl]
              exact Dict.get?_set_self s.locks r _
            rw [LockTable.getOrNew_of_get? hget, LockTable.getOrNew_of_get? hl, hgrants, LockTable.view_of_get? hl]
            exact release_lease lock s.deadlockDetector now s.leaseTimeout cmd.clientId
        · refine hsame ?_ ?_
          · rw [applyLockCommand, if_neg ha, if_neg hrel]
          · rw [grants, if_pos hr, LockView.grants, if_neg ha, if_neg hrel]
    · refine hsame (applyLockCommand_get?_of_ne s now hr) ?_
      rw [grants, if_neg hr]
  | sweep env =>
    obtain ⟨hlists, rfl⟩ : env.Lists s ∧ (s.sweep env).node = s' := by simpa [step] using hstep
    have hsweep := sweep_handsOver hlists
    by_cases hexp : r ∈ (s.sweep env).expired
    · obtain ⟨lock, hl, -, hget⟩ := hsweep.expired r hexp
      have hgrants : s.grants r (.sweep env) = lock.view.expireGrants := by
        rw [grants, if_pos (List.mem_toFinset.2 hexp), LockTable.view_of_get? hl]
      rw [LockTable.getOrNew_of_get? hget, LockTable.getOrNew_of_get? hl, hgrants]
      exact handOver_lease { lock with holders := ∅ } {} (env.handOverTime r) s.leaseTimeout
    · refine hsame (hsweep.others r hexp) ?_
      rw [grants, if_neg fun h => hexp (List.mem_toFinset.1 h)]

end

/-! ### Promises -/

section

private theorem grants_ne_nil_of_zip {ν : Type} {times : List (Option ν)} {gs : List (Grant ν)} {x : Option ν × Grant ν}
    (h : x ∈ times.zip gs) : gs ≠ [] := by
  rintro rfl
  rw [List.zip_nil_right] at h
  cases h

variable {ν : Type} [One ν] [AddCommMonoid ν] [LinearOrder ν] {s s' : LockManagerNode ν} {r : Key ν}
  {a : LockAction ν}

private theorem le_pyMax_left (x y : ν) : x ≤ pyMax x y := by
  unfold pyMax
  by_cases h : x < y
  · rw [if_pos h]
    exact h.le
  · rw [if_neg h]

private theorem le_pyMax_right (x y : ν) : y ≤ pyMax x y := by
  unfold pyMax
  by_cases h : x < y
  · rw [if_pos h]
  · rw [if_neg h]
    exact not_lt.1 h

/-- An acquire does not shorten the lease of a lock that is held. -/
theorem acquire_lease_le {lock : LockState ν} (hheld : lock.holders ≠ ∅) (d : DeadlockDetector ν) (now : ν)
    (clientId : Json ν) (lockType : LockType) (leaseTimeout : Json ν) :
    lock.leaseExpiry ≤ (lock.acquire d now clientId lockType leaseTimeout).state.1.leaseExpiry := by
  rw [LockState.acquire, if_neg hheld]
  by_cases hs : lockType = .shared ∧ lock.lockType = some .shared
  · rw [if_pos hs]
    cases clientId.key? with
    | none => exact le_rfl
    | some c =>
      cases leaseTimeout.number? with
      | none => exact le_rfl
      | some t => exact le_pyMax_left _ _
  · rw [if_neg hs]
    cases clientId.key? <;> exact le_rfl

/-- A direct grant gives the client at least the lease that it asks for. -/
theorem acquire_lease_granted {lock : LockState ν} {clientId leaseTimeout : Json ν} {lockType : LockType} {T : ν}
    (hgrants : lock.view.acquireGrants clientId lockType ≠ []) (hT : leaseTimeout.number? = some T)
    (d : DeadlockDetector ν) (now : ν) :
    now + T ≤ (lock.acquire d now clientId lockType leaseTimeout).state.1.leaseExpiry := by
  have hholders : lock.view.holders = lock.holders := rfl
  have htype : lock.view.lockType = lock.lockType := rfl
  rw [LockView.acquireGrants, hholders, htype] at hgrants
  rw [LockState.acquire]
  cases hc : clientId.key? with
  | none =>
    rw [hc] at hgrants
    exact absurd rfl hgrants
  | some c =>
    rw [hc] at hgrants
    simp only [hT]
    by_cases hfree : lock.holders = ∅
    · rw [if_pos hfree]
    · rw [if_neg hfree]
      by_cases hs : lockType = .shared ∧ lock.lockType = some .shared
      · rw [if_pos hs]
        exact le_pyMax_right _ _
      · simp only [if_neg hfree, if_neg hs] at hgrants
        exact absurd rfl hgrants

/-- A step that requests the resource keeps the lease of a lock that is held, and what it grants lasts as asked. -/
theorem step_lease_of_requested (hstep : s.step a = some s') (hreq : requested r a ≠ none) :
    ((s.locks.view r).holders ≠ ∅ → (s.locks.getOrNew r).leaseExpiry ≤ (s'.locks.getOrNew r).leaseExpiry) ∧
      ∀ T, s.leaseAsked a = some T → s.grants r a ≠ [] → grantTime r a + T ≤ (s'.locks.getOrNew r).leaseExpiry := by
  cases a with
  | sweep env => exact absurd rfl hreq
  | apply now cmd =>
    obtain rfl : (s.applyLockCommand now cmd).state = s' := by simpa [step] using hstep
    rw [requested] at hreq
    by_cases hcmd : cmd.resource.key? = some r ∧ cmd.action.isStr "acquire"
    · rw [if_pos hcmd, ne_eq, Option.map_eq_none_iff] at hreq
      obtain ⟨hr, ha⟩ := hcmd
      obtain ⟨lockType, hlt⟩ := Option.ne_none_iff_exists'.1 hreq
      have hget : (s.applyLockCommand now cmd).state.locks.get? r = some ((s.locks.getOrNew r).acquire
          s.deadlockDetector now cmd.clientId lockType (cmd.leaseTimeout.getD (.num s.leaseTimeout))).state.1 := by
        rw [applyLockCommand, if_pos ha, hlt]
        simp only [doAcquire, hr]
        exact Dict.get?_set_self s.locks r _
      have hgrants : s.grants r (.apply now cmd) = (s.locks.view r).acquireGrants cmd.clientId lockType := by
        rw [grants, if_pos hr, LockView.grants, if_pos ha, hlt]
      rw [LockTable.getOrNew_of_get? hget, hgrants]
      exact ⟨fun hheld => acquire_lease_le hheld _ _ _ _ _, fun T hT hne => acquire_lease_granted hne hT _ _⟩
    · rw [if_neg hcmd] at hreq
      exact absurd rfl hreq

/-- Every promise is made to a holder, and the lease of the lock lasts until all of them have been kept. -/
structure Leased.Kept (r : Key ν) (σ : Leased ν) : Prop where
  held : ∀ p ∈ σ.promises, p.1 ∈ (σ.node.locks.view r).holders
  lasts : ∀ p ∈ σ.promises, p.2 ≤ (σ.node.locks.getOrNew r).leaseExpiry

/-- The step promotes a request that has asked for more than the lease time of the node. -/
def Leased.Shortens (r : Key ν) (σ : Leased ν) (a : LockAction ν) : Prop :=
  requested r a = none ∧ ∃ p ∈ σ.asked.zip (σ.node.grants r a), ∃ T ∈ p.1, σ.node.leaseTimeout < T

instance (r : Key ν) (σ : Leased ν) (a : LockAction ν) : Decidable (σ.Shortens r a) :=
  inferInstanceAs (Decidable (_ ∧ _))

private theorem Leased.start_kept (leaseTimeout : ν) : Leased.Kept r (⟨start leaseTimeout, [], []⟩ : Leased ν) where
  held p hp := by cases hp
  lasts p hp := by cases hp

variable [IsOrderedCancelAddMonoid ν]

/-- A step keeps the promises if and only if it promotes nobody who has asked for more than the node gives. -/
theorem Leased.step_kept_iff {σ σ' : Leased ν} (h : σ.Kept r) (hstep : Leased.step r σ a = some σ') :
    ¬ σ.Shortens r a ↔ σ'.Kept r := by
  obtain ⟨s', hs', rfl⟩ := Option.map_eq_some_iff.1 hstep
  have hgranted := step_granted hs' r
  constructor
  · intro hok
    constructor
    · intro p hp
      rcases List.mem_append.1 hp with hp | hp
      · obtain ⟨hp, hkeep⟩ := List.mem_filter.1 hp
        exact (step_keeps hs' (h.held p hp) (of_decide_eq_true hkeep)).1
      · obtain ⟨T, g, hmem, rfl⟩ := mem_promised.1 hp
        exact hgranted.held g (List.of_mem_zip hmem).2
    · intro p hp
      show p.2 ≤ (s'.locks.getOrNew r).leaseExpiry
      cases hreq : requested r a with
      | none =>
        obtain ⟨hsame, hset⟩ := step_lease_of_not_requested hs' hreq
        rcases List.mem_append.1 hp with hp | hp
        · -- the lock has not been handed over, since the client still has it
          obtain ⟨hp, hkeep⟩ := List.mem_filter.1 hp
          rw [hsame ((step_keeps hs' (h.held p hp) (of_decide_eq_true hkeep)).2 hreq)]
          exact h.lasts p hp
        · rw [hreq] at hp
          obtain ⟨T, g, hmem, rfl⟩ := mem_promised.1 hp
          rw [hset (grants_ne_nil_of_zip hmem)]
          have hT : T ≤ σ.node.leaseTimeout := not_lt.1 fun hlt => hok ⟨hreq, _, hmem, T, rfl, hlt⟩
          exact add_le_add_right hT (grantTime r a)
      | some q =>
        have hsome : requested r a ≠ none := by
          rw [hreq]
          exact Option.some_ne_none q
        obtain ⟨hmono, hasked⟩ := step_lease_of_requested hs' hsome
        rcases List.mem_append.1 hp with hp | hp
        · have hmem := (List.mem_filter.1 hp).1
          exact (h.lasts p hmem).trans (hmono (Finset.ne_empty_of_mem (h.held p hmem)))
        · rw [hreq] at hp
          obtain ⟨T, g, hmem, rfl⟩ := mem_promised.1 hp
          have hT := (List.of_mem_zip hmem).1
          rw [Option.isSome_some, if_pos rfl, List.mem_singleton] at hT
          exact hasked T hT.symm (grants_ne_nil_of_zip hmem)
  · rintro hkept ⟨hreq, ⟨_, g⟩, hmem, T, rfl, hlt⟩
    have hp : (g.client, grantTime r a + T) ∈ promised σ.asked (σ.node.grants r a) (grantTime r a) :=
      mem_promised.2 ⟨T, g, hmem, rfl⟩
    have hle := hkept.lasts (g.client, grantTime r a + T) (List.mem_append_right _ (by rw [hreq]; exact hp))
    have hset := (step_lease_of_not_requested hs' hreq).2 (grants_ne_nil_of_zip hmem)
    have hle' : grantTime r a + T ≤ grantTime r a + σ.node.leaseTimeout := by
      rw [← hset]
      exact hle
    exact absurd (le_of_add_le_add_left hle') (not_le.2 hlt)

/-- In a run that promotes nobody who has asked for more than the lease time of the node, no pass of the sweep up to
the time that a client may count on takes the lock from it. -/
theorem lease_lasts {leaseTimeout : ν} {σ : Leased ν}
    (h : Transition.ReachWhile (fun σ a σ' => Leased.step r σ a = some σ') (fun σ a => ¬ σ.Shortens r a)
      ⟨start leaseTimeout, [], []⟩ σ) {env : Sweep ν} (hlists : env.Lists σ.node) {c : Key ν} {due : ν}
    (hp : (c, due) ∈ σ.promises) (hnow : env.now ≤ due) :
    ∃ lock, σ.node.locks.get? r = some lock ∧ c ∈ lock.holders ∧
      (σ.node.sweep env).node.locks.get? r = some lock := by
  have hkept : σ.Kept r := h.invariant (Leased.start_kept leaseTimeout) fun _ _ _ _ hk hok hstep =>
    (Leased.step_kept_iff hk hstep).1 hok
  have hheld := hkept.held _ hp
  have hlasts := hkept.lasts _ hp
  cases hl : σ.node.locks.get? r with
  | none =>
    rw [LockTable.view_of_none hl] at hheld
    cases hheld
  | some lock =>
    rw [LockTable.view_of_get? hl] at hheld
    rw [LockTable.getOrNew_of_get? hl] at hlasts
    refine ⟨lock, rfl, hheld, ?_⟩
    rw [← hl]
    refine (sweep_handsOver hlists).others r fun hexp => ?_
    obtain ⟨lock', hl', he, -⟩ := (sweep_handsOver hlists).expired r hexp
    obtain rfl : lock = lock' := Option.some.inj (hl.symm.trans hl')
    have hlt : lock.leaseExpiry < env.now := (of_decide_eq_true he).2.2
    exact absurd (hnow.trans hlasts) (not_le.2 hlt)

end

/-- A pass at the time `now`, with one holder. -/
private def passAt (now : Int) (holder : String) : Sweep Int := ⟨now, fun _ _ => now, fun _ => [.str holder]⟩

private def requestFor (now T : Int) (clientId lockType : String) : LockAction Int :=
  .apply now (.acquire (.str "r") (.str clientId) (.str lockType) (some (.num T)))

/-- `b` is promoted at 2 and has asked for 20, and the pass is at 22. -/
theorem lease_lasts_run : ∃ σ : Leased Int, (.str "b", 22) ∈ σ.promises ∧
    ∃ lock, σ.node.locks.get? (.str "r") = some lock ∧ .str "b" ∈ lock.holders ∧
      (σ.node.sweep (passAt 22 "b")).node.locks.get? (.str "r") = some lock := by
  have hrun : (Transition.runWhile (Leased.step (.str "r")) (fun σ a => ¬ σ.Shortens (.str "r") a)
      ⟨start (30 : Int), [], []⟩ [requestFor 0 10 "a" "exclusive", requestFor 1 20 "b" "shared",
        .apply 2 (.release (.str "r") (.str "a"))]).map (fun σ => decide
      ((passAt 22 "b").Lists σ.node ∧ (.str "b", 22) ∈ σ.promises)) = some true := by decide
  obtain ⟨σ, hσ, hobs⟩ := Option.map_eq_some_iff.1 hrun
  obtain ⟨hlists, hp⟩ := of_decide_eq_true hobs
  exact ⟨σ, hp, lease_lasts (Transition.ReachWhile.of_runWhile .refl hσ).1 hlists hp (by decide)⟩

/-- `b` is promoted at 2 and has asked for 100, but a pass at 40 takes the lock away. -/
theorem lease_cut_short : ¬∀ (actions : List (LockAction Int)) (σ : Leased Int),
    Transition.run (Leased.step (.str "r")) ⟨start 30, [], []⟩ actions = some σ →
    ∀ env : Sweep Int, env.Lists σ.node → ∀ p ∈ σ.promises, env.now ≤ p.2 →
      p.1 ∈ ((σ.node.sweep env).node.locks.view (.str "r")).holders := by
  intro hall
  have hrun : (Transition.run (Leased.step (.str "r")) ⟨start (30 : Int), [], []⟩
      [requestFor 0 10 "a" "exclusive", requestFor 1 100 "b" "exclusive",
        .apply 2 (.release (.str "r") (.str "a"))]).map (fun σ => decide
      ((passAt 40 "b").Lists σ.node ∧ ∃ p ∈ σ.promises, (passAt 40 "b").now ≤ p.2 ∧
        p.1 ∉ ((σ.node.sweep (passAt 40 "b")).node.locks.view (.str "r")).holders)) = some true := by decide
  obtain ⟨σ, hσ, hobs⟩ := Option.map_eq_some_iff.1 hrun
  obtain ⟨hlists, p, hp, hnow, hnot⟩ := of_decide_eq_true hobs
  exact hnot (hall _ σ hσ _ hlists p hp hnow)

end LockManagerNode

end DistributedSync
