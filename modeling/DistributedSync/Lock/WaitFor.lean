import DistributedSync.Lock.Invariant

/-!
# The steps of the lock table on the wait-for graph

The detector keeps its graph up to date while the locks change hands: a queued client gets edges to the holders,
and `remove_client` drops every edge of a client that is granted a lock or gives one up.  So a step either forgets
some clients, and leaves the holds and waits of all the others alone, or queues one client
(`step_forgets_or_queues`).
-/

namespace DistributedSync

variable {ν : Type} [Number ν]

/-! ### The graph -/

/-- The client `w` has an edge to `h`. -/
def DeadlockDetector.Edge (d : DeadlockDetector ν) (w h : Key ν) : Prop := h ∈ d.targets w

/-- `d'` has the edges of `d` that do not touch the clients in `D`. -/
def DeadlockDetector.Forgets (D : Finset (Key ν)) (d d' : DeadlockDetector ν) : Prop :=
  ∀ w h, d'.Edge w h ↔ d.Edge w h ∧ w ∉ D ∧ h ∉ D

namespace DeadlockDetector

variable {d d' d'' : DeadlockDetector ν} {D D' : Finset (Key ν)}

private theorem edge_addWait (d : DeadlockDetector ν) (c : Key ν) (holders : Finset (Key ν)) (w h : Key ν) :
    (d.addWait c holders).Edge w h ↔ d.Edge w h ∨ (w = c ∧ h ∈ holders ∧ h ≠ c) := by
  rw [Edge, Edge, targets, targets, addWait]
  by_cases hw : w = c
  · subst hw
    rw [Dict.get?_set_self, Option.getD_some, Finset.mem_union, Finset.mem_erase]
    simp only [true_and, and_comm]
  · rw [Dict.get?_set_of_ne _ _ hw]
    simp only [hw, false_and, or_false]

private theorem forgets_removeClient (d : DeadlockDetector ν) (c : Key ν) : Forgets {c} d (d.removeClient c) := by
  intro w h
  rw [Edge, Edge, targets, targets, removeClient, Dict.get?_mapValues, Finset.mem_singleton, Finset.mem_singleton]
  by_cases hw : w = c
  · subst hw
    simp
  · rw [Dict.get?_erase_of_ne _ hw]
    cases d.waitFor.get? w with
    | none => simp
    | some s => simp [hw, and_comm]

theorem Forgets.refl (d : DeadlockDetector ν) : Forgets ∅ d d := by
  intro w h
  simp

theorem Forgets.trans (h : Forgets D d d') (h' : Forgets D' d' d'') : Forgets (D ∪ D') d d'' := by
  intro w x
  rw [h', h, Finset.mem_union, Finset.mem_union, not_or, not_or]
  constructor
  · rintro ⟨⟨he, hw, hx⟩, hw', hx'⟩
    exact ⟨he, ⟨hw, hw'⟩, hx, hx'⟩
  · rintro ⟨he, ⟨hw, hw'⟩, hx, hx'⟩
    exact ⟨⟨he, hw, hx⟩, hw', hx'⟩

end DeadlockDetector

/-! ### Locks -/

/-- The clients of a queue. -/
def LockView.clientsOf (ws : List (Json ν × LockType)) : List (Key ν) := ws.filterMap fun w => w.1.key?

/-- The clients in the waiting list. -/
def LockView.waiters (v : LockView ν) : List (Key ν) := LockView.clientsOf v.waiting

/-- Clients outside `D` hold and wait as before. -/
def LockView.SameOff (D : Finset (Key ν)) (v v' : LockView ν) : Prop :=
  ∀ c ∉ D, (c ∈ v'.holders ↔ c ∈ v.holders) ∧ (c ∈ v'.waiters ↔ c ∈ v.waiters)

namespace LockView

private theorem clientsOf_cons_none {clientId : Json ν} (h : clientId.key? = none) (lockType : LockType)
    (ws : List (Json ν × LockType)) : clientsOf ((clientId, lockType) :: ws) = clientsOf ws :=
  List.filterMap_cons_none h

private theorem mem_clientsOf_cons {clientId : Json ν} {c : Key ν} (h : clientId.key? = some c) (lockType : LockType)
    (ws : List (Json ν × LockType)) {x : Key ν} (hne : x ≠ c) :
    x ∈ clientsOf ((clientId, lockType) :: ws) ↔ x ∈ clientsOf ws := by
  have hcons : clientsOf ((clientId, lockType) :: ws) = c :: clientsOf ws := List.filterMap_cons_some h
  rw [hcons, List.mem_cons]
  exact ⟨fun hx => hx.resolve_left hne, Or.inr⟩

theorem SameOff.refl (D : Finset (Key ν)) (v : LockView ν) : SameOff D v v := fun _ _ => ⟨Iff.rfl, Iff.rfl⟩

/-- The shared requests that join become holders, and the others wait as before. -/
theorem joinWaiting_spec (v : LockView ν) (ws : List (Json ν × LockType)) :
    v.holders ⊆ (v.joinWaiting ws).holders ∧
      ∀ c ∉ (v.joinWaiting ws).holders, (c ∈ (v.joinWaiting ws).waiters ↔ c ∈ clientsOf ws) := by
  induction ws generalizing v with
  | nil => exact ⟨Finset.Subset.refl _, fun _ _ => Iff.rfl⟩
  | cons w ws ih =>
    obtain ⟨clientId, lockType⟩ := w
    rw [joinWaiting]
    by_cases hs : lockType = .shared
    · rw [if_pos hs]
      cases hc : clientId.key? with
      | none =>
        refine ⟨Finset.Subset.refl _, fun c _ => ?_⟩
        rw [clientsOf_cons_none hc]
        exact Iff.rfl
      | some c₀ =>
        obtain ⟨hsub, hrest⟩ := ih { v with holders := insert c₀ v.holders }
        refine ⟨(Finset.subset_insert _ _).trans hsub, fun c hn => ?_⟩
        have hne : c ≠ c₀ := by
          rintro rfl
          exact hn (hsub (Finset.mem_insert_self _ _))
        rw [mem_clientsOf_cons hc _ _ hne]
        exact hrest c hn
    · rw [if_neg hs]
      exact ⟨Finset.Subset.refl _, fun _ _ => Iff.rfl⟩

/-- Handing a lock over makes some clients holders, and the others wait as before. -/
theorem handOver_spec (v : LockView ν) {c : Key ν} (hn : c ∉ v.handOver.holders) :
    c ∈ v.handOver.waiters ↔ c ∈ v.waiters := by
  obtain ⟨mode, holders, queue, token⟩ := v
  cases queue with
  | nil => exact Iff.rfl
  | cons w rest =>
    obtain ⟨clientId, lockType⟩ := w
    rw [handOver] at hn ⊢
    rw [waiters, waiters]
    cases hc : clientId.key? with
    | none =>
      rw [clientsOf_cons_none hc]
      simp only [hc]
    | some c₀ =>
      simp only [hc] at hn ⊢
      by_cases hs : lockType = .shared
      · rw [if_pos hs] at hn ⊢
        obtain ⟨hsub, hrest⟩ := joinWaiting_spec ⟨some lockType, insert c₀ holders, rest, token + 1⟩ rest
        have hne : c ≠ c₀ := by
          rintro rfl
          exact hn (hsub (Finset.mem_insert_self _ _))
        rw [mem_clientsOf_cons hc _ _ hne]
        exact hrest c hn
      · rw [if_neg hs] at hn ⊢
        have hne : c ≠ c₀ := by
          rintro rfl
          exact hn (Finset.mem_insert_self _ _)
        rw [mem_clientsOf_cons hc _ _ hne]

/-- The request is granted at once. -/
def Grants (v : LockView ν) (lockType : LockType) : Prop :=
  v.holders = ∅ ∨ (lockType = .shared ∧ v.lockType = some .shared)

instance (v : LockView ν) (lockType : LockType) : Decidable (v.Grants lockType) :=
  inferInstanceAs (Decidable (_ ∨ _))

/-- The clients that a release of the lock by `c` forgets: `c`, and those that get the lock. -/
def released (v : LockView ν) (c : Key ν) : Finset (Key ν) :=
  insert c (if v.holders.erase c = ∅ then (v.release c.toJson).holders else ∅)

private theorem acquire_sameOff {v : LockView ν} {clientId : Json ν} {lockType : LockType} {c : Key ν}
    (hc : clientId.key? = some c) (hg : v.Grants lockType) : SameOff {c} v (v.acquire clientId lockType) := by
  intro x hx
  rw [Finset.mem_singleton] at hx
  have hholders : ∀ holders : Finset (Key ν), x ∈ insert c holders ↔ x ∈ holders := by
    intro holders
    rw [Finset.mem_insert]
    exact ⟨fun h => h.resolve_left hx, Or.inr⟩
  rw [acquire, hc]
  by_cases hfree : v.holders = ∅
  · rw [if_pos hfree]
    exact ⟨hholders _, Iff.rfl⟩
  · rw [if_neg hfree, if_pos (hg.resolve_left hfree)]
    exact ⟨hholders _, Iff.rfl⟩

private theorem release_sameOff (v : LockView ν) (c : Key ν) : SameOff (v.released c) v (v.release c.toJson) := by
  intro x hx
  rw [released] at hx
  have hne : x ≠ c := fun h => hx (h ▸ Finset.mem_insert_self _ _)
  by_cases hfree : v.holders.erase c = ∅
  · rw [if_pos hfree, Finset.mem_insert, not_or] at hx
    have hbefore : x ∉ v.holders := by
      intro hm
      have hmem : x ∈ v.holders.erase c := Finset.mem_erase.2 ⟨hne, hm⟩
      rw [hfree] at hmem
      cases hmem
    refine ⟨iff_of_false hx.2 hbefore, ?_⟩
    have hview : v.release c.toJson = LockView.handOver { v with holders := v.holders.erase c } := by
      simp only [release, Key.key?_toJson]
      rw [if_pos hfree]
    rw [hview] at hx ⊢
    exact handOver_spec _ hx.2
  · simp only [release, Key.key?_toJson]
    rw [if_neg hfree]
    refine ⟨?_, Iff.rfl⟩
    rw [Finset.mem_erase]
    exact ⟨And.right, fun h => ⟨hne, h⟩⟩

private theorem expire_sameOff (v : LockView ν) : SameOff (v.holders ∪ v.expire.holders) v v.expire := by
  intro x hx
  rw [Finset.mem_union, not_or] at hx
  refine ⟨iff_of_false hx.2 hx.1, ?_⟩
  exact handOver_spec _ hx.2

end LockView

namespace LockState

/-- Each request that joins is removed from the graph. -/
theorem joinWaiting_forgets (lock : LockState ν) (d : DeadlockDetector ν) (ws : List (Waiting ν)) :
    ∃ D, d.Forgets D (lock.joinWaiting d ws).state.2 ∧ (lock.joinWaiting d ws).state.1.holders = lock.holders ∪ D := by
  have hnone : lock.holders = lock.holders ∪ ∅ := (Finset.union_empty _).symm
  induction ws generalizing lock d with
  | nil => exact ⟨∅, .refl d, hnone⟩
  | cons w ws ih =>
    rw [LockState.joinWaiting]
    by_cases hs : w.lockType = .shared
    · rw [if_pos hs]
      cases w.clientId.key? with
      | none => exact ⟨∅, .refl d, hnone⟩
      | some c =>
        obtain ⟨D, hforgets, hholders⟩ := ih { lock with holders := insert c lock.holders } (d.removeClient c)
          (Finset.union_empty _).symm
        refine ⟨{c} ∪ D, (d.forgets_removeClient c).trans hforgets, hholders.trans ?_⟩
        rw [Finset.insert_eq, Finset.union_comm {c}, Finset.union_assoc]
    · rw [if_neg hs]
      exact ⟨∅, .refl d, hnone⟩

/-- The clients that get a free lock are removed from the graph. -/
theorem handOver_forgets {lock : LockState ν} (hfree : lock.holders = ∅) (d : DeadlockDetector ν)
    (now leaseTimeout : ν) :
    d.Forgets (lock.handOver d now leaseTimeout).state.1.holders (lock.handOver d now leaseTimeout).state.2 := by
  have hnone : d.Forgets lock.holders d := by
    rw [hfree]
    exact .refl d
  rw [LockState.handOver]
  cases lock.waiting with
  | nil => exact hnone
  | cons next rest =>
    simp only
    cases next.clientId.key? with
    | none => exact hnone
    | some c =>
      have hc : insert c lock.holders = {c} := by rw [hfree]; rfl
      simp only [hc]
      by_cases hs : next.lockType = .shared
      · rw [if_pos hs]
        obtain ⟨D, hforgets, hholders⟩ := joinWaiting_forgets
          ⟨some next.lockType, {c}, rest, lock.fencingToken + 1, now + leaseTimeout⟩ (d.removeClient c) rest
        rw [hholders]
        exact (d.forgets_removeClient c).trans hforgets
      · rw [if_neg hs]
        exact d.forgets_removeClient c

private theorem release_forgets (lock : LockState ν) (d : DeadlockDetector ν) (now leaseTimeout : ν) (c : Key ν) :
    d.Forgets (lock.view.released c) (lock.release d now leaseTimeout c.toJson).state.2 := by
  have hview := lock.release_view d now leaseTimeout c.toJson
  have hholders : lock.view.holders = lock.holders := rfl
  rw [LockView.released, hholders, ← hview]
  have hnew : ∀ l : LockState ν, l.view.holders = l.holders := fun _ => rfl
  rw [hnew]
  simp only [LockState.release, Key.key?_toJson]
  by_cases hfree : lock.holders.erase c = ∅
  · rw [if_pos hfree, if_pos hfree]
    exact (d.forgets_removeClient c).trans (handOver_forgets hfree _ now leaseTimeout)
  · rw [if_neg hfree, if_neg hfree]
    exact d.forgets_removeClient c

theorem acquire_granted {lock : LockState ν} {clientId leaseTimeout : Json ν} {lockType : LockType} {c : Key ν}
    {t : ν} (hc : clientId.key? = some c) (ht : leaseTimeout.number? = some t) (hg : lock.view.Grants lockType)
    (d : DeadlockDetector ν) (now : ν) :
    (lock.acquire d now clientId lockType leaseTimeout).state.2 = d.removeClient c := by
  rw [LockState.acquire, hc, ht]
  by_cases hfree : lock.holders = ∅
  · rw [if_pos hfree]
  · have hshared : lockType = .shared ∧ lock.lockType = some .shared := hg.resolve_left hfree
    rw [if_neg hfree, if_pos hshared]

private theorem acquire_queued {lock : LockState ν} {clientId : Json ν} {lockType : LockType} {c : Key ν}
    (hc : clientId.key? = some c) (hg : ¬ lock.view.Grants lockType) (d : DeadlockDetector ν) (now : ν)
    (leaseTimeout : Json ν) :
    (lock.acquire d now clientId lockType leaseTimeout).state.2 = d.addWait c lock.holders := by
  have hfree : ¬ lock.holders = ∅ := fun h => hg (Or.inl h)
  have hshared : ¬ (lockType = .shared ∧ lock.lockType = some .shared) := fun h => hg (Or.inr h)
  rw [LockState.acquire, if_neg hfree, if_neg hshared, hc]

end LockState

/-! ### Steps of the node -/

namespace LockManagerNode

/-- A step that removes the clients of `D` from the graph and leaves the holds and waits of the others alone. -/
structure Forgets (D : Finset (Key ν)) (s s' : LockManagerNode ν) : Prop where
  edges : s.deadlockDetector.Forgets D s'.deadlockDetector
  locks : ∀ r, (s.locks.view r).SameOff D (s'.locks.view r)

/-- A step that queues the client `c` for the resource `r`. -/
structure Queues (c r : Key ν) (s s' : LockManagerNode ν) : Prop where
  edges : ∀ w h, s'.deadlockDetector.Edge w h ↔
    s.deadlockDetector.Edge w h ∨ (w = c ∧ h ∈ (s.locks.view r).holders ∧ h ≠ c)
  holders : ∀ r', (s'.locks.view r').holders = (s.locks.view r').holders
  waiters : ∀ r' x, x ∈ (s'.locks.view r').waiters ↔ x ∈ (s.locks.view r').waiters ∨ (r' = r ∧ x = c)

/-- The holders of the locks of `rs` and those who get these locks when the holders lose them. -/
def expiredClients (s : LockManagerNode ν) (rs : List (Key ν)) : Finset (Key ν) :=
  rs.toFinset.biUnion fun r => (s.locks.view r).holders ∪ (s.locks.view r).expire.holders

/-- The clients that a step removes from the graph. -/
def forgotten (s : LockManagerNode ν) : LockAction ν → Finset (Key ν)
  | .apply _ cmd =>
    match cmd.resource.key?, cmd.clientId.key? with
    | some r, some c =>
      if cmd.action.isStr "acquire" then
        cmd.lockType?.elim ∅ fun lockType => if (s.locks.view r).Grants lockType then {c} else ∅
      else if cmd.action.isStr "release" ∧ (s.locks.get? r).isSome then (s.locks.view r).released c
      else ∅
    | _, _ => ∅
  | .sweep env => s.expiredClients (s.locks.keys.filter fun r => (s.locks.getOrNew r).expired env.now)

/-- The lock of a resource after a step. -/
def viewAfter (s : LockManagerNode ν) (a : LockAction ν) (r : Key ν) : LockView ν :=
  match a with
  | .apply _ cmd => if cmd.resource.key? = some r then (s.locks.view r).apply cmd else s.locks.view r
  | .sweep env => if (s.locks.getOrNew r).expired env.now then (s.locks.view r).expire else s.locks.view r

private theorem doRelease_edges {s : LockManagerNode ν} {r : Key ν} {lock : LockState ν}
    (hl : s.locks.get? r = some lock) (now : ν) (c : Key ν) : s.deadlockDetector.Forgets ((s.locks.view r).released c)
      (s.doRelease now r.toJson c.toJson).state.deadlockDetector := by
  rw [LockTable.view_of_get? hl]
  simp only [doRelease, Key.key?_toJson, hl]
  exact lock.release_forgets _ _ _ _

/-- The releases of all the holders remove them and those who get the lock. -/
theorem releaseEach_edges {s : LockManagerNode ν} {r : Key ν} {lock : LockState ν} (clock : Key ν → ν)
    {hs : List (Key ν)} (hl : s.locks.get? r = some lock) (hne : hs ≠ []) (hnodup : hs.Nodup)
    (hset : hs.toFinset = lock.holders) :
    s.deadlockDetector.Forgets ((s.locks.view r).holders ∪ (s.locks.view r).expire.holders)
      (s.releaseEach clock r hs).state.deadlockDetector := by
  induction hs generalizing s lock with
  | nil => exact absurd rfl hne
  | cons holder rest ih =>
    have hedges := doRelease_edges hl (clock holder) holder
    have hholders : (s.locks.view r).holders = insert holder rest.toFinset := by
      rw [LockTable.view_of_get? hl, ← List.toFinset_cons, hset]
      rfl
    have hrest : (s.locks.view r).holders.erase holder = rest.toFinset := by
      rw [hholders, Finset.erase_insert]
      rw [List.mem_toFinset]
      exact (List.nodup_cons.1 hnodup).1
    cases rest with
    | nil =>
      -- the last holder gives the lock to those who wait for it
      have hlast : (s.locks.view r).holders.erase holder = ∅ := hrest
      rw [LockView.released, if_pos hlast, LockView.release_last hlast] at hedges
      rw [hholders, List.toFinset_nil, Finset.insert_union, Finset.empty_union, releaseEach]
      rcases hd : s.doRelease (clock holder) r.toJson holder.toJson with ⟨s', _ | _⟩
      · rw [hd] at hedges
        exact hedges
      · rw [hd] at hedges
        exact hedges
    | cons holder' rest =>
      -- the release before leaves the lock to the other holders
      have hheld : (s.locks.view r).holders.erase holder ≠ ∅ := by
        rw [hrest, List.toFinset_cons]
        exact Finset.insert_ne_empty _ _
      rw [LockView.released, if_neg hheld] at hedges
      rw [LockTable.view_of_get? hl] at hheld hrest
      obtain ⟨s', hd, hl'⟩ := doRelease_of_held hl hheld (clock holder)
      rw [hd] at hedges
      have hview : s'.locks.view r = { s.locks.view r with holders := (s.locks.view r).holders.erase holder } := by
        rw [LockTable.view_of_get? hl', LockTable.view_of_get? hl]
        rfl
      have hih := ih hl' (List.cons_ne_nil _ _) (List.nodup_cons.1 hnodup).2 hrest.symm
      rw [hview, LockView.expire_erase] at hih
      have hboth := DeadlockDetector.Forgets.trans hedges hih
      have hall : insert holder ∅ ∪ ((s.locks.view r).holders.erase holder ∪ (s.locks.view r).expire.holders) =
          (s.locks.view r).holders ∪ (s.locks.view r).expire.holders := by
        have hmem : holder ∈ (s.locks.view r).holders := by
          rw [hholders]
          exact Finset.mem_insert_self _ _
        rw [← Finset.union_assoc, Finset.insert_union, Finset.empty_union, Finset.insert_erase hmem]
      rw [hall] at hboth
      rw [releaseEach, hd]
      exact hboth

private theorem sweepFrom_edges {env : Sweep ν} {rs : List (Key ν)} {s : LockManagerNode ν} (hnodup : rs.Nodup)
    (hlists : ∀ r ∈ rs, ∀ lock, s.locks.get? r = some lock →
      (env.order r).Nodup ∧ (env.order r).toFinset = lock.holders) :
    s.deadlockDetector.Forgets (s.expiredClients (sweepFrom env rs s).expired)
      (sweepFrom env rs s).node.deadlockDetector := by
  induction rs generalizing s with
  | nil => exact .refl _
  | cons r₀ rs ih =>
    obtain ⟨hr₀, hnodup⟩ := List.nodup_cons.1 hnodup
    have hlists' := fun r hr => hlists r (List.mem_cons_of_mem _ hr)
    rw [sweepFrom]
    cases hl : s.locks.get? r₀ with
    | none => exact .refl _
    | some lock =>
      simp only
      by_cases he : lock.expired env.now
      · rw [if_pos he]
        obtain ⟨hord, hset⟩ := hlists r₀ List.mem_cons_self lock hl
        have hne : env.order r₀ ≠ [] := by
          intro h
          rw [h, List.toFinset_nil] at hset
          have hheld : lock.holders ≠ ∅ := (of_decide_eq_true he).1
          exact hheld hset.symm
        have hfirst := releaseEach_edges (env.clock r₀) hl hne hord hset
        have hother := fun r (h : r ≠ r₀) => releaseEach_get?_of_ne s (env.clock r₀) h (env.order r₀)
        rcases hrel : s.releaseEach (env.clock r₀) r₀ (env.order r₀) with ⟨s', _ | _⟩
        · rw [hrel] at hfirst
          rw [expiredClients, List.toFinset_cons, List.toFinset_nil, Finset.biUnion_insert, Finset.biUnion_empty,
            Finset.union_empty]
          exact hfirst
        · rw [hrel] at hfirst hother
          -- the rest of the pass sees the other locks as they were before
          have hne : ∀ r ∈ rs, r ≠ r₀ := by
            rintro r hr rfl
            exact hr₀ hr
          have hlists'' : ∀ r ∈ rs, ∀ lock, s'.locks.get? r = some lock →
              (env.order r).Nodup ∧ (env.order r).toFinset = lock.holders := by
            intro r hr lock' hl'
            rw [hother r (hne r hr)] at hl'
            exact hlists' r hr lock' hl'
          have hamong := (sweepFrom_handsOver hnodup hlists'').among
          have hviews : s'.expiredClients (sweepFrom env rs s').expired =
              s.expiredClients (sweepFrom env rs s').expired := by
            refine Finset.biUnion_congr rfl fun r hr => ?_
            rw [view_congr (hother r (hne r (hamong.subset (List.mem_toFinset.1 hr))))]
          have hrest := ih (s := s') hnodup hlists''
          rw [hviews] at hrest
          rw [expiredClients, List.toFinset_cons, Finset.biUnion_insert]
          exact DeadlockDetector.Forgets.trans hfirst hrest
      · rw [if_neg he]
        exact ih hnodup hlists'

/-- An acquire is granted, and the client is forgotten, or it is queued. -/
theorem doAcquire_forgets_or_queues (s : LockManagerNode ν) (now : ν) {resource clientId leaseTimeout : Json ν}
    (lockType : LockType) {r c : Key ν} {t : ν} (hr : resource.key? = some r) (hc : clientId.key? = some c)
    (ht : leaseTimeout.number? = some t) :
    (if (s.locks.view r).Grants lockType then
      Forgets {c} s (s.doAcquire now resource clientId lockType leaseTimeout).state
    else Queues c r s (s.doAcquire now resource clientId lockType leaseTimeout).state) := by
  have hviews := s.doAcquire_view now resource clientId lockType leaseTimeout
  have hstate : (s.doAcquire now resource clientId lockType leaseTimeout).state.deadlockDetector =
      ((s.locks.getOrNew r).acquire s.deadlockDetector now clientId lockType leaseTimeout).state.2 := by
    rw [doAcquire, hr]
    rfl
  rw [hr] at hviews
  by_cases hg : (s.locks.view r).Grants lockType
  · rw [if_pos hg]
    refine ⟨?_, fun r' => ?_⟩
    · rw [hstate, LockState.acquire_granted hc ht hg]
      exact s.deadlockDetector.forgets_removeClient c
    · rw [hviews]
      by_cases hr' : r = r'
      · subst hr'
        rw [if_pos rfl]
        exact LockView.acquire_sameOff hc hg
      · rw [if_neg fun h => hr' (Option.some.inj h)]
        exact .refl _ _
  · rw [if_neg hg]
    have hview : (s.locks.view r).acquire clientId lockType =
        { s.locks.view r with waiting := (s.locks.view r).waiting ++ [(clientId, lockType)] } := by
      rw [LockView.acquire, if_neg fun h => hg (Or.inl h), if_neg fun h => hg (Or.inr h)]
    have hclients : LockView.clientsOf [(clientId, lockType)] = [c] := List.filterMap_cons_some hc
    refine ⟨fun w h => ?_, fun r' => ?_, fun r' x => ?_⟩
    · rw [hstate, LockState.acquire_queued hc hg]
      exact DeadlockDetector.edge_addWait _ _ _ _ _
    · rw [hviews]
      by_cases hr' : r = r'
      · subst hr'
        rw [if_pos rfl, hview]
      · rw [if_neg fun h => hr' (Option.some.inj h)]
    · rw [hviews]
      by_cases hr' : r = r'
      · subst hr'
        rw [if_pos rfl, hview, LockView.waiters, LockView.clientsOf, List.filterMap_append, List.mem_append]
        rw [LockView.clientsOf] at hclients
        rw [hclients, List.mem_singleton]
        simp only [true_and]
        exact Iff.rfl
      · rw [if_neg fun h => hr' (Option.some.inj h)]
        simp [Ne.symm hr']

end LockManagerNode

/-- The lease timeout of the command, if it has one, is a number. -/
def LockAction.NumericLease : LockAction ν → Prop
  | .apply _ cmd => cmd.leaseTimeout.all fun t => t.number?.isSome
  | .sweep _ => True

instance : (a : LockAction ν) → Decidable a.NumericLease
  | .apply _ _ => inferInstanceAs (Decidable (_ = true))
  | .sweep _ => isTrue trivial

namespace LockManagerNode

variable {s s' : LockManagerNode ν} {a : LockAction ν}

theorem Forgets.refl (s : LockManagerNode ν) : Forgets ∅ s s := ⟨.refl _, fun _ => .refl _ _⟩

private theorem doRelease_forgets {r c : Key ν} (hr : r ∈ s.locks.keys) (now : ν) :
    Forgets ((s.locks.view r).released c) s (s.doRelease now r.toJson c.toJson).state := by
  obtain ⟨lock, hl⟩ := Dict.mem_keys.1 hr
  refine ⟨doRelease_edges hl now c, fun r' => ?_⟩
  rw [doRelease_view, Key.key?_toJson]
  by_cases hr' : r = r'
  · subst hr'
    rw [if_pos rfl]
    exact LockView.release_sameOff _ c
  · rw [if_neg fun h => hr' (Option.some.inj h)]
    exact .refl _ _

/-- The locks that a pass reports are those of the table whose lease has run out. -/
theorem expired_toFinset {env : Sweep ν} (hlists : env.Lists s) (hs : ∀ r, (s.locks.view r).Sound) :
    (s.sweep env).expired.toFinset =
      (s.locks.keys.filter fun r => (s.locks.getOrNew r).expired env.now).toFinset := by
  have hhash : ∀ r lock, s.locks.get? r = some lock → lock.Hashable := by
    intro r lock hl w hw
    have hsound := hs r
    rw [LockTable.view_of_get? hl] at hsound
    exact hsound.hashable w.request (List.mem_map_of_mem hw)
  ext r
  rw [List.mem_toFinset, List.mem_toFinset, List.mem_filter, mem_expired_iff hlists hhash, Dict.mem_keys]
  constructor
  · rintro ⟨lock, hl, he⟩
    refine ⟨⟨lock, hl⟩, ?_⟩
    rw [LockTable.getOrNew, hl]
    exact he
  · rintro ⟨⟨lock, hl⟩, he⟩
    rw [LockTable.getOrNew, hl] at he
    exact ⟨lock, hl, he⟩

private theorem sweep_forgets {env : Sweep ν} (hlists : env.Lists s) (hs : ∀ r, (s.locks.view r).Sound) :
    Forgets (s.forgotten (.sweep env)) s (s.sweep env).node := by
  have hset : s.forgotten (.sweep env) = s.expiredClients (s.sweep env).expired := by
    rw [forgotten, expiredClients, expiredClients, expired_toFinset hlists hs]
  have hexp := sweep_expires hlists
  rw [hset]
  refine ⟨sweepFrom_edges s.locks.nodup_keys fun _ _ _ hl => hlists.of_get? hl, fun r => ?_⟩
  by_cases hr : r ∈ (s.sweep env).expired
  · rw [hexp.expired r hr]
    intro c hc
    refine LockView.expire_sameOff _ c fun hm => hc ?_
    exact Finset.mem_biUnion.2 ⟨r, List.mem_toFinset.2 hr, hm⟩
  · rw [hexp.others r hr]
    exact .refl _ _

/-- What a step does to the graph and to the holds and waits of the clients. -/
theorem step_forgets_or_queues (hs : ∀ r, (s.locks.view r).Sound) (ha : a.StringIds) (hn : a.NumericLease)
    (h : step s a = some s') :
    Forgets (s.forgotten a) s s' ∨ s.forgotten a = ∅ ∧ ∃ c r, Queues c r s s' := by
  cases a with
  | apply now cmd =>
    obtain rfl : (s.applyLockCommand now cmd).state = s' := by simpa [step] using h
    obtain ⟨r, hr⟩ := Json.eq_toJson_of_isString ha.1
    obtain ⟨c, hc⟩ := Json.eq_toJson_of_isString ha.2
    have hr' : cmd.resource.key? = some r := by rw [hr, Key.key?_toJson]
    have hc' : cmd.clientId.key? = some c := by rw [hc, Key.key?_toJson]
    simp only [applyLockCommand, forgotten, hr', hc']
    by_cases hacq : cmd.action.isStr "acquire"
    · rw [if_pos hacq, if_pos hacq]
      cases cmd.lockType? with
      | none => exact Or.inl (.refl s)
      | some lockType =>
        obtain ⟨t, ht⟩ : ∃ t, (cmd.leaseTimeout.getD (.num s.leaseTimeout)).number? = some t := by
          have hn : cmd.leaseTimeout.all (fun t => t.number?.isSome) = true := hn
          cases hl : cmd.leaseTimeout with
          | none => exact ⟨s.leaseTimeout, rfl⟩
          | some v =>
            rw [hl] at hn
            exact Option.isSome_iff_exists.1 hn
        have hacquire := s.doAcquire_forgets_or_queues now lockType hr' hc' ht
        by_cases hg : (s.locks.view r).Grants lockType
        · rw [if_pos hg] at hacquire
          rw [Option.elim_some, if_pos hg]
          exact Or.inl hacquire
        · rw [if_neg hg] at hacquire
          rw [Option.elim_some, if_neg hg]
          exact Or.inr ⟨rfl, c, r, hacquire⟩
    · rw [if_neg hacq, if_neg hacq]
      by_cases hrel : cmd.action.isStr "release"
      · rw [if_pos hrel, hr, hc]
        by_cases hkey : (s.locks.get? r).isSome
        · rw [if_pos ⟨hrel, hkey⟩]
          exact Or.inl (doRelease_forgets (Dict.mem_keys.2 (Option.isSome_iff_exists.1 hkey)) now)
        · rw [if_neg fun h => hkey h.2]
          simp only [doRelease, Key.key?_toJson, Option.not_isSome_iff_eq_none.1 hkey]
          exact Or.inl (.refl s)
      · rw [if_neg hrel, if_neg fun h => hrel h.1]
        exact Or.inl (.refl s)
  | sweep env =>
    obtain ⟨hlists, rfl⟩ : env.Lists s ∧ (s.sweep env).node = s' := by simpa [step] using h
    exact Or.inl (sweep_forgets hlists hs)

/-- `viewAfter` is the lock of the resource after the step. -/
theorem step_viewAfter (hs : ∀ r, (s.locks.view r).Sound) (h : step s a = some s') (r : Key ν) :
    s'.locks.view r = s.viewAfter a r := by
  cases a with
  | apply now cmd =>
    obtain rfl : (s.applyLockCommand now cmd).state = s' := by simpa [step] using h
    exact applyLockCommand_view _ _ _ _
  | sweep env =>
    obtain ⟨hlists, rfl⟩ : env.Lists s ∧ (s.sweep env).node = s' := by simpa [step] using h
    have hexp := sweep_expires hlists
    have hmem := Finset.ext_iff.1 (expired_toFinset hlists hs) r
    rw [List.mem_toFinset, List.mem_toFinset, List.mem_filter] at hmem
    rw [viewAfter]
    by_cases he : (s.locks.getOrNew r).expired env.now
    · rw [if_pos he]
      have hkey : r ∈ s.locks.keys := by
        by_contra hkey
        rw [LockTable.getOrNew, Dict.get?_eq_none hkey] at he
        cases he
      exact hexp.expired r (hmem.2 ⟨hkey, he⟩)
    · rw [if_neg he]
      exact hexp.others r fun hr => he (hmem.1 hr).2

end LockManagerNode

end DistributedSync
