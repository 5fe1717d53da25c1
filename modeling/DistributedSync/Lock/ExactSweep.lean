import Mathlib.Algebra.Order.Monoid.Defs
import Mathlib.Algebra.Order.Ring.Int
import DistributedSync.Library.Transition
import DistributedSync.Lock.Sweep

/-!
# What one pass of the sweep does

A pass is exact when every expired lock ends up with the next group of its queue, for a lease that ends in the
future, when every other lock stays as it was and when the pass releases nobody whom it has promoted
(`LockManagerNode.ExactSweep`).  The releases of a lock are in any order; the last one hands the lock over, so
nothing is promoted before it and nothing is released after it.  The one way to go wrong is a client that cannot be
hashed: the hand-over to it raises, and the exception ends the pass (`exactSweep_iff`).
-/

namespace DistributedSync

variable {ν : Type} [Number ν]

namespace LockManagerNode

/-! ### The releases of one lock -/

/-- A call of `_do_release` in a pass: the node before the call, the resource and the holder. -/
structure ReleaseCall (ν : Type) where
  before : LockManagerNode ν
  resource : Key ν
  holder : Key ν

/-- The calls for the holders of an expired lock. -/
def releaseCalls (s : LockManagerNode ν) (clock : Key ν → ν) (r : Key ν) : List (Key ν) → List (ReleaseCall ν)
  | [] => []
  | holder :: rest =>
    ⟨s, r, holder⟩ :: match s.doRelease (clock holder) r.toJson holder.toJson with
      | ⟨s, .ok _⟩ => s.releaseCalls clock r rest
      | ⟨_, .error _⟩ => []

/-- The calls of a pass over the resources `rs`. -/
def sweepCalls (env : Sweep ν) : List (Key ν) → LockManagerNode ν → List (ReleaseCall ν)
  | [], _ => []
  | r :: rs, s =>
    match s.locks.get? r with
    | none => []
    | some lock =>
      if lock.expired env.now then
        s.releaseCalls (env.clock r) r (env.order r) ++
          match s.releaseEach (env.clock r) r (env.order r) with
          | ⟨s, .ok _⟩ => sweepCalls env rs s
          | ⟨_, .error _⟩ => []
      else sweepCalls env rs s

/-- The call takes the lock from one of the holders that it had in `s`, and nobody has been promoted since. -/
def ReleaseCall.OldGrant (call : ReleaseCall ν) (s : LockManagerNode ν) : Prop :=
  ∃ lock lock', s.locks.get? call.resource = some lock ∧ call.before.locks.get? call.resource = some lock' ∧
    call.holder ∈ lock.holders ∧ lock'.holders ⊆ lock.holders ∧ lock'.waiting = lock.waiting

theorem ReleaseCall.OldGrant.congr {call : ReleaseCall ν} {s s' : LockManagerNode ν} (h : call.OldGrant s')
    (hget : s'.locks.get? call.resource = s.locks.get? call.resource) : call.OldGrant s := by
  rw [OldGrant, hget] at h
  exact h

private theorem releaseCalls_oldGrant {s : LockManagerNode ν} {r : Key ν} {lock : LockState ν} (clock : Key ν → ν)
    {hs : List (Key ν)} (hl : s.locks.get? r = some lock) (hnodup : hs.Nodup) (hset : hs.toFinset = lock.holders) :
    ∀ call ∈ s.releaseCalls clock r hs, call.resource = r ∧ call.OldGrant s := by
  induction hs generalizing s lock with
  | nil =>
    intro call hcall
    cases hcall
  | cons holder rest ih =>
    intro call hcall
    rw [releaseCalls] at hcall
    rcases List.mem_cons.1 hcall with rfl | hcall
    · have hmem : holder ∈ lock.holders := by
        rw [← hset]
        exact List.mem_toFinset.2 List.mem_cons_self
      exact ⟨rfl, lock, lock, hl, hl, hmem, Finset.Subset.refl _, rfl⟩
    · cases rest with
      | nil =>
        rcases hd : s.doRelease (clock holder) r.toJson holder.toJson with ⟨s', _ | _⟩ <;> rw [hd] at hcall <;>
          cases hcall
      | cons holder' rest =>
        have hrest := erase_of_cons hnodup hset
        have hheld : lock.holders.erase holder ≠ ∅ := by
          rw [hrest, List.toFinset_cons]
          exact Finset.insert_ne_empty _ _
        obtain ⟨s', hd, hl'⟩ := doRelease_of_held hl hheld (clock holder)
        rw [hd] at hcall
        obtain ⟨hr, lock₁, lock₂, h₁, h₂, hmem, hsub, hwait⟩ :=
          ih hl' (List.nodup_cons.1 hnodup).2 hrest.symm call hcall
        rw [hr] at h₁ h₂
        obtain rfl : { lock with holders := lock.holders.erase holder } = lock₁ := Option.some.inj (hl'.symm.trans h₁)
        refine ⟨hr, lock, lock₂, ?_, ?_, Finset.mem_of_mem_erase hmem,
          hsub.trans (Finset.erase_subset holder lock.holders), hwait⟩
        · rw [hr]
          exact hl
        · rw [hr]
          exact h₂

private theorem sweepCalls_oldGrant {env : Sweep ν} {rs : List (Key ν)} {s : LockManagerNode ν} (hnodup : rs.Nodup)
    (hlists : ∀ r ∈ rs, ∀ lock, s.locks.get? r = some lock →
      (env.order r).Nodup ∧ (env.order r).toFinset = lock.holders) :
    ∀ call ∈ sweepCalls env rs s, call.resource ∈ rs ∧ call.OldGrant s := by
  induction rs generalizing s with
  | nil =>
    intro call hcall
    cases hcall
  | cons r₀ rs ih =>
    obtain ⟨hr₀, hnodup⟩ := List.nodup_cons.1 hnodup
    intro call hcall
    rw [sweepCalls] at hcall
    cases hl₀ : s.locks.get? r₀ with
    | none =>
      rw [hl₀] at hcall
      cases hcall
    | some lock₀ =>
      rw [hl₀] at hcall
      simp only at hcall
      by_cases he : lock₀.expired env.now
      · rw [if_pos he] at hcall
        obtain ⟨hord, hset⟩ := hlists r₀ List.mem_cons_self lock₀ hl₀
        rcases List.mem_append.1 hcall with hcall | hcall
        · obtain ⟨hr, hold⟩ := releaseCalls_oldGrant (env.clock r₀) hl₀ hord hset call hcall
          exact ⟨hr ▸ List.mem_cons_self, hold⟩
        · have hother := fun r (h : r ≠ r₀) => releaseEach_get?_of_ne s (env.clock r₀) h (env.order r₀)
          rcases hrel : s.releaseEach (env.clock r₀) r₀ (env.order r₀) with ⟨s', _ | _⟩
          · rw [hrel] at hcall
            cases hcall
          · rw [hrel] at hcall hother
            have hne : ∀ r ∈ rs, r ≠ r₀ := by
              rintro r hr rfl
              exact hr₀ hr
            obtain ⟨hr, hold⟩ := ih (s := s') hnodup
              (fun r hr => by rw [hother r (hne r hr)]; exact hlists r (List.mem_cons_of_mem r₀ hr)) call hcall
            exact ⟨List.mem_cons_of_mem r₀ hr, hold.congr (hother call.resource (hne call.resource hr))⟩
      · rw [if_neg he] at hcall
        obtain ⟨hr, hold⟩ := ih hnodup (fun r hr => hlists r (List.mem_cons_of_mem r₀ hr)) call hcall
        exact ⟨List.mem_cons_of_mem r₀ hr, hold⟩

end LockManagerNode

/-! ### Exactness -/

/-- The lock `lock'` belongs to the next group of the queue of `lock`, and if that is somebody, for a lease that
ends after `now`. -/
structure LockState.Served (lock lock' : LockState ν) (now : ν) : Prop where
  holders : ∀ k, (∃ c ∈ lock'.holders, some c = k) ↔ ∃ w ∈ Waiting.nextGroup lock.waiting, w.clientId.key? = k
  waiting : lock'.waiting = Waiting.behindGroup lock.waiting
  lease : lock'.holders ≠ ∅ → now < lock'.leaseExpiry

theorem LockState.Served.hashable {lock lock' : LockState ν} {now : ν} (h : lock.Served lock' now) :
    ∀ w ∈ Waiting.nextGroup lock.waiting, w.hashable := by
  intro w hw
  obtain ⟨c, -, hc⟩ := (h.holders w.clientId.key?).2 ⟨w, hw, rfl⟩
  rw [Waiting.hashable, ← hc]
  rfl

private theorem LockState.served_movedUp {lock : LockState ν} (hhash : ∀ w ∈ Waiting.nextGroup lock.waiting, w.hashable)
    {now expiry : ν} (h : now < expiry) : lock.Served (LockState.movedUp { lock with holders := ∅ } expiry) now := by
  unfold movedUp
  cases hq : lock.waiting with
  | nil =>
    refine ⟨fun k => ?_, by rw [hq]; rfl, fun hne => absurd rfl hne⟩
    rw [hq]
    simp [Waiting.nextGroup]
  | cons next rest =>
    rw [hq] at hhash
    refine ⟨fun k => ?_, by rw [hq], fun _ => h⟩
    simp only [hq, Finset.empty_union, Waiting.mem_clients]
    constructor
    · rintro ⟨c, ⟨w, hw, hc⟩, rfl⟩
      exact ⟨w, hw, hc⟩
    · rintro ⟨w, hw, rfl⟩
      obtain ⟨c, hc⟩ := Option.isSome_iff_exists.1 (hhash w hw)
      exact ⟨c, ⟨w, hw, hc⟩, hc.symm⟩

namespace LockManagerNode

/-- A pass serves the expired locks, leaves the others alone and takes back nothing that it grants. -/
structure ExactSweep (s : LockManagerNode ν) (env : Sweep ν) : Prop where
  expired : ∀ r lock, s.locks.get? r = some lock → lock.expired env.now →
    ∃ lock', (s.sweep env).node.locks.get? r = some lock' ∧ lock.Served lock' env.now
  others : ∀ r, (∀ lock, s.locks.get? r = some lock → ¬ lock.expired env.now) →
    (s.sweep env).node.locks.get? r = s.locks.get? r
  promoted : ∀ call ∈ sweepCalls env s.locks.keys s, call.OldGrant s

end LockManagerNode

section

variable {ν : Type} [LinearOrder ν]

private theorem Sweep.le_handOverTime {env : Sweep ν} (hclock : ∀ r c, env.now ≤ env.clock r c) (r : Key ν) :
    env.now ≤ env.handOverTime r := by
  unfold Sweep.handOverTime
  cases (env.order r).getLast? with
  | none => exact le_rfl
  | some c => exact hclock r c

variable [One ν] [AddCommMonoid ν] [IsOrderedCancelAddMonoid ν]

namespace LockManagerNode

/-- A pass is exact if and only if it comes to no client that cannot be hashed. -/
theorem exactSweep_iff {s : LockManagerNode ν} {env : Sweep ν} (hlists : env.Lists s)
    (hclock : ∀ r c, env.now ≤ env.clock r c) (hpos : 0 < s.leaseTimeout) :
    s.ExactSweep env ↔ ∀ r lock, s.locks.get? r = some lock → lock.expired env.now →
      ∀ w ∈ Waiting.nextGroup lock.waiting, w.hashable := by
  constructor
  · intro h r lock hl he
    obtain ⟨lock', -, hserved⟩ := h.expired r lock hl he
    exact hserved.hashable
  · intro h
    have hmem : ∀ {r}, r ∈ (s.sweep env).expired ↔ r ∈ s.locks.keys ∧
        ∃ lock, s.locks.get? r = some lock ∧ lock.expired env.now := by
      refine mem_sweepFrom_iff s.locks.nodup_keys (fun r hr => ?_) fun r _ => h r
      obtain ⟨lock, hl⟩ := Dict.mem_keys.1 hr
      exact ⟨lock, hl, hlists.of_get? hl⟩
    have hsweep := sweep_handsOver hlists
    refine ⟨fun r lock hl he => ?_, fun r hr => ?_, fun call hcall => ?_⟩
    · obtain ⟨lock', hl', -, hget⟩ := hsweep.expired r (hmem.2 ⟨Dict.mem_keys.2 ⟨lock, hl⟩, lock, hl, he⟩)
      obtain rfl : lock = lock' := Option.some.inj (hl.symm.trans hl')
      have hgroup := h r lock hl he
      rw [(LockState.vacate_of_hashable hgroup _ _).2] at hget
      refine ⟨_, hget, LockState.served_movedUp hgroup ?_⟩
      exact lt_add_of_le_of_pos (Sweep.le_handOverTime hclock r) hpos
    · refine hsweep.others r fun hexp => ?_
      obtain ⟨-, lock, hl, he⟩ := hmem.1 hexp
      exact hr lock hl he
    · exact (sweepCalls_oldGrant s.locks.nodup_keys (fun _ _ _ hl => hlists.of_get? hl) call hcall).2

end LockManagerNode

end

namespace LockManagerNode

private def request (now : Int) (clientId : Json Int) (lockType : String) : LockAction Int :=
  .apply now (.acquire (.str "r") clientId (.str lockType) (some (.num 10)))

/-- A pass at 20, when the lease of `a` on `r` has run out. -/
private def pass : Sweep Int where
  now := 20
  clock _ _ := 21
  order _ := [.str "a"]

private theorem pass_clock (r c : Key Int) : pass.now ≤ pass.clock r c := by
  show (20 : Int) ≤ 21
  omega

/-- The shared requests of `b` and `c` are served together, and `d` stays in the queue. -/
theorem exactSweep_iff_run : ∃ s : LockManagerNode Int,
    Transition.run step (start 30) [request 1 (.str "a") "exclusive", request 2 (.str "b") "shared",
      request 3 (.str "c") "shared", request 4 (.str "d") "exclusive"] = some s ∧
    ((s.sweep pass).node.locks.getOrNew (.str "r")).holders = {.str "b", .str "c"} ∧ s.ExactSweep pass := by
  have hrun : (Transition.run step (start 30) [request 1 (.str "a") "exclusive", request 2 (.str "b") "shared",
      request 3 (.str "c") "shared", request 4 (.str "d") "exclusive"]).map (fun s => decide (
        ((s.sweep pass).node.locks.getOrNew (.str "r")).holders = {.str "b", .str "c"} ∧
        pass.Lists s ∧ s.leaseTimeout = 30 ∧ ∀ e ∈ s.locks.entries, e.2.expired pass.now →
          ∀ w ∈ Waiting.nextGroup e.2.waiting, w.hashable)) = some true := by decide
  obtain ⟨s, hs, hobs⟩ := Option.map_eq_some_iff.1 hrun
  obtain ⟨hserved, hlists, htimeout, hhash⟩ := of_decide_eq_true hobs
  have hpos : 0 < s.leaseTimeout := by
    rw [htimeout]
    decide
  have hserves := fun r lock hl => hhash (r, lock) (Dict.mem_of_get? hl)
  exact ⟨s, hs, hserved, (exactSweep_iff hlists pass_clock hpos).2 hserves⟩

/-- The request of the client `[1]` is queued, and the pass that comes to it raises. -/
theorem sweep_interrupted : ¬∀ actions : List (LockAction Int), ∀ s, Transition.run step (start 30) actions = some s →
    ∀ env : Sweep Int, env.Lists s → (∀ r c, env.now ≤ env.clock r c) → s.ExactSweep env := by
  intro hall
  have hrun : (Transition.run step (start 30)
      [request 1 (.str "a") "exclusive", request 2 (.arr [.num 1]) "exclusive"]).map (fun s => decide (
        pass.Lists s ∧ ∃ e ∈ s.locks.entries, e.2.expired pass.now ∧
          ∃ w ∈ Waiting.nextGroup e.2.waiting, w.hashable = false)) = some true := by decide
  obtain ⟨s, hs, hobs⟩ := Option.map_eq_some_iff.1 hrun
  obtain ⟨hlists, e, he, hexpired, w, hw, hkey⟩ := of_decide_eq_true hobs
  have hexact := hall _ s hs pass hlists pass_clock
  obtain ⟨lock', -, hserved⟩ := hexact.expired e.1 e.2 (Dict.get?_of_mem he) hexpired
  rw [hserved.hashable w hw] at hkey
  cases hkey

end LockManagerNode

end DistributedSync
