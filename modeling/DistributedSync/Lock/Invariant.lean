import Mathlib.Algebra.Order.Ring.Int
import Mathlib.Data.Finset.Card
import DistributedSync.Library.Transition
import DistributedSync.Lock.Sweep

/-!
# The invariant of the lock table

`LockView.Sound` says that an exclusive lock has one holder at most, that a held lock has a mode, and that nobody
waits for a free lock.  Every operation on a view keeps it, as long as the clients are hashable, and so every lock
of every table that a `LockManagerNode` reaches meets it (`lock_table_invariant`).

A client that cannot be hashed is queued before the exception, and the hand-over then drops it and leaves a free
lock to the requests behind it, so the clients have to be strings, as the handlers intend them to be.
-/

namespace DistributedSync

def Json.isString {ν : Type} : Json ν → Bool
  | .str _ => true
  | _ => false

theorem Json.eq_toJson_of_isString {ν : Type} {v : Json ν} (h : v.isString) : ∃ c : Key ν, v = c.toJson := by
  cases v with
  | str s => exact ⟨.str s, rfl⟩
  | _ => cases h

/-- The resource and the client are strings. -/
def LockCommand.StringIds {ν : Type} (cmd : LockCommand ν) : Prop := cmd.resource.isString ∧ cmd.clientId.isString

instance {ν : Type} (cmd : LockCommand ν) : Decidable cmd.StringIds := inferInstanceAs (Decidable (_ ∧ _))

variable {ν : Type} [Number ν]

theorem Json.key?_of_isString {v : Json ν} (h : v.isString) : ∃ s, v.key? = some (.str s) := by
  cases v with
  | str s => exact ⟨s, rfl⟩
  | _ => cases h

/-! ### Views -/

structure LockView.Sound (v : LockView ν) : Prop where
  exclusive : v.lockType = some .exclusive → v.holders.card ≤ 1
  typed : v.holders ≠ ∅ → v.lockType ≠ none
  served : v.waiting ≠ [] → v.holders ≠ ∅
  hashable : ∀ w ∈ v.waiting, ∃ c, w.1.key? = some c

namespace LockView

variable {v : LockView ν}

theorem new_sound : ({} : LockView ν).Sound where
  exclusive h := by cases h
  typed h := absurd rfl h
  served h := absurd rfl h
  hashable w h := by cases h

/-- Acquiring keeps an exclusive lock to one holder at most: only a free lock becomes exclusive, and only a shared
lock gets another holder. -/
theorem acquire_exclusive (h : v.lockType = some .exclusive → v.holders.card ≤ 1) (clientId : Json ν)
    (lockType : LockType) (hex : (v.acquire clientId lockType).lockType = some .exclusive) :
    (v.acquire clientId lockType).holders.card ≤ 1 := by
  rw [LockView.acquire] at hex ⊢
  by_cases hfree : v.holders = ∅
  · rw [if_pos hfree]
    cases clientId.key? with
    | none => simp [hfree]
    | some c => simp [hfree]
  · rw [if_neg hfree] at hex ⊢
    by_cases hshared : lockType = .shared ∧ v.lockType = some .shared
    · rw [if_pos hshared] at hex ⊢
      cases hc : clientId.key? with
      | none =>
        rw [hc] at hex
        exact h hex
      | some c =>
        rw [hc] at hex
        have htype : v.lockType = some .exclusive := hex
        rw [hshared.2] at htype
        cases htype
    · rw [if_neg hshared] at hex ⊢
      exact h hex

theorem Sound.acquire (h : v.Sound) {clientId : Json ν} {c : Key ν} (hc : clientId.key? = some c)
    (lockType : LockType) : (v.acquire clientId lockType).Sound := by
  have hex := acquire_exclusive h.exclusive clientId lockType
  rw [LockView.acquire, hc] at hex ⊢
  by_cases hfree : v.holders = ∅
  · have hqueue : v.waiting = [] := by
      by_contra hne
      exact h.served hne hfree
    rw [if_pos hfree] at hex ⊢
    exact ⟨hex, fun _ => Option.some_ne_none _, fun hne => absurd hqueue hne, h.hashable⟩
  · rw [if_neg hfree] at hex ⊢
    by_cases hshared : lockType = .shared ∧ v.lockType = some .shared
    · rw [if_pos hshared] at hex ⊢
      exact ⟨hex, fun _ => h.typed hfree, fun _ => Finset.insert_ne_empty _ _, h.hashable⟩
    · rw [if_neg hshared] at hex ⊢
      refine ⟨hex, h.typed, fun _ => hfree, fun w hw => ?_⟩
      rcases List.mem_append.1 hw with hw | hw
      · exact h.hashable w hw
      · rw [List.mem_singleton.1 hw]
        exact ⟨c, hc⟩

/-- The induction is on the queue; the lock stays shared and held all along. -/
theorem joinWaiting_sound {ws : List (Json ν × LockType)} (htype : v.lockType = some .shared)
    (hheld : v.holders ≠ ∅) (hws : ∀ w ∈ ws, ∃ c, w.1.key? = some c) : (v.joinWaiting ws).Sound := by
  induction ws generalizing v with
  | nil =>
    rw [joinWaiting]
    refine ⟨fun hex => ?_, fun _ => ?_, fun _ => hheld, fun w hw => by cases hw⟩
    · rw [htype] at hex
      cases hex
    · rw [htype]
      exact Option.some_ne_none _
  | cons w ws ih =>
    obtain ⟨clientId, lockType⟩ := w
    obtain ⟨c, hc⟩ := hws _ List.mem_cons_self
    rw [joinWaiting]
    by_cases hs : lockType = .shared
    · rw [if_pos hs]
      have hrest := fun w hw => hws w (List.mem_cons_of_mem _ hw)
      simp only [hc]
      exact ih htype (Finset.insert_ne_empty _ _) hrest
    · rw [if_neg hs]
      refine ⟨fun hex => ?_, fun _ => ?_, fun _ => hheld, hws⟩
      · rw [htype] at hex
        cases hex
      · rw [htype]
        exact Option.some_ne_none _

private theorem handOver_sound (hempty : v.holders = ∅) (hw : ∀ w ∈ v.waiting, ∃ c, w.1.key? = some c) :
    v.handOver.Sound := by
  rw [handOver]
  cases hq : v.waiting with
  | nil =>
    refine ⟨fun _ => ?_, fun hne => absurd hempty hne, fun hne => absurd hq hne, hw⟩
    simp [hempty]
  | cons w rest =>
    obtain ⟨clientId, lockType⟩ := w
    rw [hq] at hw
    obtain ⟨c, hc⟩ := hw _ List.mem_cons_self
    have hrest := fun w hm => hw w (List.mem_cons_of_mem _ hm)
    simp only [hc]
    by_cases hs : lockType = .shared
    · rw [if_pos hs]
      refine joinWaiting_sound ?_ (Finset.insert_ne_empty _ _) hrest
      rw [hs]
    · rw [if_neg hs]
      refine ⟨fun _ => ?_, fun _ => Option.some_ne_none _, fun _ => Finset.insert_ne_empty _ _, hrest⟩
      simp [hempty]

theorem Sound.release (h : v.Sound) (clientId : Json ν) : (v.release clientId).Sound := by
  rw [LockView.release]
  cases clientId.key? with
  | none => exact h
  | some c =>
    simp only
    by_cases hfree : v.holders.erase c = ∅
    · rw [if_pos hfree]
      exact handOver_sound hfree h.hashable
    · rw [if_neg hfree]
      have hheld : v.holders ≠ ∅ := by
        intro hempty
        rw [hempty, Finset.erase_empty] at hfree
        exact hfree rfl
      have hcard := Finset.card_le_card (Finset.erase_subset c v.holders)
      exact ⟨fun hex => hcard.trans (h.exclusive hex), fun _ => h.typed hheld, fun _ => hfree, h.hashable⟩

theorem Sound.expire (h : v.Sound) : v.expire.Sound := handOver_sound rfl h.hashable

theorem Sound.apply (h : v.Sound) {cmd : LockCommand ν} (hcmd : cmd.StringIds) : (v.apply cmd).Sound := by
  obtain ⟨c, hc⟩ := Json.key?_of_isString hcmd.2
  rw [LockView.apply]
  by_cases ha : cmd.action.isStr "acquire"
  · rw [if_pos ha, LockView.request]
    cases cmd.lockType? with
    | none => exact h
    | some lockType => exact h.acquire hc lockType
  · rw [if_neg ha]
    by_cases hr : cmd.action.isStr "release"
    · rw [if_pos hr]
      exact h.release _
    · rw [if_neg hr]
      exact h

end LockView

/-! ### Runs of the node -/

/-- The command of a step, if it applies one, has string ids. -/
def LockAction.StringIds : LockAction ν → Prop
  | .apply _ cmd => cmd.StringIds
  | .sweep _ => True

instance : (a : LockAction ν) → Decidable a.StringIds
  | .apply _ cmd => inferInstanceAs (Decidable cmd.StringIds)
  | .sweep _ => isTrue trivial

namespace LockManagerNode

/-- The nodes reached by steps that all meet `ok`, from one with an empty table. -/
abbrev ReachWhile (ok : LockManagerNode ν → LockAction ν → Prop) (leaseTimeout : ν) : LockManagerNode ν → Prop :=
  Transition.ReachWhile (fun s a s' => step s a = some s') ok (start leaseTimeout)

theorem step_sound {s s' : LockManagerNode ν} {a : LockAction ν} (h : ∀ r, (s.locks.view r).Sound)
    (ha : a.StringIds) (hstep : step s a = some s') (r : Key ν) : (s'.locks.view r).Sound := by
  cases a with
  | apply now cmd =>
    obtain rfl : (s.applyLockCommand now cmd).state = s' := by simpa [step] using hstep
    rw [applyLockCommand_view]
    by_cases hr : cmd.resource.key? = some r
    · rw [if_pos hr]
      exact (h r).apply ha
    · rw [if_neg hr]
      exact h r
  | sweep env =>
    obtain ⟨hlists, rfl⟩ : env.Lists s ∧ (s.sweep env).node = s' := by simpa [step] using hstep
    have hexp := sweep_expires hlists
    by_cases hr : r ∈ (s.sweep env).expired
    · rw [hexp.expired r hr]
      exact (h r).expire
    · rw [hexp.others r hr]
      exact h r

theorem view_sound {leaseTimeout : ν} {s : LockManagerNode ν}
    (h : ReachWhile (fun _ a => a.StringIds) leaseTimeout s) (r : Key ν) : (s.locks.view r).Sound := by
  refine Transition.ReachWhile.invariant (I := fun s => ∀ r, (s.locks.view r).Sound) h
    (fun _ => LockView.new_sound) ?_ r
  intro s a s' _ hs ha hstep
  exact step_sound hs ha hstep

/-- On a table of string ids a pass of the sweep gets to every lock whose lease has run out. -/
theorem mem_expired_of_reach {leaseTimeout : ν} {s : LockManagerNode ν}
    (h : ReachWhile (fun _ a => a.StringIds) leaseTimeout s) {env : Sweep ν} (hlists : env.Lists s) {r : Key ν} :
    r ∈ (s.sweep env).expired ↔ ∃ lock, s.locks.get? r = some lock ∧ lock.expired env.now := by
  refine mem_expired_iff hlists fun r lock hl w hw => ?_
  have hs := view_sound h r
  rw [LockTable.view_of_get? hl] at hs
  exact hs.hashable w.request (List.mem_map_of_mem hw)

/-- An exclusive lock has at most one holder, a held lock has a mode, and a lock with waiters is held, whatever the
lease timeouts, the clock and the order of the holders in a sweep are. -/
theorem lock_table_invariant {leaseTimeout : ν} {s : LockManagerNode ν}
    (h : ReachWhile (fun _ a => a.StringIds) leaseTimeout s) {r : Key ν} {lock : LockState ν}
    (hl : s.locks.get? r = some lock) :
    (lock.lockType = some .exclusive → lock.holders.card ≤ 1) ∧ (lock.holders ≠ ∅ → lock.lockType ≠ none) ∧
      (lock.waiting ≠ [] → lock.holders ≠ ∅) := by
  have hs := view_sound h r
  rw [LockTable.view_of_get? hl] at hs
  refine ⟨hs.exclusive, hs.typed, fun hw => hs.served fun hmap => hw ?_⟩
  exact List.map_eq_nil_iff.1 hmap

/-- Two shared requests wait behind an exclusive holder, a client that holds nothing releases, and the lease
expires. -/
theorem lock_table_invariant_run : ∃ s lock, s.locks.get? (.str "r") = some lock ∧
    (lock.lockType, lock.holders, lock.fencingToken) = (some .shared, {.str "b", .str "c"}, 2) ∧
    ReachWhile (fun _ a => a.StringIds) (30 : Int) s ∧
    (lock.lockType = some .exclusive → lock.holders.card ≤ 1) ∧ (lock.holders ≠ ∅ → lock.lockType ≠ none) ∧
      (lock.waiting ≠ [] → lock.holders ≠ ∅) := by
  have hrun : ((Transition.runWhile step (fun _ (a : LockAction Int) => a.StringIds) (start 30)
      [.apply 1 (.acquire (.str "r") (.str "a") (.str "exclusive") none),
        .apply 2 (.acquire (.str "r") (.str "b") (.str "shared") none),
        .apply 3 (.acquire (.str "r") (.str "c") (.str "shared") none),
        .apply 4 (.release (.str "r") (.str "z")),
        .sweep ⟨32, fun _ _ => 32, fun _ => [.str "a"]⟩]).bind fun s => (s.locks.get? (.str "r")).map fun lock =>
      (lock.lockType, lock.holders, lock.fencingToken)) =
      some (some .shared, {.str "b", .str "c"}, 2) := by decide
  obtain ⟨s, hs, hobs⟩ := Option.bind_eq_some_iff.1 hrun
  obtain ⟨lock, hl, hobs⟩ := Option.map_eq_some_iff.1 hobs
  have hr := (Transition.ReachWhile.of_runWhile .refl hs).1
  exact ⟨s, lock, hl, hobs, hr, lock_table_invariant hr hl⟩

end LockManagerNode

end DistributedSync
