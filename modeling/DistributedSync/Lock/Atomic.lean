import Mathlib.Algebra.Order.Ring.Int
import DistributedSync.Lock.HandOver

/-!
# Commands that raise half-way

A command that raises is not rolled back.  `LockManagerNode.Tears` lists the commands that raise after they have
changed the lock of their resource: a grant to a client that cannot be hashed or for a time that is no number, a
request of an unhashable client that is queued, and a release that hands the lock over to an unhashable client.
Every other command that raises leaves the node as it was (`applyLockCommand_atomic_iff`).
-/

namespace DistributedSync

variable {ν : Type} [Number ν]

namespace LockState

/-- An acquire that raises after it has changed the lock. -/
def TearsAcquire (lock : LockState ν) (clientId : Json ν) (lockType : LockType) (leaseTimeout : Json ν) : Prop :=
  match clientId.key? with
  | none =>
    if lock.holders = ∅ then lock.lockType ≠ some lockType
    else ¬(lockType = .shared ∧ lock.lockType = some .shared)
  | some c =>
    leaseTimeout.number? = none ∧
      (lock.holders = ∅ ∨ (lockType = .shared ∧ lock.lockType = some .shared) ∧ c ∉ lock.holders)

/-- A release by the last holder that hands the lock over to a client that cannot be hashed. -/
def TearsRelease (lock : LockState ν) (clientId : Json ν) : Prop :=
  ∃ c, clientId.key? = some c ∧ lock.holders.erase c = ∅ ∧
    ∃ w ∈ Waiting.nextGroup lock.waiting, w.clientId.key? = none

variable {lock : LockState ν} {clientId leaseTimeout : Json ν} {lockType : LockType}

private theorem acquire_of_tears (h : lock.TearsAcquire clientId lockType leaseTimeout) (d : DeadlockDetector ν)
    (now : ν) : (lock.acquire d now clientId lockType leaseTimeout).result = .error .typeError ∧
      (lock.acquire d now clientId lockType leaseTimeout).state.1 ≠ lock := by
  rw [TearsAcquire] at h
  rw [acquire]
  cases hc : clientId.key? with
  | none =>
    rw [hc] at h
    by_cases hfree : lock.holders = ∅
    · rw [if_pos hfree] at h ⊢
      refine ⟨rfl, fun heq => h ?_⟩
      exact (congrArg LockState.lockType heq).symm
    · rw [if_neg hfree] at h ⊢
      rw [if_neg h]
      refine ⟨rfl, fun heq => ?_⟩
      have hlen := congrArg (fun l : LockState ν => l.waiting.length) heq
      simp at hlen
  | some c =>
    rw [hc] at h
    obtain ⟨hnum, hnew⟩ := h
    by_cases hfree : lock.holders = ∅
    · rw [if_pos hfree, hnum]
      refine ⟨rfl, fun heq => ?_⟩
      have hholders := congrArg LockState.holders heq
      exact Finset.insert_ne_empty c lock.holders (hholders.trans hfree)
    · obtain ⟨hshared, hnew⟩ := hnew.resolve_left hfree
      rw [if_neg hfree, if_pos hshared, hnum]
      refine ⟨rfl, fun heq => hnew ?_⟩
      rw [← congrArg LockState.holders heq]
      exact Finset.mem_insert_self c lock.holders

/-- Any other acquire that raises has changed nothing, and its lock has been used before. -/
theorem acquire_of_not_tears (h : ¬ lock.TearsAcquire clientId lockType leaseTimeout) {d : DeadlockDetector ν}
    {now : ν} (herr : (lock.acquire d now clientId lockType leaseTimeout).result ≠ .ok ()) :
    (lock.acquire d now clientId lockType leaseTimeout).state = (lock, d) ∧ lock.lockType ≠ none := by
  rw [TearsAcquire] at h
  rw [acquire] at herr ⊢
  cases hc : clientId.key? with
  | none =>
    rw [hc] at h
    by_cases hfree : lock.holders = ∅
    · rw [if_pos hfree] at h ⊢
      have htype : lock.lockType = some lockType := not_not.1 h
      rw [← htype]
      refine ⟨rfl, ?_⟩
      rw [htype]
      exact Option.some_ne_none lockType
    · rw [if_neg hfree] at h ⊢
      have hshared := not_not.1 h
      rw [if_pos hshared, hshared.2]
      exact ⟨rfl, Option.some_ne_none _⟩
  | some c =>
    rw [hc] at h herr
    cases hnum : leaseTimeout.number? with
    | some t =>
      -- a hashable client and a number: nothing raises
      rw [hnum] at herr
      refine absurd ?_ herr
      by_cases hfree : lock.holders = ∅
      · rw [if_pos hfree]
      · rw [if_neg hfree]
        by_cases hshared : lockType = .shared ∧ lock.lockType = some .shared
        · rw [if_pos hshared]
        · rw [if_neg hshared]
    | none =>
      rw [hnum] at h herr
      have hheld : lock.holders ≠ ∅ := fun hfree => h ⟨rfl, Or.inl hfree⟩
      rw [if_neg hheld] at herr ⊢
      by_cases hshared : lockType = .shared ∧ lock.lockType = some .shared
      · have hmem : c ∈ lock.holders := by
          by_contra hnew
          exact h ⟨rfl, Or.inr ⟨hshared, hnew⟩⟩
        rw [if_pos hshared]
        simp only
        rw [Finset.insert_eq_self.2 hmem]
        refine ⟨rfl, ?_⟩
        rw [hshared.2]
        exact Option.some_ne_none _
      · rw [if_neg hshared] at herr
        exact absurd rfl herr

private theorem release_of_tears (h : lock.TearsRelease clientId) (d : DeadlockDetector ν) (now leaseTimeout : ν) :
    (lock.release d now leaseTimeout clientId).result = .error .typeError ∧
      (lock.release d now leaseTimeout clientId).state.1 ≠ lock := by
  obtain ⟨c, hc, hfree, w, hw, hkey⟩ := h
  rw [release, hc]
  simp only
  rw [if_pos hfree]
  obtain ⟨hres, hlen⟩ := handOver_raises { lock with holders := lock.holders.erase c } hw hkey
    (d.removeClient c) now leaseTimeout
  refine ⟨hres, fun heq => ?_⟩
  rw [heq] at hlen
  exact Nat.lt_irrefl _ hlen

/-- Any other release that raises has changed nothing. -/
theorem release_of_not_tears (h : ¬ lock.TearsRelease clientId) {d : DeadlockDetector ν} {now leaseTimeout : ν}
    (herr : (lock.release d now leaseTimeout clientId).result ≠ .ok ()) :
    (lock.release d now leaseTimeout clientId).state = (lock, d) := by
  rw [release] at herr ⊢
  cases hc : clientId.key? with
  | none => rfl
  | some c =>
    rw [hc] at herr
    refine absurd ?_ herr
    simp only
    by_cases hfree : lock.holders.erase c = ∅
    · rw [if_pos hfree]
      have hhash : ∀ w ∈ Waiting.nextGroup lock.waiting, w.hashable := by
        intro w hw
        rw [Waiting.hashable, Option.isSome_iff_ne_none]
        exact fun hkey => h ⟨c, hc, hfree, w, hw, hkey⟩
      obtain ⟨d', hd'⟩ := handOver_of_hashable { lock with holders := lock.holders.erase c } hhash
        (d.removeClient c) now leaseTimeout
      rw [hd']
    · rw [if_neg hfree]

end LockState

namespace LockManagerNode

/-- A command that raises after it has changed the lock of its resource. -/
def Tears (s : LockManagerNode ν) (cmd : LockCommand ν) : Prop :=
  ∃ r, cmd.resource.key? = some r ∧
    (cmd.action.isStr "acquire" ∧ (∃ lockType, cmd.lockType? = some lockType ∧
        (s.locks.getOrNew r).TearsAcquire cmd.clientId lockType (cmd.leaseTimeout.getD (.num s.leaseTimeout))) ∨
      cmd.action.isStr "release" ∧ ∃ lock, s.locks.get? r = some lock ∧ lock.TearsRelease cmd.clientId)

/-- What the table says about an operation on the lock of `r` that raises. -/
theorem store_eq_iff (s : LockManagerNode ν) (r : Key ν) (o : Outcome (LockState ν × DeadlockDetector ν) Unit) :
    ((s.store r o).state.locks = s.locks ∧ (s.store r o).state.deadlockDetector = s.deadlockDetector) ↔
      s.locks.get? r = some o.state.1 ∧ o.state.2 = s.deadlockDetector :=
  and_congr_left' Dict.set_eq_self_iff

private theorem doAcquire_atomic_iff (s : LockManagerNode ν) (now : ν) {resource : Json ν} {r : Key ν}
    (hr : resource.key? = some r) (clientId : Json ν) (lockType : LockType) (leaseTimeout : Json ν) :
    ((s.doAcquire now resource clientId lockType leaseTimeout).result ≠ .ok () →
      (s.doAcquire now resource clientId lockType leaseTimeout).state.locks = s.locks ∧
        (s.doAcquire now resource clientId lockType leaseTimeout).state.deadlockDetector = s.deadlockDetector) ↔
      ¬ (s.locks.getOrNew r).TearsAcquire clientId lockType leaseTimeout := by
  rw [doAcquire, hr]
  simp only
  rw [store_eq_iff]
  constructor
  · intro h htears
    obtain ⟨hres, hne⟩ := LockState.acquire_of_tears htears s.deadlockDetector now
    have hraises : (s.store r ((s.locks.getOrNew r).acquire s.deadlockDetector now clientId lockType
        leaseTimeout)).result ≠ .ok () := by
      rw [store, hres]
      intro hok
      cases hok
    obtain ⟨hget, -⟩ := h hraises
    have hsame : s.locks.getOrNew r = _ := LockTable.getOrNew_of_get? hget
    exact hne hsame.symm
  · intro htears herr
    obtain ⟨hstate, htype⟩ := LockState.acquire_of_not_tears htears herr
    rw [hstate]
    refine ⟨?_, rfl⟩
    cases hl : s.locks.get? r with
    | some lock => rw [LockTable.getOrNew_of_get? hl]
    | none =>
      rw [LockTable.getOrNew, hl] at htype
      exact absurd rfl htype

private theorem doRelease_atomic_iff (s : LockManagerNode ν) (now : ν) {resource : Json ν} {r : Key ν}
    (hr : resource.key? = some r) (clientId : Json ν) : ((s.doRelease now resource clientId).result ≠ .ok () →
      (s.doRelease now resource clientId).state.locks = s.locks ∧
        (s.doRelease now resource clientId).state.deadlockDetector = s.deadlockDetector) ↔
      ¬∃ lock, s.locks.get? r = some lock ∧ lock.TearsRelease clientId := by
  rw [doRelease, hr]
  simp only
  cases hl : s.locks.get? r with
  | none => exact iff_of_true (fun _ => ⟨rfl, rfl⟩) (by rintro ⟨lock, hlock, -⟩; cases hlock)
  | some lock =>
    simp only [Option.some.injEq, exists_eq_left']
    rw [store_eq_iff, hl]
    constructor
    · intro h htears
      obtain ⟨hres, hne⟩ := LockState.release_of_tears htears s.deadlockDetector now s.leaseTimeout
      have hraises : (s.store r (lock.release s.deadlockDetector now s.leaseTimeout clientId)).result ≠ .ok () := by
        rw [store, hres]
        intro hok
        cases hok
      exact hne (Option.some.inj (h hraises).1).symm
    · intro htears herr
      rw [LockState.release_of_not_tears htears herr]
      exact ⟨rfl, rfl⟩

/-- A command that raises leaves the table and the graph as they were, unless it is one of those that raise after
they have changed a lock. -/
theorem applyLockCommand_atomic_iff (s : LockManagerNode ν) (now : ν) (cmd : LockCommand ν) :
    ((s.applyLockCommand now cmd).result ≠ .ok () →
      (s.applyLockCommand now cmd).state.locks = s.locks ∧
        (s.applyLockCommand now cmd).state.deadlockDetector = s.deadlockDetector) ↔ ¬ s.Tears cmd := by
  rw [applyLockCommand, Tears]
  cases hr : cmd.resource.key? with
  | none =>
    -- the table cannot even be asked for the resource
    refine iff_of_true (fun _ => ?_) (by rintro ⟨r, hkey, -⟩; cases hkey)
    by_cases ha : cmd.action.isStr "acquire"
    · rw [if_pos ha]
      cases cmd.lockType? with
      | none => exact ⟨rfl, rfl⟩
      | some lockType =>
        simp only [doAcquire, hr]
        exact ⟨trivial, trivial⟩
    · rw [if_neg ha]
      by_cases hrel : cmd.action.isStr "release"
      · rw [if_pos hrel, doRelease, hr]
        exact ⟨rfl, rfl⟩
      · rw [if_neg hrel]
        exact ⟨rfl, rfl⟩
  | some r =>
    simp only [Option.some.injEq, exists_eq_left']
    by_cases ha : cmd.action.isStr "acquire"
    · have hrel : ¬ cmd.action.isStr "release" := fun hrel => LockCommand.not_acquire_of_release hrel ha
      rw [Bool.not_eq_true] at hrel
      simp only [ha, hrel, true_and, Bool.false_eq_true, false_and, or_false, if_true]
      cases hlt : cmd.lockType? with
      | none =>
        refine iff_of_true (fun _ => ⟨rfl, rfl⟩) ?_
        rintro ⟨lockType, h, -⟩
        cases h
      | some lockType =>
        simp only [Option.some.injEq, exists_eq_left']
        exact doAcquire_atomic_iff s now hr cmd.clientId lockType _
    · rw [Bool.not_eq_true] at ha
      by_cases hrel : cmd.action.isStr "release"
      · simp only [ha, hrel, true_and, Bool.false_eq_true, false_and, false_or, if_true, if_false]
        exact doRelease_atomic_iff s now hr cmd.clientId
      · rw [Bool.not_eq_true] at hrel
        simp only [ha, hrel, Bool.false_eq_true, false_and, or_false, if_false]
        exact iff_of_true (fun _ => ⟨trivial, trivial⟩) not_false

/-- A grant for a time that is no number raises when the client is a holder already. -/
theorem half_granted : ¬∀ (s : LockManagerNode Int) (now : Int) (cmd : LockCommand Int),
    (s.applyLockCommand now cmd).result ≠ .ok () →
      (s.applyLockCommand now cmd).state.locks = s.locks ∧
        (s.applyLockCommand now cmd).state.deadlockDetector = s.deadlockDetector := by
  intro hall
  have hraises : ((start (30 : Int)).applyLockCommand 0
      (.acquire (.str "r") (.str "a") (.str "exclusive") (some (.str "soon")))).result ≠ .ok () := by
    intro hok
    cases hok
  obtain ⟨hlocks, -⟩ := hall _ _ _ hraises
  have hkeys := congrArg Dict.keys hlocks
  revert hkeys
  decide

end LockManagerNode

end DistributedSync
