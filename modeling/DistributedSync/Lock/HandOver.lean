import DistributedSync.Lock.View

/-!
# Handing a lock over

Which requests a lock goes to when its last holder is gone: the head of the queue, and the run of shared requests
behind it if the head is shared.  When all of them can be hashed, `_do_release` makes them the holders
(`handOver_of_hashable`); otherwise it raises when it comes to the first that cannot, and has taken requests off the
queue by then (`handOver_raises`).
-/

namespace DistributedSync

namespace Waiting

variable {ν : Type}

def isShared (w : Waiting ν) : Bool := w.lockType = .shared

private theorem isShared_iff {w : Waiting ν} : w.isShared ↔ w.lockType = .shared := decide_eq_true_iff

/-- The requests that a free lock goes to. -/
def nextGroup : List (Waiting ν) → List (Waiting ν)
  | [] => []
  | next :: rest => next :: if next.isShared then rest.takeWhile isShared else []

/-- The requests that stay in the queue when the lock goes to the next group. -/
def behindGroup : List (Waiting ν) → List (Waiting ν)
  | [] => []
  | next :: rest => if next.isShared then rest.dropWhile isShared else rest

theorem nextGroup_append_behindGroup (queue : List (Waiting ν)) : nextGroup queue ++ behindGroup queue = queue := by
  cases queue with
  | nil => rfl
  | cons next rest =>
    rw [nextGroup, behindGroup]
    by_cases hs : next.isShared
    · rw [if_pos hs, if_pos hs, List.cons_append, List.takeWhile_append_dropWhile]
    · rw [if_neg hs, if_neg hs]
      rfl

variable [Number ν]

/-- The client of the request can be hashed. -/
def hashable (w : Waiting ν) : Bool := w.clientId.key?.isSome

/-- The clients of the requests, as far as they can be hashed. -/
def clients (ws : List (Waiting ν)) : Finset (Key ν) := (ws.filterMap fun w => w.clientId.key?).toFinset

theorem mem_clients {ws : List (Waiting ν)} {c : Key ν} : c ∈ clients ws ↔ ∃ w ∈ ws, w.clientId.key? = some c := by
  rw [clients, List.mem_toFinset, List.mem_filterMap]

private theorem clients_cons {w : Waiting ν} {c : Key ν} (hc : w.clientId.key? = some c) (ws : List (Waiting ν)) :
    clients (w :: ws) = insert c (clients ws) := by
  rw [clients, List.filterMap_cons, hc, List.toFinset_cons]
  rfl

end Waiting

variable {ν : Type} [Number ν]

namespace LockState

/-- The lock after its queue has moved up: it belongs to the next group as well until `expiry`. -/
def movedUp (lock : LockState ν) (expiry : ν) : LockState ν :=
  match lock.waiting with
  | [] => lock
  | next :: _ => {
      lockType := some next.lockType
      holders := lock.holders ∪ Waiting.clients (Waiting.nextGroup lock.waiting)
      waiting := Waiting.behindGroup lock.waiting
      fencingToken := lock.fencingToken + 1
      leaseExpiry := expiry }

private theorem joinWaiting_of_hashable (lock : LockState ν) (d : DeadlockDetector ν) {ws : List (Waiting ν)}
    (h : ∀ w ∈ ws.takeWhile Waiting.isShared, w.hashable) : ∃ d', lock.joinWaiting d ws =
      ⟨({ lock with
          holders := lock.holders ∪ Waiting.clients (ws.takeWhile Waiting.isShared)
          waiting := ws.dropWhile Waiting.isShared }, d'), .ok ()⟩ := by
  induction ws generalizing lock d with
  | nil =>
    refine ⟨d, ?_⟩
    have hnone : Waiting.clients ([] : List (Waiting ν)) = ∅ := rfl
    rw [joinWaiting, List.takeWhile_nil, hnone, Finset.union_empty]
    rfl
  | cons w ws ih =>
    rw [joinWaiting]
    by_cases hs : w.lockType = .shared
    · have hshared : w.isShared := Waiting.isShared_iff.2 hs
      rw [List.takeWhile_cons_of_pos hshared] at h ⊢
      obtain ⟨c, hc⟩ := Option.isSome_iff_exists.1 (h w List.mem_cons_self)
      obtain ⟨d', hd'⟩ := ih { lock with holders := insert c lock.holders } (d.removeClient c)
        fun w' hw' => h w' (List.mem_cons_of_mem w hw')
      refine ⟨d', ?_⟩
      rw [if_pos hs, hc, List.dropWhile_cons_of_pos hshared, Waiting.clients_cons hc, Finset.union_insert,
        ← Finset.insert_union]
      exact hd'
    · have hshared : ¬ w.isShared := mt Waiting.isShared_iff.1 hs
      have hnone : Waiting.clients ([] : List (Waiting ν)) = ∅ := rfl
      refine ⟨d, ?_⟩
      rw [if_neg hs, List.takeWhile_cons_of_neg hshared, List.dropWhile_cons_of_neg hshared, hnone,
        Finset.union_empty]

private theorem joinWaiting_raises (lock : LockState ν) (d : DeadlockDetector ν) {ws : List (Waiting ν)} {w : Waiting ν}
    (hw : w ∈ ws.takeWhile Waiting.isShared) (hkey : w.clientId.key? = none) :
    (lock.joinWaiting d ws).result = .error .typeError ∧
      (lock.joinWaiting d ws).state.1.waiting.length ≤ ws.length := by
  induction ws generalizing lock d with
  | nil => cases hw
  | cons w' ws ih =>
    rw [joinWaiting]
    by_cases hs : w'.lockType = .shared
    · rw [if_pos hs]
      rw [List.takeWhile_cons_of_pos (Waiting.isShared_iff.2 hs)] at hw
      cases hc : w'.clientId.key? with
      | none => exact ⟨rfl, Nat.le_succ _⟩
      | some c =>
        rcases List.mem_cons.1 hw with rfl | hw
        · rw [hkey] at hc
          cases hc
        · obtain ⟨hres, hlen⟩ := ih { lock with holders := insert c lock.holders } (d.removeClient c) hw
          exact ⟨hres, Nat.le_succ_of_le hlen⟩
    · have hshared : ¬ w'.isShared := mt Waiting.isShared_iff.1 hs
      rw [List.takeWhile_cons_of_neg hshared] at hw
      cases hw

/-- When the clients of the next group can be hashed, they get the lock. -/
theorem handOver_of_hashable (lock : LockState ν) (h : ∀ w ∈ Waiting.nextGroup lock.waiting, w.hashable)
    (d : DeadlockDetector ν) (now leaseTimeout : ν) :
    ∃ d', lock.handOver d now leaseTimeout = ⟨(lock.movedUp (now + leaseTimeout), d'), .ok ()⟩ := by
  rw [handOver, movedUp]
  cases hq : lock.waiting with
  | nil => exact ⟨d, rfl⟩
  | cons next rest =>
    rw [hq, Waiting.nextGroup] at h
    obtain ⟨c, hc⟩ := Option.isSome_iff_exists.1 (h next List.mem_cons_self)
    simp only [hc]
    rw [Waiting.nextGroup, Waiting.behindGroup, Waiting.clients_cons hc, Finset.union_insert, ← Finset.insert_union]
    by_cases hs : next.lockType = .shared
    · have hshared : next.isShared := Waiting.isShared_iff.2 hs
      rw [if_pos hshared] at h
      rw [if_pos hs, if_pos hshared, if_pos hshared]
      exact joinWaiting_of_hashable _ _ fun w hw => h w (List.mem_cons_of_mem next hw)
    · have hshared : ¬ next.isShared := mt Waiting.isShared_iff.1 hs
      have hnone : Waiting.clients ([] : List (Waiting ν)) = ∅ := rfl
      rw [if_neg hs, if_neg hshared, if_neg hshared, hnone, Finset.union_empty]
      exact ⟨_, rfl⟩

/-- A client of the next group that cannot be hashed makes the hand-over raise, after requests have left the
queue. -/
theorem handOver_raises (lock : LockState ν) {w : Waiting ν} (hw : w ∈ Waiting.nextGroup lock.waiting)
    (hkey : w.clientId.key? = none) (d : DeadlockDetector ν) (now leaseTimeout : ν) :
    (lock.handOver d now leaseTimeout).result = .error .typeError ∧
      (lock.handOver d now leaseTimeout).state.1.waiting.length < lock.waiting.length := by
  rw [handOver]
  cases hq : lock.waiting with
  | nil =>
    rw [hq] at hw
    cases hw
  | cons next rest =>
    rw [hq, Waiting.nextGroup] at hw
    cases hc : next.clientId.key? with
    | none =>
      simp only [hc]
      exact ⟨trivial, Nat.lt_succ_self _⟩
    | some c =>
      simp only [hc]
      rcases List.mem_cons.1 hw with rfl | hw
      · rw [hkey] at hc
        cases hc
      · by_cases hs : next.lockType = .shared
        · rw [if_pos hs]
          rw [if_pos (Waiting.isShared_iff.2 hs)] at hw
          obtain ⟨hres, hlen⟩ := joinWaiting_raises
            { lock with
              waiting := rest, lockType := some next.lockType, holders := insert c lock.holders,
              fencingToken := lock.fencingToken + 1, leaseExpiry := now + leaseTimeout }
            (d.removeClient c) hw hkey
          exact ⟨hres, Nat.lt_succ_of_le hlen⟩
        · have hshared : ¬ next.isShared = true := by
            rw [Waiting.isShared, decide_eq_true_iff]
            exact hs
          rw [if_neg hshared] at hw
          cases hw

/-- What becomes of the lock does not depend on the detector. -/
theorem joinWaiting_congr (lock : LockState ν) (d d' : DeadlockDetector ν) (ws : List (Waiting ν)) :
    (lock.joinWaiting d ws).state.1 = (lock.joinWaiting d' ws).state.1 ∧
      (lock.joinWaiting d ws).result = (lock.joinWaiting d' ws).result := by
  induction ws generalizing lock d d' with
  | nil => exact ⟨rfl, rfl⟩
  | cons w ws ih =>
    rw [joinWaiting, joinWaiting]
    by_cases hs : w.lockType = .shared
    · rw [if_pos hs, if_pos hs]
      cases w.clientId.key? with
      | none => exact ⟨rfl, rfl⟩
      | some c => exact ih { lock with holders := insert c lock.holders } (d.removeClient c) (d'.removeClient c)
    · rw [if_neg hs, if_neg hs]
      exact ⟨rfl, rfl⟩

theorem handOver_congr (lock : LockState ν) (d d' : DeadlockDetector ν) (now leaseTimeout : ν) :
    (lock.handOver d now leaseTimeout).state.1 = (lock.handOver d' now leaseTimeout).state.1 ∧
      (lock.handOver d now leaseTimeout).result = (lock.handOver d' now leaseTimeout).result := by
  rw [handOver, handOver]
  cases lock.waiting with
  | nil => exact ⟨rfl, rfl⟩
  | cons next rest =>
    simp only
    cases next.clientId.key? with
    | none => exact ⟨rfl, rfl⟩
    | some c =>
      by_cases hs : next.lockType = .shared
      · simp only [if_pos hs]
        exact joinWaiting_congr _ (d.removeClient c) (d'.removeClient c) rest
      · simp only [if_neg hs]
        exact ⟨trivial, trivial⟩

/-- The hand-over when every holder has lost the lock. -/
def vacate (lock : LockState ν) (now leaseTimeout : ν) : Outcome (LockState ν × DeadlockDetector ν) Unit :=
  LockState.handOver { lock with holders := ∅ } {} now leaseTimeout

/-- The lock when every holder has lost it. -/
def expire (lock : LockState ν) (now leaseTimeout : ν) : LockState ν := (lock.vacate now leaseTimeout).state.1

theorem expire_view (lock : LockState ν) (now leaseTimeout : ν) :
    (lock.expire now leaseTimeout).view = lock.view.expire :=
  LockState.handOver_view _ _ _ _

theorem vacate_of_hashable {lock : LockState ν} (h : ∀ w ∈ Waiting.nextGroup lock.waiting, w.hashable)
    (now leaseTimeout : ν) : (lock.vacate now leaseTimeout).result = .ok () ∧
      lock.expire now leaseTimeout = LockState.movedUp { lock with holders := ∅ } (now + leaseTimeout) := by
  obtain ⟨d', hd'⟩ := handOver_of_hashable { lock with holders := ∅ } h {} now leaseTimeout
  rw [expire, vacate, hd']
  exact ⟨rfl, rfl⟩

end LockState

/-! ### The lease time of the node -/

namespace LockManagerNode

@[simp] theorem store_leaseTimeout (s : LockManagerNode ν) (r : Key ν)
    (o : Outcome (LockState ν × DeadlockDetector ν) Unit) : (s.store r o).state.leaseTimeout = s.leaseTimeout := rfl

theorem doRelease_leaseTimeout (s : LockManagerNode ν) (now : ν) (resource clientId : Json ν) :
    (s.doRelease now resource clientId).state.leaseTimeout = s.leaseTimeout := by
  unfold doRelease
  cases resource.key? with
  | none => rfl
  | some r =>
    simp only
    cases s.locks.get? r with
    | none => rfl
    | some lock => rfl

theorem releaseEach_leaseTimeout (s : LockManagerNode ν) (clock : Key ν → ν) (r : Key ν) (hs : List (Key ν)) :
    (s.releaseEach clock r hs).state.leaseTimeout = s.leaseTimeout := by
  induction hs generalizing s with
  | nil => rfl
  | cons holder rest ih =>
    have hframe := s.doRelease_leaseTimeout (clock holder) r.toJson holder.toJson
    rw [releaseEach]
    rcases hd : s.doRelease (clock holder) r.toJson holder.toJson with ⟨s', _ | _⟩
    · rw [hd] at hframe
      exact hframe
    · rw [hd] at hframe
      exact (ih s').trans hframe

end LockManagerNode

end DistributedSync
