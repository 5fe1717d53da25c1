import DistributedSync.Lock.Table

/-!
# The lock manager node

`LockManagerNode` of `lock_manager.py`: the commit callback `_apply_lock_command` and one pass of the lease expiry
sweep.  An update that raises keeps what it has changed so far, since `_apply_committed` and the sweep catch the
exception and roll nothing back.

The counters of `self.metrics` and the log lines are left out, but for the resources that a sweep reports as
expired.
-/

namespace DistributedSync

variable {ν : Type} [Number ν]

/-! ### One lock -/

/-- `_do_acquire` on the lock of the resource. -/
def LockState.acquire (lock : LockState ν) (d : DeadlockDetector ν) (now : ν) (clientId : Json ν)
    (lockType : LockType) (leaseTimeout : Json ν) : Outcome (LockState ν × DeadlockDetector ν) Unit :=
  if lock.holders = ∅ then
    let lock := { lock with lockType := some lockType }
    match clientId.key? with
    | none => ⟨(lock, d), .error .typeError⟩
    | some c =>
      let lock := { lock with holders := insert c lock.holders, fencingToken := lock.fencingToken + 1 }
      match leaseTimeout.number? with
      | none => ⟨(lock, d), .error .typeError⟩
      | some t => ⟨({ lock with leaseExpiry := now + t }, d.removeClient c), .ok ()⟩
  else if lockType = .shared ∧ lock.lockType = some .shared then
    match clientId.key? with
    | none => ⟨(lock, d), .error .typeError⟩
    | some c =>
      let lock := { lock with holders := insert c lock.holders }
      match leaseTimeout.number? with
      | none => ⟨(lock, d), .error .typeError⟩
      | some t => ⟨({ lock with leaseExpiry := pyMax lock.leaseExpiry (now + t) }, d.removeClient c), .ok ()⟩
  else
    -- the request is queued before the detector tries to hash the client
    let lock := { lock with waiting := lock.waiting ++ [⟨clientId, lockType, some now⟩] }
    match clientId.key? with
    | none => ⟨(lock, d), .error .typeError⟩
    | some c => ⟨(lock, d.addWait c lock.holders), .ok ()⟩

/-- The `while` loop of `_do_release`: the shared requests at the head of the queue join the holders. -/
def LockState.joinWaiting (lock : LockState ν) (d : DeadlockDetector ν) :
    List (Waiting ν) → Outcome (LockState ν × DeadlockDetector ν) Unit
  | [] => ⟨({ lock with waiting := [] }, d), .ok ()⟩
  | w :: ws =>
    if w.lockType = .shared then
      match w.clientId.key? with
      | none => ⟨({ lock with waiting := ws }, d), .error .typeError⟩
      | some c => LockState.joinWaiting { lock with holders := insert c lock.holders } (d.removeClient c) ws
    else ⟨({ lock with waiting := w :: ws }, d), .ok ()⟩

/-- The end of `_do_release`: a lock without holders goes to the head of its queue. -/
def LockState.handOver (lock : LockState ν) (d : DeadlockDetector ν) (now leaseTimeout : ν) :
    Outcome (LockState ν × DeadlockDetector ν) Unit :=
  match lock.waiting with
  | [] => ⟨(lock, d), .ok ()⟩
  | next :: rest =>
    let lock := { lock with waiting := rest, lockType := some next.lockType }
    match next.clientId.key? with
    | none => ⟨(lock, d), .error .typeError⟩
    | some c =>
      let lock := { lock with
        holders := insert c lock.holders
        fencingToken := lock.fencingToken + 1
        leaseExpiry := now + leaseTimeout }
      if next.lockType = .shared then lock.joinWaiting (d.removeClient c) rest
      else ⟨(lock, d.removeClient c), .ok ()⟩

/-- `_do_release` on the lock of the resource. -/
def LockState.release (lock : LockState ν) (d : DeadlockDetector ν) (now leaseTimeout : ν) (clientId : Json ν) :
    Outcome (LockState ν × DeadlockDetector ν) Unit :=
  match clientId.key? with
  | none => ⟨(lock, d), .error .typeError⟩
  | some c =>
    let lock := { lock with holders := lock.holders.erase c }
    if lock.holders = ∅ then lock.handOver (d.removeClient c) now leaseTimeout
    else ⟨(lock, d.removeClient c), .ok ()⟩

/-- The condition of the sweep. -/
def LockState.expired (lock : LockState ν) (now : ν) : Bool :=
  lock.holders ≠ ∅ ∧ 0 < lock.leaseExpiry ∧ lock.leaseExpiry < now

/-! ### The node -/

structure LockManagerNode (ν : Type) where
  locks : LockTable ν := .empty
  deadlockDetector : DeadlockDetector ν := {}
  leaseTimeout : ν

/-- A node that has applied nothing yet. -/
def LockManagerNode.start (leaseTimeout : ν) : LockManagerNode ν where
  leaseTimeout := leaseTimeout

/-- The lock of the resource is an object of the table, so an update of it is visible there. -/
def LockManagerNode.store (s : LockManagerNode ν) (r : Key ν)
    (o : Outcome (LockState ν × DeadlockDetector ν) Unit) : Outcome (LockManagerNode ν) Unit where
  state := { s with locks := s.locks.set r o.state.1, deadlockDetector := o.state.2 }
  result := o.result

def LockManagerNode.doAcquire (s : LockManagerNode ν) (now : ν) (resource clientId : Json ν) (lockType : LockType)
    (leaseTimeout : Json ν) : Outcome (LockManagerNode ν) Unit :=
  match resource.key? with
  | none => ⟨s, .error .typeError⟩
  | some r => s.store r ((s.locks.getOrNew r).acquire s.deadlockDetector now clientId lockType leaseTimeout)

def LockManagerNode.doRelease (s : LockManagerNode ν) (now : ν) (resource clientId : Json ν) :
    Outcome (LockManagerNode ν) Unit :=
  match resource.key? with
  | none => ⟨s, .error .typeError⟩
  | some r =>
    match s.locks.get? r with
    | none => ⟨s, .ok ()⟩
    | some lock => s.store r (lock.release s.deadlockDetector now s.leaseTimeout clientId)

/-- `_apply_lock_command`, with the clock at `now`. -/
def LockManagerNode.applyLockCommand (s : LockManagerNode ν) (now : ν) (cmd : LockCommand ν) :
    Outcome (LockManagerNode ν) Unit :=
  if cmd.action.isStr "acquire" then
    match cmd.lockType? with
    | none => ⟨s, .error .valueError⟩
    | some lockType =>
      s.doAcquire now cmd.resource cmd.clientId lockType (cmd.leaseTimeout.getD (.num s.leaseTimeout))
  else if cmd.action.isStr "release" then s.doRelease now cmd.resource cmd.clientId
  else ⟨s, .ok ()⟩

/-! ### The expiry sweep -/

/-- What a pass of `_lease_expiry_loop` depends on besides the node: the time it starts with, the time when it
releases each holder of each resource, and the order in which it visits the holders of each resource. -/
structure Sweep (ν : Type) where
  now : ν
  clock : Key ν → Key ν → ν
  order : Key ν → List (Key ν)

/-- The orders go once through the holders of each lock. -/
def Sweep.Lists (env : Sweep ν) (s : LockManagerNode ν) : Prop :=
  ∀ e ∈ s.locks.entries, (env.order e.1).Nodup ∧ (env.order e.1).toFinset = e.2.holders

instance (env : Sweep ν) (s : LockManagerNode ν) : Decidable (env.Lists s) :=
  inferInstanceAs (Decidable (∀ e ∈ s.locks.entries, _))

/-- The releases of the holders of an expired lock; the first one that raises ends them. -/
def LockManagerNode.releaseEach (s : LockManagerNode ν) (clock : Key ν → ν) (r : Key ν) :
    List (Key ν) → Outcome (LockManagerNode ν) Unit
  | [] => ⟨s, .ok ()⟩
  | holder :: rest =>
    match s.doRelease (clock holder) r.toJson holder.toJson with
    | ⟨s, .ok _⟩ => s.releaseEach clock r rest
    | ⟨s, .error e⟩ => ⟨s, .error e⟩

/-- What a pass leaves behind: the node, and the resources that it found expired and logged. -/
structure Swept (ν : Type) where
  node : LockManagerNode ν
  expired : List (Key ν)

/-- The pass over the resources `rs`; an exception ends it. -/
def LockManagerNode.sweepFrom (env : Sweep ν) : List (Key ν) → LockManagerNode ν → Swept ν
  | [], s => ⟨s, []⟩
  | r :: rs, s =>
    match s.locks.get? r with
    | none => ⟨s, []⟩
    | some lock =>
      if lock.expired env.now then
        match s.releaseEach (env.clock r) r (env.order r) with
        | ⟨s, .ok _⟩ => ⟨(sweepFrom env rs s).node, r :: (sweepFrom env rs s).expired⟩
        | ⟨s, .error _⟩ => ⟨s, [r]⟩
      else sweepFrom env rs s

/-- One pass of `_lease_expiry_loop`. -/
def LockManagerNode.sweep (s : LockManagerNode ν) (env : Sweep ν) : Swept ν := sweepFrom env s.locks.keys s

/-! ### Runs -/

/-- What changes the lock table: a committed command, applied when the clock reads `now`, and a pass of the
sweep. -/
inductive LockAction (ν : Type) where
  | apply (now : ν) (cmd : LockCommand ν)
  | sweep (env : Sweep ν)

def LockManagerNode.step (s : LockManagerNode ν) : LockAction ν → Option (LockManagerNode ν)
  | .apply now cmd => some (s.applyLockCommand now cmd).state
  | .sweep env => if env.Lists s then some (s.sweep env).node else none

end DistributedSync
