import Mathlib.Data.Finset.Union
import DistributedSync.Json
import DistributedSync.Library.CycleSearch
import DistributedSync.Library.Dict
import DistributedSync.Message

/-!
# Locks and the deadlock detector

`LockType`, `LockState` and `DeadlockDetector` of `lock_manager.py`, and the lock commands that both kinds of node
commit.  A command carries the fields of a request unchecked, so they are arbitrary JSON values; what the code does
on the wrong kind of value is to raise, often in the middle of an update.

A Python set is a `Finset`: its iteration order, where the code depends on it, is an input.  Readings of the clock
and lease times are numbers of a type `ν` of which only the operations are used.
-/

namespace DistributedSync

inductive LockType where
  | shared | exclusive
  deriving DecidableEq, Repr

/-- `LockType(value)`; `none` is the `ValueError`. -/
def LockType.ofJson? {ν : Type} (value : Json ν) : Option LockType :=
  if value.isStr "shared" then some .shared
  else if value.isStr "exclusive" then some .exclusive
  else none

/-- An element of `waiting`.  The unified node leaves the timestamp out. -/
structure Waiting (ν : Type) where
  clientId : Json ν
  lockType : LockType
  timestamp : Option ν := none

/-- The attributes of a `LockState`. -/
structure LockState (ν : Type) where
  lockType : Option LockType := none
  holders : Finset (Key ν) := ∅
  waiting : List (Waiting ν) := []
  fencingToken : Nat := 0
  leaseExpiry : ν

/-- `LockState(resource)`. -/
def LockState.new {ν : Type} [Number ν] : LockState ν where
  leaseExpiry := 0

/-- The command of a log entry, as the callbacks read it; a missing key is `none`, or null where `get` is called
without a default. -/
structure LockCommand (ν : Type) where
  action : Json ν := .null
  resource : Json ν := .null
  clientId : Json ν := .null
  lockType : Option (Json ν) := none
  leaseTimeout : Option (Json ν) := none

/-- The command of a handler that acquires; the unified node leaves the lease timeout out. -/
def LockCommand.acquire {ν : Type} (resource clientId lockType : Json ν) (leaseTimeout : Option (Json ν)) :
    LockCommand ν :=
  ⟨.str "acquire", resource, clientId, some lockType, leaseTimeout⟩

/-- The command of a handler that releases. -/
def LockCommand.release {ν : Type} (resource clientId : Json ν) : LockCommand ν :=
  ⟨.str "release", resource, clientId, none, none⟩

theorem LockCommand.not_acquire_of_release {ν : Type} {cmd : LockCommand ν} (h : cmd.action.isStr "release") :
    ¬ cmd.action.isStr "acquire" := by
  rw [Json.isStr_iff.1 h]
  simp [Json.isStr]

/-- `LockType(cmd.get("lock_type", "exclusive"))`. -/
def LockCommand.lockType? {ν : Type} (cmd : LockCommand ν) : Option LockType :=
  LockType.ofJson? (cmd.lockType.getD (.str "exclusive"))

/-- The tables of locks by resource. -/
abbrev LockTable (ν : Type) := Dict (Key ν) (LockState ν)

section

variable {ν : Type} [Number ν]

/-- `self.locks[resource]`, created when it is missing. -/
def LockTable.getOrNew (locks : LockTable ν) (resource : Key ν) : LockState ν :=
  (locks.get? resource).getD LockState.new

/-- The wait-for graph: the clients that each client waits for. -/
structure DeadlockDetector (ν : Type) where
  waitFor : Dict (Key ν) (Finset (Key ν)) := .empty

def DeadlockDetector.addWait (d : DeadlockDetector ν) (waiter : Key ν) (holders : Finset (Key ν)) :
    DeadlockDetector ν where
  waitFor := d.waitFor.set waiter ((d.waitFor.get? waiter).getD ∅ ∪ holders.erase waiter)

def DeadlockDetector.removeClient (d : DeadlockDetector ν) (clientId : Key ν) : DeadlockDetector ν where
  waitFor := (d.waitFor.erase clientId).mapValues fun s => s.erase clientId

/-- `self.wait_for.get(client, set())`. -/
def DeadlockDetector.targets (d : DeadlockDetector ν) (client : Key ν) : Finset (Key ν) :=
  (d.waitFor.get? client).getD ∅

/-- The clients of the graph, with those that occur only as targets. -/
def DeadlockDetector.clients (d : DeadlockDetector ν) : Finset (Key ν) :=
  d.waitFor.keys.toFinset ∪ d.waitFor.keys.toFinset.biUnion d.targets

/-- The set of a client in the order in which the search visits it. -/
def DeadlockDetector.neighbors (d : DeadlockDetector ν) (order : Key ν → List (Key ν)) (client : Key ν) :
    List (Key ν) :=
  if client ∈ d.waitFor.keys then order client else []

/-- The orders go once through the set of each client. -/
def DeadlockDetector.Lists (d : DeadlockDetector ν) (order : Key ν → List (Key ν)) : Prop :=
  ∀ e ∈ d.waitFor.entries, (order e.1).Nodup ∧ (order e.1).toFinset = e.2

instance (d : DeadlockDetector ν) (order : Key ν → List (Key ν)) : Decidable (d.Lists order) :=
  inferInstanceAs (Decidable (∀ e ∈ d.waitFor.entries, _))

/-- `detect_cycles`.  No call is deeper than the number of clients; the limit that the interpreter sets to the
depth of a recursion is left out. -/
def DeadlockDetector.detectCycles (d : DeadlockDetector ν) (order : Key ν → List (Key ν)) :
    Option (List (List (Key ν))) :=
  (CycleSearch.detect (d.neighbors order) d.clients.card d.waitFor.keys {}).map fun s => s.cycles

end

end DistributedSync
