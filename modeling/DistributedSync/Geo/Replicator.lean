import Mathlib.Order.Defs.LinearOrder
import DistributedSync.Geo.VectorClock

/-!
# The replicator

`ReplicatedEntry` and `Replicator` of `replicator.py`.  Values are of a type `α`, and readings of the clock and
timestamps are of a linearly ordered type `ν`.  A handler reads the clock through `now`, since an entry that comes
without a timestamp, or with the timestamp 0, is stamped on arrival.  The list of pending replications is only counted
and is kept apart (`ReplicatorCluster.Tracked`), and the simulated latency is left out.
-/

namespace DistributedSync

inductive ReplicationStatus where
  | pending | replicated | conflict
  deriving DecidableEq, Repr

structure ReplicatedEntry (α ν : Type) where
  key : String
  value : α
  vectorClock : VectorClock
  originNode : String
  timestamp : ν
  status : ReplicationStatus := .pending

/-- The dictionary that `to_dict` makes and `from_dict` reads; a missing key is `none`. -/
structure EntryDict (α ν : Type) where
  key : String
  value : α
  vectorClock : Option (Dict String Nat) := none
  originNode : Option String := none
  timestamp : Option ν := none
  status : Option ReplicationStatus := none

variable {α ν : Type}

namespace ReplicatedEntry

def toDict (e : ReplicatedEntry α ν) : EntryDict α ν where
  key := e.key
  value := e.value
  vectorClock := some e.vectorClock.toDict
  originNode := some e.originNode
  timestamp := some e.timestamp
  status := some e.status

variable [Zero ν] [DecidableEq ν]

/-- `timestamp or time.time()`. -/
def stamp (timestamp now : ν) : ν := if timestamp = 0 then now else timestamp

/-- `from_dict` at the clock reading `now`. -/
def fromDict (now : ν) (d : EntryDict α ν) : ReplicatedEntry α ν where
  key := d.key
  value := d.value
  vectorClock := VectorClock.fromDict (d.vectorClock.getD .empty)
  originNode := d.originNode.getD ""
  timestamp := stamp (d.timestamp.getD now) now
  status := d.status.getD .pending

/-- What arrives is what was sent, but for a timestamp 0. -/
theorem fromDict_toDict (now : ν) (e : ReplicatedEntry α ν) :
    fromDict now e.toDict = { e with timestamp := stamp e.timestamp now } := rfl

theorem stamp_of_ne {timestamp : ν} (h : timestamp ≠ 0) (now : ν) : stamp timestamp now = timestamp := if_neg h

end ReplicatedEntry

structure Replicator (α ν : Type) where
  nodeId : String
  dataStore : Dict String (ReplicatedEntry α ν) := .empty
  vectorClock : VectorClock := {}

namespace Replicator

/-- The entry that `write` makes at the clock reading `now`. -/
def newEntry (r : Replicator α ν) (key : String) (value : α) (now : ν) : ReplicatedEntry α ν where
  key := key
  value := value
  vectorClock := VectorClock.fromDict (r.vectorClock.increment r.nodeId).toDict
  originNode := r.nodeId
  timestamp := now

/-- `write`, up to the sending of the entry to the peers. -/
def write (r : Replicator α ν) (key : String) (value : α) (now : ν) : Replicator α ν where
  nodeId := r.nodeId
  dataStore := r.dataStore.set key (r.newEntry key value now)
  vectorClock := r.vectorClock.increment r.nodeId

section

variable (r : Replicator α ν) (key : String) (value : α) (now : ν)

@[simp] theorem nodeId_write : (r.write key value now).nodeId = r.nodeId := rfl

theorem get_write : (r.write key value now).vectorClock.get = Causality.tick r.nodeId r.vectorClock.get :=
  VectorClock.get_increment _ _

end

variable [LinearOrder ν]

/-- The entry with its final status, and whether it goes into the store. -/
def resolve (entry : ReplicatedEntry α ν) : Option (ReplicatedEntry α ν) → ReplicatedEntry α ν × Bool
  | some existing =>
    if entry.vectorClock.isConcurrent existing.vectorClock then
      -- last writer wins
      if existing.timestamp < entry.timestamp then ({ entry with status := .conflict }, true)
      else ({ entry with status := .conflict }, false)
    else if entry.vectorClock.dominates existing.vectorClock then ({ entry with status := .replicated }, true)
    else (entry, false)
  | none => ({ entry with status := .replicated }, true)

theorem resolve_of_concurrent {entry existing : ReplicatedEntry α ν}
    (h : entry.vectorClock.isConcurrent existing.vectorClock) :
    resolve entry (some existing) =
      ({ entry with status := .conflict }, decide (existing.timestamp < entry.timestamp)) := by
  rw [resolve, if_pos h]
  by_cases hlt : existing.timestamp < entry.timestamp
  · rw [if_pos hlt, decide_eq_true hlt]
  · rw [if_neg hlt, decide_eq_false hlt]

theorem resolve_of_ordered {entry existing : ReplicatedEntry α ν}
    (h : ¬entry.vectorClock.isConcurrent existing.vectorClock) :
    (resolve entry (some existing)).2 = entry.vectorClock.dominates existing.vectorClock := by
  rw [resolve, if_neg h]
  by_cases hdom : entry.vectorClock.dominates existing.vectorClock
  · rw [if_pos hdom, hdom]
  · rw [if_neg hdom]
    exact (Bool.eq_false_iff.2 hdom).symm

/-- Only the status of an entry changes. -/
theorem resolve_entry (entry : ReplicatedEntry α ν) (existing : Option (ReplicatedEntry α ν)) :
    ∃ status, (resolve entry existing).1 = { entry with status := status } := by
  cases existing with
  | none => exact ⟨.replicated, rfl⟩
  | some existing =>
    rw [resolve]
    split
    · exact ⟨.conflict, by split <;> rfl⟩
    · split
      · exact ⟨.replicated, rfl⟩
      · exact ⟨entry.status, rfl⟩

variable [Zero ν]

/-- `handle_replicate` at the clock reading `now`, with its answer. -/
def handleReplicate (r : Replicator α ν) (now : ν) (data : EntryDict α ν) :
    Replicator α ν × ReplicationStatus × String :=
  let entry := ReplicatedEntry.fromDict now data
  let j := resolve entry (r.dataStore.get? entry.key)
  ({ r with
      dataStore := if j.2 then r.dataStore.set entry.key j.1 else r.dataStore
      vectorClock := r.vectorClock.merge entry.vectorClock },
    j.1.status, entry.key)

/-! ### What the handlers change -/

variable (r : Replicator α ν) (key : String) (value : α) (now : ν) (data : EntryDict α ν)

@[simp] theorem nodeId_handleReplicate : (r.handleReplicate now data).1.nodeId = r.nodeId := rfl

theorem get_handleReplicate : (r.handleReplicate now data).1.vectorClock.get =
    r.vectorClock.get ⊔ (ReplicatedEntry.fromDict now data).vectorClock.get :=
  VectorClock.get_merge _ _

/-- A replicated entry touches its own key only. -/
theorem get?_handleReplicate (k : String) : (r.handleReplicate now data).1.dataStore.get? k =
    if k = data.key ∧ (resolve (ReplicatedEntry.fromDict now data) (r.dataStore.get? data.key)).2 then
      some (resolve (ReplicatedEntry.fromDict now data) (r.dataStore.get? data.key)).1
    else r.dataStore.get? k := by
  have hkey : (ReplicatedEntry.fromDict now data).key = data.key := rfl
  rw [handleReplicate, hkey]
  by_cases hj : (resolve (ReplicatedEntry.fromDict now data) (r.dataStore.get? data.key)).2
  · simp only [hj, if_true, and_true, Dict.get?_set]
  · simp only [hj, Bool.false_eq_true, if_false, and_false]

end Replicator

end DistributedSync
