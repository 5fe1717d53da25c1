import Mathlib.Data.List.Sort
import DistributedSync.Json

/-!
# Entries of the audit log

`AuditEntry` of `audit_logger.py`.  The fields are JSON values, since the handlers log what a request holds and the
loader takes whatever a line of the file says.  What the hash covers is the JSON text with sorted keys, so it is a
function of the value with its keys sorted (`canonical`).
-/

namespace DistributedSync

namespace Json

variable {ν : Type}

mutual

/-- The value as `sort_keys` orders it. -/
def sortKeys : Json ν → Json ν
  | null => null
  | bool b => bool b
  | num x => num x
  | str s => str s
  | arr items => arr (sortItems items)
  | obj members => obj (sortMembers members)

def sortItems : List (Json ν) → List (Json ν)
  | [] => []
  | v :: vs => sortKeys v :: sortItems vs

def sortMembers : List (String × Json ν) → List (String × Json ν)
  | [] => []
  | (k, v) :: ms => (sortMembers ms).orderedInsert (fun a b => a.1 ≤ b.1) (k, sortKeys v)

end

theorem sortKeys_eq_str {v : Json ν} {s : String} : v.sortKeys = str s ↔ v = str s := by
  cases v <;> simp [sortKeys]

/-- `value[k]` of a dictionary. -/
def member? (k : String) : Json ν → Option (Json ν)
  | obj members => (members.find? fun m => m.1 = k).map Prod.snd
  | _ => none

variable [Number ν]

mutual

/-- `==`, where `numEq` compares numbers: an integer may be equal to a float, and truth values count as numbers. -/
def pyEq (numEq : ν → ν → Bool) : Json ν → Json ν → Bool
  | null, null => true
  | str s, str t => s = t
  | arr vs, arr ws => pyEqItems numEq vs ws
  | obj ms, obj ns => ms.length = ns.length && pyEqMembers numEq ms ns
  | bool b, w => w.number?.any fun y => numEq (if b then 1 else 0) y
  | num x, w => w.number?.any fun y => numEq x y
  | _, _ => false

def pyEqItems (numEq : ν → ν → Bool) : List (Json ν) → List (Json ν) → Bool
  | [], [] => true
  | v :: vs, w :: ws => pyEq numEq v w && pyEqItems numEq vs ws
  | _, _ => false

def pyEqMembers (numEq : ν → ν → Bool) : List (String × Json ν) → List (String × Json ν) → Bool
  | [], _ => true
  | (k, v) :: ms, ns => (match ns.find? fun m => m.1 = k with
      | some m => pyEq numEq v m.2
      | none => false) && pyEqMembers numEq ms ns

end

/-- A text is equal to itself only. -/
theorem pyEq_str (numEq : ν → ν → Bool) {v : Json ν} {s : String} : pyEq numEq v (str s) = true ↔ v = str s := by
  cases v <;> simp [pyEq, number?]

end Json

/-- What the logger uses of the standard library: the comparison of numbers, `json.dumps` and `json.loads`, which may
raise, and the SHA-256 hex digest of the text of a value with sorted keys. -/
structure AuditLib (ν : Type) where
  numEq : ν → ν → Bool
  dumps : Json ν → String
  loads : String → Option (Json ν)
  sha256 : Json ν → String
  length_sha256 : ∀ v, (sha256 v).length = 64

structure AuditEntry (ν : Type) where
  sequence : Json ν
  timestamp : Json ν
  nodeId : Json ν
  user : Json ν
  action : Json ν
  resource : Json ν
  result : Json ν
  prevHash : Json ν
  entryHash : Json ν

namespace AuditEntry

variable {ν : Type}

/-- The dictionary that `_compute_hash` dumps. -/
def content (e : AuditEntry ν) : Json ν :=
  .obj [("sequence", e.sequence), ("timestamp", e.timestamp), ("node_id", e.nodeId), ("user", e.user),
    ("action", e.action), ("resource", e.resource), ("result", e.result), ("prev_hash", e.prevHash)]

def canonical (e : AuditEntry ν) : Json ν := e.content.sortKeys

def computeHash (lib : AuditLib ν) (e : AuditEntry ν) : String := lib.sha256 e.canonical

def toDict (e : AuditEntry ν) : Json ν :=
  .obj [("sequence", e.sequence), ("timestamp", e.timestamp), ("node_id", e.nodeId), ("user", e.user),
    ("action", e.action), ("resource", e.resource), ("result", e.result), ("prev_hash", e.prevHash),
    ("entry_hash", e.entryHash)]

/-- The names of the arguments of the constructor. -/
def fieldNames : List String :=
  ["sequence", "timestamp", "node_id", "user", "action", "resource", "result", "prev_hash", "entry_hash"]

theorem canonical_eq (e : AuditEntry ν) : e.canonical =
    .obj [("action", e.action.sortKeys), ("node_id", e.nodeId.sortKeys), ("prev_hash", e.prevHash.sortKeys),
      ("resource", e.resource.sortKeys), ("result", e.result.sortKeys), ("sequence", e.sequence.sortKeys),
      ("timestamp", e.timestamp.sortKeys), ("user", e.user.sortKeys)] := by
  simp [canonical, content, Json.sortKeys, Json.sortMembers]

/-- The canonical contents agree exactly if all hashed fields do, up to the order of keys. -/
theorem canonical_inj {e e' : AuditEntry ν} : e.canonical = e'.canonical ↔
    e.sequence.sortKeys = e'.sequence.sortKeys ∧ e.timestamp.sortKeys = e'.timestamp.sortKeys ∧
      e.nodeId.sortKeys = e'.nodeId.sortKeys ∧ e.user.sortKeys = e'.user.sortKeys ∧
      e.action.sortKeys = e'.action.sortKeys ∧ e.resource.sortKeys = e'.resource.sortKeys ∧
      e.result.sortKeys = e'.result.sortKeys ∧ e.prevHash.sortKeys = e'.prevHash.sortKeys := by
  rw [canonical_eq, canonical_eq]
  constructor
  · intro h
    simp only [Json.obj.injEq, List.cons.injEq, Prod.mk.injEq, true_and, and_true] at h
    obtain ⟨haction, hnodeId, hprevHash, hresource, hresult, hsequence, htimestamp, huser⟩ := h
    exact ⟨hsequence, htimestamp, hnodeId, huser, haction, hresource, hresult, hprevHash⟩
  · rintro ⟨hsequence, htimestamp, hnodeId, huser, haction, hresource, hresult, hprevHash⟩
    rw [hsequence, htimestamp, hnodeId, huser, haction, hresource, hresult, hprevHash]

theorem computeHash_ne_genesis (lib : AuditLib ν) (e : AuditEntry ν) : e.computeHash lib ≠ "genesis" := by
  intro h
  have hlength := lib.length_sha256 e.canonical
  rw [← computeHash, h] at hlength
  revert hlength
  decide

variable [Number ν] (lib : AuditLib ν)

/-- The constructor, which computes the hash where it gets none. -/
def new (sequence timestamp nodeId user action resource result : Json ν) (prevHash : Json ν := .str "")
    (entryHash : Json ν := .str "") : AuditEntry ν :=
  let e : AuditEntry ν :=
    { sequence, timestamp, nodeId, user, action, resource, result, prevHash, entryHash }
  if entryHash.truthy then e else { e with entryHash := .str (e.computeHash lib) }

/-- `cls(**d)`, which raises on anything else than a dictionary, on an unknown name and on a missing argument. -/
def fromDict (d : Json ν) : Option (AuditEntry ν) :=
  match d with
  | .obj members =>
    if members.all fun m => m.1 ∈ fieldNames then do
      let sequence ← d.member? "sequence"
      let timestamp ← d.member? "timestamp"
      let nodeId ← d.member? "node_id"
      let user ← d.member? "user"
      let action ← d.member? "action"
      let resource ← d.member? "resource"
      let result ← d.member? "result"
      some (new lib sequence timestamp nodeId user action resource result ((d.member? "prev_hash").getD (.str ""))
        ((d.member? "entry_hash").getD (.str "")))
    else none
  | _ => none

theorem fromDict_toDict {e : AuditEntry ν} (h : e.entryHash.truthy = true) : fromDict lib e.toDict = some e := by
  simp [fromDict, toDict, fieldNames, Json.member?, new, h]

end AuditEntry

end DistributedSync
