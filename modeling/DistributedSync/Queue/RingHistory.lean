import Mathlib.Data.Finset.Union
import DistributedSync.Queue.Node
import DistributedSync.Queue.Unified

/-!
# Rings with different histories

A ring is changed by additions and removals of nodes.  Without collisions among the labels involved its mapping is
exactly the one from the hashes of the labels of its current nodes to these nodes (`Exact`), so two rings with the same
nodes agree, whatever their histories were (`history_independent`).  The nodes of a cluster add themselves and their
peers in different orders: `QueueNode` adds itself first and `DistributedNode` adds itself last.
-/

namespace DistributedSync

namespace ConsistentHashRing

/-- A call that changes the ring. -/
inductive RingOp where
  | addNode (nodeId : String)
  | removeNode (nodeId : String)
  deriving DecidableEq

def RingOp.nodeId : RingOp → String
  | .addNode nodeId => nodeId
  | .removeNode nodeId => nodeId

variable (hash : String → Nat)

def applyOp (r : ConsistentHashRing) : RingOp → ConsistentHashRing
  | .addNode nodeId => r.addNode hash nodeId
  | .removeNode nodeId => r.removeNode hash nodeId

def applyOps (r : ConsistentHashRing) (ops : List RingOp) : ConsistentHashRing := ops.foldl (applyOp hash) r

/-- The nodes that are named in a list of calls. -/
def involved (ops : List RingOp) : Finset String := (ops.map RingOp.nodeId).toFinset

/-- Two rings with the same mapping, the same sorted keys and the same assignments. -/
structure Agree (r r' : ConsistentHashRing) : Prop where
  ring : ∀ k, r.ring.get? k = r'.ring.get? k
  sortedKeys : r.sortedKeys = r'.sortedKeys
  getNode : ∀ key, r.getNode hash key = r'.getNode hash key
  getNodesForKey : ∀ key count, r.getNodesForKey hash key count = r'.getNodesForKey hash key count

/-- The mapping is the union of the labels of the current nodes. -/
def Exact (r : ConsistentHashRing) : Prop :=
  ∀ k n, r.ring.get? k = some n ↔ n ∈ r.nodes ∧ Owns hash r.replicas n k

variable {hash}

private theorem Agree.of_ring {r r' : ConsistentHashRing} (h : ∀ k, r.ring.get? k = r'.ring.get? k) :
    Agree hash r r' where
  ring := h
  sortedKeys := sortedKeys_congr h
  getNode := getNode_congr h
  getNodesForKey := getNodesForKey_congr h

/-! ### What a call preserves -/

theorem applyOps_cons (r : ConsistentHashRing) (op : RingOp) (ops : List RingOp) :
    r.applyOps hash (op :: ops) = (r.applyOp hash op).applyOps hash ops := rfl

private theorem applyOps_nil (r : ConsistentHashRing) : r.applyOps hash [] = r := rfl

private theorem applyOps_append (r : ConsistentHashRing) (ops ops' : List RingOp) :
    r.applyOps hash (ops ++ ops') = (r.applyOps hash ops).applyOps hash ops' := List.foldl_append

private theorem applyOp_addNode (r : ConsistentHashRing) (nodeId : String) :
    r.applyOp hash (.addNode nodeId) = r.addNode hash nodeId := rfl

@[simp] theorem applyOp_replicas (r : ConsistentHashRing) (op : RingOp) :
    (r.applyOp hash op).replicas = r.replicas := by
  cases op <;> rfl

@[simp] theorem applyOps_replicas (r : ConsistentHashRing) (ops : List RingOp) :
    (r.applyOps hash ops).replicas = r.replicas := by
  induction ops generalizing r with
  | nil => rfl
  | cons op ops ih => rw [applyOps_cons, ih, applyOp_replicas]

theorem applyOp_nodes_subset (r : ConsistentHashRing) (op : RingOp) :
    (r.applyOp hash op).nodes ⊆ insert op.nodeId r.nodes := by
  cases op with
  | addNode nodeId => exact Finset.Subset.refl _
  | removeNode nodeId => exact (Finset.erase_subset _ _).trans (Finset.subset_insert _ _)

theorem exact_withReplicas (replicas : Nat) : Exact hash (withReplicas replicas) := by
  intro k n
  simp [withReplicas, Dict.get?, Dict.empty]

/-- An addition overwrites nothing of the other nodes. -/
theorem Exact.addNode {r : ConsistentHashRing} (h : Exact hash r) {nodeId : String}
    (hfree : CollisionFree hash r.replicas (insert nodeId r.nodes)) : Exact hash (r.addNode hash nodeId) := by
  intro k n
  have hreplicas : (r.addNode hash nodeId).replicas = r.replicas := rfl
  have hnodes : (r.addNode hash nodeId).nodes = insert nodeId r.nodes := rfl
  rw [get?_addNode, hreplicas, hnodes]
  by_cases hk : Owns hash r.replicas nodeId k
  · rw [if_pos hk]
    constructor
    · intro hn
      cases hn
      exact ⟨Finset.mem_insert_self _ _, hk⟩
    · rintro ⟨hn, hkn⟩
      by_contra hne
      exact hfree.not_owns hn (Finset.mem_insert_self _ _) (fun heq => hne (by rw [heq])) k ⟨hkn, hk⟩
  · rw [if_neg hk, h k n]
    constructor
    · exact fun hn => ⟨Finset.mem_insert_of_mem hn.1, hn.2⟩
    · rintro ⟨hn, hkn⟩
      rcases Finset.mem_insert.1 hn with rfl | hn
      · exact absurd hkn hk
      · exact ⟨hn, hkn⟩

/-- A removal pops nothing of the other nodes, also when the node is absent. -/
theorem Exact.removeNode {r : ConsistentHashRing} (h : Exact hash r) {nodeId : String}
    (hfree : CollisionFree hash r.replicas (insert nodeId r.nodes)) : Exact hash (r.removeNode hash nodeId) := by
  intro k n
  have hreplicas : (r.removeNode hash nodeId).replicas = r.replicas := rfl
  have hnodes : (r.removeNode hash nodeId).nodes = r.nodes.erase nodeId := rfl
  rw [get?_removeNode, hreplicas, hnodes, Finset.mem_erase]
  by_cases hk : Owns hash r.replicas nodeId k
  · rw [if_pos hk]
    constructor
    · intro hn
      cases hn
    · rintro ⟨⟨hne, hn⟩, hkn⟩
      exact absurd ⟨hkn, hk⟩ (hfree.not_owns (Finset.mem_insert_of_mem hn) (Finset.mem_insert_self _ _) hne k)
  · rw [if_neg hk, h k n]
    constructor
    · rintro ⟨hn, hkn⟩
      refine ⟨⟨?_, hn⟩, hkn⟩
      rintro rfl
      exact hk hkn
    · exact fun hn => ⟨hn.1.2, hn.2⟩

private theorem Exact.applyOp {r : ConsistentHashRing} (h : Exact hash r) {op : RingOp}
    (hfree : CollisionFree hash r.replicas (insert op.nodeId r.nodes)) : Exact hash (r.applyOp hash op) := by
  cases op with
  | addNode nodeId => exact h.addNode hfree
  | removeNode nodeId => exact h.removeNode hfree

theorem Exact.applyOps {r : ConsistentHashRing} (h : Exact hash r) (ops : List RingOp)
    (hfree : CollisionFree hash r.replicas (r.nodes ∪ involved ops)) : Exact hash (r.applyOps hash ops) := by
  induction ops generalizing r with
  | nil => exact h
  | cons op ops ih =>
    have hinvolved : r.nodes ∪ involved (op :: ops) = insert op.nodeId r.nodes ∪ involved ops := by
      simp [involved]
    rw [hinvolved] at hfree
    have hop : Exact hash (r.applyOp hash op) := h.applyOp (hfree.mono Finset.subset_union_left)
    refine ih hop ?_
    rw [applyOp_replicas]
    exact hfree.mono (Finset.union_subset_union_left (applyOp_nodes_subset r op))

theorem Exact.agree {r r' : ConsistentHashRing} (h : Exact hash r) (h' : Exact hash r')
    (hreplicas : r.replicas = r'.replicas) (hnodes : r.nodes = r'.nodes) : Agree hash r r' := by
  refine Agree.of_ring fun k => Option.ext fun n => ?_
  rw [h k n, h' k n, hreplicas, hnodes]

/-! ### The rings of a cluster -/

/-- The ring of a node of either class after its start, in a cluster with the given members. -/
def Started (ν : Type) (hash : String → Nat) (members : Finset String) (r : ConsistentHashRing) : Prop :=
  (∃ cfg : QueueConfig ν, cfg.hash = hash ∧ insert cfg.nodeId cfg.peers.toFinset = members ∧ r = cfg.hashRing) ∨
    ∃ cfg : DistributedNode.Config, cfg.hash = hash ∧ insert cfg.nodeId cfg.peers.toFinset = members ∧
      r = cfg.hashRing

private theorem foldl_addNode (r : ConsistentHashRing) (peers : List String) :
    peers.foldl (fun r peer => r.addNode hash peer) r = r.applyOps hash (peers.map .addNode) := by
  rw [applyOps, List.foldl_map]
  rfl

private theorem applyOps_addNode_nodes (r : ConsistentHashRing) (peers : List String) :
    (r.applyOps hash (peers.map .addNode)).nodes = r.nodes ∪ peers.toFinset := by
  induction peers generalizing r with
  | nil => simp [applyOps]
  | cons peer peers ih =>
    have hnodes : (r.addNode hash peer).nodes = insert peer r.nodes := rfl
    rw [List.map_cons, applyOps_cons, applyOp_addNode, ih, hnodes, List.toFinset_cons, Finset.insert_union,
      Finset.union_insert]

private theorem involved_addNode (peers : List String) : involved (peers.map .addNode) = peers.toFinset := by
  rw [involved, List.map_map]
  have hid : RingOp.nodeId ∘ RingOp.addNode = id := rfl
  rw [hid, List.map_id]

/-- A started ring has exactly the labels of the members. -/
theorem Started.exact {ν : Type} {members : Finset String} {r : ConsistentHashRing} (h : Started ν hash members r)
    (hfree : CollisionFree hash 150 members) : Exact hash r ∧ r.replicas = 150 ∧ r.nodes = members := by
  obtain ⟨ids, hids, rfl⟩ : ∃ ids : List String, ids.toFinset = members ∧
      r = (withReplicas 150).applyOps hash (ids.map .addNode) := by
    rcases h with ⟨cfg, rfl, hmembers, rfl⟩ | ⟨cfg, rfl, hmembers, rfl⟩
    · refine ⟨cfg.nodeId :: cfg.peers, by rw [List.toFinset_cons, hmembers], ?_⟩
      rw [QueueConfig.hashRing, foldl_addNode, new_eq, List.map_cons, applyOps_cons, applyOp_addNode]
    · refine ⟨cfg.peers ++ [cfg.nodeId], ?_, ?_⟩
      · rw [List.toFinset_append, List.toFinset_cons, List.toFinset_nil, insert_empty_eq, Finset.union_comm,
          ← Finset.insert_eq, hmembers]
      · rw [DistributedNode.Config.hashRing, foldl_addNode, new_eq, List.map_append, applyOps_append,
          List.map_singleton, applyOps_cons, applyOp_addNode, applyOps_nil]
  have hempty : (withReplicas 150).nodes = ∅ := rfl
  refine ⟨(exact_withReplicas 150).applyOps _ ?_, applyOps_replicas _ _, ?_⟩
  · rw [involved_addNode, hempty, Finset.empty_union, hids]
    exact hfree
  · rw [applyOps_addNode_nodes, hempty, Finset.empty_union, hids]

/-- Two sequences of calls that end with the same nodes give rings that agree, and so do the rings that the nodes of a
cluster build when they start. -/
theorem history_independent (ν : Type) (hash : String → Nat) (replicas : Nat) (ops ops' : List RingOp)
    (hfree : CollisionFree hash replicas (involved ops ∪ involved ops'))
    (hnodes : ((withReplicas replicas).applyOps hash ops).nodes = ((withReplicas replicas).applyOps hash ops').nodes) :
    Agree hash ((withReplicas replicas).applyOps hash ops) ((withReplicas replicas).applyOps hash ops') ∧
      ∀ (members : Finset String) (r r' : ConsistentHashRing), CollisionFree hash 150 members →
        Started ν hash members r → Started ν hash members r' → Agree hash r r' := by
  constructor
  · have hempty : ∀ s : Finset String, (withReplicas replicas).nodes ∪ s = s := Finset.empty_union
    have h : Exact hash ((withReplicas replicas).applyOps hash ops) := by
      refine (exact_withReplicas replicas).applyOps ops ?_
      rw [hempty]
      exact hfree.mono Finset.subset_union_left
    have h' : Exact hash ((withReplicas replicas).applyOps hash ops') := by
      refine (exact_withReplicas replicas).applyOps ops' ?_
      rw [hempty]
      exact hfree.mono Finset.subset_union_right
    refine h.agree h' ?_ hnodes
    rw [applyOps_replicas, applyOps_replicas]
  · intro members r r' hmembers hr hr'
    obtain ⟨h, hreplicas, hr⟩ := hr.exact hmembers
    obtain ⟨h', hreplicas', hr'⟩ := hr'.exact hmembers
    exact h.agree h' (hreplicas.trans hreplicas'.symm) (hr.trans hr'.symm)

/-- Hashes of the labels of three nodes with two virtual nodes each. -/
private def sampleHash (label : String) : Nat :=
  ["a:0", "c:1", "b:0", "c:0", "b:1", "a:1"].idxOf label

/-- The node `c` comes and goes, `a` is added twice, and the absent node `b` is removed before it is added. -/
theorem history_independent_sample :
    Agree sampleHash
      ((withReplicas 2).applyOps sampleHash [.addNode "a", .addNode "c", .addNode "b", .removeNode "c", .addNode "a"])
      ((withReplicas 2).applyOps sampleHash [.removeNode "b", .addNode "b", .addNode "a"]) :=
  (history_independent Int sampleHash 2 _ _ (by decide) (by decide)).1

end ConsistentHashRing

end DistributedSync
