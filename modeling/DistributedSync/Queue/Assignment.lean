import Mathlib.Data.Finset.Card
import DistributedSync.Library.Clockwise
import DistributedSync.Queue.RingHistory

/-!
# Assignments on the ring

Both scans of the ring read the owners of its virtual nodes clockwise from the hash of the key (`owners`): `get_node`
returns the first of them (`head?_owners`), and `get_nodes_for_key` the first `count` different ones
(`getNodesForKey_eq`).  A change of the ring only puts the points of one node into this walk, or takes them out of it,
so a key moves only to that node or away from it (`minimal_movement`).
-/

namespace DistributedSync

namespace ConsistentHashRing

variable (hash : String → Nat)

/-- The owners of the virtual nodes, clockwise from the hash of the key. -/
def owners (r : ConsistentHashRing) (key : String) : List String :=
  (clockwise (hash key) r.sortedKeys).filterMap r.ring.get?

variable {hash} {r : ConsistentHashRing} {key : String}

private theorem pairwise_sortedKeys (r : ConsistentHashRing) : r.sortedKeys.Pairwise (· ≤ ·) := by
  rw [r.sorted]
  exact List.pairwise_mergeSort' (· ≤ ·) _

/-- Every point of the walk has an owner. -/
theorem exists_owner {k : Nat} (hk : k ∈ clockwise (hash key) r.sortedKeys) : ∃ n, r.ring.get? k = some n :=
  Dict.mem_keys.1 (mem_sortedKeys.1 (Clockwise.mem_clockwise.1 hk))

private theorem mem_owners {n : String} : n ∈ r.owners hash key ↔ ∃ k, r.ring.get? k = some n := by
  rw [owners, List.mem_filterMap]
  constructor
  · rintro ⟨k, -, hn⟩
    exact ⟨k, hn⟩
  · rintro ⟨k, hn⟩
    exact ⟨k, Clockwise.mem_clockwise.2 (mem_sortedKeys.2 (Dict.mem_keys.2 ⟨n, hn⟩)), hn⟩

/-! ### The two scans -/

private theorem getNode_eq : r.getNode hash key = (clockwise (hash key) r.sortedKeys).head?.bind r.ring.get? := by
  rw [Clockwise.head?_clockwise, getNode]
  cases r.sortedKeys.find? fun k => hash key ≤ k with
  | none => rfl
  | some k => rfl

theorem head?_owners : (r.owners hash key).head? = r.getNode hash key := by
  rw [getNode_eq, owners]
  cases hwalk : clockwise (hash key) r.sortedKeys with
  | nil => rfl
  | cons k rest =>
    have hk : k ∈ clockwise (hash key) r.sortedKeys := by
      rw [hwalk]
      exact List.mem_cons_self
    obtain ⟨n, hn⟩ := exists_owner hk
    rw [List.filterMap_cons_some hn, List.head?_cons, List.head?_cons, Option.bind_some, hn]

private theorem owners_eq_range : (List.range r.sortedKeys.length).filterMap
    (fun i => r.ownerAt (r.startIndex hash key + i)) = r.owners hash key := by
  rw [owners, Clockwise.clockwise_eq_rotate (pairwise_sortedKeys r), ← Clockwise.filterMap_range_rotate]
  rfl

/-- The walk adds the owners that are new, in their order, until there are enough. -/
theorem walk_eq (idx : Nat) {count : Int} {result : List String} (hlt : result.length < count) (is : List Nat) :
    r.walk idx count result is = (result ++
      ((is.filterMap fun i => r.ownerAt (idx + i)).filter fun n => n ∉ result).eraseDups).take count.toNat := by
  induction is generalizing result with
  | nil =>
    have hle : result.length ≤ count.toNat := by omega
    rw [walk, List.filterMap_nil, List.filter_nil, List.eraseDups_nil, List.append_nil, List.take_of_length_le hle]
  | cons i is ih =>
    rw [walk]
    cases howner : r.ownerAt (idx + i) with
    | none =>
      rw [List.filterMap_cons, howner]
      simp only [if_neg (Int.not_le.2 hlt)]
      exact ih hlt
    | some n =>
      rw [List.filterMap_cons, howner]
      simp only
      by_cases hn : n ∈ result
      · rw [if_pos hn, if_neg (Int.not_le.2 hlt), ih hlt, List.filter_cons_of_neg (by simpa using hn)]
      · -- the owner is new, and those that follow must differ from it too
        have hrest : ∀ l : List String, (l.filter fun m => m ∉ result).filter (fun m => !m == n) =
            l.filter fun m => m ∉ result ++ [n] := by
          intro l
          rw [List.filter_filter]
          refine List.filter_congr fun m _ => ?_
          by_cases hm : m = n <;> simp [hm]
        have happend : result ++ n :: ((is.filterMap fun i => r.ownerAt (idx + i)).filter fun m =>
            m ∉ result ++ [n]).eraseDups = result ++ [n] ++ ((is.filterMap fun i => r.ownerAt (idx + i)).filter fun m =>
              m ∉ result ++ [n]).eraseDups := by
          rw [List.append_assoc, List.singleton_append]
        rw [if_neg hn, List.filter_cons_of_pos (by simpa using hn), List.eraseDups_cons, hrest, happend]
        by_cases hfull : count ≤ (result ++ [n]).length
        · have hcount : count.toNat = (result ++ [n]).length := by
            rw [List.length_append, List.length_singleton] at hfull ⊢
            omega
          rw [if_pos hfull, hcount, List.take_left]
        · rw [if_neg hfull, ih (Int.not_le.1 hfull)]

theorem getNodesForKey_eq {count : Int} (hcount : 1 ≤ count) :
    r.getNodesForKey hash key count = (r.owners hash key).eraseDups.take count.toNat := by
  have hlt : (([] : List String).length : Int) < count := by
    rw [List.length_nil]
    omega
  have hall : ∀ l : List String, (l.filter fun n => n ∉ ([] : List String)) = l := by
    intro l
    rw [List.filter_eq_self]
    simp
  rw [getNodesForKey, walk_eq _ hlt, owners_eq_range, hall, List.nil_append]

/-- The different owners are the nodes that the ring maps some hash to. -/
theorem length_owners : (r.owners hash key).eraseDups.length = (r.ring.entries.map Prod.snd).toFinset.card := by
  rw [← List.toFinset_card_of_nodup (Clockwise.nodup_eraseDups _)]
  congr 1
  ext n
  rw [List.mem_toFinset, List.mem_toFinset, List.mem_eraseDups, mem_owners, List.mem_map]
  constructor
  · rintro ⟨k, hn⟩
    exact ⟨(k, n), Dict.mem_of_get? hn, rfl⟩
  · rintro ⟨e, he, rfl⟩
    exact ⟨e.1, Dict.get?_of_mem he⟩

/-- `get_nodes_for_key` lists the first `count` different owners clockwise from the hash of the key: as many as there
are, the assigned node first, and more of them for a larger count. -/
theorem replicas_walk_ring (hash : String → Nat) (r : ConsistentHashRing) (key : String) (count : Int)
    (hcount : 1 ≤ count) :
    r.getNodesForKey hash key count = (r.owners hash key).eraseDups.take count.toNat ∧
    (r.getNodesForKey hash key count).Nodup ∧
    (r.getNodesForKey hash key count).length = min count.toNat (r.ring.entries.map Prod.snd).toFinset.card ∧
    (r.getNodesForKey hash key count).head? = r.getNode hash key ∧
    ∀ count', count ≤ count' → r.getNodesForKey hash key count <+: r.getNodesForKey hash key count' := by
  have heq : r.getNodesForKey hash key count = (r.owners hash key).eraseDups.take count.toNat :=
    getNodesForKey_eq hcount
  refine ⟨heq, ?_, ?_, ?_, fun count' hle => ?_⟩
  · rw [heq]
    exact (Clockwise.nodup_eraseDups _).sublist (List.take_sublist _ _)
  · rw [heq, List.length_take, length_owners]
  · have hpos : count.toNat ≠ 0 := by omega
    rw [heq, List.head?_take, if_neg hpos, Clockwise.head?_eraseDups, head?_owners]
  · rw [heq, getNodesForKey_eq (hcount.trans hle)]
    exact List.take_prefix_take_left (by omega)

/-- Hashes of the labels of three nodes with two virtual nodes each, and of a key. -/
private def movingHash (label : String) : Nat :=
  ["a:0", "c:1", "key", "b:0", "c:0", "b:1", "a:1"].idxOf label

/-- Two nodes, and more copies asked for than there are nodes. -/
theorem replicas_walk_ring_sample :
    let r := (withReplicas 2).applyOps movingHash [.addNode "a", .addNode "b"]
    (r.getNodesForKey movingHash "key" 3).Nodup ∧
      (r.getNodesForKey movingHash "key" 3).length = min 3 (r.ring.entries.map Prod.snd).toFinset.card ∧
      (r.getNodesForKey movingHash "key" 3).head? = r.getNode movingHash "key" ∧
      r.getNodesForKey movingHash "key" 3 <+: r.getNodesForKey movingHash "key" 4 := by
  intro r
  obtain ⟨-, hnodup, hlength, hhead, hprefix⟩ := replicas_walk_ring movingHash r "key" 3 (by decide)
  exact ⟨hnodup, hlength, hhead, hprefix 4 (by decide)⟩

/-! ### Changes of the ring -/

private theorem sortedKeys_filter {r r' : ConsistentHashRing} {p : Nat → Bool}
    (h : ∀ k, k ∈ r'.ring.keys ↔ k ∈ r.ring.keys ∧ p k) : r'.sortedKeys = r.sortedKeys.filter p := by
  have hnodup : ∀ r : ConsistentHashRing, r.sortedKeys.Nodup := by
    intro r
    rw [r.sorted]
    exact (List.mergeSort_perm _ _).nodup_iff.2 r.ring.nodup_keys
  have hperm : r'.sortedKeys.Perm (r.sortedKeys.filter p) := by
    refine (List.perm_ext_iff_of_nodup (hnodup r') ((hnodup r).filter p)).2 fun k => ?_
    rw [mem_sortedKeys, h, List.mem_filter, mem_sortedKeys]
  exact List.Perm.eq_of_pairwise (fun _ _ _ _ => Nat.le_antisymm) (pairwise_sortedKeys r')
    ((pairwise_sortedKeys r).filter p) hperm

/-- The owner of the first point does not change when this point stays and points are only taken away. -/
theorem getNode_of_filter {r r' : ConsistentHashRing} {p : Nat → Bool}
    (hkeys : ∀ k, k ∈ r'.ring.keys ↔ k ∈ r.ring.keys ∧ p k) {k : Nat}
    (hk : (clockwise (hash key) r.sortedKeys).head? = some k) (hp : p k) : r'.getNode hash key = r'.ring.get? k := by
  rw [getNode_eq, sortedKeys_filter hkeys, Clockwise.head?_clockwise_filter hk hp, Option.bind_some]

private theorem mem_keys_addNode {n : String} {k : Nat} :
    k ∈ (r.addNode hash n).ring.keys ↔ k ∈ r.ring.keys ∨ Owns hash r.replicas n k := by
  rw [Dict.mem_keys, Dict.mem_keys, get?_addNode]
  by_cases hk : Owns hash r.replicas n k
  · simp [hk]
  · simp [hk]

private theorem mem_keys_removeNode {n : String} {k : Nat} :
    k ∈ (r.removeNode hash n).ring.keys ↔ k ∈ r.ring.keys ∧ ¬Owns hash r.replicas n k := by
  rw [Dict.mem_keys, Dict.mem_keys, get?_removeNode]
  by_cases hk : Owns hash r.replicas n k
  · simp [hk]
  · simp [hk]

/-- The ring before an addition has those of the points after it that it had: a key keeps its first point, or its first
point is now one of the new node. -/
theorem getNode_addNode (r : ConsistentHashRing) (n : String) (key : String) :
    (r.addNode hash n).getNode hash key = r.getNode hash key ∨ (r.addNode hash n).getNode hash key = some n := by
  have hold : ∀ k, k ∈ r.ring.keys ↔ k ∈ (r.addNode hash n).ring.keys ∧ decide (k ∈ r.ring.keys) = true := by
    intro k
    rw [mem_keys_addNode, decide_eq_true_iff]
    exact ⟨fun hk => ⟨Or.inl hk, hk⟩, And.right⟩
  cases hhead : (clockwise (hash key) (r.addNode hash n).sortedKeys).head? with
  | none =>
    have hnil := List.head?_eq_none_iff.1 hhead
    left
    rw [getNode_eq, getNode_eq, sortedKeys_filter hold, ← Clockwise.filter_clockwise, hnil]
    rfl
  | some k =>
    have hafter : (r.addNode hash n).getNode hash key = (r.addNode hash n).ring.get? k := by
      rw [getNode_eq, hhead, Option.bind_some]
    rw [hafter, get?_addNode]
    by_cases hk : Owns hash r.replicas n k
    · rw [if_pos hk]
      exact Or.inr rfl
    · have hmem := mem_keys_addNode.1 (mem_sortedKeys.1 (Clockwise.mem_clockwise.1 (List.mem_of_mem_head? hhead)))
      have hkept := getNode_of_filter hold hhead (decide_eq_true (hmem.resolve_right hk))
      rw [if_neg hk, hkept]
      exact Or.inl rfl

/-- A key whose first point is not one of the removed node keeps it. -/
theorem getNode_removeNode (h : Exact hash r) {n : String} (hne : r.getNode hash key ≠ some n)
    (hfree : CollisionFree hash r.replicas (insert n r.nodes)) :
    (r.removeNode hash n).getNode hash key = r.getNode hash key := by
  have hkeys : ∀ k, k ∈ (r.removeNode hash n).ring.keys ↔
      k ∈ r.ring.keys ∧ decide (¬Owns hash r.replicas n k) = true := by
    intro k
    rw [mem_keys_removeNode, decide_eq_true_iff]
  cases hhead : (clockwise (hash key) r.sortedKeys).head? with
  | none =>
    have hnil := List.head?_eq_none_iff.1 hhead
    rw [getNode_eq, getNode_eq, sortedKeys_filter hkeys, ← Clockwise.filter_clockwise, hnil]
    rfl
  | some k =>
    obtain ⟨m, hm⟩ := exists_owner (List.mem_of_mem_head? hhead)
    have hbefore : r.getNode hash key = some m := by
      rw [getNode_eq, hhead, Option.bind_some, hm]
    have hmn : m ≠ n := by
      rintro rfl
      exact hne hbefore
    -- the point belongs to another member, so it is no point of the removed node
    obtain ⟨hmember, howns⟩ := (h k m).1 hm
    have hk : ¬Owns hash r.replicas n k := fun hk =>
      hfree.not_owns (Finset.mem_insert_of_mem hmember) (Finset.mem_insert_self _ _) hmn k ⟨howns, hk⟩
    rw [getNode_of_filter hkeys hhead (decide_eq_true hk), get?_removeNode, if_neg hk, hm, hbefore]

private theorem applyOps_nodes_subset (r : ConsistentHashRing) (ops : List RingOp) :
    (r.applyOps hash ops).nodes ⊆ r.nodes ∪ involved ops := by
  induction ops generalizing r with
  | nil => exact Finset.subset_union_left
  | cons op ops ih =>
    have hinvolved : r.nodes ∪ involved (op :: ops) = insert op.nodeId r.nodes ∪ involved ops := by
      simp [involved]
    rw [applyOps_cons, hinvolved]
    exact (ih _).trans (Finset.union_subset_union_left (applyOp_nodes_subset r op))

/-- Adding a node moves keys to it only, and removing a node moves its own keys only. -/
theorem minimal_movement (hash : String → Nat) (replicas : Nat) (ops : List RingOp) (n key : String)
    (hfree : CollisionFree hash replicas (insert n (involved ops))) :
    ((((withReplicas replicas).applyOps hash ops).addNode hash n).getNode hash key =
          ((withReplicas replicas).applyOps hash ops).getNode hash key ∨
        (((withReplicas replicas).applyOps hash ops).addNode hash n).getNode hash key = some n) ∧
      (((withReplicas replicas).applyOps hash ops).getNode hash key ≠ some n →
        (((withReplicas replicas).applyOps hash ops).removeNode hash n).getNode hash key =
          ((withReplicas replicas).applyOps hash ops).getNode hash key) := by
  have hempty : ∀ s : Finset String, (withReplicas replicas).nodes ∪ s = s := Finset.empty_union
  have hexact : Exact hash ((withReplicas replicas).applyOps hash ops) := by
    refine (exact_withReplicas replicas).applyOps ops ?_
    rw [hempty]
    exact hfree.mono (Finset.subset_insert _ _)
  refine ⟨getNode_addNode _ n key, fun hne => getNode_removeNode hexact hne ?_⟩
  rw [applyOps_replicas]
  refine hfree.mono (Finset.insert_subset_insert n ?_)
  have hsub : ((withReplicas replicas).applyOps hash ops).nodes ⊆ (withReplicas replicas).nodes ∪ involved ops :=
    applyOps_nodes_subset _ ops
  rwa [hempty] at hsub

/-- The absent node `c` is removed first, and `a` is added twice.  The key is at `b`, and stays there when `c` comes. -/
theorem minimal_movement_sample :
    let r := (withReplicas 2).applyOps movingHash [.removeNode "c", .addNode "a", .addNode "b", .addNode "a"]
    ((r.addNode movingHash "c").getNode movingHash "key" = r.getNode movingHash "key" ∨
        (r.addNode movingHash "c").getNode movingHash "key" = some "c") ∧
      (r.getNode movingHash "key" ≠ some "c" →
        (r.removeNode movingHash "c").getNode movingHash "key" = r.getNode movingHash "key") :=
  minimal_movement movingHash 2 [.removeNode "c", .addNode "a", .addNode "b", .addNode "a"] "c" "key" (by decide)

end ConsistentHashRing

end DistributedSync
