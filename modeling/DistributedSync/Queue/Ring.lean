import Mathlib.Data.Finset.Erase
import Mathlib.Data.Finset.Insert
import Mathlib.Data.List.Sort
import DistributedSync.Library.Dict

/-!
# The consistent hash ring

`ConsistentHashRing` of `queue_node.py`.  The hash function is a parameter: nothing but its values on the labels of
the virtual nodes and on the keys is used.  Two rings that map the same hashes to the same nodes make the same
assignments (`getNode_congr`, `getNodesForKey_congr`), and without collisions among the labels the order of two
additions does not matter (`getNode_addNode_comm`).
-/

namespace DistributedSync

structure ConsistentHashRing where
  replicas : Nat := 150
  ring : Dict Nat String := .empty
  sortedKeys : List Nat := []
  nodes : Finset String := ∅
  sorted : sortedKeys = ring.keys.mergeSort := by rfl

namespace ConsistentHashRing

/-- The label of the `i`-th virtual node of a node. -/
def label (nodeId : String) (i : Nat) : String := nodeId ++ ":" ++ toString i

/-- `ConsistentHashRing(replicas)`. -/
def withReplicas (replicas : Nat) : ConsistentHashRing where
  replicas := replicas
  sorted := by rw [Dict.keys, Dict.empty, List.map_nil, List.mergeSort_nil]

/-- `ConsistentHashRing()`. -/
def new : ConsistentHashRing where
  sorted := by rw [Dict.keys, Dict.empty, List.map_nil, List.mergeSort_nil]

theorem new_eq : new = withReplicas 150 := rfl

variable (hash : String → Nat)

/-- The virtual nodes with the numbers in `is`. -/
def addVnodes (nodeId : String) (ring : Dict Nat String) (is : List Nat) : Dict Nat String :=
  is.foldl (fun ring i => ring.set (hash (label nodeId i)) nodeId) ring

def addNode (r : ConsistentHashRing) (nodeId : String) : ConsistentHashRing where
  replicas := r.replicas
  ring := addVnodes hash nodeId r.ring (List.range r.replicas)
  sortedKeys := (addVnodes hash nodeId r.ring (List.range r.replicas)).keys.mergeSort
  nodes := insert nodeId r.nodes

/-- The virtual nodes with the numbers in `is` go by their hashes, whoever owns them. -/
def removeVnodes (nodeId : String) (ring : Dict Nat String) (is : List Nat) : Dict Nat String :=
  is.foldl (fun ring i => ring.erase (hash (label nodeId i))) ring

def removeNode (r : ConsistentHashRing) (nodeId : String) : ConsistentHashRing where
  replicas := r.replicas
  ring := removeVnodes hash nodeId r.ring (List.range r.replicas)
  sortedKeys := (removeVnodes hash nodeId r.ring (List.range r.replicas)).keys.mergeSort
  nodes := r.nodes.erase nodeId

/-- The owner of the first virtual node from the hash of the key on, or else of the first one of the ring; an empty
ring has none. -/
def getNode (r : ConsistentHashRing) (key : String) : Option String :=
  match r.sortedKeys.find? fun k => hash key ≤ k with
  | some k => r.ring.get? k
  | none => r.sortedKeys.head?.bind fun k => r.ring.get? k

/-- The index of the first virtual node from the hash of the key on, or else of the first one of the ring. -/
def startIndex (r : ConsistentHashRing) (key : String) : Nat :=
  (r.sortedKeys.findIdx? fun k => hash key ≤ k).getD 0

/-- The owner of the virtual node with the index `idx`, counted around the ring. -/
def ownerAt (r : ConsistentHashRing) (idx : Nat) : Option String :=
  r.sortedKeys[idx % r.sortedKeys.length]?.bind fun k => r.ring.get? k

/-- The walk around the ring from `idx` on.  The set `seen` of the source has the elements of `result`. -/
def walk (r : ConsistentHashRing) (idx : Nat) (count : Int) (result : List String) : List Nat → List String
  | [] => result
  | i :: is =>
    let result := match r.ownerAt (idx + i) with
      | some node => if node ∈ result then result else result ++ [node]
      | none => result
    if count ≤ result.length then result else walk r idx count result is

def getNodesForKey (r : ConsistentHashRing) (key : String) (count : Int := 2) : List String :=
  r.walk (r.startIndex hash key) count [] (List.range r.sortedKeys.length)

theorem mem_sortedKeys {r : ConsistentHashRing} {k : Nat} : k ∈ r.sortedKeys ↔ k ∈ r.ring.keys := by
  rw [r.sorted, List.mem_mergeSort]

/-- The walk never leaves the ring. -/
theorem ownerAt_isSome {r : ConsistentHashRing} (h : r.sortedKeys ≠ []) (idx : Nat) : ∃ n, r.ownerAt idx = some n := by
  have hlt : idx % r.sortedKeys.length < r.sortedKeys.length := Nat.mod_lt _ (List.length_pos_of_ne_nil h)
  obtain ⟨n, hn⟩ := Dict.mem_keys.1 (mem_sortedKeys.1 (List.getElem_mem hlt))
  exact ⟨n, by rw [ownerAt, List.getElem?_eq_getElem hlt, Option.bind_some, hn]⟩

variable {hash}

private theorem takeWhile_reverse_label (n : String) (i : Nat) :
    (label n i).toList.reverse.takeWhile (· ≠ ':') = (Nat.toDigits 10 i).reverse := by
  have hdigits : ∀ c ∈ (Nat.toDigits 10 i).reverse, decide (c ≠ ':') = true := by
    intro c hc
    have hdigit := Nat.isDigit_of_mem_toDigits (by decide) (by decide) (List.mem_reverse.1 hc)
    refine decide_eq_true fun hcolon => ?_
    rw [hcolon] at hdigit
    revert hdigit
    decide
  have hlist : (label n i).toList.reverse = (Nat.toDigits 10 i).reverse ++ ':' :: n.toList.reverse := by
    simp [label, String.toList_append]
  rw [hlist, List.takeWhile_append_of_pos hdigits, List.takeWhile_cons_of_neg (by decide), List.append_nil]

/-- The labels determine the node and the number: the number is what follows the last colon. -/
theorem label_inj {n n' : String} {i j : Nat} (h : label n i = label n' j) : n = n' ∧ i = j := by
  have hdigits : Nat.toDigits 10 i = Nat.toDigits 10 j := by
    rw [← List.reverse_inj, ← takeWhile_reverse_label n, ← takeWhile_reverse_label n', h]
  have hij : i = j := calc
    i = Nat.ofDigitChars 10 (Nat.toDigits 10 i) 0 := Nat.ofDigitChars_ten_toDigits.symm
    _ = Nat.ofDigitChars 10 (Nat.toDigits 10 j) 0 := by rw [hdigits]
    _ = j := Nat.ofDigitChars_ten_toDigits
  have hlist := congrArg String.toList h
  simp only [label, String.toList_append, hij, List.append_cancel_right_eq] at hlist
  exact ⟨String.toList_injective hlist, hij⟩

theorem sortedKeys_congr {r r' : ConsistentHashRing} (h : ∀ k, r.ring.get? k = r'.ring.get? k) :
    r.sortedKeys = r'.sortedKeys := by
  have hmem : ∀ k, k ∈ r.ring.keys ↔ k ∈ r'.ring.keys := by
    intro k
    rw [Dict.mem_keys, Dict.mem_keys, h]
  have hperm : r.ring.keys.Perm r'.ring.keys :=
    (List.perm_ext_iff_of_nodup r.ring.nodup_keys r'.ring.nodup_keys).2 hmem
  have hsorted : ∀ l : List Nat, (l.mergeSort).Pairwise (· ≤ ·) := fun l => List.pairwise_mergeSort' (· ≤ ·) l
  rw [r.sorted, r'.sorted]
  exact List.Perm.eq_of_pairwise (fun _ _ _ _ => Nat.le_antisymm) (hsorted _) (hsorted _)
    (((List.mergeSort_perm _ _).trans hperm).trans (List.mergeSort_perm _ _).symm)

/-- The assignments depend on the mapping of the hashes only. -/
theorem getNode_congr {r r' : ConsistentHashRing} (h : ∀ k, r.ring.get? k = r'.ring.get? k) (key : String) :
    r.getNode hash key = r'.getNode hash key := by
  rw [getNode, getNode, sortedKeys_congr h]
  simp only [h]

private theorem ownerAt_congr {r r' : ConsistentHashRing} (h : ∀ k, r.ring.get? k = r'.ring.get? k) (idx : Nat) :
    r.ownerAt idx = r'.ownerAt idx := by
  rw [ownerAt, ownerAt, sortedKeys_congr h]
  simp only [h]

private theorem walk_congr {r r' : ConsistentHashRing} (h : ∀ k, r.ring.get? k = r'.ring.get? k) (idx : Nat)
    (count : Int) (result : List String) (is : List Nat) :
    r.walk idx count result is = r'.walk idx count result is := by
  induction is generalizing result with
  | nil => rfl
  | cons i is ih => simp only [walk, ownerAt_congr h, ih]

theorem getNodesForKey_congr {r r' : ConsistentHashRing} (h : ∀ k, r.ring.get? k = r'.ring.get? k) (key : String)
    (count : Int) : r.getNodesForKey hash key count = r'.getNodesForKey hash key count := by
  rw [getNodesForKey, getNodesForKey, startIndex, startIndex, sortedKeys_congr h]
  exact walk_congr h _ _ _ _

private theorem get?_addVnodes (nodeId : String) (ring : Dict Nat String) (is : List Nat) (k : Nat) :
    (addVnodes hash nodeId ring is).get? k =
      if ∃ i ∈ is, hash (label nodeId i) = k then some nodeId else ring.get? k := by
  induction is generalizing ring with
  | nil => simp [addVnodes]
  | cons i is ih =>
    have hcons : addVnodes hash nodeId ring (i :: is) =
        addVnodes hash nodeId (ring.set (hash (label nodeId i)) nodeId) is := rfl
    rw [hcons, ih]
    by_cases hlater : ∃ j ∈ is, hash (label nodeId j) = k
    · have hmem : ∃ j ∈ i :: is, hash (label nodeId j) = k := by
        obtain ⟨j, hj, hk⟩ := hlater
        exact ⟨j, List.mem_cons_of_mem i hj, hk⟩
      rw [if_pos hlater, if_pos hmem]
    · rw [if_neg hlater]
      by_cases hi : hash (label nodeId i) = k
      · rw [if_pos ⟨i, List.mem_cons_self, hi⟩, hi, Dict.get?_set_self]
      · have hnone : ¬∃ j ∈ i :: is, hash (label nodeId j) = k := by
          rintro ⟨j, hj, hk⟩
          rcases List.mem_cons.1 hj with rfl | hj
          · exact hi hk
          · exact hlater ⟨j, hj, hk⟩
        rw [if_neg hnone, Dict.get?_set_of_ne _ _ (Ne.symm hi)]

/-- The hashes of the virtual nodes of a node. -/
def Owns (hash : String → Nat) (replicas : Nat) (nodeId : String) (k : Nat) : Prop :=
  ∃ i ∈ List.range replicas, hash (label nodeId i) = k

instance (replicas : Nat) (nodeId : String) (k : Nat) : Decidable (Owns hash replicas nodeId k) :=
  inferInstanceAs (Decidable (∃ i ∈ List.range replicas, _))

theorem get?_addNode (r : ConsistentHashRing) (nodeId : String) (k : Nat) :
    (r.addNode hash nodeId).ring.get? k = if Owns hash r.replicas nodeId k then some nodeId else r.ring.get? k :=
  get?_addVnodes nodeId r.ring _ k

private theorem get?_removeVnodes (nodeId : String) (ring : Dict Nat String) (is : List Nat) (k : Nat) :
    (removeVnodes hash nodeId ring is).get? k =
      if ∃ i ∈ is, hash (label nodeId i) = k then none else ring.get? k := by
  induction is generalizing ring with
  | nil => simp [removeVnodes]
  | cons i is ih =>
    have hcons : removeVnodes hash nodeId ring (i :: is) =
        removeVnodes hash nodeId (ring.erase (hash (label nodeId i))) is := rfl
    rw [hcons, ih]
    by_cases hi : hash (label nodeId i) = k
    · rw [← hi, Dict.get?_erase_self, ite_self, if_pos ⟨i, List.mem_cons_self, rfl⟩]
    · rw [Dict.get?_erase_of_ne _ (Ne.symm hi)]
      simp only [List.exists_mem_cons_iff, hi, false_or]

theorem get?_removeNode (r : ConsistentHashRing) (nodeId : String) (k : Nat) :
    (r.removeNode hash nodeId).ring.get? k = if Owns hash r.replicas nodeId k then none else r.ring.get? k :=
  get?_removeVnodes nodeId r.ring _ k

/-- The labels of the virtual nodes have different hashes. -/
def CollisionFree (hash : String → Nat) (replicas : Nat) (nodes : Finset String) : Prop :=
  ∀ n ∈ nodes, ∀ n' ∈ nodes, ∀ i ∈ List.range replicas, ∀ j ∈ List.range replicas,
    hash (label n i) = hash (label n' j) → n = n' ∧ i = j

instance (replicas : Nat) (nodes : Finset String) : Decidable (CollisionFree hash replicas nodes) :=
  inferInstanceAs (Decidable (∀ n ∈ nodes, ∀ n' ∈ nodes, ∀ i ∈ List.range replicas, ∀ j ∈ List.range replicas, _ → _))

/-- Different labels are enough, as the labels of different virtual nodes differ. -/
theorem collisionFree_of_injOn {replicas : Nat} {nodes : Finset String}
    (h : ∀ n ∈ nodes, ∀ n' ∈ nodes, ∀ i ∈ List.range replicas, ∀ j ∈ List.range replicas,
      hash (label n i) = hash (label n' j) → label n i = label n' j) : CollisionFree hash replicas nodes := by
  intro n hn n' hn' i hi j hj heq
  exact label_inj (h n hn n' hn' i hi j hj heq)

theorem CollisionFree.mono {replicas : Nat} {nodes nodes' : Finset String} (h : CollisionFree hash replicas nodes)
    (hsub : nodes' ⊆ nodes) : CollisionFree hash replicas nodes' :=
  fun n hn n' hn' => h n (hsub hn) n' (hsub hn')

theorem CollisionFree.not_owns {replicas : Nat} {nodes : Finset String} (h : CollisionFree hash replicas nodes)
    {a b : String} (ha : a ∈ nodes) (hb : b ∈ nodes) (hne : a ≠ b) (k : Nat) :
    ¬(Owns hash replicas a k ∧ Owns hash replicas b k) := by
  intro hk
  obtain ⟨⟨i, hi, hik⟩, j, hj, hjk⟩ := hk
  exact hne (h a ha b hb i hi j hj (hik.trans hjk.symm)).1

/-- Two nodes may be added in either order. -/
theorem getNode_addNode_comm (r : ConsistentHashRing) {a b : String}
    (hfree : ∀ k, ¬(Owns hash r.replicas a k ∧ Owns hash r.replicas b k)) (key : String) :
    ((r.addNode hash a).addNode hash b).getNode hash key = ((r.addNode hash b).addNode hash a).getNode hash key := by
  refine getNode_congr (fun k => ?_) key
  have hreplicas : ∀ n, (r.addNode hash n).replicas = r.replicas := fun _ => rfl
  rw [get?_addNode, get?_addNode, get?_addNode, get?_addNode, hreplicas, hreplicas]
  by_cases ha : Owns hash r.replicas a k
  · have hb : ¬Owns hash r.replicas b k := fun hb => hfree k ⟨ha, hb⟩
    rw [if_neg hb, if_pos ha, if_pos ha]
  · rw [if_neg ha, if_neg ha]

end ConsistentHashRing

end DistributedSync
