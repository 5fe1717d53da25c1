import Mathlib.Order.Bounds.Basic
import DistributedSync.Library.Causality
import DistributedSync.Library.Dict

/-!
# The vector clock

`VectorClock` of `replicator.py`.  A node that is not in the dictionary counts as 0, so a clock stands for a function
from nodes to counts (`get`), and the operations are the pointwise ones on these functions: `dominates` is the strict
order, `isConcurrent` is incomparability, and `merge` is the supremum.  So two clocks stand to each other in exactly
one of four ways, and a merge is never behind (`clock_algebra`).
-/

namespace DistributedSync

structure VectorClock where
  clock : Dict String Nat := .empty
  deriving DecidableEq

namespace VectorClock

/-- `self._clock.get(node_id, 0)`. -/
def get (c : VectorClock) (nodeId : String) : Nat := (c.clock.get? nodeId).getD 0

def increment (c : VectorClock) (nodeId : String) : VectorClock where
  clock := c.clock.set nodeId (c.get nodeId + 1)

def merge (c other : VectorClock) : VectorClock :=
  other.clock.entries.foldl (fun c e => ⟨c.clock.set e.1 (max (c.get e.1) e.2)⟩) c

/-- The nodes of either clock; the order of a set does not matter to the loops over it. -/
def allKeys (c other : VectorClock) : List String := c.clock.keys ++ other.clock.keys

def isConcurrent (c other : VectorClock) : Bool :=
  let selfGte := (c.allKeys other).all fun k => ¬c.get k < other.get k
  let otherGte := (c.allKeys other).all fun k => ¬other.get k < c.get k
  !selfGte && !otherGte

/-- The loop of `dominates` from the flag `dominated` on. -/
def dominatesFrom (c other : VectorClock) (dominated : Bool) : List String → Bool
  | [] => dominated
  | k :: ks =>
    if c.get k < other.get k then false
    else dominatesFrom c other (if other.get k < c.get k then true else dominated) ks

def dominates (c other : VectorClock) : Bool := dominatesFrom c other false (c.allKeys other)

/-- `to_dict`. -/
def toDict (c : VectorClock) : Dict String Nat := c.clock

/-- `from_dict`; an empty dictionary makes a new one. -/
def fromDict (d : Dict String Nat) : VectorClock := ⟨d⟩

@[simp] theorem fromDict_toDict (c : VectorClock) : fromDict c.toDict = c := rfl

/-! ### Clocks as functions -/

variable (c other : VectorClock)

theorem get_increment (nodeId : String) : (c.increment nodeId).get = Causality.tick nodeId c.get := by
  funext k
  rw [get, increment, Dict.get?_set, Causality.tick]
  by_cases hk : k = nodeId
  · rw [if_pos hk, hk, Function.update_self]
    rfl
  · rw [if_neg hk, Function.update_of_ne hk]
    rfl

/-- The loop of `merge` over the entries of a dictionary. -/
theorem get_foldl_merge {l : List (String × Nat)} (hnodup : (l.map Prod.fst).Nodup) (k : String) :
    (l.foldl (fun c e => ⟨c.clock.set e.1 (max (c.get e.1) e.2)⟩) c : VectorClock).get k =
      max (c.get k) (((l.find? fun e => e.1 = k).map Prod.snd).getD 0) := by
  induction l generalizing c with
  | nil => exact (Nat.max_zero _).symm
  | cons e l ih =>
    obtain ⟨hnotin, hnodup⟩ := List.nodup_cons.1 hnodup
    have hset : ∀ k, (⟨c.clock.set e.1 (max (c.get e.1) e.2)⟩ : VectorClock).get k =
        if k = e.1 then max (c.get e.1) e.2 else c.get k := by
      intro k
      rw [get, Dict.get?_set]
      by_cases hk : k = e.1
      · rw [if_pos hk, if_pos hk]
        rfl
      · rw [if_neg hk, if_neg hk]
        rfl
    rw [List.foldl_cons, ih _ hnodup, hset]
    by_cases hk : k = e.1
    · have hnone : l.find? (fun e => e.1 = k) = none := by
        rw [List.find?_eq_none]
        intro e' he' heq
        have hkey : e'.1 = e.1 := (of_decide_eq_true heq).trans hk
        exact hnotin (hkey ▸ List.mem_map_of_mem he')
      rw [hnone, if_pos hk, List.find?_cons_of_pos (by simp [hk]), hk]
      exact Nat.max_zero _
    · have hne : ¬e.1 = k := fun h => hk h.symm
      rw [if_neg hk, List.find?_cons_of_neg (by simpa using hne)]

theorem get_merge : (c.merge other).get = c.get ⊔ other.get := by
  funext k
  exact get_foldl_merge c other.clock.nodup k

private theorem get_eq_zero {nodeId : String} (h : nodeId ∉ c.clock.keys) : c.get nodeId = 0 := by
  rw [get, Dict.get?_eq_none h]
  rfl

variable {c other}

/-- The loops over the nodes of both clocks see every component. -/
theorem forall_allKeys_iff : (∀ k ∈ c.allKeys other, c.get k ≤ other.get k) ↔ c.get ≤ other.get := by
  constructor
  · intro h k
    by_cases hk : k ∈ c.allKeys other
    · exact h k hk
    · have hc : k ∉ c.clock.keys := fun hm => hk (List.mem_append_left _ hm)
      rw [get_eq_zero c hc]
      exact Nat.zero_le _
  · exact fun h k _ => h k

private theorem mem_allKeys_comm {k : String} : k ∈ c.allKeys other ↔ k ∈ other.allKeys c := by
  rw [allKeys, allKeys, List.mem_append, List.mem_append, or_comm]

private theorem forall_allKeys_iff' : (∀ k ∈ c.allKeys other, other.get k ≤ c.get k) ↔ other.get ≤ c.get := by
  simp only [mem_allKeys_comm (c := c), forall_allKeys_iff]

theorem isConcurrent_iff : c.isConcurrent other ↔ ¬c.get ≤ other.get ∧ ¬other.get ≤ c.get := by
  have hself : ((c.allKeys other).all fun k => ¬c.get k < other.get k) = true ↔ other.get ≤ c.get := by
    simp only [List.all_eq_true, decide_eq_true_iff, Nat.not_lt, forall_allKeys_iff']
  have hother : ((c.allKeys other).all fun k => ¬other.get k < c.get k) = true ↔ c.get ≤ other.get := by
    simp only [List.all_eq_true, decide_eq_true_iff, Nat.not_lt, forall_allKeys_iff]
  rw [isConcurrent, Bool.and_eq_true, Bool.not_eq_true', Bool.not_eq_true', ← Bool.not_eq_true, ← Bool.not_eq_true,
    hself, hother, and_comm]

/-- The loop returns `True` just if no component is behind, and some component is ahead or the flag is set. -/
theorem dominatesFrom_iff (dominated : Bool) (ks : List String) : dominatesFrom c other dominated ks ↔
    (∀ k ∈ ks, other.get k ≤ c.get k) ∧ (dominated ∨ ∃ k ∈ ks, other.get k < c.get k) := by
  induction ks generalizing dominated with
  | nil => simp [dominatesFrom]
  | cons k ks ih =>
    rw [dominatesFrom]
    by_cases hlt : c.get k < other.get k
    · have hno : ¬other.get k ≤ c.get k := Nat.not_le_of_lt hlt
      simp [hlt, hno]
    · have hle : other.get k ≤ c.get k := Nat.le_of_not_lt hlt
      rw [if_neg hlt, ih]
      by_cases hgt : other.get k < c.get k
      · simp [hgt, hle]
      · simp [hgt, hle]

theorem dominates_iff : c.dominates other ↔ other.get < c.get := by
  have hex : (∃ k ∈ c.allKeys other, other.get k < c.get k) ↔ ¬c.get ≤ other.get := by
    rw [← forall_allKeys_iff]
    simp only [not_forall, Nat.not_le, exists_prop]
  rw [dominates, dominatesFrom_iff, forall_allKeys_iff', hex, lt_iff_le_not_ge]
  simp only [Bool.false_eq_true, false_or]

/-! ### The order of the clocks -/

/-- How a clock stands to another one. -/
inductive Standing where
  | equal | after | before | concurrent

/-- Equality is equality at every node. -/
def Stands (c other : VectorClock) : Standing → Prop
  | .equal => c.get = other.get
  | .after => c.dominates other
  | .before => other.dominates c
  | .concurrent => c.isConcurrent other

private theorem exists_stands (c other : VectorClock) : ∃ s, Stands c other s := by
  by_cases hle : c.get ≤ other.get
  · by_cases hge : other.get ≤ c.get
    · exact ⟨.equal, le_antisymm hle hge⟩
    · exact ⟨.before, dominates_iff.2 (lt_of_le_not_ge hle hge)⟩
  · by_cases hge : other.get ≤ c.get
    · exact ⟨.after, dominates_iff.2 (lt_of_le_not_ge hge hle)⟩
    · exact ⟨.concurrent, isConcurrent_iff.2 ⟨hle, hge⟩⟩

/-- Whether a clock is at or behind another one, and the other way round, tells how they stand. -/
theorem Stands.le_iff {s : Standing} (h : Stands c other s) :
    (c.get ≤ other.get ↔ s = .equal ∨ s = .before) ∧ (other.get ≤ c.get ↔ s = .equal ∨ s = .after) := by
  cases s with
  | equal =>
    have heq : c.get = other.get := h
    simp [heq]
  | after =>
    have hlt : other.get < c.get := dominates_iff.1 h
    simp [hlt.le, hlt.not_ge]
  | before =>
    have hlt : c.get < other.get := dominates_iff.1 h
    simp [hlt.le, hlt.not_ge]
  | concurrent =>
    obtain ⟨hle, hge⟩ := isConcurrent_iff.1 h
    simp [hle, hge]

theorem Stands.unique {s s' : Standing} (h : Stands c other s) (h' : Stands c other s') : s = s' := by
  obtain ⟨hle, hge⟩ := h.le_iff
  obtain ⟨hle', hge'⟩ := h'.le_iff
  rw [hle] at hle'
  rw [hge] at hge'
  cases s <;> cases s' <;> simp_all

private theorem le_merge : c.get ≤ (c.merge other).get ∧ other.get ≤ (c.merge other).get := by
  rw [get_merge]
  exact ⟨le_sup_left, le_sup_right⟩

/-- A clock neither dominates one that it is at or behind, nor is it concurrent with it. -/
theorem not_ahead_of_le (h : c.get ≤ other.get) :
    ¬c.dominates other ∧ ¬c.isConcurrent other ∧ ¬other.isConcurrent c := by
  rw [dominates_iff, isConcurrent_iff, isConcurrent_iff]
  exact ⟨h.not_gt, fun hc => hc.1 h, fun hc => hc.2 h⟩

/-- `dominates` is the pointwise order without equality, two clocks stand to each other in exactly one of the four
ways, and `merge` is the least upper bound. -/
theorem clock_algebra :
    (∀ c other : VectorClock, c.dominates other ↔ other.get ≤ c.get ∧ other.get ≠ c.get) ∧
    (∀ c : VectorClock, ¬c.dominates c) ∧
    (∀ c d e : VectorClock, c.dominates d → d.dominates e → c.dominates e) ∧
    (∀ c other : VectorClock, ∃! s, Stands c other s) ∧
    (∀ c other : VectorClock, IsLUB {c.get, other.get} (c.merge other).get) ∧
    (∀ c other : VectorClock, (c.merge other).get = (other.merge c).get) ∧
    (∀ c d e : VectorClock, ((c.merge d).merge e).get = (c.merge (d.merge e)).get) ∧
    (∀ c : VectorClock, (c.merge c).get = c.get) ∧
    ∀ c other x : VectorClock, x = c ∨ x = other → ¬x.dominates (c.merge other) ∧
      ¬x.isConcurrent (c.merge other) ∧ ¬(c.merge other).isConcurrent x := by
  refine ⟨fun c other => ?_, fun c => ?_, fun c d e => ?_, fun c other => ?_, fun c other => ?_, fun c other => ?_,
    fun c d e => ?_, fun c => ?_, fun c other x => ?_⟩
  · rw [dominates_iff, lt_iff_le_and_ne]
  · rw [dominates_iff]
    exact lt_irrefl _
  · rw [dominates_iff, dominates_iff, dominates_iff]
    exact fun hd he => he.trans hd
  · obtain ⟨s, hs⟩ := exists_stands c other
    exact ⟨s, hs, fun s' hs' => hs'.unique hs⟩
  · rw [get_merge]
    exact isLUB_pair
  · rw [get_merge, get_merge, sup_comm]
  · rw [get_merge, get_merge, get_merge, get_merge, sup_assoc]
  · rw [get_merge, sup_idem]
  · rintro (rfl | rfl)
    · exact not_ahead_of_le le_merge.1
    · exact not_ahead_of_le le_merge.2

end VectorClock

end DistributedSync
