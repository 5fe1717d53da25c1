import DistributedSync.Library.Dict

/-!
# The LRU cache

`CacheLine` and `LRUCache` of `cache_node.py`.  A line is an object that the cache shares with its callers, so what
a caller assigns to its attributes is seen in the cache: `modify`.  Values are of a type `α`, with `none` for
`None`.  The time of the last access is only shown and is left out.
-/

namespace DistributedSync

inductive CacheLineState where
  | modified | exclusive | shared | invalid
  deriving DecidableEq, Repr

/-- The attributes of a `CacheLine`. -/
structure CacheLine (α : Type) where
  key : String
  value : Option α := none
  state : CacheLineState := .invalid
  accessCount : Nat := 0
  deriving DecidableEq

structure LRUCache (α : Type) where
  maxSize : Nat := 1000
  cache : Dict String (CacheLine α) := .empty

namespace LRUCache

variable {α : Type}

def get (c : LRUCache α) (key : String) : LRUCache α × Option (CacheLine α) :=
  match c.cache.get? key with
  | none => (c, none)
  | some line =>
    let line := { line with accessCount := line.accessCount + 1 }
    ({ c with cache := (c.cache.moveToEnd key).set key line }, some line)

/-- The entries that the loop of `put` pops: the first one, again and again, while there are too many. -/
def excess (maxSize : Nat) : List (String × CacheLine α) → List (String × CacheLine α)
  | [] => []
  | e :: rest => if maxSize < (e :: rest).length then e :: excess maxSize rest else []

/-- `put`, with the entries that are evicted. -/
def put (c : LRUCache α) (key : String) (line : CacheLine α) : LRUCache α × List (String × CacheLine α) :=
  let cache := (c.cache.moveToEnd key).set key line
  let evicted := excess c.maxSize cache.entries
  ({ c with cache := cache.drop evicted.length }, evicted)

/-- An assignment to the attributes of a line that the cache holds. -/
def modify (c : LRUCache α) (key : String) (line : CacheLine α) : LRUCache α :=
  { c with cache := c.cache.set key line }

/-- `invalidate`, with the line. -/
def invalidate (c : LRUCache α) (key : String) : LRUCache α × Option (CacheLine α) :=
  match c.cache.get? key with
  | none => (c, none)
  | some line =>
    let line := { line with state := .invalid }
    (c.modify key line, some line)

/-! ### Valid lines -/

end LRUCache

variable {α : Type}

/-- The state and the value of a line, unless it is invalid. -/
def CacheLine.valid? (line : CacheLine α) : Option (CacheLineState × Option α) :=
  if line.state = .invalid then none else some (line.state, line.value)

theorem CacheLine.valid?_of_ne {line : CacheLine α} (h : line.state ≠ .invalid) :
    line.valid? = some (line.state, line.value) := if_neg h

private theorem CacheLine.valid?_eq_none {line : CacheLine α} : line.valid? = none ↔ line.state = .invalid := by
  simp [valid?]

namespace LRUCache

def valid? (c : LRUCache α) (key : String) : Option (CacheLineState × Option α) :=
  (c.cache.get? key).bind CacheLine.valid?

variable (c : LRUCache α) (key k : String)

theorem valid?_modify (line : CacheLine α) :
    (c.modify key line).valid? k = if k = key then line.valid? else c.valid? k := by
  rw [valid?, modify, Dict.get?_set]
  by_cases h : k = key
  · rw [if_pos h, if_pos h, Option.bind_some]
  · rw [if_neg h, if_neg h, valid?]

theorem get_of_none {c : LRUCache α} {key : String} (h : c.cache.get? key = none) : c.get key = (c, none) := by
  rw [get, h]

theorem get_of_some {c : LRUCache α} {key : String} {line : CacheLine α} (h : c.cache.get? key = some line) :
    c.get key = ({ c with cache := (c.cache.moveToEnd key).set key { line with accessCount := line.accessCount + 1 } },
      some { line with accessCount := line.accessCount + 1 }) := by
  rw [get, h]

/-- A lookup changes no valid line but its access count and its place. -/
@[simp] theorem valid?_get : (c.get key).1.valid? k = c.valid? k := by
  cases h : c.cache.get? key with
  | none => rw [get_of_none h]
  | some line =>
    rw [get_of_some h, valid?, Dict.get?_set, Dict.get?_moveToEnd, valid?]
    by_cases hk : k = key
    · rw [if_pos hk, hk, h, Option.bind_some, Option.bind_some]
      rfl
    · rw [if_neg hk]

private theorem valid?_of_get : (c.get key).2.bind CacheLine.valid? = c.valid? key := by
  rw [valid?]
  cases h : c.cache.get? key with
  | none => rw [get_of_none h]
  | some line =>
    rw [get_of_some h, Option.bind_some, Option.bind_some]
    rfl

/-- A lookup finds a line that is valid. -/
theorem get_of_valid {c : LRUCache α} {key : String} {st : CacheLineState} {value : Option α}
    (h : c.valid? key = some (st, value)) :
    ∃ line, (c.get key).2 = some line ∧ line.state ≠ .invalid ∧ line.state = st ∧ line.value = value := by
  rw [← valid?_of_get, Option.bind_eq_some_iff] at h
  obtain ⟨line, hline, hvalid⟩ := h
  have hne : line.state ≠ .invalid := by
    intro hinv
    rw [CacheLine.valid?_eq_none.2 hinv] at hvalid
    cases hvalid
  rw [CacheLine.valid?_of_ne hne, Option.some.injEq, Prod.mk.injEq] at hvalid
  exact ⟨line, hline, hne, hvalid⟩

/-- Otherwise it finds no line, or an invalid one. -/
theorem get_of_not_valid {c : LRUCache α} {key : String} (h : c.valid? key = none) :
    (c.get key).2 = none ∨ ∃ line, (c.get key).2 = some line ∧ line.state = .invalid := by
  rw [← valid?_of_get, Option.bind_eq_none_iff] at h
  cases hline : (c.get key).2 with
  | none => exact Or.inl rfl
  | some line => exact Or.inr ⟨line, rfl, CacheLine.valid?_eq_none.1 (h line hline)⟩

@[simp] theorem valid?_invalidate : (c.invalidate key).1.valid? k = if k = key then none else c.valid? k := by
  rw [invalidate]
  cases h : c.cache.get? key with
  | none =>
    by_cases hk : k = key
    · rw [if_pos hk, hk, valid?, h, Option.bind_none]
    · rw [if_neg hk]
  | some line =>
    have hnone : CacheLine.valid? { line with state := .invalid } = none := CacheLine.valid?_eq_none.2 rfl
    simp only [valid?_modify, hnone]

@[simp] theorem maxSize_put (line : CacheLine α) : (c.put key line).1.maxSize = c.maxSize := rfl

@[simp] theorem maxSize_get : (c.get key).1.maxSize = c.maxSize := by
  rw [get]
  cases c.cache.get? key with
  | none => rfl
  | some line => rfl

@[simp] theorem maxSize_invalidate : (c.invalidate key).1.maxSize = c.maxSize := by
  rw [invalidate]
  cases c.cache.get? key with
  | none => rfl
  | some line => rfl

/-- A `put` replaces the line of the key, and may evict lines. -/
theorem valid?_put (line : CacheLine α) :
    (c.put key line).1.valid? k = none ∨
      (c.put key line).1.valid? k = if k = key then line.valid? else c.valid? k := by
  have hset : ((c.cache.moveToEnd key).set key line).get? k = if k = key then some line else c.cache.get? k := by
    rw [Dict.get?_set, Dict.get?_moveToEnd]
  rw [put, valid?]
  rcases Dict.get?_drop ((c.cache.moveToEnd key).set key line)
      (excess c.maxSize ((c.cache.moveToEnd key).set key line).entries).length k with hnone | hkeep
  · exact Or.inl (by rw [hnone, Option.bind_none])
  · refine Or.inr ?_
    rw [hkeep, hset]
    by_cases hk : k = key
    · rw [if_pos hk, if_pos hk, Option.bind_some]
    · rw [if_neg hk, if_neg hk, valid?]

theorem length_excess (maxSize : Nat) (l : List (String × CacheLine α)) :
    (excess maxSize l).length = l.length - maxSize := by
  induction l with
  | nil => rw [excess, List.length_nil, Nat.zero_sub]
  | cons e rest ih =>
    rw [excess]
    by_cases h : maxSize < (e :: rest).length
    · rw [if_pos h, List.length_cons, ih, List.length_cons]
      rw [List.length_cons] at h
      omega
    · rw [if_neg h, List.length_nil]
      omega

/-- Only a cache without room loses the line that is put. -/
theorem valid?_put_self {c : LRUCache α} (h : 0 < c.maxSize) (line : CacheLine α) :
    (c.put key line).1.valid? key = line.valid? := by
  have hentries := Dict.entries_set_moveToEnd c.cache key line
  have hlast : (key, line) ∈ (((c.cache.moveToEnd key).set key line).drop
      (excess c.maxSize ((c.cache.moveToEnd key).set key line).entries).length).entries := by
    rw [Dict.entries_drop, length_excess, hentries, List.length_append, List.length_singleton,
      List.drop_append_of_le_length (by omega)]
    exact List.mem_append_right _ (List.mem_singleton_self _)
  rw [put, valid?, Dict.get?_of_mem hlast, Option.bind_some]

theorem valid?_put_of_full {c : LRUCache α} (h : c.maxSize = 0) (line : CacheLine α) :
    (c.put key line).1.valid? k = none := by
  have hempty : (((c.cache.moveToEnd key).set key line).drop
      (excess c.maxSize ((c.cache.moveToEnd key).set key line).entries).length).entries = [] := by
    rw [Dict.entries_drop, length_excess, h, Nat.sub_zero]
    exact List.drop_length
  rw [put, valid?, Dict.get?, hempty]
  rfl

end LRUCache

end DistributedSync
