import DistributedSync.Cache.Lru

/-!
# The cache node

The parts of `CacheNode` that run without an `await`: how a node answers the requests of other nodes, and what
`cache_read`, `cache_write` and `_handle_invalidate` do before and after their broadcast.  The counters are only
shown and are left out.
-/

namespace DistributedSync

/-- The answer to `CACHE_INVALIDATE` or to `CACHE_READ`. -/
inductive CacheReply (α : Type) where
  | invalidated (hadCopy : Bool)
  | found (value : Option α) (state : CacheLineState)
  | missing
  deriving DecidableEq

namespace CacheNode

variable {α : Type}

/-- `_process_invalidate`. -/
def processInvalidate (c : LRUCache α) (key : String) : LRUCache α × CacheReply α :=
  let r := c.invalidate key
  (r.1, .invalidated (r.2.any fun line => line.state ≠ .invalid))

/-- `_process_remote_read`. -/
def processRemoteRead (c : LRUCache α) (key : String) : LRUCache α × CacheReply α :=
  let r := c.get key
  match r.2 with
  | none => (r.1, .missing)
  | some line =>
    if line.state = .invalid then (r.1, .missing)
    else
      let line := if line.state = .modified ∨ line.state = .exclusive then { line with state := .shared } else line
      (r.1.modify key line, .found line.value line.state)

/-- The beginning of `cache_read`; the answer is the value of a hit. -/
def beginRead (c : LRUCache α) (key : String) : LRUCache α × Option (Option α) :=
  let r := c.get key
  match r.2 with
  | none => (r.1, none)
  | some line => (r.1, if line.state = .invalid then none else some line.value)

/-- `found_value` after the loop over the responses: the last response that found the key decides. -/
def foundValue (responses : List (CacheReply α)) : Option α :=
  responses.foldl (fun found resp => match resp with | .found value _ => value | _ => found) none

/-- The end of `cache_read`, with its answer. -/
def finishRead (c : LRUCache α) (key : String) (responses : List (CacheReply α)) : LRUCache α × Option α :=
  match foundValue responses with
  | none => (c, none)
  | some value => ((c.put key { key := key, value := some value, state := .shared }).1, some value)

/-- The end of `cache_write`. -/
def finishWrite (c : LRUCache α) (key : String) (value : Option α) : LRUCache α :=
  let r := c.get key
  match r.2 with
  | none => (r.1.put key { key := key, value := value, state := .modified }).1
  | some line => (r.1.put key { line with value := value, state := .modified }).1

/-- The end of `_handle_invalidate`. -/
def finishInvalidate (c : LRUCache α) (key : String) : LRUCache α := (c.invalidate key).1

/-! ### Their effect on the valid lines -/

variable {c : LRUCache α} {key : String}

theorem valid?_processInvalidate (k : String) :
    (processInvalidate c key).1.valid? k = if k = key then none else c.valid? k :=
  c.valid?_invalidate key k

/-- A remote read is answered from a valid line, which becomes shared. -/
theorem processRemoteRead_of_valid {st : CacheLineState} {value : Option α} (h : c.valid? key = some (st, value)) :
    (processRemoteRead c key).2 = .found value .shared ∧
      ∀ k, (processRemoteRead c key).1.valid? k = if k = key then some (.shared, value) else c.valid? k := by
  obtain ⟨line, hline, hne, rfl, rfl⟩ := LRUCache.get_of_valid h
  have hshared : line.state = .modified ∨ line.state = .exclusive ∨ line.state = .shared := by
    cases hst : line.state with
    | invalid => exact absurd hst hne
    | modified => exact Or.inl rfl
    | exclusive => exact Or.inr (Or.inl rfl)
    | shared => exact Or.inr (Or.inr rfl)
  have hkeep : ∀ line' : CacheLine α, line'.valid? = some (.shared, line.value) → ∀ k,
      ((c.get key).1.modify key line').valid? k = if k = key then some (.shared, line.value) else c.valid? k := by
    intro line' hline' k
    rw [LRUCache.valid?_modify, LRUCache.valid?_get, hline']
  unfold processRemoteRead
  simp only [hline, if_neg hne]
  by_cases hown : line.state = .modified ∨ line.state = .exclusive
  · simp only [if_pos hown]
    exact ⟨trivial, hkeep _ rfl⟩
  · have hst : line.state = .shared := by
      rcases hshared with hst | hst | hst
      · exact absurd (Or.inl hst) hown
      · exact absurd (Or.inr hst) hown
      · exact hst
    simp only [if_neg hown]
    refine ⟨by rw [hst], hkeep line ?_⟩
    rw [CacheLine.valid?_of_ne hne, hst]

/-- Without a valid line it changes nothing. -/
theorem processRemoteRead_of_not_valid (h : c.valid? key = none) :
    (processRemoteRead c key).2 = .missing ∧ ∀ k, (processRemoteRead c key).1.valid? k = c.valid? k := by
  unfold processRemoteRead
  rcases LRUCache.get_of_not_valid h with hline | ⟨line, hline, hinv⟩
  · simp only [hline]
    exact ⟨trivial, c.valid?_get key⟩
  · simp only [hline, if_pos hinv]
    exact ⟨trivial, c.valid?_get key⟩

theorem beginRead_of_valid {st : CacheLineState} {value : Option α} (h : c.valid? key = some (st, value)) :
    (beginRead c key).2 = some value := by
  obtain ⟨line, hline, hne, -, rfl⟩ := LRUCache.get_of_valid h
  unfold beginRead
  simp only [hline, if_neg hne]

theorem beginRead_of_not_valid (h : c.valid? key = none) : (beginRead c key).2 = none := by
  unfold beginRead
  rcases LRUCache.get_of_not_valid h with hline | ⟨line, hline, hinv⟩
  · simp only [hline]
  · simp only [hline, if_pos hinv]

theorem valid?_beginRead (k : String) : (beginRead c key).1.valid? k = c.valid? k := by
  unfold beginRead
  cases hline : (c.get key).2 with
  | none => simp only [hline, LRUCache.valid?_get]
  | some line => simp only [hline, LRUCache.valid?_get]

/-- The end of a read does nothing, or leaves a shared line with the value found. -/
theorem finishRead_of_none {responses : List (CacheReply α)} (h : foundValue responses = none) :
    finishRead c key responses = (c, none) := by
  rw [finishRead, h]

theorem finishRead_of_some {responses : List (CacheReply α)} {value : α} (h : foundValue responses = some value) :
    finishRead c key responses =
      ((c.put key { key := key, value := some value, state := .shared }).1, some value) := by
  rw [finishRead, h]

/-- The end of a write is a `put` of a modified line with the value. -/
theorem finishWrite_eq (c : LRUCache α) (key : String) (value : Option α) :
    ∃ line, line.valid? = some (.modified, value) ∧ finishWrite c key value = ((c.get key).1.put key line).1 := by
  unfold finishWrite
  cases hline : (c.get key).2 with
  | none => exact ⟨{ key := key, value := value, state := .modified }, rfl, by simp only [hline]⟩
  | some line => exact ⟨{ line with value := value, state := .modified }, rfl, by simp only [hline]⟩

end CacheNode

end DistributedSync
