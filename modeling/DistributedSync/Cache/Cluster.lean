import Mathlib.Data.Finset.Dedup
import DistributedSync.Cache.Node
import DistributedSync.Library.Transition
import DistributedSync.Message

/-!
# A cluster of cache nodes

Reads, writes and invalidations are under way on all nodes at a time.  An operation asks the peers of its node, each
of them answers when the request reaches it, and when all have answered the node completes the operation.  Requests
and answers take any time, and none is lost.
-/

namespace DistributedSync

namespace CacheCluster

variable {α : Type}

/-- What a node is asked to do: `cache_read`, `cache_write` or `_handle_invalidate`. -/
inductive Request (α : Type) where
  | read
  | write (value : Option α)
  | invalidate
  deriving DecidableEq

/-- The answer of a peer, and the number of the last write or invalidation of the key that the peer had processed
by then. -/
structure Answer (α : Type) where
  reply : CacheReply α
  version : Nat
  deriving DecidableEq

/-- An operation that waits for the answers of the peers.

* `number` counts the writes and invalidations of a key; a read has the number of the last one that was completed
  when it began.
* `overtaken` are the peers that have completed an operation of their own on the key after their answer.
-/
structure Operation (α : Type) where
  node : String
  key : String
  request : Request α
  number : Nat
  answers : Dict String (Answer α) := .empty
  overtaken : List String := []

/-- A read that has returned: its number as above, the writes and invalidations of the key that had begun by then,
and the result. -/
structure Returned (α : Type) where
  key : String
  number : Nat
  updates : List (Request α)
  result : Option α

/-- The caches and the operations under way, the writes and invalidations of each key begun so far, the number of
the last one completed, the number of the last one that a node has processed (node and key), and the reads that
have returned. -/
structure State (α : Type) where
  cache : String → LRUCache α
  ops : List (Operation α) := []
  updates : String → List (Request α) := fun _ => []
  completed : String → Nat := fun _ => 0
  processed : String → String → Nat := fun _ _ => 0
  returned : List (Returned α) := []

inductive Action (α : Type) where
  | start (a key : String) (request : Request α)
  | answer (i : Nat) (b : String)
  | complete (i : Nat)

/-- The nodes of a cluster, each of which knows all others. -/
structure Mesh where
  nodes : Finset String
  peers : String → List String
  maxSize : String → Nat
  nodup : ∀ a ∈ nodes, (peers a).Nodup
  knows : ∀ a ∈ nodes, ∀ b, b ∈ peers a ↔ b ∈ nodes ∧ b ≠ a

/-- The nodes of a configuration that lists all of them. -/
def Mesh.ofClusterNodes (clusterNodes : List String) (hnodup : clusterNodes.Nodup) (maxSize : String → Nat) :
    Mesh where
  nodes := clusterNodes.toFinset
  peers := getPeerNodes clusterNodes
  maxSize := maxSize
  nodup _ _ := hnodup.filter _
  knows _ _ _ := by rw [mem_getPeerNodes, List.mem_toFinset]

/-- The nodes `a` and `b`, with room for one line each. -/
def Mesh.pair : Mesh := .ofClusterNodes ["a", "b"] (by decide) fun _ => 1

/-- Before the first operation. -/
def init (m : Mesh) : State α where
  cache a := { maxSize := m.maxSize a }

namespace State

variable (s : State α)

/-- An operation that begins. -/
def fresh (a key : String) (request : Request α) : Operation α where
  node := a
  key := key
  request := request
  number := match request with
    | .read => s.completed key
    | _ => (s.updates key).length + 1

def start (a key : String) : Request α → State α
  | .read =>
    let r := CacheNode.beginRead (s.cache a) key
    let s := { s with cache := Function.update s.cache a r.1 }
    match r.2 with
    | some value => { s with returned := s.returned ++ [⟨key, s.completed key, s.updates key, value⟩] }
    | none => { s with ops := s.ops ++ [s.fresh a key .read] }
  | request => { s with
      ops := s.ops ++ [s.fresh a key request]
      updates := Function.update s.updates key (s.updates key ++ [request]) }

/-- `processed[b][key] = number`. -/
def process (b key : String) (number : Nat) : String → String → Nat :=
  Function.update s.processed b (Function.update (s.processed b) key number)

/-- The peer `b` answers the `i`-th operation `p`. -/
def answer (i : Nat) (p : Operation α) (b : String) : State α :=
  match p.request with
  | .read =>
    let r := CacheNode.processRemoteRead (s.cache b) p.key
    { s with
      cache := Function.update s.cache b r.1
      ops := s.ops.set i { p with answers := p.answers.set b ⟨r.2, s.processed b p.key⟩ } }
  | _ =>
    let r := CacheNode.processInvalidate (s.cache b) p.key
    { s with
      cache := Function.update s.cache b r.1
      ops := s.ops.set i { p with answers := p.answers.set b ⟨r.2, s.processed b p.key⟩ }
      processed := s.process b p.key p.number }

end State

/-- The answers in the order of the peers. -/
def Operation.results (m : Mesh) (p : Operation α) : List (Answer α) :=
  (m.peers p.node).filterMap fun b => p.answers.get? b

/-- The value that the answers to a read bring. -/
def Operation.found (m : Mesh) (p : Operation α) : Option α :=
  CacheNode.foundValue ((p.results m).map (·.reply))

/-- The node `a` has completed an operation on the key. -/
def Operation.overtake (a key : String) (q : Operation α) : Operation α :=
  if q.key = key ∧ a ∈ q.answers.keys then { q with overtaken := a :: q.overtaken } else q

/-- The node of the `i`-th operation `p` completes it. -/
def State.complete (m : Mesh) (s : State α) (i : Nat) (p : Operation α) : State α :=
  let c := s.cache p.node
  let s := { s with ops := (s.ops.eraseIdx i).map (Operation.overtake p.node p.key) }
  match p.request with
  | .read =>
    let r := CacheNode.finishRead c p.key ((p.results m).map (·.reply))
    { s with
      cache := Function.update s.cache p.node r.1
      returned := s.returned ++ [⟨p.key, p.number, s.updates p.key, r.2⟩] }
  | .write value => { s with
      cache := Function.update s.cache p.node (CacheNode.finishWrite c p.key value)
      completed := Function.update s.completed p.key p.number
      processed := s.process p.node p.key p.number }
  | .invalidate => { s with
      cache := Function.update s.cache p.node (CacheNode.finishInvalidate c p.key)
      completed := Function.update s.completed p.key p.number
      processed := s.process p.node p.key p.number }

/-- The steps of a cluster. -/
def step (m : Mesh) (s : State α) : Action α → Option (State α)
  | .start a key request => if a ∈ m.nodes then some (s.start a key request) else none
  | .answer i b => s.ops[i]?.bind fun p =>
      if b ∈ m.peers p.node ∧ b ∉ p.answers.keys then some (s.answer i p b) else none
  | .complete i => s.ops[i]?.bind fun p =>
      if ∀ b ∈ m.peers p.node, b ∈ p.answers.keys then some (s.complete m i p) else none

variable {m : Mesh} {s s' : State α} {act : Action α}

theorem step_cases (h : step m s act = some s') :
    (∃ a key request, act = .start a key request ∧ a ∈ m.nodes ∧ s' = s.start a key request) ∨
      (∃ i b p, act = .answer i b ∧ s.ops[i]? = some p ∧ b ∈ m.peers p.node ∧ b ∉ p.answers.keys ∧
        s' = s.answer i p b) ∨
      ∃ i p, act = .complete i ∧ s.ops[i]? = some p ∧ (∀ b ∈ m.peers p.node, b ∈ p.answers.keys) ∧
        s' = s.complete m i p := by
  cases act with
  | start a key request =>
    simp only [step, Option.ite_none_right_eq_some, Option.some.injEq] at h
    obtain ⟨ha, rfl⟩ := h
    exact Or.inl ⟨a, key, request, rfl, ha, rfl⟩
  | answer i b =>
    simp only [step, Option.bind_eq_some_iff, Option.ite_none_right_eq_some, Option.some.injEq] at h
    obtain ⟨p, hp, ⟨hb, hnew⟩, rfl⟩ := h
    exact Or.inr (Or.inl ⟨i, b, p, rfl, hp, hb, hnew, rfl⟩)
  | complete i =>
    simp only [step, Option.bind_eq_some_iff, Option.ite_none_right_eq_some, Option.some.injEq] at h
    obtain ⟨p, hp, hall, rfl⟩ := h
    exact Or.inr (Or.inr ⟨i, p, rfl, hp, hall, rfl⟩)

/-! ### The operations under way -/

/-- An operation begins, or is a read that returns at once. -/
theorem ops_start (s : State α) (a key : String) (request : Request α) :
    (s.start a key request).ops = s.ops ++ [s.fresh a key request] ∨
      (request = .read ∧ (s.start a key request).ops = s.ops) := by
  cases request with
  | read =>
    unfold State.start
    cases h : (CacheNode.beginRead (s.cache a) key).2 with
    | none =>
      simp only [h]
      exact Or.inl rfl
    | some value => exact Or.inr ⟨rfl, by simp only [h]⟩
  | write value => exact Or.inl rfl
  | invalidate => exact Or.inl rfl

theorem mem_ops_start {a key : String} {request : Request α} {q : Operation α}
    (hq : q ∈ (s.start a key request).ops) : q ∈ s.ops ∨ q = s.fresh a key request := by
  rcases ops_start s a key request with hops | ⟨-, hops⟩
  · rw [hops, List.mem_append, List.mem_singleton] at hq
    exact hq
  · rw [hops] at hq
    exact Or.inl hq

/-- The operation `p` after the answer of `b`. -/
def Operation.answered (s : State α) (p : Operation α) (b : String) : Operation α :=
  let reply := match p.request with
    | .read => (CacheNode.processRemoteRead (s.cache b) p.key).2
    | _ => (CacheNode.processInvalidate (s.cache b) p.key).2
  { p with answers := p.answers.set b ⟨reply, s.processed b p.key⟩ }

theorem ops_answer (s : State α) (i : Nat) (p : Operation α) (b : String) :
    (s.answer i p b).ops = s.ops.set i (p.answered s b) := by
  unfold State.answer Operation.answered
  cases p.request with
  | read => rfl
  | write value => rfl
  | invalidate => rfl

theorem mem_ops_answer {i : Nat} {p q : Operation α} {b : String} (hq : q ∈ (s.answer i p b).ops) :
    q ∈ s.ops ∨ q = p.answered s b := by
  rw [ops_answer] at hq
  exact List.mem_or_eq_of_mem_set hq

theorem ops_complete (m : Mesh) (s : State α) (i : Nat) (p : Operation α) :
    (s.complete m i p).ops = (s.ops.eraseIdx i).map (Operation.overtake p.node p.key) := by
  unfold State.complete
  cases p.request with
  | read => rfl
  | write value => rfl
  | invalidate => rfl

theorem mem_ops_complete {i : Nat} {p q : Operation α} (hq : q ∈ (s.complete m i p).ops) :
    ∃ q₀ ∈ s.ops.eraseIdx i, q = q₀.overtake p.node p.key := by
  rw [ops_complete] at hq
  obtain ⟨q₀, hq₀, heq⟩ := List.mem_map.1 hq
  exact ⟨q₀, hq₀, heq.symm⟩

/-- An operation that another one overtakes is the same but for the list of those peers. -/
theorem overtake_eq (a key : String) (q : Operation α) : ∃ l, q.overtake a key = { q with overtaken := l } := by
  unfold Operation.overtake
  by_cases h : q.key = key ∧ a ∈ q.answers.keys
  · exact ⟨a :: q.overtaken, if_pos h⟩
  · exact ⟨q.overtaken, if_neg h⟩

/-- The operations that stay under way when one completes are those before, but for the lists of overtaking peers. -/
theorem exists_of_mem_complete {i : Nat} {p q : Operation α} (hq : q ∈ (s.complete m i p).ops) :
    ∃ q₀ ∈ s.ops.eraseIdx i, ∃ l, q = { q₀ with overtaken := l } := by
  obtain ⟨q₀, hq₀, rfl⟩ := mem_ops_complete hq
  exact ⟨q₀, hq₀, overtake_eq p.node p.key q₀⟩

/-! ### Valid lines -/

/-- The state and the value of the line of a node, unless it is invalid. -/
def State.valid? (s : State α) (a key : String) : Option (CacheLineState × Option α) := (s.cache a).valid? key

/-- The line of a peer after it has answered. -/
def Request.leaves : Request α → Option (CacheLineState × Option α) → Option (CacheLineState × Option α)
  | .read, line => line.map fun l => (.shared, l.2)
  | _, _ => none

theorem leaves_none (r : Request α) : r.leaves none = none := by
  cases r with
  | read => rfl
  | write value => rfl
  | invalidate => rfl

/-- Only the answer to a read leaves a line, which is shared and has the value that it had. -/
theorem leaves_eq_some {r : Request α} {line : Option (CacheLineState × Option α)} {st : CacheLineState}
    {value : Option α} (h : r.leaves line = some (st, value)) :
    r = .read ∧ st = .shared ∧ ∃ st', line = some (st', value) := by
  cases r with
  | read =>
    obtain ⟨l, hl, heq⟩ := Option.map_eq_some_iff.1 h
    cases heq
    exact ⟨rfl, rfl, l.1, hl⟩
  | write v => cases h
  | invalidate => cases h

/-- The line of the node of an operation after its completion, if nothing evicts it. -/
def Operation.installs (m : Mesh) (p : Operation α) (line : Option (CacheLineState × Option α)) :
    Option (CacheLineState × Option α) :=
  match p.request with
  | .read => (p.found m).elim line fun value => some (.shared, some value)
  | .write value => some (.modified, value)
  | .invalidate => none

@[simp] theorem valid?_start (a key : String) (request : Request α) (b k : String) :
    (s.start a key request).valid? b k = s.valid? b k := by
  cases request with
  | read =>
    have hcache : (s.start a key .read).cache =
        Function.update s.cache a (CacheNode.beginRead (s.cache a) key).1 := by
      unfold State.start
      cases h : (CacheNode.beginRead (s.cache a) key).2 with
      | none => simp only [h]
      | some value => simp only [h]
    rw [State.valid?, hcache]
    by_cases hb : b = a
    · rw [hb, Function.update_self, CacheNode.valid?_beginRead]
      rfl
    · rw [Function.update_of_ne hb]
      rfl
  | write value => rfl
  | invalidate => rfl

private theorem valid?_update {c : LRUCache α} {a key : String} {line : Option (CacheLineState × Option α)}
    (h : ∀ k, c.valid? k = if k = key then line else s.valid? a k) (b k : String) :
    (Function.update s.cache a c b).valid? k = if b = a ∧ k = key then line else s.valid? b k := by
  by_cases hb : b = a
  · rw [hb, Function.update_self, h]
    by_cases hk : k = key
    · rw [if_pos hk, if_pos ⟨rfl, hk⟩]
    · rw [if_neg hk, if_neg fun hbk => hk hbk.2]
  · rw [Function.update_of_ne hb, if_neg fun hbk => hb hbk.1]
    rfl

/-- An answer affects the line of the peer that gives it. -/
theorem valid?_answer (i : Nat) (p : Operation α) (a b k : String) :
    (s.answer i p a).valid? b k =
      if b = a ∧ k = p.key then p.request.leaves (s.valid? a p.key) else s.valid? b k := by
  unfold State.answer
  cases hreq : p.request with
  | read =>
    refine valid?_update (fun k => ?_) b k
    cases hline : s.valid? a p.key with
    | none =>
      rw [(CacheNode.processRemoteRead_of_not_valid hline).2]
      by_cases hk : k = p.key
      · rw [if_pos hk, hk]
        exact hline
      · rw [if_neg hk]
        rfl
    | some l => exact (CacheNode.processRemoteRead_of_valid hline).2 k
  | write value => exact valid?_update (fun k => CacheNode.valid?_processInvalidate k) b k
  | invalidate => exact valid?_update (fun k => CacheNode.valid?_processInvalidate k) b k

/-- The operation puts a line into the cache when it completes. -/
def Operation.stores (m : Mesh) (p : Operation α) : Prop :=
  match p.request with
  | .read => (p.found m).isSome
  | .write _ => True
  | .invalidate => False

/-- The cache of the node of an operation after its completion. -/
theorem cache_complete (m : Mesh) (s : State α) (i : Nat) (p : Operation α) :
    ∃ c, (s.complete m i p).cache = Function.update s.cache p.node c ∧ c.maxSize = (s.cache p.node).maxSize ∧
      ((p.stores m ∧ ∃ (c₀ : LRUCache α) (line : CacheLine α), c = (c₀.put p.key line).1 ∧
          (∀ k, c₀.valid? k = s.valid? p.node k) ∧ ∀ before, line.valid? = p.installs m before) ∨
        (¬p.stores m ∧ ∀ k, c.valid? k =
          if k = p.key then p.installs m (s.valid? p.node k) else s.valid? p.node k)) := by
  unfold State.complete Operation.stores Operation.installs
  cases hreq : p.request with
  | read =>
    refine ⟨_, rfl, ?_⟩
    cases hfound : p.found m with
    | none =>
      rw [CacheNode.finishRead_of_none hfound]
      refine ⟨rfl, Or.inr ⟨by simp, fun k => ?_⟩⟩
      by_cases hk : k = p.key
      · rw [if_pos hk]
        rfl
      · rw [if_neg hk]
        rfl
    | some value =>
      rw [CacheNode.finishRead_of_some hfound]
      exact ⟨rfl, Or.inl ⟨rfl, _, _, rfl, fun k => rfl, fun _ => rfl⟩⟩
  | write value =>
    obtain ⟨line, hline, hput⟩ := CacheNode.finishWrite_eq (s.cache p.node) p.key value
    refine ⟨_, rfl, ?_, Or.inl ⟨trivial, _, line, hput, fun k => LRUCache.valid?_get _ _ k, fun _ => hline⟩⟩
    rw [hput, LRUCache.maxSize_put, LRUCache.maxSize_get]
  | invalidate =>
    refine ⟨_, rfl, LRUCache.maxSize_invalidate _ _, Or.inr ⟨fun h => h, fun k => ?_⟩⟩
    exact LRUCache.valid?_invalidate _ _ k

/-- A completion affects the line of the node of the operation, and may evict others of its lines. -/
theorem valid?_complete (m : Mesh) (s : State α) (i : Nat) (p : Operation α) (b k : String) :
    (b = p.node ∧ (s.complete m i p).valid? b k = none) ∨
      (s.complete m i p).valid? b k =
        if b = p.node ∧ k = p.key then p.installs m (s.valid? b k) else s.valid? b k := by
  obtain ⟨c, hcache, -, hc⟩ := cache_complete m s i p
  rw [State.valid?, hcache]
  by_cases hb : b = p.node
  · subst hb
    rw [Function.update_self]
    have hif : ∀ line : Option (CacheLineState × Option α),
        (if p.node = p.node ∧ k = p.key then line else s.valid? p.node k) =
          if k = p.key then line else s.valid? p.node k := by
      intro line
      simp only [true_and]
    rw [hif]
    rcases hc with ⟨-, c₀, line, rfl, hbefore, hline⟩ | ⟨-, hc⟩
    · rcases c₀.valid?_put p.key k line with hnone | hput
      · exact Or.inl ⟨rfl, hnone⟩
      · rw [hput, hline, hbefore]
        exact Or.inr rfl
    · exact Or.inr (hc k)
  · rw [Function.update_of_ne hb, if_neg fun h => hb h.1]
    exact Or.inr rfl

/-- A stored line stays if the cache has room for any line, and otherwise there is none. -/
theorem valid?_complete_of_stores {p : Operation α} (h : p.stores m) (i : Nat)
    (before : Option (CacheLineState × Option α)) :
    (0 < (s.cache p.node).maxSize → (s.complete m i p).valid? p.node p.key = p.installs m before) ∧
      ((s.cache p.node).maxSize = 0 → ∀ k, (s.complete m i p).valid? p.node k = none) := by
  obtain ⟨c, hcache, hsize, hc⟩ := cache_complete m s i p
  rcases hc with ⟨-, c₀, line, rfl, -, hline⟩ | ⟨hno, -⟩
  · have hvalid : ∀ k, (s.complete m i p).valid? p.node k = (c₀.put p.key line).1.valid? k := by
      intro k
      rw [State.valid?, hcache, Function.update_self]
    rw [← hsize, LRUCache.maxSize_put]
    constructor
    · intro hroom
      rw [hvalid, LRUCache.valid?_put_self p.key hroom, hline]
    · intro hfull k
      rw [hvalid, LRUCache.valid?_put_of_full p.key k hfull]
  · exact absurd h hno

/-- The line on the node of a completed operation: none, the one before, or one that has been stored. -/
theorem valid?_complete_self (m : Mesh) (s : State α) (i : Nat) (p : Operation α) (k : String) :
    (s.complete m i p).valid? p.node k = none ∨ (s.complete m i p).valid? p.node k = s.valid? p.node k ∨
      (k = p.key ∧ p.stores m ∧ 0 < (s.cache p.node).maxSize) := by
  rcases valid?_complete m s i p p.node k with ⟨-, hnone⟩ | hvalid
  · exact Or.inl hnone
  · by_cases hk : k = p.key
    · by_cases hstores : p.stores m
      · rcases Nat.eq_zero_or_pos (s.cache p.node).maxSize with hfull | hroom
        · exact Or.inl ((valid?_complete_of_stores hstores i none).2 hfull k)
        · exact Or.inr (Or.inr ⟨hk, hstores, hroom⟩)
      · rw [if_pos ⟨rfl, hk⟩] at hvalid
        rw [hvalid]
        unfold Operation.installs
        unfold Operation.stores at hstores
        cases hreq : p.request with
        | read =>
          rw [hreq] at hstores
          have hfound : p.found m = none := by simpa using hstores
          rw [hfound]
          exact Or.inr (Or.inl rfl)
        | write value =>
          rw [hreq] at hstores
          exact absurd trivial hstores
        | invalidate => exact Or.inl rfl
    · rw [if_neg fun h => hk h.2] at hvalid
      exact Or.inr (Or.inl hvalid)

theorem valid?_complete_of_ne (m : Mesh) (s : State α) (i : Nat) (p : Operation α) {b : String} (h : b ≠ p.node)
    (k : String) : (s.complete m i p).valid? b k = s.valid? b k := by
  rcases valid?_complete m s i p b k with ⟨hb, -⟩ | hvalid
  · exact absurd hb h
  · rw [hvalid, if_neg fun hb => h hb.1]

end CacheCluster

end DistributedSync
