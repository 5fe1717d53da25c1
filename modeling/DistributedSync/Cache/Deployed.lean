import DistributedSync.Cache.Cluster

/-!
# The cache of the unified node

The cache handlers of `DistributedNode` in `main.py`.  They differ from `CacheNode`: the first answer that has found
the key decides and may bring `None`, a write always stores a new line, and an invalidation is applied before the
peers hear of it.  When a cluster of such nodes executes one request at a time, it is a memory that forgets: a read
returns what was written last or misses, and it misses just if no node has a valid line (`deployed_coherence`).
-/

namespace DistributedSync

namespace DistributedNode

/-- The cache of a node with its two counters. -/
structure Cache (α : Type) where
  cache : LRUCache α
  hits : Nat := 0
  misses : Nat := 0

namespace Cache

variable {α : Type}

/-- `_process_cache_invalidate`. -/
def processCacheInvalidate (n : Cache α) (key : String) : Cache α :=
  { n with cache := (n.cache.invalidate key).1 }

/-- `_process_cache_read`; the answer is the value, if the key is found. -/
def processCacheRead (n : Cache α) (key : String) : Cache α × Option (Option α) :=
  let r := n.cache.get key
  match r.2 with
  | none => ({ n with cache := r.1 }, none)
  | some line =>
    if line.state ≠ .invalid then
      let line := if line.state = .modified ∨ line.state = .exclusive then { line with state := .shared } else line
      ({ n with cache := r.1.modify key line }, some line.value)
    else ({ n with cache := r.1 }, none)

/-- `_handle_cache_get` up to the broadcast; the answer is the value of a hit. -/
def beginGet (n : Cache α) (key : String) : Cache α × Option (Option α) :=
  let r := n.cache.get key
  match r.2 with
  | none => ({ n with cache := r.1, misses := n.misses + 1 }, none)
  | some line =>
    if line.state ≠ .invalid then ({ n with cache := r.1, hits := n.hits + 1 }, some line.value)
    else ({ n with cache := r.1, misses := n.misses + 1 }, none)

/-- `_handle_cache_get` after the broadcast: the loop over the answers ends at the first one that has found the key. -/
def finishGet (n : Cache α) (key : String) : List (Option (Option α)) → Cache α × Option (Option α)
  | [] => (n, none)
  | none :: resps => finishGet n key resps
  | some value :: _ =>
    ({ n with cache := (n.cache.put key { key := key, value := value, state := .shared }).1 }, some value)

/-- `_handle_cache_put` after the broadcast.  What is written to the replicator is not a part of the cache. -/
def finishPut (n : Cache α) (key : String) (value : Option α) : Cache α :=
  { n with cache := (n.cache.put key { key := key, value := value, state := .modified }).1 }

/-- The state and the value of the line of a key, unless it is invalid. -/
def valid? (n : Cache α) (key : String) : Option (CacheLineState × Option α) := n.cache.valid? key

/-! ### The effect on the valid lines -/

variable {n : Cache α} {key : String}

private theorem valid?_processCacheInvalidate (k : String) :
    (n.processCacheInvalidate key).valid? k = if k = key then none else n.valid? k :=
  n.cache.valid?_invalidate key k

/-- The unified node answers a read as a cache node does, but leaves the state of the line out. -/
theorem processCacheRead_eq (n : Cache α) (key : String) :
    n.processCacheRead key = ({ n with cache := (CacheNode.processRemoteRead n.cache key).1 },
      match (CacheNode.processRemoteRead n.cache key).2 with
      | .found value _ => some value
      | _ => none) := by
  unfold processCacheRead CacheNode.processRemoteRead
  cases hline : (n.cache.get key).2 with
  | none => simp only [hline]
  | some line =>
    by_cases hst : line.state = .invalid
    · simp only [hline, hst, ne_eq, not_true_eq_false, if_false, if_true]
    · simp only [hline, hst, ne_eq, not_false_eq_true, if_false, if_true]

/-- A valid line becomes shared. -/
theorem valid?_processCacheRead (k : String) :
    (n.processCacheRead key).1.valid? k =
      if k = key then (n.valid? key).map fun l => (.shared, l.2) else n.valid? k := by
  rw [processCacheRead_eq]
  cases h : n.valid? key with
  | none =>
    have hsame : (CacheNode.processRemoteRead n.cache key).1.valid? k = n.cache.valid? k :=
      (CacheNode.processRemoteRead_of_not_valid h).2 k
    by_cases hk : k = key
    · rw [if_pos hk, hk]
      rw [hk] at hsame
      exact hsame.trans h
    · rw [if_neg hk]
      exact hsame
  | some l =>
    exact (CacheNode.processRemoteRead_of_valid h).2 k

private theorem processCacheRead_snd : (n.processCacheRead key).2 = (n.valid? key).map Prod.snd := by
  rw [processCacheRead_eq]
  cases h : n.valid? key with
  | none => rw [(CacheNode.processRemoteRead_of_not_valid h).1, Option.map_none]
  | some l => rw [(CacheNode.processRemoteRead_of_valid h).1, Option.map_some]

private theorem beginGet_of_some {l : CacheLineState × Option α} (h : n.valid? key = some l) :
    n.beginGet key = ({ n with cache := (n.cache.get key).1, hits := n.hits + 1 }, some l.2) := by
  obtain ⟨line, hline, hne, -, hvalue⟩ := LRUCache.get_of_valid (h : n.cache.valid? key = some (l.1, l.2))
  unfold beginGet
  simp only [hline, ne_eq, hne, not_false_eq_true, if_true, hvalue]

private theorem beginGet_of_none (h : n.valid? key = none) :
    n.beginGet key = ({ n with cache := (n.cache.get key).1, misses := n.misses + 1 }, none) := by
  unfold beginGet
  rcases LRUCache.get_of_not_valid h with hline | ⟨line, hline, hinv⟩
  · simp only [hline]
  · simp only [hline, ne_eq, hinv, not_true_eq_false, if_false]

private theorem finishGet_eq (n : Cache α) (key : String) (resps : List (Option (Option α))) :
    n.finishGet key resps = match resps.findSome? id with
      | none => (n, none)
      | some value =>
        ({ n with cache := (n.cache.put key { key := key, value := value, state := .shared }).1 }, some value) := by
  induction resps with
  | nil => rfl
  | cons resp resps ih =>
    cases resp with
    | none => exact ih
    | some value => rfl

/-- The reads that a node has counted. -/
def reads (n : Cache α) : Nat := n.hits + n.misses

private theorem reads_processCacheInvalidate (n : Cache α) (key : String) :
    (n.processCacheInvalidate key).reads = n.reads :=
  rfl

private theorem reads_processCacheRead (n : Cache α) (key : String) : (n.processCacheRead key).1.reads = n.reads := by
  rw [processCacheRead_eq]
  rfl

private theorem reads_finishGet (n : Cache α) (key : String) (resps : List (Option (Option α))) :
    (n.finishGet key resps).1.reads = n.reads := by
  rw [finishGet_eq]
  cases resps.findSome? id with
  | none => rfl
  | some value => rfl

private theorem reads_finishPut (n : Cache α) (key : String) (value : Option α) :
    (n.finishPut key value).reads = n.reads := rfl

/-- A line that is put is there with its value, or has been evicted at once; of the other lines, some may be gone. -/
theorem valid?_put {line : CacheLine α} {k : String} {l : CacheLineState × Option α}
    (h : (n.cache.put key line).1.valid? k = some l) : (if k = key then line.valid? else n.valid? k) = some l := by
  rcases n.cache.valid?_put key k line with hnone | hkeep
  · rw [hnone] at h
    cases h
  · rw [← h, hkeep]
    rfl

end Cache

/-! ### A cluster of unified nodes -/

open CacheCluster (Mesh)

variable {α : Type}

/-- The caches of all nodes. -/
abbrev Caches (α : Type) := String → Cache α

namespace Caches

/-- The nodes `peers` answer a request; they are different, so their order does not matter. -/
def onPeers (s : Caches α) (peers : List String) (f : Cache α → Cache α) : Caches α :=
  fun b => if b ∈ peers then f (s b) else s b

/-- `_handle_cache_get` of the node `a` from the broadcast on. -/
def remoteGet (m : Mesh) (s : Caches α) (a key : String) : Caches α × Option (Option α) :=
  let resps := (m.peers a).map fun b => ((s b).processCacheRead key).2
  let s := s.onPeers (m.peers a) fun n => (n.processCacheRead key).1
  let r := (s a).finishGet key resps
  (Function.update s a r.1, r.2)

/-- `_handle_cache_get`. -/
def handleCacheGet (m : Mesh) (s : Caches α) (a key : String) : Caches α × Option (Option α) :=
  let r := (s a).beginGet key
  let s : Caches α := Function.update s a r.1
  match r.2 with
  | some value => (s, some value)
  | none => s.remoteGet m a key

/-- `_handle_cache_put`. -/
def handleCachePut (m : Mesh) (s : Caches α) (a key : String) (value : Option α) : Caches α :=
  let s := s.onPeers (m.peers a) fun n => n.processCacheInvalidate key
  Function.update s a ((s a).finishPut key value)

/-- `_handle_cache_invalidate`; the node does to its own cache what it then asks of the others. -/
def handleCacheInvalidate (m : Mesh) (s : Caches α) (a key : String) : Caches α :=
  let s : Caches α := Function.update s a ((s a).processCacheInvalidate key)
  s.onPeers (m.peers a) fun n => n.processCacheInvalidate key

/-- The requests to a node `a`. -/
inductive Request (α : Type) where
  | get (a key : String)
  | put (a key : String) (value : Option α)
  | invalidate (a key : String)
  deriving DecidableEq

def Request.node : Request α → String
  | .get a _ => a
  | .put a _ _ => a
  | .invalidate a _ => a

def step (m : Mesh) (s : Caches α) : Request α → Caches α
  | .get a key => (s.handleCacheGet m a key).1
  | .put a key value => s.handleCachePut m a key value
  | .invalidate a key => s.handleCacheInvalidate m a key

/-- The caches after the requests. -/
def after (m : Mesh) (as : List (Request α)) : Caches α :=
  as.foldl (step m) fun a => { cache := { maxSize := m.maxSize a } }

/-- A memory that holds for every key what was written last, unless it has been invalidated since. -/
def remember (w : String → Option (Option α)) : Request α → String → Option (Option α)
  | .get _ _ => w
  | .put _ key value => Function.update w key (some value)
  | .invalidate _ key => Function.update w key none

def lastWritten (as : List (Request α)) : String → Option (Option α) := as.foldl remember fun _ => none

/-- The caches refine the memory. -/
structure Coherent (m : Mesh) (s : Caches α) (w : String → Option (Option α)) : Prop where
  agrees : ∀ a ∈ m.nodes, ∀ key st value, (s a).valid? key = some (st, value) → w key = some value
  single : ∀ a ∈ m.nodes, ∀ b ∈ m.nodes, a ≠ b → ∀ key value,
    (s a).valid? key = some (.modified, value) → (s b).valid? key = none
  shared : ∀ a ∈ m.nodes, ∀ key st value, (s a).valid? key = some (st, value) → st = .modified ∨ st = .shared

variable {m : Mesh} {s : Caches α} {w : String → Option (Option α)} {a key : String}

private theorem onPeers_of_mem {peers : List String} {f : Cache α → Cache α} {b : String} (hb : b ∈ peers) :
    s.onPeers peers f b = f (s b) := if_pos hb

private theorem onPeers_of_not_mem {peers : List String} {f : Cache α → Cache α} {b : String} (hb : b ∉ peers) :
    s.onPeers peers f b = s b := if_neg hb

/-- The peers of a node are the other nodes. -/
theorem mem_peers (ha : a ∈ m.nodes) {b : String} (hb : b ∈ m.nodes) : b ∈ m.peers a ↔ b ≠ a := by
  rw [m.knows a ha]
  exact and_iff_right hb

private theorem not_mem_peers (ha : a ∈ m.nodes) : a ∉ m.peers a := fun h => ((m.knows a ha a).1 h).2 rfl

/-! ### Writes and invalidations -/

private theorem valid?_handleCacheInvalidate (ha : a ∈ m.nodes) {b : String} (hb : b ∈ m.nodes) (k : String) :
    (s.handleCacheInvalidate m a key b).valid? k = if k = key then none else (s b).valid? k := by
  unfold handleCacheInvalidate
  by_cases hba : b = a
  · rw [hba, onPeers_of_not_mem (not_mem_peers ha), Function.update_self]
    exact Cache.valid?_processCacheInvalidate k
  · rw [onPeers_of_mem ((mem_peers ha hb).2 hba), Function.update_of_ne hba]
    exact Cache.valid?_processCacheInvalidate k

theorem Coherent.invalidate (h : Coherent m s w) (ha : a ∈ m.nodes) :
    Coherent m (s.handleCacheInvalidate m a key) (Function.update w key none) where
  agrees b hb k st value hline := by
    rw [valid?_handleCacheInvalidate ha hb] at hline
    by_cases hk : k = key
    · rw [if_pos hk] at hline
      cases hline
    · rw [if_neg hk] at hline
      rw [Function.update_of_ne hk]
      exact h.agrees b hb k st value hline
  single b hb c hc hne k value hline := by
    rw [valid?_handleCacheInvalidate ha hb] at hline
    rw [valid?_handleCacheInvalidate ha hc]
    by_cases hk : k = key
    · rw [if_pos hk]
    · rw [if_neg hk] at hline ⊢
      exact h.single b hb c hc hne k value hline
  shared b hb k st value hline := by
    rw [valid?_handleCacheInvalidate ha hb] at hline
    by_cases hk : k = key
    · rw [if_pos hk] at hline
      cases hline
    · rw [if_neg hk] at hline
      exact h.shared b hb k st value hline

/-- After a write the line of the key is valid at the writer only; of its other lines, some may be evicted. -/
theorem valid?_handleCachePut (ha : a ∈ m.nodes) {value : Option α} {b : String} (hb : b ∈ m.nodes) {k : String}
    {l : CacheLineState × Option α} (hline : (s.handleCachePut m a key value b).valid? k = some l) :
    (k = key ∧ b = a ∧ l = (.modified, value)) ∨ (k ≠ key ∧ (s b).valid? k = some l) := by
  unfold handleCachePut at hline
  by_cases hba : b = a
  · rw [hba, Function.update_self, onPeers_of_not_mem (not_mem_peers ha)] at hline
    have hput := Cache.valid?_put hline
    by_cases hk : k = key
    · rw [if_pos hk] at hput
      exact Or.inl ⟨hk, hba, (Option.some.inj hput).symm⟩
    · rw [if_neg hk] at hput
      rw [hba]
      exact Or.inr ⟨hk, hput⟩
  · rw [Function.update_of_ne hba, onPeers_of_mem ((mem_peers ha hb).2 hba),
      Cache.valid?_processCacheInvalidate] at hline
    by_cases hk : k = key
    · rw [if_pos hk] at hline
      cases hline
    · rw [if_neg hk] at hline
      exact Or.inr ⟨hk, hline⟩

theorem Coherent.put (h : Coherent m s w) (ha : a ∈ m.nodes) (value : Option α) :
    Coherent m (s.handleCachePut m a key value) (Function.update w key (some value)) where
  agrees b hb k st v hline := by
    rcases valid?_handleCachePut ha hb hline with ⟨hk, -, hl⟩ | ⟨hk, hbefore⟩
    · rw [hk, Function.update_self, (Prod.mk.inj hl).2]
    · rw [Function.update_of_ne hk]
      exact h.agrees b hb k st v hbefore
  single b hb c hc hne k v hline := by
    by_contra hvalid
    obtain ⟨l, hl⟩ := Option.ne_none_iff_exists'.1 hvalid
    rcases valid?_handleCachePut ha hb hline with ⟨hk, hba, -⟩ | ⟨hk, hbefore⟩
    · rcases valid?_handleCachePut ha hc hl with ⟨-, hca, -⟩ | ⟨hk', -⟩
      · exact hne (hba.trans hca.symm)
      · exact hk' hk
    · rcases valid?_handleCachePut ha hc hl with ⟨hk', -, -⟩ | ⟨-, hbefore'⟩
      · exact hk hk'
      · rw [h.single b hb c hc hne k v hbefore] at hbefore'
        cases hbefore'
  shared b hb k st v hline := by
    rcases valid?_handleCachePut ha hb hline with ⟨-, -, hl⟩ | ⟨-, hbefore⟩
    · exact Or.inl (Prod.mk.inj hl).1
    · exact h.shared b hb k st v hbefore

/-! ### Reads -/

/-- The first answer that has found the key. -/
def found (m : Mesh) (s : Caches α) (a key : String) : Option (Option α) :=
  (m.peers a).findSome? fun b => ((s b).valid? key).map Prod.snd

/-- What the peers answer is found in their valid lines. -/
theorem exists_of_found (ha : a ∈ m.nodes) {value : Option α} (h : found m s a key = some value) :
    ∃ b ∈ m.nodes, b ≠ a ∧ ∃ st, (s b).valid? key = some (st, value) := by
  obtain ⟨b, hb, hvalue⟩ := List.exists_of_findSome?_eq_some h
  obtain ⟨l, hl, rfl⟩ := Option.map_eq_some_iff.1 hvalue
  obtain ⟨hnode, hne⟩ := (m.knows a ha b).1 hb
  exact ⟨b, hnode, hne, l.1, hl⟩

private theorem remoteGet_of_none (h : found m s a key = none) :
    s.remoteGet m a key = (s.onPeers (m.peers a) fun n => (n.processCacheRead key).1, none) := by
  have hresps : ((m.peers a).map fun b => ((s b).processCacheRead key).2).findSome? id = none := by
    rw [List.findSome?_map]
    simpa only [found, Function.id_comp, Cache.processCacheRead_snd] using h
  unfold remoteGet
  simp only [Cache.finishGet_eq, hresps, Function.update_eq_self]

private theorem remoteGet_of_some (ha : a ∈ m.nodes) {value : Option α} (h : found m s a key = some value) :
    s.remoteGet m a key = (Function.update (s.onPeers (m.peers a) fun n => (n.processCacheRead key).1) a
      { s a with cache := ((s a).cache.put key { key := key, value := value, state := .shared }).1 }, some value) := by
  have hresps : ((m.peers a).map fun b => ((s b).processCacheRead key).2).findSome? id = some value := by
    rw [List.findSome?_map]
    simpa only [found, Function.id_comp, Cache.processCacheRead_snd] using h
  have hself : s.onPeers (m.peers a) (fun n => (n.processCacheRead key).1) a = s a :=
    onPeers_of_not_mem (not_mem_peers ha)
  unfold remoteGet
  simp only [Cache.finishGet_eq, hresps, hself]

/-- What is valid at a node after the peers have answered: what was valid before, shared now if a peer has answered
from it, and the line that the asking node stores. -/
theorem valid?_remoteGet (ha : a ∈ m.nodes) {b : String} (hb : b ∈ m.nodes) {k : String}
    {l : CacheLineState × Option α} (hline : ((s.remoteGet m a key).1 b).valid? k = some l) :
    (k = key ∧ l.1 = .shared ∧ ∃ c ∈ m.nodes, ∃ st, (s c).valid? key = some (st, l.2)) ∨
      ((k = key → b = a) ∧ (s b).valid? k = some l) := by
  -- the lines of the peers are valid as before, and those of the key are shared
  have hpeer : b ≠ a → (s.onPeers (m.peers a) (fun n => (n.processCacheRead key).1) b).valid? k = some l →
      (k = key ∧ l.1 = .shared ∧ ∃ c ∈ m.nodes, ∃ st, (s c).valid? key = some (st, l.2)) ∨
        ((k = key → b = a) ∧ (s b).valid? k = some l) := by
    intro hne hafter
    rw [onPeers_of_mem ((mem_peers ha hb).2 hne), Cache.valid?_processCacheRead] at hafter
    by_cases hk : k = key
    · rw [if_pos hk] at hafter
      obtain ⟨l₀, hl₀, rfl⟩ := Option.map_eq_some_iff.1 hafter
      exact Or.inl ⟨hk, rfl, b, hb, l₀.1, hl₀⟩
    · rw [if_neg hk] at hafter
      exact Or.inr ⟨fun hk' => absurd hk' hk, hafter⟩
  cases hfound : found m s a key with
  | none =>
    rw [remoteGet_of_none hfound] at hline
    dsimp only at hline
    by_cases hne : b = a
    · rw [hne, onPeers_of_not_mem (not_mem_peers ha)] at hline
      rw [hne]
      exact Or.inr ⟨fun _ => rfl, hline⟩
    · exact hpeer hne hline
  | some value =>
    rw [remoteGet_of_some ha hfound] at hline
    dsimp only at hline
    by_cases hne : b = a
    · rw [hne, Function.update_self] at hline
      have hput := Cache.valid?_put hline
      by_cases hk : k = key
      · rw [if_pos hk] at hput
        obtain rfl : (CacheLineState.shared, value) = l := Option.some.inj hput
        obtain ⟨c, hc, -, st, hst⟩ := exists_of_found ha hfound
        exact Or.inl ⟨hk, rfl, c, hc, st, hst⟩
      · rw [if_neg hk] at hput
        rw [hne]
        exact Or.inr ⟨fun _ => rfl, hput⟩
    · rw [Function.update_of_ne hne] at hline
      exact hpeer hne hline

/-- The answer of a read and the node that has begun it. -/
theorem handleCacheGet_cases (m : Mesh) (s : Caches α) (a key : String) :
    (∃ l, (s a).valid? key = some l ∧ (s.handleCacheGet m a key).2 = some l.2 ∧
        (s.handleCacheGet m a key).1 =
          Function.update s a { s a with cache := ((s a).cache.get key).1, hits := (s a).hits + 1 }) ∨
      ((s a).valid? key = none ∧ s.handleCacheGet m a key = remoteGet m (Function.update s a
        { s a with cache := ((s a).cache.get key).1, misses := (s a).misses + 1 }) a key) := by
  unfold handleCacheGet
  cases h : (s a).valid? key with
  | some l =>
    refine Or.inl ⟨l, rfl, ?_⟩
    simp only [Cache.beginGet_of_some h]
    exact ⟨trivial, trivial⟩
  | none =>
    refine Or.inr ⟨rfl, ?_⟩
    simp only [Cache.beginGet_of_none h]

/-- A lookup leaves all valid lines as they are. -/
theorem valid?_lookup {n : Cache α} (hn : n.cache = ((s a).cache.get key).1) (b k : String) :
    (Function.update s a n b).valid? k = (s b).valid? k := by
  by_cases hba : b = a
  · rw [hba, Function.update_self, Cache.valid?, hn]
    exact (s a).cache.valid?_get key k
  · rw [Function.update_of_ne hba]

theorem Coherent.lookup (h : Coherent m s w) {n : Cache α} (hn : n.cache = ((s a).cache.get key).1) :
    Coherent m (Function.update s a n) w where
  agrees b hb k st value hline := h.agrees b hb k st value (by rwa [valid?_lookup hn] at hline)
  single b hb c hc hne k value hline := by
    rw [valid?_lookup hn] at hline ⊢
    exact h.single b hb c hc hne k value hline
  shared b hb k st value hline := h.shared b hb k st value (by rwa [valid?_lookup hn] at hline)

private theorem Coherent.remoteGet (h : Coherent m s w) (ha : a ∈ m.nodes) (hmiss : (s a).valid? key = none) :
    Coherent m (s.remoteGet m a key).1 w := by
  -- the asking node has no line of the key before
  have hbefore : ∀ {b k l}, b ∈ m.nodes → ((s.remoteGet m a key).1 b).valid? k = some l →
      (k = key ∧ l.1 = .shared ∧ ∃ c ∈ m.nodes, ∃ st, (s c).valid? key = some (st, l.2)) ∨
        (k ≠ key ∧ (s b).valid? k = some l) := by
    intro b k l hb hline
    rcases valid?_remoteGet ha hb hline with hnew | ⟨hself, hold⟩
    · exact Or.inl hnew
    · refine Or.inr ⟨fun hk => ?_, hold⟩
      rw [hself hk, hk, hmiss] at hold
      cases hold
  refine ⟨fun b hb k st value hline => ?_, fun b hb c hc hne k value hline => ?_, fun b hb k st value hline => ?_⟩
  · rcases hbefore hb hline with ⟨hk, -, c, hc, st', hst'⟩ | ⟨-, hold⟩
    · rw [hk]
      exact h.agrees c hc key st' value hst'
    · exact h.agrees b hb k st value hold
  · by_contra hvalid
    obtain ⟨l, hl⟩ := Option.ne_none_iff_exists'.1 hvalid
    rcases hbefore hb hline with ⟨-, hst, -⟩ | ⟨hk, hold⟩
    · cases hst
    · rcases hbefore hc hl with ⟨hk', -⟩ | ⟨-, hold'⟩
      · exact hk hk'
      · rw [h.single b hb c hc hne k value hold] at hold'
        cases hold'
  · rcases hbefore hb hline with ⟨-, hst, -⟩ | ⟨-, hold⟩
    · exact Or.inr hst
    · exact h.shared b hb k st value hold

theorem Coherent.get (h : Coherent m s w) (ha : a ∈ m.nodes) : Coherent m (s.handleCacheGet m a key).1 w := by
  rcases handleCacheGet_cases m s a key with ⟨l, -, -, hs⟩ | ⟨hmiss, hs⟩
  · rw [hs]
    exact h.lookup rfl
  · rw [hs]
    refine (h.lookup rfl).remoteGet ha ?_
    rw [valid?_lookup rfl]
    exact hmiss

theorem Coherent.step (h : Coherent m s w) {act : Request α} (hact : act.node ∈ m.nodes) :
    Coherent m (step m s act) (remember w act) := by
  cases act with
  | get a key => exact h.get hact
  | put a key value => exact h.put hact value
  | invalidate a key => exact h.invalidate hact

private theorem coherent_after {as : List (Request α)} (has : ∀ act ∈ as, act.node ∈ m.nodes) :
    Coherent m (after m as) (lastWritten as) := by
  induction as using List.reverseRecOn with
  | nil =>
    refine ⟨fun a _ key st value hline => ?_, fun a _ b _ _ key value _ => rfl, fun a _ key st value hline => ?_⟩
    · cases hline
    · cases hline
  | append_singleton as act ih =>
    have hstep := (ih fun b hb => has b (List.mem_append_left _ hb)).step
      (has act (List.mem_append_right _ (List.mem_singleton_self _)))
    rw [after, lastWritten, List.foldl_append, List.foldl_append]
    exact hstep

/-- The answer to a read in a coherent state. -/
theorem Coherent.answer (h : Coherent m s w) (ha : a ∈ m.nodes) :
    (∀ value, (s.handleCacheGet m a key).2 = some value → w key = some value) ∧
      ((s.handleCacheGet m a key).2 = none ↔ ∀ b ∈ m.nodes, (s b).valid? key = none) := by
  rcases handleCacheGet_cases m s a key with ⟨l, hl, hanswer, -⟩ | ⟨hmiss, hs⟩
  · rw [hanswer]
    refine ⟨fun value hvalue => ?_, iff_of_false (Option.some_ne_none _) fun hnone => ?_⟩
    · rw [← Option.some.inj hvalue]
      exact h.agrees a ha key l.1 l.2 hl
    · rw [hnone a ha] at hl
      cases hl
  · rw [hs]
    generalize hn : ({ s a with cache := ((s a).cache.get key).1, misses := (s a).misses + 1 } : Cache α) = n
    have hcache : n.cache = ((s a).cache.get key).1 := by rw [← hn]
    have hlines : ∀ b k, (Function.update s a n b).valid? k = (s b).valid? k := valid?_lookup hcache
    cases hfound : found m (Function.update s a n) a key with
    | none =>
      rw [remoteGet_of_none hfound]
      refine ⟨fun value hvalue => (by cases hvalue), iff_of_true rfl fun b hb => ?_⟩
      by_cases hba : b = a
      · rw [hba]
        exact hmiss
      · rw [← hlines]
        exact Option.map_eq_none_iff.1 (List.findSome?_eq_none_iff.1 hfound b ((mem_peers ha hb).2 hba))
    | some value =>
      rw [remoteGet_of_some ha hfound]
      obtain ⟨b, hb, -, st, hst⟩ := exists_of_found ha hfound
      rw [hlines] at hst
      refine ⟨fun value' hvalue => ?_, iff_of_false (Option.some_ne_none _) fun hnone => ?_⟩
      · rw [← Option.some.inj hvalue]
        exact h.agrees b hb key st value hst
      · rw [hnone b hb] at hst
        cases hst

/-! ### The counters -/

/-- The request is a read at the node. -/
def Request.isGet (a : String) : Request α → Bool
  | .get b _ => b = a
  | _ => false

private theorem reads_onPeers {peers : List String} {f : Cache α → Cache α} (hf : ∀ n, (f n).reads = n.reads)
    (b : String) : (s.onPeers peers f b).reads = (s b).reads := by
  unfold onPeers
  split
  · exact hf _
  · rfl

private theorem reads_update {n : Cache α} (hn : n.reads = (s a).reads) (b : String) :
    (Function.update s a n b).reads = (s b).reads := by
  by_cases hba : b = a
  · rw [hba, Function.update_self, hn]
  · rw [Function.update_of_ne hba]

private theorem reads_remoteGet (b : String) : ((s.remoteGet m a key).1 b).reads = (s b).reads := by
  have hpeers : ∀ b, (s.onPeers (m.peers a) (fun n => (n.processCacheRead key).1) b).reads = (s b).reads :=
    reads_onPeers fun n => n.reads_processCacheRead key
  unfold remoteGet
  dsimp only
  rw [reads_update (Cache.reads_finishGet _ _ _), hpeers]

/-- A request counts as one read if it is a read at the node. -/
theorem reads_step (m : Mesh) (s : Caches α) (act : Request α) (b : String) :
    (step m s act b).reads = (s b).reads + if act.isGet b then 1 else 0 := by
  cases act with
  | get a key =>
    -- one of the two counters goes up at the node that is asked, and no other counter changes
    have hcount : ∀ n : Cache α, n.reads = (s a).reads + 1 →
        (Function.update s a n b).reads = (s b).reads + if (Request.get a key : Request α).isGet b then 1 else 0 := by
      intro n hn
      by_cases hba : a = b
      · rw [← hba, Function.update_self, hn, Request.isGet, if_pos (decide_eq_true rfl)]
      · rw [Function.update_of_ne (Ne.symm hba), Request.isGet, if_neg (by simpa using hba), Nat.add_zero]
    rcases handleCacheGet_cases m s a key with ⟨l, -, -, hs⟩ | ⟨-, hs⟩
    · rw [step, hs]
      exact hcount _ (Nat.add_right_comm _ _ _)
    · rw [step, hs, reads_remoteGet]
      exact hcount _ (Nat.add_assoc _ _ _).symm
  | put a key value =>
    have hpeers : ∀ b, (s.onPeers (m.peers a) (fun n => n.processCacheInvalidate key) b).reads = (s b).reads :=
      reads_onPeers fun n => n.reads_processCacheInvalidate key
    rw [step, handleCachePut, reads_update (Cache.reads_finishPut _ _ _), hpeers]
    rfl
  | invalidate a key =>
    rw [step, handleCacheInvalidate, reads_onPeers fun n => n.reads_processCacheInvalidate key,
      reads_update (Cache.reads_processCacheInvalidate _ _)]
    rfl

private theorem reads_after (m : Mesh) (as : List (Request α)) (b : String) :
    (after m as b).reads = as.countP (Request.isGet b) := by
  induction as using List.reverseRecOn with
  | nil => rfl
  | append_singleton as act ih =>
    rw [after, List.foldl_append, List.foldl_cons, List.foldl_nil, reads_step, List.countP_append,
      List.countP_singleton, ← ih, after]

/-- A cluster of unified nodes that executes one request at a time behaves as one memory that may forget: the valid
lines of a key hold what was written last, a modified line is the only one, a read returns what was written last or
misses, and it misses just if there is no valid line.  The counters of a node add up to the reads it has had. -/
theorem deployed_coherence {as : List (Request α)} (has : ∀ act ∈ as, act.node ∈ m.nodes) :
    (∀ a ∈ m.nodes, ∀ key st value, (after m as a).valid? key = some (st, value) →
        lastWritten as key = some value ∧ (st = .modified ∨ st = .shared) ∧
          (st = .modified → ∀ b ∈ m.nodes, a ≠ b → (after m as b).valid? key = none)) ∧
      (∀ a ∈ m.nodes, ∀ key,
        (∀ value, ((after m as).handleCacheGet m a key).2 = some value → lastWritten as key = some value) ∧
          (((after m as).handleCacheGet m a key).2 = none ↔ ∀ b ∈ m.nodes, (after m as b).valid? key = none)) ∧
      ∀ a ∈ m.nodes, (after m as a).hits + (after m as a).misses = as.countP (Request.isGet a) := by
  have h := coherent_after has
  refine ⟨fun a ha key st value hline => ?_, fun a ha key => h.answer ha, fun a _ => reads_after m as a⟩
  refine ⟨h.agrees a ha key st value hline, h.shared a ha key st value hline, fun hst b hb hne => ?_⟩
  rw [hst] at hline
  exact h.single a ha b hb hne key value hline

/-- A `None` is written and read at the other node, and a write of another key then evicts the first line. -/
theorem deployed_coherence_pair : ∃ as : List (Request Nat),
    as = [.put "a" "k" none, .get "b" "k", .put "a" "l" (some 2)] ∧
      ((after .pair as).handleCacheGet .pair "a" "k").2 = some none ∧
      (∀ a ∈ Mesh.pair.nodes, ∀ key st value, (after .pair as a).valid? key = some (st, value) →
        lastWritten as key = some value ∧ (st = .modified ∨ st = .shared) ∧
          (st = .modified → ∀ b ∈ Mesh.pair.nodes, a ≠ b → (after .pair as b).valid? key = none)) ∧
      (∀ a ∈ Mesh.pair.nodes, ∀ key,
        (∀ value, ((after .pair as).handleCacheGet .pair a key).2 = some value → lastWritten as key = some value) ∧
          (((after .pair as).handleCacheGet .pair a key).2 = none ↔
            ∀ b ∈ Mesh.pair.nodes, (after .pair as b).valid? key = none)) ∧
      ∀ a ∈ Mesh.pair.nodes, (after .pair as a).hits + (after .pair as a).misses = as.countP (Request.isGet a) := by
  have has : ∀ act ∈ ([.put "a" "k" none, .get "b" "k", .put "a" "l" (some 2)] : List (Request Nat)),
      act.node ∈ Mesh.pair.nodes := by decide
  exact ⟨_, rfl, by decide, deployed_coherence has⟩

end Caches

end DistributedNode

end DistributedSync
