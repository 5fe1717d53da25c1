import DistributedSync.Message
import DistributedSync.Cache.Lru

/-!
# The LRU cache and its line objects

`LRUCache` of `cache_node.py` with what the model of the lines as values leaves out: a line is an object `ρ`, which
may be in the cache under several keys, and the functions registered with `on_eviction` are called with the lines that
`put` evicts.  These functions are arbitrary.  They may change the lines and a state `σ` of their own, and they may
raise.  Where no line is in the cache twice, the cache is the one with values (`view`).
-/

namespace DistributedSync

/-- What the callbacks work on: the attributes of the lines, and the rest. -/
structure World (ρ α σ : Type) where
  lines : ρ → CacheLine α
  rest : σ

abbrev EvictionCallback (ρ α σ : Type) := String → ρ → World ρ α σ → Outcome (World ρ α σ) Unit

/-- A call of the callback with the number `callback`, and what came of it.  An exception is logged. -/
structure Report (ρ : Type) where
  callback : Nat
  key : String
  line : ρ
  result : Except PyError Unit

structure ObjectCache (ρ α σ : Type) where
  maxSize : Nat := 1000
  cache : Dict String ρ := .empty
  evictionCallbacks : List (EvictionCallback ρ α σ) := []
  world : World ρ α σ

namespace ObjectCache

variable {ρ α σ : Type}

def onEviction (c : ObjectCache ρ α σ) (callback : EvictionCallback ρ α σ) : ObjectCache ρ α σ :=
  { c with evictionCallbacks := c.evictionCallbacks ++ [callback] }

/-- The `for` loop over the callbacks, the first of which has the number `i`. -/
def notify (key : String) (line : ρ) :
    Nat → List (EvictionCallback ρ α σ) → World ρ α σ → World ρ α σ × List (Report ρ)
  | _, [], w => (w, [])
  | i, cb :: cbs, w =>
    let o := cb key line w
    let (w', reports) := notify key line (i + 1) cbs o.state
    (w', ⟨i, key, line, o.result⟩ :: reports)

/-- What `put` does beside storing the line: the entries that are evicted, and the calls of the callbacks. -/
structure Evictions (ρ α σ : Type) where
  world : World ρ α σ
  evicted : List (String × ρ)
  reports : List (Report ρ)

/-- The `while` loop of `put` over the entries, the oldest of which is first. -/
def evict (maxSize : Nat) (cbs : List (EvictionCallback ρ α σ)) : List (String × ρ) → World ρ α σ → Evictions ρ α σ
  | [], w => ⟨w, [], []⟩
  | e :: rest, w =>
    if maxSize < (e :: rest).length then
      let (w', reports) := notify e.1 e.2 0 cbs w
      let later := evict maxSize cbs rest w'
      ⟨later.world, e :: later.evicted, reports ++ later.reports⟩
    else ⟨w, [], []⟩

section

variable [DecidableEq ρ]

/-- An assignment to the attributes of a line. -/
def assign (c : ObjectCache ρ α σ) (line : ρ) (attributes : CacheLine α) : ObjectCache ρ α σ :=
  { c with world := { c.world with lines := Function.update c.world.lines line attributes } }

def get (c : ObjectCache ρ α σ) (key : String) : ObjectCache ρ α σ × Option ρ :=
  match c.cache.get? key with
  | none => (c, none)
  | some line =>
    let attributes := c.world.lines line
    ({ c with cache := c.cache.moveToEnd key }.assign line
      { attributes with accessCount := attributes.accessCount + 1 }, some line)

def invalidate (c : ObjectCache ρ α σ) (key : String) : ObjectCache ρ α σ × Option ρ :=
  match c.cache.get? key with
  | none => (c, none)
  | some line => (c.assign line { c.world.lines line with state := .invalid }, some line)

end

def put (c : ObjectCache ρ α σ) (key : String) (line : ρ) : ObjectCache ρ α σ × Evictions ρ α σ :=
  let cache := (c.cache.moveToEnd key).set key line
  let evictions := evict c.maxSize c.evictionCallbacks cache.entries c.world
  ({ c with
    cache := cache.drop evictions.evicted.length
    world := evictions.world }, evictions)

def remove (c : ObjectCache ρ α σ) (key : String) : ObjectCache ρ α σ :=
  { c with cache := c.cache.erase key }

/-! ### What `put` evicts -/

section Evict

variable (cbs : List (EvictionCallback ρ α σ)) (maxSize : Nat)

/-- The calls of the callback `j`. -/
def Report.of (j : Nat) (reports : List (Report ρ)) : List (String × ρ) :=
  (reports.filter fun r => r.callback = j).map fun r => (r.key, r.line)

private theorem evicted_evict (entries : List (String × ρ)) (w : World ρ α σ) :
    (evict maxSize cbs entries w).evicted = entries.take (entries.length - maxSize) := by
  induction entries generalizing w with
  | nil => exact List.take_nil.symm
  | cons e rest ih =>
    rw [evict]
    split
    · next h =>
      rw [List.length_cons] at h
      have hsub : (e :: rest).length - maxSize = rest.length - maxSize + 1 := by
        rw [List.length_cons]
        omega
      rw [hsub, List.take_succ_cons, ← ih]
    · next h =>
      rw [Nat.sub_eq_zero_of_le (Nat.le_of_not_lt h), List.take_zero]

/-- The cache with the new line, before lines are evicted. -/
def stored (c : ObjectCache ρ α σ) (key : String) (line : ρ) : Dict String ρ := (c.cache.moveToEnd key).set key line

theorem entries_stored (c : ObjectCache ρ α σ) (key : String) (line : ρ) :
    (c.stored key line).entries = (c.cache.erase key).entries ++ [(key, line)] :=
  Dict.entries_set_moveToEnd c.cache key line

theorem evicted_put (c : ObjectCache ρ α σ) (key : String) (line : ρ) :
    (c.put key line).2.evicted =
      (c.stored key line).entries.take ((c.stored key line).entries.length - c.maxSize) :=
  evicted_evict _ _ _ _

theorem cache_put (c : ObjectCache ρ α σ) (key : String) (line : ρ) :
    (c.put key line).1.cache = (c.stored key line).drop ((c.stored key line).entries.length - c.maxSize) := by
  have hlength : (c.put key line).2.evicted.length = (c.stored key line).entries.length - c.maxSize := by
    rw [evicted_put, List.length_take]
    omega
  rw [← hlength]
  rfl

/-- Each callback is called once. -/
theorem of_notify (key : String) (line : ρ) (i j : Nat) (w : World ρ α σ) :
    Report.of j (notify key line i cbs w).2 = if i ≤ j ∧ j < i + cbs.length then [(key, line)] else [] := by
  induction cbs generalizing i w with
  | nil =>
    rw [if_neg (by rw [List.length_nil]; omega)]
    rfl
  | cons cb cbs ih =>
    have hlater := ih (i + 1) (cb key line w).state
    rw [Report.of] at hlater
    rw [notify, Report.of, List.filter_cons, List.length_cons]
    by_cases hij : i = j
    · rw [if_neg (by omega), List.map_eq_nil_iff] at hlater
      rw [if_pos (decide_eq_true hij), hlater, if_pos (by omega)]
      rfl
    · rw [if_neg (by simpa using hij), hlater]
      exact if_congr (by omega) rfl rfl

/-- Each callback is called with the entries that are evicted, in their order. -/
theorem of_evict {j : Nat} (hj : j < cbs.length) (entries : List (String × ρ)) (w : World ρ α σ) :
    Report.of j (evict maxSize cbs entries w).reports = (evict maxSize cbs entries w).evicted := by
  induction entries generalizing w with
  | nil => rfl
  | cons e rest ih =>
    rw [evict]
    split
    · have hfirst := of_notify cbs e.1 e.2 0 j w
      rw [if_pos (by omega)] at hfirst
      have hrest := ih (notify e.1 e.2 0 cbs w).1
      rw [Report.of] at hfirst hrest ⊢
      rw [List.filter_append, List.map_append, hfirst, hrest]
      rfl
    · rfl

end Evict

/-! ### The lines as values -/

/-- The cache with the attributes of its lines. -/
def view (c : ObjectCache ρ α σ) : LRUCache α where
  maxSize := c.maxSize
  cache := c.cache.mapValues c.world.lines

/-- No line is under two keys. -/
def Unshared (c : ObjectCache ρ α σ) : Prop :=
  ∀ k k' line, c.cache.get? k = some line → c.cache.get? k' = some line → k = k'

/-- Callbacks that leave the lines as they are. -/
def Quiet (cbs : List (EvictionCallback ρ α σ)) : Prop :=
  ∀ cb ∈ cbs, ∀ key line w, (cb key line w).state.lines = w.lines

private theorem lines_notify {cbs : List (EvictionCallback ρ α σ)} (h : Quiet cbs) (key : String) (line : ρ) (i : Nat)
    (w : World ρ α σ) : (notify key line i cbs w).1.lines = w.lines := by
  induction cbs generalizing i w with
  | nil => rfl
  | cons cb cbs ih =>
    rw [notify, ih fun cb' hcb' => h cb' (List.mem_cons_of_mem cb hcb')]
    exact h cb List.mem_cons_self key line w

private theorem lines_evict {cbs : List (EvictionCallback ρ α σ)} (h : Quiet cbs) (maxSize : Nat)
    (entries : List (String × ρ)) (w : World ρ α σ) : (evict maxSize cbs entries w).world.lines = w.lines := by
  induction entries generalizing w with
  | nil => rfl
  | cons e rest ih =>
    rw [evict]
    split
    · rw [ih, lines_notify h]
    · rfl

theorem view_put {c : ObjectCache ρ α σ} (h : Quiet c.evictionCallbacks) (key : String) (line : ρ) :
    (c.put key line).1.view = (c.view.put key (c.world.lines line)).1 := by
  have hcache : (c.view.cache.moveToEnd key).set key (c.world.lines line) =
      ((c.cache.moveToEnd key).set key line).mapValues c.world.lines := by
    rw [Dict.mapValues_set, Dict.mapValues_moveToEnd]
    rfl
  have hlength : (LRUCache.excess c.maxSize
      (((c.cache.moveToEnd key).set key line).mapValues c.world.lines).entries).length =
      (evict c.maxSize c.evictionCallbacks ((c.cache.moveToEnd key).set key line).entries c.world).evicted.length := by
    rw [LRUCache.length_excess, evicted_evict, List.length_take, Dict.entries_mapValues, List.length_map]
    omega
  rw [LRUCache.put, hcache, view, put]
  simp only [lines_evict h, Dict.mapValues_drop, ← hlength]
  rfl

theorem unshared_moveToEnd {c : ObjectCache ρ α σ} (h : c.Unshared) (key : String) :
    Unshared { c with cache := c.cache.moveToEnd key } := by
  intro k k' line hk hk'
  rw [Dict.get?_moveToEnd] at hk hk'
  exact h k k' line hk hk'

variable [DecidableEq ρ]

private theorem view_assign {c : ObjectCache ρ α σ} (h : c.Unshared) {key : String} {line : ρ}
    (hline : c.cache.get? key = some line) (attributes : CacheLine α) :
    (c.assign line attributes).view = c.view.modify key attributes := by
  have hcache : c.cache.mapValues (Function.update c.world.lines line attributes) =
      (c.cache.mapValues c.world.lines).set key attributes := by
    have hkey : key ∈ (c.cache.mapValues c.world.lines).keys := by
      rw [Dict.keys_mapValues]
      exact Dict.mem_keys.2 ⟨line, hline⟩
    refine Dict.congr_entries ?_
    rw [Dict.entries_set_of_mem _ hkey, Dict.entries_mapValues, Dict.entries_mapValues, List.map_map]
    refine List.map_congr_left fun e he => ?_
    have hget : c.cache.get? e.1 = some e.2 := Dict.get?_of_mem he
    by_cases hek : e.1 = key
    · rw [hek, hline] at hget
      simp [hek, ← Option.some.inj hget]
    · have hne : e.2 ≠ line := by
        intro heq
        rw [heq] at hget
        exact hek (h e.1 key line hget hline)
      simp [hek, hne]
  rw [view, LRUCache.modify, view]
  exact congrArg (LRUCache.mk c.maxSize) hcache

theorem view_get {c : ObjectCache ρ α σ} (h : c.Unshared) (key : String) :
    (c.get key).1.view = (c.view.get key).1 ∧
      (c.get key).2.map (c.get key).1.world.lines = (c.view.get key).2 := by
  have hview : c.view.cache.get? key = (c.cache.get? key).map c.world.lines := Dict.get?_mapValues _ _ _
  cases hline : c.cache.get? key with
  | none =>
    rw [hline] at hview
    rw [get, hline, LRUCache.get_of_none hview]
    exact ⟨rfl, rfl⟩
  | some line =>
    rw [hline] at hview
    have hmoved : (c.cache.moveToEnd key).get? key = some line := by rw [Dict.get?_moveToEnd, hline]
    rw [get, hline, LRUCache.get_of_some hview]
    refine ⟨?_, ?_⟩
    · rw [view_assign (unshared_moveToEnd h key) hmoved, LRUCache.modify]
      simp only [view, Dict.mapValues_moveToEnd]
    · simp [assign]

theorem view_invalidate {c : ObjectCache ρ α σ} (h : c.Unshared) (key : String) :
    (c.invalidate key).1.view = (c.view.invalidate key).1 ∧
      (c.invalidate key).2.map (c.invalidate key).1.world.lines = (c.view.invalidate key).2 := by
  have hview : c.view.cache.get? key = (c.cache.get? key).map c.world.lines := Dict.get?_mapValues _ _ _
  cases hline : c.cache.get? key with
  | none =>
    rw [hline] at hview
    rw [invalidate, hline, LRUCache.invalidate, hview]
    exact ⟨rfl, rfl⟩
  | some line =>
    rw [hline] at hview
    rw [invalidate, hline, LRUCache.invalidate, hview]
    refine ⟨view_assign h hline _, ?_⟩
    simp [assign]

end ObjectCache

end DistributedSync
