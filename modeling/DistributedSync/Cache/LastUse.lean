import Mathlib.Data.List.Induction
import DistributedSync.Library.Recency
import DistributedSync.Cache.Objects

/-!
# The LRU cache over sequences of operations

The reference is the log of what the operations have answered, the newest first.  The log tells when a key was last
used, which line was put last under it and whether that line has left the cache since, with the eviction callbacks
called.  The cache is what the log says (`Refines`): it holds the lines that have not left, in the order of last use.
-/

namespace DistributedSync.ObjectCache

open Recency

variable {ρ α σ : Type}

inductive Op (ρ : Type) where
  | get (key : String)
  | put (key : String) (line : ρ)
  | invalidate (key : String)
  | remove (key : String)

/-- What an operation has answered. -/
inductive Event (ρ : Type) where
  | got (key : String) (line : Option ρ)
  | stored (key : String) (line : ρ) (evicted : List (String × ρ)) (reports : List (Report ρ))
  | invalidated (key : String) (line : Option ρ)
  | removed (key : String)

namespace Event

/-- The key that is used: a `put`, or a `get` that finds a line. -/
def uses : Event ρ → Option String
  | got key (some _) => some key
  | stored key _ _ _ => some key
  | _ => none

/-- The line that is put under the key. -/
def puts (key : String) : Event ρ → Option ρ
  | stored k line _ _ => if k = key then some line else none
  | _ => none

/-- The line leaves the cache: the key is removed, or the line is evicted, and each of the `n` callbacks is called
with it once. -/
def TakesOut (n : Nat) (key : String) (line : ρ) : Event ρ → Prop
  | stored _ _ evicted reports =>
    (key, line) ∈ evicted ∧ ∀ j < n, ((Report.of j reports).filter fun e => e.1 = key) = [(key, line)]
  | removed k => k = key
  | _ => False

end Event

def lastPut (key : String) : List (Event ρ) → Option ρ
  | [] => none
  | e :: log => (e.puts key).or (lastPut key log)

/-- The line has left the cache since the key was put for the last time. -/
def Left (n : Nat) (key : String) (line : ρ) : List (Event ρ) → Prop
  | [] => False
  | e :: log => e.TakesOut n key line ∨ (e.puts key = none ∧ Left n key line log)

/-- The cache and the log. -/
structure Logged (ρ α σ : Type) where
  cache : ObjectCache ρ α σ
  log : List (Event ρ) := []

def created (maxSize : Nat) (callbacks : List (EvictionCallback ρ α σ)) (w : World ρ α σ) : ObjectCache ρ α σ :=
  callbacks.foldl onEviction
    { maxSize := maxSize
      world := w }

namespace Logged

variable [DecidableEq ρ]

def step (s : Logged ρ α σ) : Op ρ → Logged ρ α σ
  | .get key => ⟨(s.cache.get key).1, .got key (s.cache.get key).2 :: s.log⟩
  | .put key line =>
    ⟨(s.cache.put key line).1,
      .stored key line (s.cache.put key line).2.evicted (s.cache.put key line).2.reports :: s.log⟩
  | .invalidate key => ⟨(s.cache.invalidate key).1, .invalidated key (s.cache.invalidate key).2 :: s.log⟩
  | .remove key => ⟨s.cache.remove key, .removed key :: s.log⟩

def run (s : Logged ρ α σ) (ops : List (Op ρ)) : Logged ρ α σ := ops.foldl step s

/-- The keys that have been used, the newest first. -/
def uses (s : Logged ρ α σ) : List (Option String) := s.log.map Event.uses

end Logged

/-- The cache is what the log says. -/
structure Refines (n : Nat) (s : Logged ρ α σ) : Prop where
  size : s.cache.cache.entries.length ≤ s.cache.maxSize
  order : InOrder s.uses s.cache.cache.keys
  lines : ∀ key line, s.cache.cache.get? key = some line ↔ lastPut key s.log = some line ∧ ¬Left n key line s.log

/-- A `put` evicts the keys that have not been used for the longest time, as many as there are too many, and each
callback is called with them, the oldest first. -/
structure EvictsOldest (s : Logged ρ α σ) (key : String) (line : ρ) : Prop where
  all : (s.cache.put key line).2.evicted ++ (s.cache.put key line).1.cache.entries =
    (s.cache.cache.erase key).entries ++ [(key, line)]
  oldest : InOrder (some key :: s.uses)
    (((s.cache.put key line).2.evicted ++ (s.cache.put key line).1.cache.entries).map Prod.fst)
  count : (s.cache.put key line).2.evicted.length =
    ((s.cache.cache.erase key).entries ++ [(key, line)]).length - s.cache.maxSize
  reported : ∀ j < s.cache.evictionCallbacks.length,
    Report.of j (s.cache.put key line).2.reports = (s.cache.put key line).2.evicted

/-! ### One operation -/

variable {s : Logged ρ α σ} {n : Nat} {key : String} {line : ρ}

private theorem Refines.evictsOldest (h : Refines n s) (key : String) (line : ρ) : EvictsOldest s key line where
  all := by
    rw [evicted_put, cache_put, Dict.entries_drop, List.take_append_drop, entries_stored]
  oldest := by
    have hkeys : InOrder s.uses (s.cache.cache.erase key).keys :=
      h.order.sublist (List.filter_sublist.map Prod.fst)
    have huse := hkeys.use (Dict.notMem_keys_erase s.cache.cache key)
    rw [evicted_put, cache_put, Dict.entries_drop, List.take_append_drop, entries_stored, List.map_append]
    exact huse
  count := by
    rw [evicted_put, List.length_take, entries_stored]
    omega
  reported j hj := of_evict _ _ hj _ _

private theorem lastPut_cons (e : Event ρ) (log : List (Event ρ)) :
    lastPut key (e :: log) = (e.puts key).or (lastPut key log) := rfl

private theorem left_cons (e : Event ρ) (log : List (Event ρ)) :
    Left n key line (e :: log) ↔ e.TakesOut n key line ∨ (e.puts key = none ∧ Left n key line log) := Iff.rfl

/-- An operation that neither puts a line nor takes one out. -/
theorem Refines.lines_of_same (h : Refines n s) {e : Event ρ} {found : Option ρ}
    (hfound : found = s.cache.cache.get? key) (hputs : e.puts key = none) (hout : ¬e.TakesOut n key line) :
    found = some line ↔ lastPut key (e :: s.log) = some line ∧ ¬Left n key line (e :: s.log) := by
  rw [hfound, h.lines, lastPut_cons, left_cons, hputs, Option.none_or]
  simp [hout]

private theorem created_eq (maxSize : Nat) (cbs : List (EvictionCallback ρ α σ)) (w : World ρ α σ) :
    created maxSize cbs w = { maxSize, evictionCallbacks := cbs, world := w } := by
  have hfold : ∀ (c : ObjectCache ρ α σ),
      cbs.foldl onEviction c = { c with evictionCallbacks := c.evictionCallbacks ++ cbs } := by
    induction cbs with
    | nil => simp
    | cons cb cbs ih => simp [ih, onEviction]
  rw [created, hfold, List.nil_append]

private theorem refines_created (maxSize : Nat) (cbs : List (EvictionCallback ρ α σ)) (w : World ρ α σ) :
    Refines cbs.length ⟨created maxSize cbs w, []⟩ := by
  rw [created_eq]
  exact ⟨Nat.zero_le _, .nil, fun key line => by simp [lastPut, Dict.get?, Dict.empty]⟩

variable [DecidableEq ρ]

private theorem Refines.step_get (h : Refines n s) (key : String) : Refines n (s.step (.get key)) := by
  rw [Logged.step, get]
  cases hline : s.cache.cache.get? key with
  | none => exact ⟨h.size, h.order.idle, fun k l => h.lines_of_same rfl rfl id⟩
  | some line =>
    refine ⟨?_, ?_, fun k l => ?_⟩
    · show (s.cache.cache.moveToEnd key).entries.length ≤ s.cache.maxSize
      rw [Dict.length_moveToEnd]
      exact h.size
    · have hrest : InOrder s.uses (s.cache.cache.erase key).keys :=
        h.order.sublist (List.filter_sublist.map Prod.fst)
      have huse := hrest.use (Dict.notMem_keys_erase s.cache.cache key)
      show InOrder (some key :: s.uses) ((s.cache.cache.moveToEnd key).entries.map Prod.fst)
      rw [Dict.entries_moveToEnd hline, List.map_append]
      exact huse
    · exact h.lines_of_same (Dict.get?_moveToEnd s.cache.cache key k) rfl id

private theorem Refines.step_put (h : Refines n s) (hn : n ≤ s.cache.evictionCallbacks.length) (key : String)
    (line : ρ) : Refines n (s.step (.put key line)) := by
  have hspec := h.evictsOldest key line
  have hcache := cache_put s.cache key line
  have hevicted := evicted_put s.cache key line
  rw [Logged.step]
  refine ⟨?_, ?_, fun k l => ?_⟩
  · show (s.cache.put key line).1.cache.entries.length ≤ s.cache.maxSize
    rw [hcache, Dict.entries_drop, List.length_drop]
    omega
  · exact hspec.oldest.sublist (List.sublist_append_right _ _ |>.map Prod.fst)
  · have hnodup : ((s.cache.put key line).2.evicted.map Prod.fst).Nodup := by
      rw [hevicted]
      exact (s.cache.stored key line).nodup.sublist ((List.take_sublist _ _).map Prod.fst)
    -- the callbacks have been called with each line that is evicted
    have hout : ((k, l) ∈ (s.cache.put key line).2.evicted ∧ ∀ j < n,
        ((Report.of j (s.cache.put key line).2.reports).filter fun e => e.1 = k) = [(k, l)]) ↔
        (k, l) ∈ (s.cache.put key line).2.evicted := by
      refine ⟨And.left, fun hmem => ⟨hmem, fun j hj => ?_⟩⟩
      rw [hspec.reported j (Nat.lt_of_lt_of_le hj hn)]
      exact Dict.filter_key_of_mem hnodup hmem
    have hstored : (s.cache.stored key line).get? k = if k = key then some line else s.cache.cache.get? k := by
      rw [stored, Dict.get?_set, Dict.get?_moveToEnd]
    rw [lastPut_cons, left_cons, Event.TakesOut, hout, Event.puts]
    show (s.cache.put key line).1.cache.get? k = some l ↔ _
    rw [hcache, Dict.get?_drop_eq_some, ← hevicted, hstored]
    by_cases hk : k = key
    · simp [hk]
    · rw [if_neg hk, if_neg (Ne.symm hk), h.lines, Option.none_or, and_assoc]
      refine and_congr_right fun _ => ?_
      rw [not_or, and_comm, eq_self, true_and]

private theorem Refines.step_invalidate (h : Refines n s) (key : String) : Refines n (s.step (.invalidate key)) := by
  rw [Logged.step, invalidate]
  cases s.cache.cache.get? key with
  | none => exact ⟨h.size, h.order.idle, fun k l => h.lines_of_same rfl rfl id⟩
  | some line => exact ⟨h.size, h.order.idle, fun k l => h.lines_of_same rfl rfl id⟩

private theorem Refines.step_remove (h : Refines n s) (key : String) : Refines n (s.step (.remove key)) := by
  have hsub : (s.cache.cache.erase key).entries.Sublist s.cache.cache.entries := List.filter_sublist
  refine ⟨Nat.le_trans hsub.length_le h.size, (h.order.sublist (hsub.map Prod.fst)).idle, fun k l => ?_⟩
  show (s.cache.cache.erase key).get? k = some l ↔
    (lastPut k s.log = some l ∧ ¬(key = k ∨ (none = none ∧ Left n k l s.log)))
  rw [Dict.get?_erase]
  by_cases hk : k = key
  · simp [hk]
  · rw [if_neg hk, h.lines]
    simp [Ne.symm hk]

/-! ### Sequences of operations -/

private theorem Logged.frame_step (s : Logged ρ α σ) (op : Op ρ) :
    (s.step op).cache.maxSize = s.cache.maxSize ∧
      (s.step op).cache.evictionCallbacks = s.cache.evictionCallbacks := by
  cases op with
  | get key =>
    rw [step, get]
    cases s.cache.cache.get? key with
    | none => exact ⟨rfl, rfl⟩
    | some line => exact ⟨rfl, rfl⟩
  | put key line => exact ⟨rfl, rfl⟩
  | invalidate key =>
    rw [step, invalidate]
    cases s.cache.cache.get? key with
    | none => exact ⟨rfl, rfl⟩
    | some line => exact ⟨rfl, rfl⟩
  | remove key => exact ⟨rfl, rfl⟩

theorem Refines.step (h : Refines n s) (hn : n ≤ s.cache.evictionCallbacks.length) (op : Op ρ) :
    Refines n (s.step op) := by
  cases op with
  | get key => exact h.step_get key
  | put key line => exact h.step_put hn key line
  | invalidate key => exact h.step_invalidate key
  | remove key => exact h.step_remove key

theorem Refines.run {maxSize : Nat} {cbs : List (EvictionCallback ρ α σ)} (h : Refines cbs.length s)
    (hsize : s.cache.maxSize = maxSize) (hcbs : s.cache.evictionCallbacks = cbs) (ops : List (Op ρ)) :
    Refines cbs.length (s.run ops) ∧ (s.run ops).cache.maxSize = maxSize ∧
      (s.run ops).cache.evictionCallbacks = cbs := by
  induction ops generalizing s with
  | nil => exact ⟨h, hsize, hcbs⟩
  | cons op ops ih =>
    have hframe := s.frame_step op
    have hn : cbs.length ≤ s.cache.evictionCallbacks.length :=
      Nat.le_of_eq (congrArg List.length hcbs.symm)
    exact ih (h.step hn op) (hframe.1.trans hsize) (hframe.2.trans hcbs)

private theorem found_get (c : ObjectCache ρ α σ) (key : String) : (c.get key).2 = c.cache.get? key := by
  rw [get]
  cases c.cache.get? key with
  | none => rfl
  | some line => rfl

/-- The cache and the reference: at most `maxSize` lines, in the order of last use, the oldest evicted and reported to
each callback, and a `get` that answers with the line put last unless it has left. -/
theorem refines_reference_lru (maxSize : Nat) (callbacks : List (EvictionCallback ρ α σ)) (w : World ρ α σ)
    (ops : List (Op ρ)) :
    let s := Logged.run ⟨created maxSize callbacks w, []⟩ ops
    s.cache.maxSize = maxSize ∧ s.cache.evictionCallbacks = callbacks ∧
      s.cache.cache.entries.length ≤ maxSize ∧
      InOrder s.uses s.cache.cache.keys ∧
      (∀ key line, EvictsOldest s key line) ∧
      ∀ key line, (s.cache.get key).2 = some line ↔
        lastPut key s.log = some line ∧ ¬Left callbacks.length key line s.log := by
  intro s
  obtain ⟨hrefines, hsize, hcbs⟩ : Refines callbacks.length s ∧ s.cache.maxSize = maxSize ∧
      s.cache.evictionCallbacks = callbacks :=
    (refines_created maxSize callbacks w).run (by rw [created_eq]) (by rw [created_eq]) ops
  refine ⟨hsize, hcbs, ?_, hrefines.order, hrefines.evictsOldest, fun key line => ?_⟩
  · rw [← hsize]
    exact hrefines.size
  · rw [found_get]
    exact hrefines.lines key line

/-! ### The cache with values -/

def Op.map {β : Type} (f : ρ → β) : Op ρ → Op β
  | .get key => .get key
  | .put key line => .put key (f line)
  | .invalidate key => .invalidate key
  | .remove key => .remove key

end DistributedSync.ObjectCache

namespace DistributedSync

def LRUCache.apply {α : Type} (c : LRUCache α) : ObjectCache.Op (CacheLine α) → LRUCache α
  | .get key => (c.get key).1
  | .put key line => (c.put key line).1
  | .invalidate key => (c.invalidate key).1
  | .remove key => { c with cache := c.cache.erase key }

namespace ObjectCache

variable {ρ α σ : Type}

/-- The line that is put is not under another key. -/
def Op.Own (c : ObjectCache ρ α σ) : Op ρ → Prop
  | .put key line => ∀ k, c.cache.get? k = some line → k = key
  | _ => True

theorem Unshared.put {c : ObjectCache ρ α σ} (h : c.Unshared) {key : String} {line : ρ}
    (hown : ∀ k, c.cache.get? k = some line → k = key) : (c.put key line).1.Unshared := by
  have hstored : ∀ k l, (c.put key line).1.cache.get? k = some l →
      (if k = key then some line else c.cache.get? k) = some l := by
    intro k l hk
    rw [cache_put, Dict.get?_drop_eq_some, stored, Dict.get?_set, Dict.get?_moveToEnd] at hk
    exact hk.1
  intro k k' l hk hk'
  have hk := hstored k l hk
  have hk' := hstored k' l hk'
  by_cases hkey : k = key
  · rw [if_pos hkey, Option.some.injEq] at hk
    by_cases hkey' : k' = key
    · rw [hkey, hkey']
    · rw [if_neg hkey', ← hk] at hk'
      exact absurd (hown k' hk') hkey'
  · rw [if_neg hkey] at hk
    by_cases hkey' : k' = key
    · rw [if_pos hkey', Option.some.injEq] at hk'
      exact absurd (hown k (hk' ▸ hk)) hkey
    · rw [if_neg hkey'] at hk'
      exact h k k' l hk hk'

variable [DecidableEq ρ]

/-- Where no line is under two keys, an operation does to the values what it does to the lines. -/
theorem view_step {s : Logged ρ α σ} (h : s.cache.Unshared) (hquiet : Quiet s.cache.evictionCallbacks) (op : Op ρ)
    (hown : op.Own s.cache) : (s.step op).cache.view = s.cache.view.apply (op.map s.cache.world.lines) := by
  cases op with
  | get key => exact (view_get h key).1
  | put key line => exact view_put hquiet key line
  | invalidate key => exact (view_invalidate h key).1
  | remove key =>
    refine congrArg (LRUCache.mk s.cache.maxSize) ?_
    exact Dict.mapValues_erase s.cache.cache s.cache.world.lines key

theorem Unshared.step {s : Logged ρ α σ} (h : s.cache.Unshared) (op : Op ρ) (hown : op.Own s.cache) :
    (s.step op).cache.Unshared := by
  cases op with
  | get key =>
    rw [Logged.step, get]
    cases s.cache.cache.get? key with
    | none => exact h
    | some line => exact unshared_moveToEnd h key
  | put key line => exact h.put hown
  | invalidate key =>
    rw [Logged.step, invalidate]
    cases s.cache.cache.get? key with
    | none => exact h
    | some line => exact h
  | remove key =>
    intro k k' line hk hk'
    have herase : ∀ k'', (s.cache.cache.erase key).get? k'' = some line → s.cache.cache.get? k'' = some line := by
      intro k'' hk''
      rw [Dict.get?_erase, Option.ite_none_left_eq_some] at hk''
      exact hk''.2
    exact h k k' line (herase k hk) (herase k' hk')

/-- The lines of a run in which each line is put under one key stay apart, so `view_step` is about each of its
steps. -/
theorem unshared_run {s : Logged ρ α σ} (h : s.cache.Unshared) {ops : List (Op ρ)}
    (hown : ∀ pre op, pre ++ [op] <+: ops → op.Own (s.run pre).cache) : (s.run ops).cache.Unshared := by
  induction ops using List.reverseRecOn with
  | nil => exact h
  | append_singleton ops op ih =>
    have hbefore : (s.run ops).cache.Unshared :=
      ih fun pre op' hpre => hown pre op' (hpre.trans (List.prefix_append ops [op]))
    rw [Logged.run, List.foldl_append]
    exact hbefore.step op (hown ops op (List.prefix_refl _))

end ObjectCache

end DistributedSync
