import Mathlib.Data.List.Induction
import Mathlib.Data.List.Nodup

/-!
# Insertion-ordered dictionaries

A dictionary that iterates over its keys in the order of their first insertion: setting the value of a key that is
present keeps its place, and a new key goes to the end.  Each key occurs once, by the field `nodup`.
-/

structure Dict (κ α : Type) where
  entries : List (κ × α)
  nodup : (entries.map Prod.fst).Nodup
  deriving DecidableEq

namespace Dict

variable {κ α : Type}

def empty : Dict κ α := ⟨[], List.nodup_nil⟩

theorem congr_entries {d d' : Dict κ α} (h : d.entries = d'.entries) : d = d' := by
  cases d
  cases d'
  cases h
  rfl

def keys (d : Dict κ α) : List κ := d.entries.map Prod.fst

theorem nodup_keys (d : Dict κ α) : d.keys.Nodup := d.nodup

/-- The entries after the first `n`. -/
def drop (d : Dict κ α) (n : Nat) : Dict κ α where
  entries := d.entries.drop n
  nodup := d.nodup.sublist ((List.drop_sublist n d.entries).map Prod.fst)

theorem entries_drop (d : Dict κ α) (n : Nat) : (d.drop n).entries = d.entries.drop n := rfl

variable {β : Type}

/-- The same keys in the same order, with `f` applied to their values. -/
def mapValues (d : Dict κ α) (f : α → β) : Dict κ β where
  entries := d.entries.map fun e => (e.1, f e.2)
  nodup := by rw [List.map_map]; exact d.nodup

theorem entries_mapValues (d : Dict κ α) (f : α → β) :
    (d.mapValues f).entries = d.entries.map fun e => (e.1, f e.2) := rfl

theorem keys_mapValues (d : Dict κ α) (f : α → β) : (d.mapValues f).keys = d.keys := by
  rw [keys, mapValues, List.map_map]
  rfl

theorem mapValues_drop (d : Dict κ α) (f : α → β) (n : Nat) : (d.drop n).mapValues f = (d.mapValues f).drop n :=
  congr_entries List.map_drop

variable [DecidableEq κ]

def get? (d : Dict κ α) (k : κ) : Option α := (d.entries.find? fun e => e.1 = k).map Prod.snd

/-- The value of `k` is put in its place. -/
private def putAt (entries : List (κ × α)) (k : κ) (v : α) : List (κ × α) :=
  entries.map fun e => if e.1 = k then (k, v) else e

private theorem putAt_keys (entries : List (κ × α)) (k : κ) (v : α) :
    (putAt entries k v).map Prod.fst = entries.map Prod.fst := by
  rw [putAt, List.map_map]
  refine List.map_congr_left fun e _ => ?_
  by_cases h : e.1 = k <;> simp [h]

def set (d : Dict κ α) (k : κ) (v : α) : Dict κ α :=
  if h : k ∈ d.keys then ⟨putAt d.entries k v, by rw [putAt_keys]; exact d.nodup⟩
  else ⟨d.entries ++ [(k, v)], by
    rw [List.map_append, List.map_singleton]
    exact List.nodup_append.2 ⟨d.nodup, List.nodup_singleton k, fun a ha b hb => by
      rw [List.mem_singleton.1 hb]
      rintro rfl
      exact h ha⟩⟩

def erase (d : Dict κ α) (k : κ) : Dict κ α where
  entries := d.entries.filter fun e => e.1 ≠ k
  nodup := d.nodup.sublist (List.filter_sublist.map Prod.fst)

/-- The entry of `k`, if there is one, becomes the last. -/
def moveToEnd (d : Dict κ α) (k : κ) : Dict κ α :=
  match d.get? k with
  | none => d
  | some v => (d.erase k).set k v

theorem mem_keys {d : Dict κ α} {k : κ} : k ∈ d.keys ↔ ∃ v, d.get? k = some v := by
  simp only [keys, get?, List.mem_map, Option.map_eq_some_iff]
  constructor
  · rintro ⟨e, he, rfl⟩
    obtain ⟨e', he'⟩ := Option.isSome_iff_exists.1
      (List.find?_isSome (p := fun x => decide (x.1 = e.1)) |>.2 ⟨e, he, decide_eq_true rfl⟩)
    exact ⟨e'.2, e', he', rfl⟩
  · rintro ⟨v, e, he, rfl⟩
    exact ⟨e, List.mem_of_find?_eq_some he, by simpa using List.find?_some he⟩

theorem mem_of_get? {d : Dict κ α} {k : κ} {v : α} (h : d.get? k = some v) : (k, v) ∈ d.entries := by
  obtain ⟨e, he, rfl⟩ := Option.map_eq_some_iff.1 h
  have hk : e.1 = k := by simpa using List.find?_some he
  subst hk
  exact List.mem_of_find?_eq_some he

theorem get?_eq_none {d : Dict κ α} {k : κ} (h : k ∉ d.keys) : d.get? k = none := by
  rw [Option.eq_none_iff_forall_ne_some]
  exact fun v hv => h (mem_keys.2 ⟨v, hv⟩)

private theorem find?_putAt_self {entries : List (κ × α)} {k : κ} {v : α} (h : k ∈ entries.map Prod.fst) :
    (putAt entries k v).find? (fun e => e.1 = k) = some (k, v) := by
  induction entries with
  | nil => cases h
  | cons e es ih =>
    by_cases he : e.1 = k
    · simp [putAt, he]
    · have hk : k ∈ es.map Prod.fst := by
        rcases List.mem_cons.1 h with h | h
        · exact absurd h.symm he
        · exact h
      rw [putAt, List.map_cons, if_neg he, List.find?_cons_of_neg (by simpa using he)]
      exact ih hk

private theorem find?_putAt_of_ne {entries : List (κ × α)} {k k' : κ} {v : α} (h : k' ≠ k) :
    (putAt entries k v).find? (fun e => e.1 = k') = entries.find? fun e => e.1 = k' := by
  induction entries with
  | nil => rfl
  | cons e es ih =>
    by_cases he : e.1 = k
    · rw [putAt, List.map_cons, if_pos he, List.find?_cons_of_neg (by simpa using h.symm),
        List.find?_cons_of_neg (by rw [he]; simpa using h.symm)]
      exact ih
    · rw [putAt, List.map_cons, if_neg he, List.find?_cons, List.find?_cons]
      rw [putAt] at ih
      rw [ih]

@[simp] theorem get?_set_self (d : Dict κ α) (k : κ) (v : α) : (d.set k v).get? k = some v := by
  by_cases h : k ∈ d.keys
  · rw [set, dif_pos h, get?, find?_putAt_self h]
    rfl
  · have hnone : d.entries.find? (fun e => e.1 = k) = none := by
      simpa [get?] using get?_eq_none h
    rw [set, dif_neg h, get?, List.find?_append, hnone]
    simp

theorem get?_set_of_ne (d : Dict κ α) {k k' : κ} (v : α) (h : k' ≠ k) : (d.set k v).get? k' = d.get? k' := by
  by_cases hk : k ∈ d.keys
  · rw [set, dif_pos hk, get?, find?_putAt_of_ne h, get?]
  · rw [set, dif_neg hk, get?, List.find?_append, List.find?_cons_of_neg (by simpa using h.symm),
      List.find?_nil, Option.or_none, get?]

theorem get?_set (d : Dict κ α) (k k' : κ) (v : α) :
    (d.set k v).get? k' = if k' = k then some v else d.get? k' := by
  by_cases h : k' = k
  · rw [if_pos h, h, get?_set_self]
  · rw [if_neg h, get?_set_of_ne d v h]

theorem mem_keys_set {d : Dict κ α} {k k' : κ} {v : α} : k' ∈ (d.set k v).keys ↔ k' = k ∨ k' ∈ d.keys := by
  rw [mem_keys, mem_keys, get?_set]
  by_cases h : k' = k
  · simp [h]
  · simp [h]

@[simp] theorem get?_erase_self (d : Dict κ α) (k : κ) : (d.erase k).get? k = none := by
  refine get?_eq_none fun h => ?_
  obtain ⟨e, he, hk⟩ := List.mem_map.1 h
  have hne : e.1 ≠ k := by simpa using (List.mem_filter.1 he).2
  exact hne hk

theorem get?_erase_of_ne (d : Dict κ α) {k k' : κ} (h : k' ≠ k) : (d.erase k).get? k' = d.get? k' := by
  have hkey : (fun e : κ × α => decide (decide (e.1 ≠ k) = true) && decide (decide (e.1 = k') = true)) =
      fun e => decide (e.1 = k') := by
    funext e
    by_cases he : e.1 = k'
    · simp [he, h]
    · simp [he]
  rw [get?, erase, List.find?_filter, get?]
  simp only [Bool.decide_and, hkey]

/-! ### The order of the entries -/

theorem get?_of_mem {d : Dict κ α} {k : κ} {v : α} (h : (k, v) ∈ d.entries) : d.get? k = some v := by
  obtain ⟨v', hv'⟩ := mem_keys.1 (List.mem_map_of_mem h : k ∈ d.keys)
  have heq : (k, v') = (k, v) := List.inj_on_of_nodup_map d.nodup (mem_of_get? hv') h rfl
  rw [hv', (Prod.mk.inj heq).2]

/-- Setting the value that a key has changes nothing. -/
theorem set_eq_self_iff {d : Dict κ α} {k : κ} {v : α} : d.set k v = d ↔ d.get? k = some v := by
  constructor
  · intro h
    rw [← h, get?_set_self]
  · intro h
    have hk : k ∈ d.keys := mem_keys.2 ⟨v, h⟩
    have hkeep : ∀ e ∈ d.entries, (if e.1 = k then (k, v) else e) = e := by
      intro e he
      by_cases hek : e.1 = k
      · have hv : d.get? k = some e.2 := get?_of_mem (hek ▸ he)
        rw [h] at hv
        rw [if_pos hek, ← hek, Option.some.inj hv]
      · rw [if_neg hek]
    have hentries : (d.set k v).entries = d.entries := by
      rw [set, dif_pos hk]
      show d.entries.map (fun e => if e.1 = k then (k, v) else e) = d.entries
      rw [List.map_congr_left hkeep, List.map_id']
    exact congr_entries hentries

/-- An entry is either dropped or kept as it is. -/
theorem get?_drop (d : Dict κ α) (n : Nat) (k : κ) : (d.drop n).get? k = none ∨ (d.drop n).get? k = d.get? k := by
  cases h : (d.drop n).get? k with
  | none => exact Or.inl rfl
  | some v =>
    have hmem : (k, v) ∈ d.entries := List.mem_of_mem_drop (mem_of_get? h)
    exact Or.inr (get?_of_mem hmem).symm

theorem entries_erase_of_notMem {d : Dict κ α} {k : κ} (h : k ∉ d.keys) : (d.erase k).entries = d.entries := by
  rw [erase, List.filter_eq_self]
  intro e he
  have hne : e.1 ≠ k := fun heq => h (heq ▸ List.mem_map_of_mem he)
  simpa using hne

theorem entries_set_of_notMem {d : Dict κ α} {k : κ} (v : α) (h : k ∉ d.keys) :
    (d.set k v).entries = d.entries ++ [(k, v)] := by
  rw [set, dif_neg h]

theorem notMem_keys_erase (d : Dict κ α) (k : κ) : k ∉ (d.erase k).keys := by
  intro h
  obtain ⟨v, hv⟩ := mem_keys.1 h
  rw [get?_erase_self] at hv
  cases hv

theorem entries_set_of_mem {d : Dict κ α} {k : κ} (v : α) (h : k ∈ d.keys) :
    (d.set k v).entries = d.entries.map fun e => if e.1 = k then (k, v) else e := by
  rw [set, dif_pos h]
  rfl

@[simp] theorem get?_moveToEnd (d : Dict κ α) (k k' : κ) : (d.moveToEnd k).get? k' = d.get? k' := by
  rw [moveToEnd]
  cases h : d.get? k with
  | none => rfl
  | some v =>
    by_cases hk : k' = k
    · rw [hk, get?_set_self, h]
    · rw [get?_set_of_ne _ _ hk, get?_erase_of_ne d hk]

/-- A value that is set after its key has been moved is the last one. -/
theorem entries_set_moveToEnd (d : Dict κ α) (k : κ) (v : α) :
    ((d.moveToEnd k).set k v).entries = (d.erase k).entries ++ [(k, v)] := by
  rw [moveToEnd]
  cases h : d.get? k with
  | none =>
    have hk : k ∉ d.keys := fun hk => by
      obtain ⟨v', hv'⟩ := mem_keys.1 hk
      rw [h] at hv'
      cases hv'
    rw [entries_set_of_notMem v hk, entries_erase_of_notMem hk]
  | some v' =>
    have hentries := entries_set_of_notMem v' (notMem_keys_erase d k)
    have hk : k ∈ ((d.erase k).set k v').keys := mem_keys_set.2 (Or.inl rfl)
    have hkeep : ∀ e ∈ (d.erase k).entries, (if e.1 = k then (k, v) else e) = e := by
      intro e he
      have hmem : e.1 ∈ (d.erase k).keys := List.mem_map_of_mem he
      have hne : e.1 ≠ k := by
        intro heq
        rw [heq] at hmem
        exact notMem_keys_erase d k hmem
      rw [if_neg hne]
    rw [set, dif_pos hk]
    simp only [putAt, hentries, List.map_append, List.map_singleton, if_true]
    rw [List.map_congr_left hkeep, List.map_id']

/-- An entry stays unless it is among those that are dropped. -/
theorem get?_drop_eq_some {d : Dict κ α} {n : Nat} {k : κ} {v : α} :
    (d.drop n).get? k = some v ↔ d.get? k = some v ∧ (k, v) ∉ d.entries.take n := by
  have hsplit := d.nodup
  rw [← List.take_append_drop n d.entries, List.map_append] at hsplit
  have hdisjoint := (List.nodup_append.1 hsplit).2.2
  constructor
  · intro h
    have hmem : (k, v) ∈ d.entries.drop n := mem_of_get? h
    refine ⟨get?_of_mem (List.mem_of_mem_drop hmem), fun htake => ?_⟩
    exact hdisjoint k (List.mem_map_of_mem htake) k (List.mem_map_of_mem hmem) rfl
  · rintro ⟨h, htake⟩
    have hmem := mem_of_get? h
    rw [← List.take_append_drop n d.entries] at hmem
    exact get?_of_mem ((List.mem_append.1 hmem).resolve_left htake)

theorem entries_moveToEnd {d : Dict κ α} {k : κ} {v : α} (h : d.get? k = some v) :
    (d.moveToEnd k).entries = (d.erase k).entries ++ [(k, v)] := by
  rw [moveToEnd, h]
  exact entries_set_of_notMem v (notMem_keys_erase d k)

theorem length_moveToEnd (d : Dict κ α) (k : κ) : (d.moveToEnd k).entries.length = d.entries.length := by
  have hperm : (d.moveToEnd k).keys.Perm d.keys := by
    refine (List.perm_ext_iff_of_nodup (d.moveToEnd k).nodup_keys d.nodup_keys).2 fun k' => ?_
    rw [mem_keys, mem_keys, get?_moveToEnd]
  simpa [keys] using hperm.length_eq

theorem get?_erase (d : Dict κ α) (k k' : κ) : (d.erase k).get? k' = if k' = k then none else d.get? k' := by
  by_cases h : k' = k
  · rw [if_pos h, h, get?_erase_self]
  · rw [if_neg h, get?_erase_of_ne d h]

/-- The entries of a key are its value. -/
theorem filter_key_of_mem {l : List (κ × α)} (hl : (l.map Prod.fst).Nodup) {k : κ} {v : α} (h : (k, v) ∈ l) :
    l.filter (fun e => e.1 = k) = [(k, v)] := by
  induction l with
  | nil => cases h
  | cons e l ih =>
    rw [List.map_cons, List.nodup_cons] at hl
    rcases List.mem_cons.1 h with rfl | hmem
    · have hnone : l.filter (fun e => e.1 = k) = [] := by
        rw [List.filter_eq_nil_iff]
        intro e he hk
        have hkey : e.1 = k := of_decide_eq_true hk
        exact hl.1 (List.mem_map.2 ⟨e, he, hkey⟩)
      rw [List.filter_cons_of_pos (by simp), hnone]
    · have hne : e.1 ≠ k := by
        intro heq
        exact hl.1 (List.mem_map.2 ⟨(k, v), hmem, heq.symm⟩)
      rw [List.filter_cons_of_neg (by simpa using hne)]
      exact ih hl.2 hmem

theorem keys_set (d : Dict κ α) (k : κ) (v : α) :
    (d.set k v).keys = if k ∈ d.keys then d.keys else d.keys ++ [k] := by
  by_cases hk : k ∈ d.keys
  · rw [if_pos hk, keys, set, dif_pos hk]
    exact putAt_keys d.entries k v
  · rw [if_neg hk, keys, entries_set_of_notMem v hk, List.map_append]
    rfl

/-- A dictionary is determined by its keys and their values. -/
theorem entries_eq_map {d : Dict κ α} {f : κ → α} (hf : ∀ k ∈ d.keys, d.get? k = some (f k)) :
    d.entries = d.keys.map fun k => (k, f k) := by
  have hentry : ∀ e ∈ d.entries, (e.1, f e.1) = e := by
    intro e he
    have hvalue : d.get? e.1 = some e.2 := get?_of_mem he
    rw [hf e.1 (List.mem_map_of_mem he)] at hvalue
    rw [Option.some.inj hvalue]
  rw [keys, List.map_map]
  exact (List.map_id d.entries).symm.trans (List.map_congr_left fun e he => (hentry e he).symm)

/-! ### Dictionaries that are filled in a loop -/

/-- The entries are set one after the other. -/
def fill (d : Dict κ α) (l : List (κ × α)) : Dict κ α := l.foldl (fun d e => d.set e.1 e.2) d

theorem fill_concat (d : Dict κ α) (l : List (κ × α)) (e : κ × α) : d.fill (l ++ [e]) = (d.fill l).set e.1 e.2 := by
  rw [fill, List.foldl_append, List.foldl_cons, List.foldl_nil, fill]

theorem mem_keys_fill {d : Dict κ α} {l : List (κ × α)} {k : κ} :
    k ∈ (d.fill l).keys ↔ k ∈ l.map Prod.fst ∨ k ∈ d.keys := by
  induction l generalizing d with
  | nil => simp [fill]
  | cons e l ih =>
    have hcons : d.fill (e :: l) = (d.set e.1 e.2).fill l := rfl
    rw [hcons, ih, mem_keys_set, List.map_cons, List.mem_cons]
    exact or_left_comm.trans or_assoc.symm

/-- The last entry of a key counts. -/
theorem get?_fill_empty {l : List (κ × α)} {k : κ} {v : α} :
    (empty.fill l).get? k = some v ↔ ∃ before after, l = before ++ (k, v) :: after ∧ k ∉ after.map Prod.fst := by
  constructor
  · intro h
    generalize hr : l.reverse = r at h
    obtain rfl : l = r.reverse := by rw [← hr, List.reverse_reverse]
    clear hr
    induction r with
    | nil => cases h
    | cons e r ih =>
      rw [List.reverse_cons, fill_concat, get?_set] at h
      by_cases hk : k = e.1
      · rw [if_pos hk, Option.some.injEq] at h
        refine ⟨r.reverse, [], ?_, List.not_mem_nil⟩
        rw [List.reverse_cons, hk, ← h]
      · rw [if_neg hk] at h
        obtain ⟨before, after, hsplit, hnot⟩ := ih h
        refine ⟨before, after ++ [e], ?_, ?_⟩
        · rw [List.reverse_cons, hsplit, List.append_assoc, List.cons_append]
        · rw [List.map_append, List.mem_append, List.map_singleton, List.mem_singleton]
          rintro (hmem | heq)
          · exact hnot hmem
          · exact hk heq
  · rintro ⟨before, after, rfl, hnot⟩
    have hfill : ∀ (d : Dict κ α), d.get? k = some v → k ∉ after.map Prod.fst → (d.fill after).get? k = some v := by
      clear hnot
      intro d hd hnot
      induction after generalizing d with
      | nil => exact hd
      | cons e after ih =>
        rw [List.map_cons, List.mem_cons, not_or] at hnot
        refine ih (d.set e.1 e.2) ?_ hnot.2
        rw [get?_set_of_ne _ _ hnot.1]
        exact hd
    have hsplit : empty.fill (before ++ (k, v) :: after) = ((empty.fill before).set k v).fill after := by
      rw [fill, List.foldl_append, List.foldl_cons]
      rfl
    rw [hsplit]
    exact hfill _ (get?_set_self _ _ _) hnot

/-- Different keys stay in their order. -/
theorem entries_fill {d : Dict κ α} {l : List (κ × α)} (h : (d.keys ++ l.map Prod.fst).Nodup) :
    (d.fill l).entries = d.entries ++ l := by
  induction l generalizing d with
  | nil => exact (List.append_nil _).symm
  | cons e l ih =>
    rw [List.map_cons] at h
    have hnot : e.1 ∉ d.keys := fun hmem => (List.nodup_append.1 h).2.2 e.1 hmem e.1 List.mem_cons_self rfl
    have hentries := entries_set_of_notMem e.2 hnot
    have hkeys : (d.set e.1 e.2).keys = d.keys ++ [e.1] := by
      rw [keys, hentries, List.map_append, List.map_singleton, keys]
    have hcons : d.fill (e :: l) = (d.set e.1 e.2).fill l := rfl
    rw [hcons, ih (by rw [hkeys, List.append_assoc, List.singleton_append]; exact h), hentries, List.append_assoc,
      List.singleton_append]

/-- The last entry of a key is its value. -/
theorem get?_fill (l : List (κ × α)) (k : κ) :
    (empty.fill l).get? k = ((l.filter fun e => e.1 = k).getLast?).map Prod.snd := by
  induction l using List.reverseRecOn with
  | nil => rfl
  | append_singleton l e ih =>
    rw [fill_concat, get?_set, List.filter_append]
    by_cases hk : k = e.1
    · rw [if_pos hk, List.filter_cons_of_pos (by simp [hk]), List.filter_nil, List.getLast?_concat]
      rfl
    · rw [if_neg hk, List.filter_cons_of_neg (by simpa using fun h => hk h.symm), List.filter_nil, List.append_nil, ih]

/-- The keys stand in the order in which they occur first. -/
theorem keys_fill (l : List (κ × α)) : (empty.fill l).keys = (l.map Prod.fst).eraseDups := by
  induction l using List.reverseRecOn with
  | nil => rfl
  | append_singleton l e ih =>
    have hmem : e.1 ∈ (l.map Prod.fst).eraseDups ↔ e.1 ∈ l.map Prod.fst := List.mem_eraseDups
    rw [fill_concat, keys_set, ih, List.map_append, List.map_singleton, List.eraseDups_append]
    by_cases he : e.1 ∈ l.map Prod.fst
    · simp [he, List.removeAll]
    · simp [he, List.removeAll, List.eraseDups_cons]

/-- Every entry changes the value of its key, which is `a` at first. -/
def accumulate {β : Type} (g : α → β → α) (a : α) (d : Dict κ α) (l : List (κ × β)) : Dict κ α :=
  l.foldl (fun d e => d.set e.1 (g ((d.get? e.1).getD a) e.2)) d

theorem accumulate_concat {β : Type} (g : α → β → α) (a : α) (d : Dict κ α) (l : List (κ × β)) (e : κ × β) :
    accumulate g a d (l ++ [e]) =
      (accumulate g a d l).set e.1 (g (((accumulate g a d l).get? e.1).getD a) e.2) := by
  rw [accumulate, List.foldl_append, List.foldl_cons, List.foldl_nil, accumulate]

theorem get?_accumulate {β : Type} (g : α → β → α) (a : α) (l : List (κ × β)) (k : κ) :
    (accumulate g a empty l).get? k =
      if k ∈ l.map Prod.fst then some (((l.filter fun e => e.1 = k).map Prod.snd).foldl g a) else none := by
  induction l using List.reverseRecOn with
  | nil => rfl
  | append_singleton l e ih =>
    rw [accumulate_concat, get?_set, List.map_append, List.filter_append]
    by_cases hk : k = e.1
    · subst hk
      rw [ih]
      by_cases hmem : e.1 ∈ l.map Prod.fst
      · simp [hmem]
      · have hnone : (l.filter fun x => x.1 = e.1) = [] := by
          rw [List.filter_eq_nil_iff]
          intro x hx heq
          exact hmem (List.mem_map.2 ⟨x, hx, of_decide_eq_true heq⟩)
        simp [hmem, hnone]
    · have hne : ¬e.1 = k := fun h => hk h.symm
      have hmem : k ∈ l.map Prod.fst ++ [e].map Prod.fst ↔ k ∈ l.map Prod.fst := by simp [hk]
      rw [if_neg hk, ih, List.filter_cons_of_neg (by simpa using hne), List.filter_nil, List.append_nil]
      simp only [hmem]

/-- The values are collected under their keys (`setdefault(k, []).append(v)`). -/
def collect (d : Dict κ (List α)) (l : List (κ × α)) : Dict κ (List α) :=
  l.foldl (fun d e => d.set e.1 ((d.get? e.1).getD [] ++ [e.2])) d

theorem collect_eq_accumulate (d : Dict κ (List α)) (l : List (κ × α)) :
    d.collect l = accumulate (fun vs v => vs ++ [v]) [] d l := rfl

theorem get?_collect (l : List (κ × α)) (k : κ) : (empty.collect l).get? k =
    if k ∈ l.map Prod.fst then some ((l.filter fun e => e.1 = k).map Prod.snd) else none := by
  have hvalues (vs : List α) : vs.foldl (fun vs v => vs ++ [v]) [] = vs := by
    rw [List.foldl_append_eq_append, List.nil_append, ← List.flatMap_def, List.flatMap_singleton']
  rw [collect_eq_accumulate, get?_accumulate, hvalues]

/-- One key collects all values. -/
theorem entries_collect_const {l : List α} (hl : l ≠ []) (k : κ) :
    (empty.collect (l.map fun v => (k, v))).entries = [(k, l)] := by
  induction l using List.reverseRecOn with
  | nil => exact absurd rfl hl
  | append_singleton l v ih =>
    have hconcat : (empty.collect ((l ++ [v]).map fun v => (k, v)) : Dict κ (List α)) =
        (empty.collect (l.map fun v => (k, v))).set k
          (((empty.collect (l.map fun v => (k, v))).get? k).getD [] ++ [v]) := by
      rw [collect, List.map_append, List.map_singleton, List.foldl_append, List.foldl_cons, List.foldl_nil, collect]
    rw [hconcat]
    by_cases hnil : l = []
    · subst hnil
      rfl
    · have hentries := ih hnil
      have hvalue : (empty.collect (l.map fun v => (k, v))).get? k = some l :=
        get?_of_mem (by rw [hentries]; exact List.mem_singleton_self _)
      have hk : k ∈ (empty.collect (l.map fun v => (k, v))).keys := mem_keys.2 ⟨l, hvalue⟩
      rw [entries_set_of_mem _ hk, hentries, hvalue]
      simp

/-- The keys of the entries with a value. -/
theorem keys_of_value [DecidableEq α] (d : Dict κ α) (v : α) :
    (d.entries.filter fun e => e.2 = v).map Prod.fst = d.keys.filter fun k => d.get? k = some v := by
  rw [keys, List.filter_map]
  congr 1
  refine List.filter_congr fun e he => ?_
  have hvalue : d.get? e.1 = some e.2 := get?_of_mem he
  simp [hvalue]

/-- Counting (`d[k] = d.get(k, 0) + 1`). -/
def tally (d : Dict κ Nat) (l : List κ) : Dict κ Nat := l.foldl (fun d k => d.set k ((d.get? k).getD 0 + 1)) d

theorem entries_tally {d : Dict κ Nat} {l : List κ} (h : ∀ k ∈ l, k ∈ d.keys) :
    (d.tally l).entries = d.entries.map fun e => (e.1, e.2 + l.count e.1) := by
  induction l generalizing d with
  | nil => simp [tally]
  | cons k l ih =>
    have hk : k ∈ d.keys := h k List.mem_cons_self
    obtain ⟨n, hn⟩ := mem_keys.1 hk
    have hrest : ∀ k' ∈ l, k' ∈ (d.set k ((d.get? k).getD 0 + 1)).keys := fun k' hk' =>
      mem_keys_set.2 (Or.inr (h k' (List.mem_cons_of_mem k hk')))
    have hcons : d.tally (k :: l) = (d.set k ((d.get? k).getD 0 + 1)).tally l := rfl
    rw [hcons, ih hrest, entries_set_of_mem _ hk, List.map_map]
    refine List.map_congr_left fun e he => ?_
    rw [Function.comp_apply, List.count_cons]
    by_cases hek : e.1 = k
    · have hvalue : d.get? k = some e.2 := get?_of_mem (hek ▸ he)
      simp only [hek, hvalue, Option.getD_some, if_true, beq_self_eq_true, Prod.mk.injEq, true_and]
      omega
    · have hne : ¬k = e.1 := fun heq => hek heq.symm
      simp [hek, hne]

/-! ### Values of another type -/

@[simp] theorem get?_mapValues (d : Dict κ α) (f : α → β) (k : κ) : (d.mapValues f).get? k = (d.get? k).map f := by
  rw [get?, mapValues, List.find?_map, get?, Option.map_map, Option.map_map]
  rfl

theorem mapValues_erase (d : Dict κ α) (f : α → β) (k : κ) : (d.erase k).mapValues f = (d.mapValues f).erase k := by
  refine congr_entries ?_
  simp only [mapValues, erase, List.filter_map]
  rfl

theorem mapValues_set (d : Dict κ α) (f : α → β) (k : κ) (v : α) :
    (d.set k v).mapValues f = (d.mapValues f).set k (f v) := by
  refine congr_entries ?_
  by_cases hk : k ∈ d.keys
  · have hk' : k ∈ (d.mapValues f).keys := by rwa [keys_mapValues]
    rw [set, dif_pos hk, set, dif_pos hk']
    simp only [mapValues, putAt, List.map_map]
    refine List.map_congr_left fun e _ => ?_
    by_cases he : e.1 = k
    · simp [he]
    · simp [he]
  · have hk' : k ∉ (d.mapValues f).keys := by rwa [keys_mapValues]
    rw [entries_set_of_notMem (f v) hk', entries_mapValues, entries_set_of_notMem v hk, List.map_append]
    rfl

theorem mapValues_moveToEnd (d : Dict κ α) (f : α → β) (k : κ) :
    (d.moveToEnd k).mapValues f = (d.mapValues f).moveToEnd k := by
  rw [moveToEnd, moveToEnd, get?_mapValues]
  cases d.get? k with
  | none => rfl
  | some v => exact (mapValues_set _ f k v).trans (by rw [mapValues_erase]; rfl)

end Dict
