import Mathlib.Data.List.Perm.Basic

/-!
# Positions in lists

What stands at the positions of a list that gets longer, or of which one element is changed.  An element of a prefix
stands at the same position in the list (`getElem?_of_isPrefix`), and an element of a list with one more at the end is
an old one or the new one (`getElem?_concat`).
-/

namespace Positions

variable {α β : Type} {l l' : List α} {x y : α} {i j : Nat}

theorem getElem?_of_isPrefix (h : l <+: l') (hx : l[i]? = some x) : l'[i]? = some x := by
  obtain ⟨r, rfl⟩ := h
  rw [List.getElem?_append_left (List.getElem?_eq_some_iff.1 hx).1, hx]

theorem getElem?_append_of_some (hx : l[i]? = some x) (l' : List α) : (l ++ l')[i]? = some x :=
  getElem?_of_isPrefix (List.prefix_append l l') hx

theorem take_of_isPrefix (h : l <+: l') {n : Nat} (hn : n ≤ l.length) : l'.take n = l.take n := by
  obtain ⟨r, rfl⟩ := h
  exact List.take_append_of_le_length hn

theorem getElem?_concat (h : (l ++ [x])[i]? = some y) :
    (i < l.length ∧ l[i]? = some y) ∨ (i = l.length ∧ y = x) := by
  rcases Nat.lt_or_ge i l.length with hlt | hge
  · rw [List.getElem?_append_left hlt] at h
    exact Or.inl ⟨hlt, h⟩
  · rw [List.getElem?_append_right hge, List.getElem?_singleton] at h
    split at h
    · cases h
      exact Or.inr ⟨by omega, rfl⟩
    · cases h

/-- The last element of a list that is split at another one comes after that one, or is that one. -/
theorem concat_eq_append_cons {before since : List α} (h : l ++ [x] = before ++ y :: since) :
    (l = before ∧ x = y ∧ since = []) ∨ ∃ since', since = since' ++ [x] ∧ l = before ++ y :: since' := by
  rcases List.eq_nil_or_concat since with rfl | ⟨since', z, rfl⟩
  · obtain ⟨rfl, hx⟩ := List.append_inj' h rfl
    exact Or.inl ⟨rfl, by simpa using hx, rfl⟩
  · have h' : l ++ [x] = (before ++ y :: since') ++ [z] := by simpa using h
    obtain ⟨hl, hx⟩ := List.append_inj' h' rfl
    obtain rfl : x = z := by simpa using hx
    exact Or.inr ⟨since', List.concat_eq_append, hl⟩

/-- Two pieces of a list that overlap or leave nothing out between them. -/
theorem drop_take_append (l : List α) (a c d : Nat) :
    (l.take c).drop a ++ (l.take d).drop (max a c) = (l.take (max c d)).drop a := by
  rcases Nat.le_total c d with hle | hle
  · have htake : l.take c = (l.take d).take c := by rw [List.take_take, Nat.min_eq_left hle]
    have hmax : max a c = a + (c - a) := by omega
    rw [htake, List.drop_take, hmax, ← List.drop_drop, List.take_append_drop, Nat.max_eq_right hle]
  · have hnil : (l.take d).drop (max a c) = [] := by
      rw [List.drop_eq_nil_iff, List.length_take]
      omega
    rw [hnil, List.append_nil, Nat.max_eq_left hle]

/-! ### One element is changed -/

theorem perm_of_getElem? (h : l[i]? = some x) : (x :: l.eraseIdx i).Perm l := by
  obtain ⟨hi, rfl⟩ := List.getElem?_eq_some_iff.1 h
  exact List.getElem_cons_eraseIdx_perm hi

theorem mem_iff_of_getElem? (h : l[i]? = some x) : y ∈ l ↔ y = x ∨ y ∈ l.eraseIdx i := by
  rw [← (perm_of_getElem? h).mem_iff, List.mem_cons]

theorem mem_set_iff_of_getElem? {x' : α} (h : l[i]? = some x) : y ∈ l.set i x' ↔ y = x' ∨ y ∈ l.eraseIdx i := by
  obtain ⟨hi, -⟩ := List.getElem?_eq_some_iff.1 h
  rw [(List.set_perm_cons_eraseIdx hi x').mem_iff, List.mem_cons]

theorem mem_eraseIdx_of_ne (hy : l[i]? = some y) (hx : x ∈ l) (hne : x ≠ y) : x ∈ l.eraseIdx i :=
  ((mem_iff_of_getElem? hy).1 hx).resolve_left hne

theorem getElem?_modify_some {f : α → α} (h : (l.modify i f)[j]? = some y) :
    ∃ x, l[j]? = some x ∧ y = if i = j then f x else x := by
  rw [List.getElem?_modify, Option.map_eq_map, Option.map_eq_some_iff] at h
  obtain ⟨x, hx, rfl⟩ := h
  exact ⟨x, hx, rfl⟩

theorem getElem?_modify_of_some (h : l[j]? = some x) (f : α → α) :
    (l.modify i f)[j]? = some (if i = j then f x else x) := by
  rw [List.getElem?_modify, h]
  rfl

theorem map_modify_of_eq {f : α → α} {g : α → β} (h : ∀ x, g (f x) = g x) : (l.modify i f).map g = l.map g := by
  apply List.ext_getElem?
  intro j
  rw [List.getElem?_map, List.getElem?_map, List.getElem?_modify]
  cases l[j]? with
  | none => rfl
  | some x => by_cases hij : i = j <;> simp [hij, h]

end Positions
