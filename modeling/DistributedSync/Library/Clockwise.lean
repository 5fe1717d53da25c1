import Mathlib.Data.List.Rotate
import Mathlib.Order.Lattice

/-!
# Walking around a circle

The elements of an ascending list as points on a circle: clockwise from `h` come the elements from `h` on, and then
the smaller ones.  Taking points away does not change the order of the others (`filter_clockwise`), so a search for the
first point that starts at `h` gives another result only if its point is taken away (`head?_clockwise_filter`).
-/

variable {α β : Type} [LinearOrder α]

/-- The elements of `l` from `h` on, and then those before `h`. -/
def clockwise (h : α) (l : List α) : List α := (l.filter fun k => h ≤ k) ++ l.filter fun k => k < h

namespace Clockwise

variable {h : α} {l : List α} {p : α → Bool}

theorem mem_clockwise {k : α} : k ∈ clockwise h l ↔ k ∈ l := by
  rw [clockwise, List.mem_append, List.mem_filter, List.mem_filter, ← and_or_left]
  simp only [decide_eq_true_iff, le_or_gt, and_true]

theorem filter_clockwise : (clockwise h l).filter p = clockwise h (l.filter p) := by
  rw [clockwise, List.filter_append, List.filter_comm, List.filter_comm (p := p) (q := fun k => k < h), clockwise]

/-- The first point clockwise, searched for as in a list. -/
theorem head?_clockwise : (clockwise h l).head? = (l.find? fun k => h ≤ k).or l.head? := by
  rw [clockwise, List.head?_append, List.head?_filter]
  cases hfind : l.find? fun k => h ≤ k with
  | some k => rfl
  | none =>
    have hall : ∀ k ∈ l, decide (k < h) = true := by
      intro k hk
      have hno := List.find?_eq_none.1 hfind k hk
      simpa using hno
    rw [List.filter_eq_self.2 hall]

theorem head?_filter_of_head? {l : List β} {q : β → Bool} {k : β} (hk : l.head? = some k) (hq : q k) :
    (l.filter q).head? = some k := by
  obtain ⟨rest, rfl⟩ := List.head?_eq_some_iff.1 hk
  rw [List.filter_cons_of_pos hq, List.head?_cons]

/-- A first point that is kept stays the first one. -/
theorem head?_clockwise_filter {k : α} (hk : (clockwise h l).head? = some k) (hp : p k) :
    (clockwise h (l.filter p)).head? = some k := by
  rw [← filter_clockwise]
  exact head?_filter_of_head? hk hp

/-! ### The walk by positions -/

theorem clockwise_append {a b : List α} (ha : ∀ k ∈ a, k < h) (hb : ∀ k ∈ b, h ≤ k) :
    clockwise h (a ++ b) = b ++ a := by
  have hge : ((a ++ b).filter fun k => decide (h ≤ k)) = b := by
    rw [List.filter_append, List.filter_eq_nil_iff.2, List.filter_eq_self.2, List.nil_append]
    · intro k hk
      simpa using hb k hk
    · intro k hk
      simpa using ha k hk
  have hlt : ((a ++ b).filter fun k => decide (k < h)) = a := by
    rw [List.filter_append, List.filter_eq_self.2, List.filter_eq_nil_iff.2, List.append_nil]
    · intro k hk
      simpa using hb k hk
    · intro k hk
      simpa using ha k hk
  rw [clockwise, hge, hlt]

/-- In an ascending list the elements from `h` on start at the first one that is found. -/
theorem clockwise_eq_rotate (hl : l.Pairwise (· ≤ ·)) :
    clockwise h l = l.rotate ((l.findIdx? fun k => h ≤ k).getD 0) := by
  cases hidx : l.findIdx? fun k => h ≤ k with
  | none =>
    have hall : ∀ k ∈ l, k < h := by
      intro k hk
      have hno := List.findIdx?_eq_none_iff.1 hidx k hk
      simpa using hno
    have happend := clockwise_append hall (b := []) (fun k hk => absurd hk List.not_mem_nil)
    rw [List.append_nil] at happend
    rw [happend, Option.getD_none, List.rotate_zero, List.nil_append]
  | some i =>
    obtain ⟨hi, hfirst, hno⟩ := List.findIdx?_eq_some_iff_getElem.1 hidx
    have hbefore : ∀ k ∈ l.take i, k < h := by
      intro k hk
      obtain ⟨j, hj, rfl⟩ := List.mem_iff_getElem.1 hk
      rw [List.length_take] at hj
      have hlt := hno j (by omega)
      simpa using hlt
    have hafter : ∀ k ∈ l.drop i, h ≤ k := by
      intro k hk
      obtain ⟨j, hj, rfl⟩ := List.mem_iff_getElem.1 hk
      rw [List.length_drop] at hj
      rw [List.getElem_drop]
      have hge : h ≤ l[i] := by simpa using hfirst
      rcases Nat.eq_zero_or_pos j with rfl | hpos
      · exact hge
      · exact hge.trans (List.pairwise_iff_getElem.1 hl i (i + j) hi (by omega) (by omega))
    rw [Option.getD_some, List.rotate_eq_drop_append_take hi.le, ← clockwise_append hbefore hafter,
      List.take_append_drop]

/-- The values of `f` at the positions around the circle, as many as there are points. -/
theorem filterMap_range_rotate {γ : Type} (f : γ → Option β) (l : List γ) (n : Nat) :
    (List.range l.length).filterMap (fun i => l[(n + i) % l.length]?.bind f) = (l.rotate n).filterMap f := by
  have hmap : (List.range l.length).map (fun i => l[(n + i) % l.length]?) = (l.rotate n).map some := by
    refine List.ext_getElem? fun i => ?_
    rw [List.getElem?_map, List.getElem?_map]
    by_cases hi : i < l.length
    · rw [List.getElem?_range hi, Option.map_some, List.getElem?_rotate hi, Nat.add_comm,
        List.getElem?_eq_getElem (Nat.mod_lt _ (by omega)), Option.map_some]
    · rw [List.getElem?_eq_none (by rw [List.length_range]; omega),
        List.getElem?_eq_none (by rw [List.length_rotate]; omega)]
      rfl
  have hcomp : (fun i => l[(n + i) % l.length]?.bind f) =
      (fun o : Option γ => o.bind f) ∘ fun i => l[(n + i) % l.length]? := rfl
  rw [hcomp, ← List.filterMap_map, hmap, List.filterMap_map]
  rfl

/-! ### First occurrences -/

variable [BEq β]

theorem nodup_eraseDups [LawfulBEq β] (l : List β) : l.eraseDups.Nodup := by
  generalize hn : l.length = n
  induction n using Nat.strong_induction_on generalizing l with
  | _ n ih =>
    cases l with
    | nil => exact List.nodup_nil
    | cons a l =>
      rw [List.eraseDups_cons, List.nodup_cons, List.mem_eraseDups]
      refine ⟨fun ha => by simp at ha, ih _ ?_ _ rfl⟩
      rw [← hn, List.length_cons]
      exact Nat.lt_succ_of_le (List.length_filter_le _ _)

theorem head?_eraseDups (l : List β) : l.eraseDups.head? = l.head? := by
  cases l with
  | nil => rfl
  | cons a l => rw [List.eraseDups_cons, List.head?_cons, List.head?_cons]

theorem eraseDups_concat_of_mem [LawfulBEq β] {b : β} {l : List β} (hb : b ∈ l) :
    (l ++ [b]).eraseDups = l.eraseDups := by
  rw [List.eraseDups_append]
  simp [hb, List.removeAll]

theorem eraseDups_concat_of_not_mem [LawfulBEq β] {b : β} {l : List β} (hb : b ∉ l) :
    (l ++ [b]).eraseDups = l.eraseDups ++ [b] := by
  rw [List.eraseDups_append]
  simp [hb, List.removeAll, List.eraseDups_cons]

end Clockwise
