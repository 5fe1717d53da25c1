import Mathlib.Data.List.MinMax
import Mathlib.Data.List.Sort

/-!
# Choosing by cost

A loop that keeps the cheapest element so far chooses the first of the cheapest ones, if its cost is below the bound
(`firstBelow_eq_argmin`).  A stable sort that compares by a class first and by cost second is the sorts of the two
classes one after the other (`insertionSort_classes`), and the first element of a sort by cost is the choice of the
loop (`head?_insertionSort`).  What stands at a position of a sorted list is of this rank in the list
(`isRank_of_insertionSort`).
-/

namespace Selection

variable {α β : Type} [LinearOrder β] (f : α → β)

/-- The cheapest element so far with its cost; the loop starts with none and the bound. -/
def firstBelow (bound : β) (l : List α) : Option α × β :=
  l.foldl (fun best x => if f x < best.2 then (some x, f x) else best) (none, bound)

variable {f} {bound : β} {l : List α}

private theorem firstBelow_concat (a : α) :
    firstBelow f bound (l ++ [a]) =
      if f a < (firstBelow f bound l).2 then (some a, f a) else firstBelow f bound l := by
  rw [firstBelow, List.foldl_append, List.foldl_cons, List.foldl_nil, firstBelow]

/-- The loop carries the cost of its choice. -/
theorem firstBelow_eq : firstBelow f bound l =
    ((l.argmin f).filter fun x => f x < bound, (((l.argmin f).filter fun x => f x < bound).map f).getD bound) := by
  induction l using List.reverseRecOn with
  | nil => rfl
  | append_singleton l a ih =>
    rw [firstBelow_concat, ih, List.argmin_concat]
    cases l.argmin f with
    | none =>
      by_cases ha : f a < bound
      · simp [ha, Option.filter_some]
      · simp [ha, Option.filter_some]
    | some c =>
      by_cases hc : f c < bound
      · by_cases hac : f a < f c
        · simp [hc, hac, hac.trans hc, Option.filter_some]
        · simp [hc, hac, Option.filter_some]
      · -- the bound has not been reached so far
        by_cases ha : f a < bound
        · simp [hc, ha, ha.trans_le (not_lt.1 hc), Option.filter_some]
        · by_cases hac : f a < f c
          · simp [hc, ha, hac, Option.filter_some]
          · simp [hc, ha, hac, Option.filter_some]

theorem firstBelow_eq_argmin : (firstBelow f bound l).1 = (l.argmin f).filter fun x => f x < bound := by
  rw [firstBelow_eq]

/-- What comes before the choice is dearer, and what comes after it is not cheaper. -/
theorem argmin_eq_some_iff_split {m : α} : l.argmin f = some m ↔
    ∃ before after, l = before ++ m :: after ∧ (∀ x ∈ before, f m < f x) ∧ ∀ x ∈ after, f m ≤ f x := by
  constructor
  · intro h
    induction l with
    | nil => cases h
    | cons a l ih =>
      rw [List.argmin_cons] at h
      cases hbest : l.argmin f with
      | none =>
        rw [hbest] at h
        cases h
        rw [List.argmin_eq_none.1 hbest]
        exact ⟨[], [], rfl, by simp, by simp⟩
      | some c =>
        have hchoice : (if f c < f a then some c else some a) = some m := by rwa [hbest] at h
        by_cases hca : f c < f a
        · rw [if_pos hca, Option.some.injEq] at hchoice
          subst hchoice
          obtain ⟨before, after, rfl, hbefore, hafter⟩ := ih hbest
          refine ⟨a :: before, after, rfl, ?_, hafter⟩
          intro x hx
          rcases List.mem_cons.1 hx with rfl | hx
          · exact hca
          · exact hbefore x hx
        · rw [if_neg hca, Option.some.injEq] at hchoice
          subst hchoice
          exact ⟨[], l, rfl, by simp, fun x hx => (not_lt.1 hca).trans (List.le_of_mem_argmin hx hbest)⟩
  · rintro ⟨before, after, rfl, hbefore, hafter⟩
    induction before with
    | nil =>
      rw [List.nil_append, List.argmin_cons]
      cases hbest : after.argmin f with
      | none => rfl
      | some c =>
        have hmc : f m ≤ f c := hafter c (List.argmin_mem hbest)
        simp [not_lt.2 hmc]
    | cons a before ih =>
      rw [List.cons_append, List.argmin_cons, ih fun x hx => hbefore x (List.mem_cons_of_mem a hx)]
      simp [hbefore a List.mem_cons_self]

/-! ### Sorting -/

/-- An element that goes behind all of a list in front is inserted into what follows. -/
theorem orderedInsert_append {r : α → α → Prop} [DecidableRel r] {a : α} {front back : List α}
    (h : ∀ b ∈ front, ¬r a b) : (front ++ back).orderedInsert r a = front ++ back.orderedInsert r a := by
  induction front with
  | nil => rfl
  | cons b front ih =>
    rw [List.cons_append, List.orderedInsert_of_not_le r _ (h b List.mem_cons_self),
      ih fun c hc => h c (List.mem_cons_of_mem b hc), List.cons_append]

/-- An element that goes before all of a list at the back is inserted into what is in front of it. -/
theorem orderedInsert_append_of_le {r : α → α → Prop} [DecidableRel r] {a : α} {front back : List α}
    (h : ∀ b ∈ back, r a b) : (front ++ back).orderedInsert r a = front.orderedInsert r a ++ back := by
  induction front with
  | nil =>
    cases back with
    | nil => rfl
    | cons b back =>
      rw [List.nil_append, List.orderedInsert_cons_of_le r back (h b List.mem_cons_self), List.orderedInsert_nil,
        List.singleton_append]
  | cons b front ih =>
    rw [List.cons_append]
    by_cases hab : r a b
    · rw [List.orderedInsert_cons_of_le r _ hab, List.orderedInsert_cons_of_le r _ hab, List.cons_append,
        List.cons_append]
    · rw [List.orderedInsert_of_not_le r _ hab, List.orderedInsert_of_not_le r _ hab, ih, List.cons_append]

/-- Only the comparison of the elements matters. -/
theorem insertionSort_congr {r r' : α → α → Prop} [DecidableRel r] [DecidableRel r']
    (h : ∀ a ∈ l, ∀ b ∈ l, r a b ↔ r' a b) : l.insertionSort r = l.insertionSort r' := by
  have hmap := List.map_insertionSort r r' id l h
  rwa [List.map_id, List.map_id] at hmap

/-- The elements of the class `p` come first, and the order within the two classes is by `s`. -/
theorem insertionSort_classes {p : α → Bool} {r s : α → α → Prop} [DecidableRel r] [DecidableRel s]
    (hr : ∀ a b, r a b ↔ (p a ∧ ¬p b) ∨ (p a = p b ∧ s a b)) :
    l.insertionSort r = (l.filter p).insertionSort s ++ (l.filter fun x => !p x).insertionSort s := by
  have hsame : ∀ a b, p a = p b → (r a b ↔ s a b) := by
    intro a b hab
    rw [hr, hab]
    simp
  have hsplit : l.insertionSort r = (l.filter p).insertionSort r ++ (l.filter fun x => !p x).insertionSort r := by
    induction l with
    | nil => rfl
    | cons a l ih =>
      rw [List.insertionSort_cons, ih]
      by_cases ha : p a
      · have hbefore : ∀ b ∈ (l.filter fun x => !p x).insertionSort r, r a b := by
          intro b hb
          have hpb := (List.mem_filter.1 ((List.mem_insertionSort r).1 hb)).2
          exact (hr a b).2 (Or.inl ⟨ha, by simpa using hpb⟩)
        rw [orderedInsert_append_of_le hbefore, List.filter_cons_of_pos ha, List.insertionSort_cons,
          List.filter_cons_of_neg (by simpa using ha)]
      · have hbehind : ∀ b ∈ (l.filter p).insertionSort r, ¬r a b := by
          intro b hb
          have hpb := (List.mem_filter.1 ((List.mem_insertionSort r).1 hb)).2
          rw [hr]
          rintro (⟨hpa, -⟩ | ⟨heq, -⟩)
          · exact ha hpa
          · exact ha (heq.trans hpb)
        rw [orderedInsert_append hbehind, List.filter_cons_of_neg ha,
          List.filter_cons_of_pos (by simpa using ha), List.insertionSort_cons]
  rw [hsplit]
  congr 1
  · refine insertionSort_congr fun a ha b hb => hsame a b ?_
    rw [(List.mem_filter.1 ha).2, (List.mem_filter.1 hb).2]
  · refine insertionSort_congr fun a ha b hb => hsame a b ?_
    have hpa := (List.mem_filter.1 ha).2
    have hpb := (List.mem_filter.1 hb).2
    rw [Bool.not_eq_true'] at hpa hpb
    rw [hpa, hpb]

theorem head?_insertionSort : (l.insertionSort fun a b => f a ≤ f b).head? = l.argmin f := by
  induction l with
  | nil => rfl
  | cons a l ih =>
    rw [List.insertionSort_cons, List.argmin_cons, ← ih]
    cases l.insertionSort fun a b => f a ≤ f b with
    | nil => rfl
    | cons b sorted =>
      rw [List.orderedInsert_cons]
      by_cases hab : f a ≤ f b
      · simp [hab, not_lt.2 hab]
      · simp [hab, not_le.1 hab]

/-! ### Ranks -/

section Rank

variable {lt : α → α → Prop} [DecidableRel lt]

/-- `x` is the element of `l` with `i` elements before it in an order of `l` by `lt`. -/
def IsRank (lt : α → α → Prop) [DecidableRel lt] (l : List α) (i : Nat) (x : α) : Prop :=
  x ∈ l ∧ (l.countP fun y => lt y x) ≤ i ∧ i < l.countP fun y => ¬lt x y

/-- What stands at a position of the sorted list has this rank. -/
theorem isRank_of_insertionSort [Std.Asymm lt] [IsOrderConnected α lt] {i : Nat} {x : α}
    (h : (l.insertionSort fun a b => ¬lt b a)[i]? = some x) : IsRank lt l i x := by
  let r : α → α → Prop := fun a b => ¬lt b a
  have : Std.Total r := ⟨fun a b => (em (lt b a)).symm.imp_right fun hba => asymm hba⟩
  have : IsTrans α r := ⟨fun _ _ _ hab hbc => IsOrderConnected.neg_trans hbc hab⟩
  have hperm : (l.insertionSort r).Perm l := List.perm_insertionSort r l
  have hsorted : (l.insertionSort r).Pairwise r := List.pairwise_insertionSort r l
  obtain ⟨hi, hx⟩ := List.getElem?_eq_some_iff.1 h
  have hsplit : l.insertionSort r = (l.insertionSort r).take i ++ x :: (l.insertionSort r).drop (i + 1) := by
    rw [← hx, ← List.drop_eq_getElem_cons hi, List.take_append_drop]
  have hlength : ((l.insertionSort r).take i).length = i := List.length_take_of_le hi.le
  generalize (l.insertionSort r).take i = before, (l.insertionSort r).drop (i + 1) = after at hsplit hlength
  rw [hsplit] at hperm hsorted
  obtain ⟨-, hafter, hbefore⟩ := List.pairwise_append.1 hsorted
  have hle : ∀ y ∈ x :: after, ¬lt y x :=
    List.forall_mem_cons.2 ⟨irrefl x, fun y hy => List.rel_of_pairwise_cons hafter hy⟩
  refine ⟨hperm.mem_iff.1 (List.mem_append_right _ List.mem_cons_self), ?_, ?_⟩
  · have hnone : ((x :: after).countP fun y => lt y x) = 0 := List.countP_eq_zero.2 (by simpa using hle)
    rw [← hperm.countP_eq, List.countP_append, hnone, Nat.add_zero, ← hlength]
    exact List.countP_le_length
  · have hall : (before.countP fun y => ¬lt x y) = i := by
      rw [← hlength, List.countP_eq_length]
      exact fun y hy => decide_eq_true (hbefore y hy x List.mem_cons_self)
    have hpos : 0 < (x :: after).countP fun y => ¬lt x y :=
      List.countP_pos_iff.2 ⟨x, List.mem_cons_self, decide_eq_true (irrefl x)⟩
    rw [← hperm.countP_eq, List.countP_append, hall]
    omega

end Rank

end Selection
