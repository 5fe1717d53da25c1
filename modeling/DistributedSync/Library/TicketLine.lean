import Mathlib.Data.List.Basic

/-!
# Lines of tickets

A line in which every request takes the next ticket.  A request joins the line, or it passes the line and is
granted at once; and the head of the line moves up, with grants for the first of those who leave.  Tickets are in
the order of the requests.  Nobody overtakes a waiting request of the kind `x` as long as every ticket granted so
far is older (`NoOvertaking`).  Joining and moving up keep this, and a request that passes keeps it only when none
of the kind `x` waits (`pass_noOvertaking_iff`).
-/

/-- `next` is the ticket of the next request. -/
structure TicketLine (α β : Type) where
  next : Nat := 0
  waiting : List (Nat × α) := []
  granted : List (Nat × β) := []

namespace TicketLine

variable {α β : Type}

/-- A request joins the line. -/
def join (l : TicketLine α β) (a : α) : TicketLine α β where
  next := l.next + 1
  waiting := l.waiting ++ [(l.next, a)]
  granted := l.granted

/-- A request is granted without waiting, with the grants `gs`. -/
def pass (l : TicketLine α β) (gs : List β) : TicketLine α β where
  next := l.next + 1
  waiting := l.waiting
  granted := l.granted ++ gs.map fun g => (l.next, g)

/-- The first `left` requests leave the line; the grants `gs` are for the first of them. -/
def moveUp (l : TicketLine α β) (left : Nat) (gs : List β) : TicketLine α β where
  next := l.next + 1
  waiting := l.waiting.drop left
  granted := l.granted ++ (l.waiting.map Prod.fst).zip gs

/-- The tickets have been taken in the order of the line. -/
structure Sorted (l : TicketLine α β) : Prop where
  sorted : l.waiting.Pairwise fun t u => t.1 < u.1
  waiting_lt : ∀ t ∈ l.waiting, t.1 < l.next
  granted_lt : ∀ g ∈ l.granted, g.1 < l.next

/-- While a request of the kind `x` waits, no later one has been granted. -/
def NoOvertaking (x : α → Prop) (l : TicketLine α β) : Prop := ∀ t ∈ l.waiting, x t.2 → ∀ g ∈ l.granted, g.1 < t.1

variable {l : TicketLine α β} {x : α → Prop}

theorem sorted_empty : ({} : TicketLine α β).Sorted where
  sorted := List.Pairwise.nil
  waiting_lt t ht := by cases ht
  granted_lt g hg := by cases hg

theorem noOvertaking_empty : ({} : TicketLine α β).NoOvertaking x := by
  intro t ht
  cases ht

/-! ### Joining -/

theorem Sorted.join (h : l.Sorted) (a : α) : (l.join a).Sorted where
  sorted := by
    show (l.waiting ++ [(l.next, a)]).Pairwise _
    rw [List.pairwise_append]
    refine ⟨h.sorted, List.pairwise_singleton _ _, fun t ht u hu => ?_⟩
    rw [List.mem_singleton.1 hu]
    exact h.waiting_lt t ht
  waiting_lt t ht := by
    show t.1 < l.next + 1
    rcases List.mem_append.1 ht with ht | ht
    · have := h.waiting_lt t ht
      omega
    · rw [List.mem_singleton.1 ht]
      omega
  granted_lt g hg := by
    have := h.granted_lt g hg
    show g.1 < l.next + 1
    omega

theorem NoOvertaking.join (h : l.NoOvertaking x) (hs : l.Sorted) (a : α) : (l.join a).NoOvertaking x := by
  intro t ht hx g hg
  rcases List.mem_append.1 ht with ht | ht
  · exact h t ht hx g hg
  · rw [List.mem_singleton.1 ht]
    exact hs.granted_lt g hg

/-! ### Moving up -/

private theorem mem_zip_tickets {g : Nat × β} {gs : List β} (hg : g ∈ (l.waiting.map Prod.fst).zip gs) :
    ∃ i, ∃ t, l.waiting[i]? = some t ∧ t.1 = g.1 ∧ i < gs.length := by
  obtain ⟨i, hi⟩ := List.mem_iff_getElem?.1 hg
  rw [List.getElem?_zip_eq_some] at hi
  obtain ⟨hfst, hsnd⟩ := hi
  rw [List.getElem?_map, Option.map_eq_some_iff] at hfst
  obtain ⟨t, ht, htg⟩ := hfst
  exact ⟨i, t, ht, htg, (List.getElem?_eq_some_iff.1 hsnd).1⟩

theorem Sorted.moveUp (h : l.Sorted) (left : Nat) (gs : List β) : (l.moveUp left gs).Sorted where
  sorted := h.sorted.sublist (List.drop_sublist left l.waiting)
  waiting_lt t ht := by
    have := h.waiting_lt t (List.mem_of_mem_drop ht)
    show t.1 < l.next + 1
    omega
  granted_lt g hg := by
    show g.1 < l.next + 1
    rcases List.mem_append.1 hg with hg | hg
    · have := h.granted_lt g hg
      omega
    · obtain ⟨i, t, ht, htg, -⟩ := mem_zip_tickets hg
      have := h.waiting_lt t (List.mem_of_getElem? ht)
      omega

/-- Those who are granted stood before those who stay. -/
theorem NoOvertaking.moveUp (h : l.NoOvertaking x) (hs : l.Sorted) {left : Nat} {gs : List β}
    (hgs : gs.length ≤ left) : (l.moveUp left gs).NoOvertaking x := by
  intro t ht hx g hg
  rcases List.mem_append.1 hg with hg | hg
  · exact h t (List.mem_of_mem_drop ht) hx g hg
  · obtain ⟨i, u, hu, hug, hi⟩ := mem_zip_tickets hg
    obtain ⟨j, hj⟩ := List.mem_iff_getElem?.1 ht
    rw [TicketLine.moveUp, List.getElem?_drop] at hj
    obtain ⟨hil, hiu⟩ := List.getElem?_eq_some_iff.1 hu
    obtain ⟨hjl, hjt⟩ := List.getElem?_eq_some_iff.1 hj
    have hlt := List.pairwise_iff_getElem.1 hs.sorted i (left + j) hil hjl (by omega)
    rw [hiu, hjt] at hlt
    omega

/-- The request at the place of a grant gets it. -/
theorem mem_moveUp_granted {t : Nat × α} {g : β} {gs : List β} {k : Nat} (ht : l.waiting[k]? = some t)
    (hg : gs[k]? = some g) (left : Nat) : (t.1, g) ∈ (l.moveUp left gs).granted.drop l.granted.length := by
  have hnew : (l.moveUp left gs).granted.drop l.granted.length = (l.waiting.map Prod.fst).zip gs :=
    List.drop_left
  rw [hnew]
  refine List.mem_of_getElem? (i := k) ?_
  rw [List.getElem?_zip_eq_some, List.getElem?_map, ht]
  exact ⟨rfl, hg⟩

/-! ### Passing -/

theorem Sorted.pass (h : l.Sorted) (gs : List β) : (l.pass gs).Sorted where
  sorted := h.sorted
  waiting_lt t ht := by
    have := h.waiting_lt t ht
    show t.1 < l.next + 1
    omega
  granted_lt g hg := by
    show g.1 < l.next + 1
    rcases List.mem_append.1 hg with hg | hg
    · have := h.granted_lt g hg
      omega
    · obtain ⟨b, -, rfl⟩ := List.mem_map.1 hg
      exact Nat.lt_succ_self l.next

/-- A request that passes overtakes those of the kind `x` that wait. -/
theorem pass_noOvertaking_iff (h : l.NoOvertaking x) (hs : l.Sorted) {gs : List β} :
    (l.pass gs).NoOvertaking x ↔ (gs ≠ [] → ∀ t ∈ l.waiting, ¬ x t.2) := by
  constructor
  · intro hpass hne t ht hx
    obtain ⟨b, hb⟩ := List.exists_mem_of_ne_nil gs hne
    have hmem : (l.next, b) ∈ (l.pass gs).granted := List.mem_append_right _ (List.mem_map.2 ⟨b, hb, rfl⟩)
    have hlt := hpass t ht hx (l.next, b) hmem
    have := hs.waiting_lt t ht
    omega
  · intro hnone t ht hx g hg
    rcases List.mem_append.1 hg with hg | hg
    · exact h t ht hx g hg
    · obtain ⟨b, hb, rfl⟩ := List.mem_map.1 hg
      exact absurd hx (hnone (List.ne_nil_of_mem hb) t ht)

end TicketLine
