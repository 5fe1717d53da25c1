import Mathlib.Algebra.Order.Group.Defs
import Mathlib.Algebra.Order.Monoid.Defs
import Mathlib.Algebra.Group.Int.Defs
import Mathlib.Algebra.Order.Ring.Int
import Mathlib.Data.List.DropRight
import Mathlib.Data.List.Induction

/-!
# Detection by timeout

A detector hears from its peers (`contact`), and from time to time it checks for how long it has not heard from each
of them (`check`).  What a check can say about a peer depends on two times of the history: the last contact with the
peer and the last check after it (`measured`).  With a clock that does not go back, and a check at most `d` ago, a
silence of more than `limit + d` is measured as one of more than `limit`, and only a silence of more than `limit` is
(`exceeds_of_silent`, `silent_of_exceeds`).
-/

namespace Timeout

inductive Event (ι τ : Type) where
  | contact (peer : ι) (time : τ)
  | check (time : τ)

variable {ι τ : Type}

def Event.time : Event ι τ → τ
  | contact _ t | check t => t

def Event.checkTime : Event ι τ → Option τ
  | contact _ _ => none
  | check t => some t

/-- The time of the last check. -/
def lastCheck (h : List (Event ι τ)) : Option τ := (h.filterMap Event.checkTime).getLast?

@[simp] theorem lastCheck_nil : lastCheck ([] : List (Event ι τ)) = none := rfl

@[simp] theorem lastCheck_concat_contact (h : List (Event ι τ)) (p : ι) (t : τ) :
    lastCheck (h ++ [.contact p t]) = lastCheck h := by
  simp [lastCheck, Event.checkTime]

@[simp] theorem lastCheck_concat_check (h : List (Event ι τ)) (t : τ) : lastCheck (h ++ [.check t]) = some t := by
  simp [lastCheck, Event.checkTime]

section

variable [DecidableEq ι]

def Event.isContact (p : ι) : Event ι τ → Bool
  | contact q _ => q = p
  | check _ => false

def Event.contactTime (p : ι) : Event ι τ → Option τ
  | contact q t => if q = p then some t else none
  | check _ => none

/-- The time of the last contact with the peer. -/
def lastContact (p : ι) (h : List (Event ι τ)) : Option τ := (h.filterMap (Event.contactTime p)).getLast?

/-- The events after the last contact with the peer. -/
def since (p : ι) (h : List (Event ι τ)) : List (Event ι τ) := h.rtakeWhile fun e => ¬ e.isContact p

/-- The last contact with the peer, and the last check after it. -/
def measured (p : ι) (h : List (Event ι τ)) : Option (τ × Option τ) :=
  (lastContact p h).map fun c => (c, lastCheck (since p h))

@[simp] theorem measured_nil (p : ι) : measured p ([] : List (Event ι τ)) = none := rfl

theorem measured_concat_contact (p q : ι) (t : τ) (h : List (Event ι τ)) :
    measured p (h ++ [.contact q t]) = if q = p then some (t, none) else measured p h := by
  by_cases hq : q = p
  · simp [measured, lastContact, since, Event.contactTime, Event.isContact, hq]
  · simp [measured, lastContact, since, Event.contactTime, Event.isContact, hq]

theorem measured_concat_check (p : ι) (t : τ) (h : List (Event ι τ)) :
    measured p (h ++ [.check t]) = (measured p h).map fun m => (m.1, some t) := by
  simp only [measured, lastContact, since, List.filterMap_append, List.rtakeWhile_concat, Option.map_map]
  simp [Event.contactTime, Event.isContact, Function.comp_def]

/-- The history is split at the last contact with the peer. -/
theorem split_of_measured {p : ι} {h : List (Event ι τ)} {c : τ} {check? : Option τ}
    (hm : measured p h = some (c, check?)) :
    ∃ pre, h = pre ++ .contact p c :: since p h ∧ lastCheck (since p h) = check? := by
  induction h using List.reverseRecOn generalizing check? with
  | nil => cases hm
  | append_singleton h e ih =>
    cases e with
    | contact q t =>
      rw [measured_concat_contact] at hm
      by_cases hq : q = p
      · rw [if_pos hq] at hm
        obtain ⟨rfl, rfl⟩ := Prod.mk.inj (Option.some.inj hm)
        have hsince : since p (h ++ [.contact q t]) = [] := by
          simp [since, Event.isContact, hq]
        rw [hsince, hq]
        exact ⟨h, rfl, rfl⟩
      · rw [if_neg hq] at hm
        obtain ⟨pre, hpre, hcheck⟩ := ih hm
        have hsince : since p (h ++ [.contact q t]) = since p h ++ [.contact q t] := by
          simp [since, Event.isContact, hq]
        refine ⟨pre, ?_, ?_⟩
        · rw [hsince, ← List.cons_append, ← List.append_assoc, ← hpre]
        · rw [hsince, lastCheck_concat_contact, hcheck]
    | check t =>
      rw [measured_concat_check] at hm
      obtain ⟨⟨c', check?'⟩, hm', hc⟩ := Option.map_eq_some_iff.1 hm
      obtain ⟨rfl, rfl⟩ := Prod.mk.inj hc
      obtain ⟨pre, hpre, -⟩ := ih hm'
      have hsince : since p (h ++ [.check t]) = since p h ++ [.check t] := by
        simp [since, Event.isContact]
      refine ⟨pre, ?_, ?_⟩
      · rw [hsince, ← List.cons_append, ← List.append_assoc, ← hpre]
      · rw [hsince, lastCheck_concat_check]

end

/-! ### A clock that does not go back -/

/-- The events happened in the order of their times. -/
def InOrder [LE τ] (h : List (Event ι τ)) : Prop := (h.map Event.time).Pairwise (· ≤ ·)

instance [LE τ] [DecidableLE τ] (h : List (Event ι τ)) : Decidable (InOrder h) :=
  inferInstanceAs (Decidable (List.Pairwise _ _))

theorem mem_of_lastCheck {h : List (Event ι τ)} {t : τ} (ht : lastCheck h = some t) : .check t ∈ h := by
  obtain ⟨e, he, hcheck⟩ := List.mem_filterMap.1 (List.mem_of_getLast? ht)
  cases e with
  | contact q t' => cases hcheck
  | check t' => cases hcheck; exact he

section

variable [LinearOrder τ] {h pre post : List (Event ι τ)} {e e' : Event ι τ}

theorem InOrder.left (hin : InOrder (pre ++ post)) : InOrder pre := by
  rw [InOrder, List.map_append] at hin
  exact (List.pairwise_append.1 hin).1

theorem InOrder.right (hin : InOrder (pre ++ post)) : InOrder post := by
  rw [InOrder, List.map_append] at hin
  exact (List.pairwise_append.1 hin).2.1

theorem InOrder.le_of_split (hin : InOrder (pre ++ post)) (he : e ∈ pre) (he' : e' ∈ post) : e.time ≤ e'.time := by
  rw [InOrder, List.map_append] at hin
  exact (List.pairwise_append.1 hin).2.2 _ (List.mem_map_of_mem he) _ (List.mem_map_of_mem he')

/-- No check is later than the last one. -/
theorem le_lastCheck (hin : InOrder h) {t : τ} (ht : .check t ∈ h) : ∃ t', lastCheck h = some t' ∧ t ≤ t' := by
  induction h using List.reverseRecOn with
  | nil => cases ht
  | append_singleton h e ih =>
    rcases List.mem_append.1 ht with hmem | hmem
    · obtain ⟨t', hlast, hle⟩ := ih hin.left hmem
      cases e with
      | contact q t₁ => exact ⟨t', by rw [lastCheck_concat_contact, hlast], hle⟩
      | check t₁ => exact ⟨t₁, lastCheck_concat_check h t₁, hin.le_of_split hmem (List.mem_singleton_self _)⟩
    · obtain rfl := List.mem_singleton.1 hmem
      exact ⟨t, lastCheck_concat_check h t, le_rfl⟩

variable [DecidableEq ι] {p : ι} {c now limit d : τ} {check? : Option τ}

/-- A check after the last contact is not forgotten. -/
theorem checked_of_mem (hin : InOrder h) (hm : measured p h = some (c, check?)) {t : τ} (ht : .check t ∈ h)
    (hc : c < t) : ∃ t', check? = some t' ∧ t ≤ t' := by
  obtain ⟨pre, hsplit, rfl⟩ := split_of_measured hm
  rw [hsplit] at hin ht
  have hafter : .check t ∈ since p h := by
    rcases List.mem_append.1 ht with hmem | hmem
    · have hle : t ≤ c := hin.le_of_split hmem List.mem_cons_self
      exact absurd hc (not_lt.2 hle)
    · rcases List.mem_cons.1 hmem with heq | hmem
      · cases heq
      · exact hmem
  have hsince : InOrder (since p h) := by
    have hcons : InOrder ([.contact p c] ++ since p h) := hin.right
    exact hcons.right
  exact le_lastCheck hsince hafter

variable [AddCommGroup τ] [IsOrderedAddMonoid τ]

/-- What a check says about the time that has passed since the last contact. -/
def Exceeds (limit : τ) (m : τ × Option τ) : Prop := ∃ t, m.2 = some t ∧ limit < t - m.1

/-- A silence that is too long is noticed, if the last check is at most `d` old. -/
theorem exceeds_of_silent (hin : InOrder h) (hm : measured p h = some (c, check?)) (hlimit : 0 ≤ limit) {t : τ}
    (ht : .check t ∈ h) (hrecent : now ≤ t + d) (hsilent : limit + d < now - c) : Exceeds limit (c, check?) := by
  have hnow : limit + d + c < now := lt_sub_iff_add_lt.1 hsilent
  have hlate : limit + c < t := by
    have hlt : limit + c + d < t + d := by
      calc limit + c + d = limit + d + c := add_right_comm limit c d
        _ < now := hnow
        _ ≤ t + d := hrecent
    exact lt_of_add_lt_add_right hlt
  have hc : c < t := lt_of_le_of_lt (le_add_of_nonneg_left hlimit) hlate
  obtain ⟨t', hcheck, hle⟩ := checked_of_mem hin hm ht hc
  exact ⟨t', hcheck, lt_sub_iff_add_lt.2 (lt_of_lt_of_le hlate hle)⟩

/-- Only a silence that is too long is noticed. -/
theorem silent_of_exceeds (hm : measured p h = some (c, check?)) (hnow : ∀ e ∈ h, e.time ≤ now)
    (hexceeds : Exceeds limit (c, check?)) : limit < now - c := by
  obtain ⟨t, hcheck, hlt⟩ := hexceeds
  obtain ⟨pre, hsplit, hlast⟩ := split_of_measured hm
  have hmem : .check t ∈ since p h := mem_of_lastCheck (hlast.trans hcheck)
  have hle : t ≤ now := by
    refine hnow (.check t) ?_
    rw [hsplit]
    exact List.mem_append_right _ (List.mem_cons_of_mem _ hmem)
  exact lt_of_lt_of_le hlt (sub_le_sub_right hle c)

end

end Timeout
