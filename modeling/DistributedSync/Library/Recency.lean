import Mathlib.Data.List.Basic

/-!
# The order of last use

A log says for each point of time which key has been used then, if any, the newest first.  A list of keys is in the
order of last use (`InOrder`) when all of them have been used and each key has its last use before the keys behind it.
A key that is used goes to the end of such a list.
-/

namespace Recency

variable {κ : Type} [DecidableEq κ]

/-- The time of the last use of the key. -/
def lastUse : List (Option κ) → κ → Option Nat
  | [], _ => none
  | u :: us, k => if u = some k then some us.length else lastUse us k

/-- Both keys have been used, and the last use of `a` is before that of `b`. -/
def Older (us : List (Option κ)) (a b : κ) : Prop :=
  ∃ i j, lastUse us a = some i ∧ lastUse us b = some j ∧ i < j

structure InOrder (us : List (Option κ)) (ks : List κ) : Prop where
  used : ∀ k ∈ ks, ∃ i, lastUse us k = some i
  older : ks.Pairwise (Older us)

variable {us : List (Option κ)} {a b k : κ} {i : Nat} {ks : List κ}

private theorem lastUse_self : lastUse (some k :: us) k = some us.length := if_pos rfl

private theorem lastUse_of_ne (h : a ≠ k) : lastUse (some k :: us) a = lastUse us a :=
  if_neg fun heq => h (Option.some.inj heq).symm

private theorem lastUse_none : lastUse (none :: us) a = lastUse us a := if_neg (Option.some_ne_none a).symm

private theorem lastUse_lt (h : lastUse us a = some i) : i < us.length := by
  induction us with
  | nil => cases h
  | cons u us ih =>
    rw [lastUse] at h
    split at h
    · cases h
      exact Nat.lt_succ_self _
    · exact Nat.lt_succ_of_lt (ih h)

theorem Older.idle (h : Older us a b) : Older (none :: us) a b := by
  obtain ⟨i, j, hi, hj, hlt⟩ := h
  exact ⟨i, j, lastUse_none.trans hi, lastUse_none.trans hj, hlt⟩

theorem Older.use (h : Older us a b) (ha : a ≠ k) (hb : b ≠ k) : Older (some k :: us) a b := by
  obtain ⟨i, j, hi, hj, hlt⟩ := h
  exact ⟨i, j, (lastUse_of_ne ha).trans hi, (lastUse_of_ne hb).trans hj, hlt⟩

theorem InOrder.nil : InOrder us [] where
  used _ hk := absurd hk List.not_mem_nil
  older := List.Pairwise.nil

theorem InOrder.sublist {ks' : List κ} (h : InOrder us ks) (hsub : ks'.Sublist ks) : InOrder us ks' where
  used k hk := h.used k (hsub.subset hk)
  older := h.older.sublist hsub

theorem InOrder.idle (h : InOrder us ks) : InOrder (none :: us) ks where
  used k hk := by
    obtain ⟨i, hi⟩ := h.used k hk
    exact ⟨i, lastUse_none.trans hi⟩
  older := h.older.imp Older.idle

/-- The key that is used goes to the end. -/
theorem InOrder.use (h : InOrder us ks) (hk : k ∉ ks) : InOrder (some k :: us) (ks ++ [k]) := by
  have hne : ∀ a ∈ ks, a ≠ k := by
    rintro a ha rfl
    exact hk ha
  refine ⟨fun a ha => ?_, List.pairwise_append.2 ⟨?_, List.pairwise_singleton _ k, fun a ha b hb => ?_⟩⟩
  · rcases List.mem_append.1 ha with ha | ha
    · obtain ⟨i, hi⟩ := h.used a ha
      exact ⟨i, (lastUse_of_ne (hne a ha)).trans hi⟩
    · obtain rfl := List.mem_singleton.1 ha
      exact ⟨us.length, lastUse_self⟩
  · exact h.older.imp_of_mem fun ha hb hab => hab.use (hne _ ha) (hne _ hb)
  · obtain rfl := List.mem_singleton.1 hb
    obtain ⟨i, hi⟩ := h.used a ha
    exact ⟨i, us.length, (lastUse_of_ne (hne a ha)).trans hi, lastUse_self, lastUse_lt hi⟩

end Recency
