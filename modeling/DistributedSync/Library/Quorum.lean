import Mathlib.Data.Finset.Card

/-!
# Quorum systems

A family of sets of processes any two of which meet, and the majorities of a finite set as an instance.
-/

/-- The quorums over the processes `ι`; any two of them meet. -/
structure QuorumSystem (ι : Type) where
  IsQuorum : Finset ι → Prop
  meet : ∀ {Q Q' : Finset ι}, IsQuorum Q → IsQuorum Q' → ∃ p ∈ Q, p ∈ Q'

namespace QuorumSystem

variable {ι : Type}

theorem nonempty (QS : QuorumSystem ι) {Q : Finset ι} (h : QS.IsQuorum Q) : ∃ p, p ∈ Q := by
  obtain ⟨p, hp, _⟩ := QS.meet h h
  exact ⟨p, hp⟩

/-- The subsets of `ids` with more than half of its elements. -/
def majority [DecidableEq ι] (ids : Finset ι) : QuorumSystem ι where
  IsQuorum Q := Q ⊆ ids ∧ ids.card < 2 * Q.card
  meet := by
    intro Q Q' ⟨hQ, hc⟩ ⟨hQ', hc'⟩
    have hle : (Q ∪ Q').card ≤ ids.card := Finset.card_le_card (Finset.union_subset hQ hQ')
    have hsum := Finset.card_union_add_card_inter Q Q'
    obtain ⟨p, hp⟩ : (Q ∩ Q').Nonempty := Finset.card_pos.1 (by omega)
    exact ⟨p, (Finset.mem_inter.1 hp).1, (Finset.mem_inter.1 hp).2⟩

end QuorumSystem
