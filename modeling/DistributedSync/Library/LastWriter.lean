import Mathlib.Data.Set.Insert
import Mathlib.Order.Defs.LinearOrder

/-!
# Registers that resolve conflicts by time

Writes are ordered by a strict partial order `before`, which is causality, and carry times.  A write beats another
one that is before it, and of two unordered writes the later one beats the other.  The two rules together need not
be transitive: a write may have an earlier time than one that it follows, and a third one may lie between them.
Where no three writes are so (`Inverted`), every set of writes has one champion at most, and a register that keeps
the winner of each comparison holds the champion of what it has seen, whatever the order.
-/

namespace LastWriter

variable {ω ν : Type} [LinearOrder ν] (before : ω → ω → Prop) (time : ω → ν)

def Beats (x y : ω) : Prop := before y x ∨ (¬before x y ∧ time y < time x)

/-- The write `x` follows `y` and has the earlier time, and `z`, which is unordered with both, lies between. -/
structure Inverted (x y z : ω) : Prop where
  follows : before y x
  apart : ¬before x z ∧ ¬before z x ∧ ¬before y z ∧ ¬before z y
  between : time x < time z ∧ time z < time y

/-- What the writes of a set have to meet. -/
structure Straight (W : Set ω) : Prop where
  irrefl : ∀ x, ¬before x x
  trans : ∀ x y z, before x y → before y z → before x z
  distinct : ∀ x ∈ W, ∀ y ∈ W, time x = time y → x = y
  notInverted : ∀ x ∈ W, ∀ y ∈ W, ∀ z ∈ W, ¬Inverted before time x y z

/-- The write is in the set and beats all others of it. -/
structure Champion (S : Set ω) (c : ω) : Prop where
  mem : c ∈ S
  beats : ∀ x ∈ S, x = c ∨ Beats before time c x

variable {before time} {W S : Set ω} {x y z c : ω}

private theorem Straight.beats_asymm (h : Straight before time W) (hxy : Beats before time x y) :
    ¬Beats before time y x := by
  intro hyx
  rcases hxy with hxy | ⟨hxy, hlt⟩
  · rcases hyx with hyx | ⟨hyx, -⟩
    · exact h.irrefl x (h.trans x y x hyx hxy)
    · exact hyx hxy
  · rcases hyx with hyx | ⟨-, hlt'⟩
    · exact hxy hyx
    · exact lt_asymm hlt hlt'

private theorem Straight.beats_total (h : Straight before time W) (hx : x ∈ W) (hy : y ∈ W) (hne : x ≠ y) :
    Beats before time x y ∨ Beats before time y x := by
  by_cases hyx : before y x
  · exact Or.inl (Or.inl hyx)
  · by_cases hxy : before x y
    · exact Or.inr (Or.inl hxy)
    · rcases lt_trichotomy (time x) (time y) with hlt | heq | hgt
      · exact Or.inr (Or.inr ⟨hyx, hlt⟩)
      · exact absurd (h.distinct x hx y hy heq) hne
      · exact Or.inl (Or.inr ⟨hxy, hgt⟩)

/-- A cycle of three cannot contain a write that follows the one it beats: it would follow the third one too, or the
three would be inverted. -/
theorem Straight.no_cycle_of_before (h : Straight before time W) (hx : x ∈ W) (hy : y ∈ W) (hz : z ∈ W)
    (hxy : before y x) (hyz : Beats before time y z) : ¬Beats before time z x := by
  intro hzx
  have hyz' : ¬before y z ∧ time z < time y ∧ ¬before z y := by
    rcases hyz with hzy | ⟨hnyz, hlt⟩
    · have hbefore : before z x := h.trans z y x hzy hxy
      exact absurd hzx (h.beats_asymm (Or.inl hbefore))
    · refine ⟨hnyz, hlt, fun hzy => ?_⟩
      exact h.beats_asymm (Or.inl (h.trans z y x hzy hxy)) hzx
  have hzx' : ¬before z x ∧ time x < time z ∧ ¬before x z := by
    rcases hzx with hxz | ⟨hnzx, hlt⟩
    · exact absurd (h.trans y x z hxy hxz) hyz'.1
    · exact ⟨hnzx, hlt, fun hxz => hyz'.1 (h.trans y x z hxy hxz)⟩
  exact h.notInverted x hx y hy z hz ⟨hxy, ⟨hzx'.2.2, hzx'.1, hyz'.1, hyz'.2.2⟩, hzx'.2.1, hyz'.2.1⟩

private theorem Straight.no_cycle (h : Straight before time W) (hx : x ∈ W) (hy : y ∈ W) (hz : z ∈ W)
    (hxy : Beats before time x y) (hyz : Beats before time y z) : ¬Beats before time z x := by
  intro hzx
  rcases hxy with hbefore | ⟨hnxy, hlt₁⟩
  · exact h.no_cycle_of_before hx hy hz hbefore hyz hzx
  · rcases hyz with hbefore | ⟨hnyz, hlt₂⟩
    · exact h.no_cycle_of_before hy hz hx hbefore hzx (Or.inr ⟨hnxy, hlt₁⟩)
    · rcases hzx with hbefore | ⟨hnzx, hlt₃⟩
      · exact h.no_cycle_of_before hz hx hy hbefore (Or.inr ⟨hnxy, hlt₁⟩) (Or.inr ⟨hnyz, hlt₂⟩)
      · exact lt_asymm hlt₃ (hlt₂.trans hlt₁)

/-- Two champions of one set are the same. -/
theorem Champion.unique {c' : ω} (h : Straight before time W) (hc : Champion before time S c)
    (hc' : Champion before time S c') : c = c' := by
  rcases hc'.beats c hc.mem with heq | hbeats'
  · exact heq
  · rcases hc.beats c' hc'.mem with heq | hbeats
    · exact heq.symm
    · exact absurd hbeats' (h.beats_asymm hbeats)

/-- A champion stays when it beats the newcomer, or the newcomer is the champion itself. -/
theorem Champion.keep (hc : Champion before time S c) (hx : x = c ∨ Beats before time c x) :
    Champion before time (insert x S) c where
  mem := Set.mem_insert_of_mem x hc.mem
  beats y hy := by
    rcases Set.mem_insert_iff.1 hy with rfl | hy
    · exact hx
    · exact hc.beats y hy

/-- A newcomer that beats the champion is the new one. -/
theorem Champion.replace (h : Straight before time W) (hS : S ⊆ W) (hc : Champion before time S c) (hx : x ∈ W)
    (hbeats : Beats before time x c) : Champion before time (insert x S) x where
  mem := Set.mem_insert x S
  beats y hy := by
    rcases Set.mem_insert_iff.1 hy with rfl | hy
    · exact Or.inl rfl
    · by_cases heq : y = x
      · exact Or.inl heq
      · refine Or.inr ?_
        rcases hc.beats y hy with rfl | hcy
        · exact hbeats
        · rcases h.beats_total hx (hS hy) (Ne.symm heq) with hxy | hyx
          · exact hxy
          · exact absurd hyx (h.no_cycle hx (hS hc.mem) (hS hy) hbeats hcy)

end LastWriter
