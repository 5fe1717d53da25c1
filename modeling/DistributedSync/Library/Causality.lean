import Mathlib.Algebra.Order.Group.Nat
import Mathlib.Logic.Function.Basic
import Mathlib.Order.Lattice
import DistributedSync.Library.Positions
import DistributedSync.Library.Transition

/-!
# Vector clocks and causality

Processes emit events and learn of events of each other.  A process counts its own events and keeps, for every other
process, the highest count it has heard of; an event is stamped with the clock of its process.  Causality is defined
on the positions of the events and on what a process had learnt before an event, never on clocks, and the main
result is that the stamps, ordered pointwise, tell it exactly (`Sound.stamp_lt_iff`).
-/

namespace Causality

variable {ι : Type}

/-- An event: its process, its stamp, and the events that its process had learnt of before. -/
structure Event (ι : Type) where
  process : ι
  stamp : ι → Nat
  learnt : List Nat

/-- The clock of each process, the events that each process has learnt of, and all events in their order. -/
structure System (ι : Type) where
  clock : ι → ι → Nat := fun _ _ => 0
  learnt : ι → List Nat := fun _ => []
  events : List (Event ι) := []

/-- Event `i` happened before event `j`: an earlier event of the same process, or one that its process had learnt of
before, or transitively. -/
inductive HappenedBefore (es : List (Event ι)) : Nat → Nat → Prop where
  | sameProcess {i j : Nat} {e f : Event ι} : es[i]? = some e → es[j]? = some f → e.process = f.process → i < j →
      HappenedBefore es i j
  | learnt {i j : Nat} {f : Event ι} : es[j]? = some f → i ∈ f.learnt → HappenedBefore es i j
  | trans {i j k : Nat} : HappenedBefore es i j → HappenedBefore es j k → HappenedBefore es i k

/-- Event `i` is event `j` or happened before it. -/
def Past (es : List (Event ι)) (i j : Nat) : Prop := i = j ∨ HappenedBefore es i j

/-- Event `i` is in the past of an event of `a`, or of one that `a` has learnt of. -/
def Knows (es : List (Event ι)) (learnt : List Nat) (a : ι) (i : Nat) : Prop :=
  ∃ j, Past es i j ∧ (j ∈ learnt ∨ ∃ f, es[j]? = some f ∧ f.process = a)

/-- Processes learn of events that have been emitted. -/
def LearntBefore (es : List (Event ι)) : Prop := ∀ (j : Nat) (f : Event ι), es[j]? = some f → ∀ i ∈ f.learnt, i < j

/-! ### The order of the events -/

section

variable {es : List (Event ι)} {i j k : Nat} {a : ι} {learnt : List Nat} {e f : Event ι}

theorem HappenedBefore.lt (hes : LearntBefore es) (h : HappenedBefore es i j) :
    i < j := by
  induction h with
  | sameProcess _ _ _ hij => exact hij
  | learnt hj hi => exact hes _ _ hj _ hi
  | trans _ _ ih₁ ih₂ => exact ih₁.trans ih₂

theorem HappenedBefore.append (h : HappenedBefore es i j) (l : List (Event ι)) : HappenedBefore (es ++ l) i j := by
  induction h with
  | sameProcess hi hj hp hij =>
    exact .sameProcess (Positions.getElem?_append_of_some hi _) (Positions.getElem?_append_of_some hj _) hp hij
  | learnt hj hi => exact .learnt (Positions.getElem?_append_of_some hj _) hi
  | trans _ _ ih₁ ih₂ => exact .trans ih₁ ih₂

theorem Past.append (h : Past es i j) (l : List (Event ι)) : Past (es ++ l) i j := by
  rcases h with h | h
  · exact Or.inl h
  · exact Or.inr (h.append l)

theorem Past.trans (h : Past es i j) (h' : Past es j k) : Past es i k := by
  rcases h with rfl | h
  · exact h'
  · rcases h' with rfl | h'
    · exact Or.inr h
    · exact Or.inr (h.trans h')

theorem Knows.past (h : Knows es learnt a j) (hij : Past es i j) : Knows es learnt a i := by
  obtain ⟨k, hk, hown⟩ := h
  exact ⟨k, hij.trans hk, hown⟩

theorem Knows.append (h : Knows es learnt a i) (l : List (Event ι)) : Knows (es ++ l) learnt a i := by
  obtain ⟨j, hj, hown⟩ := h
  refine ⟨j, hj.append l, ?_⟩
  rcases hown with hown | ⟨f, hf, hp⟩
  · exact Or.inl hown
  · exact Or.inr ⟨f, Positions.getElem?_append_of_some hf _, hp⟩

/-- An own event is known. -/
theorem knows_own (hi : es[i]? = some e) (hp : e.process = a) : Knows es learnt a i :=
  ⟨i, Or.inl rfl, Or.inr ⟨e, hi, hp⟩⟩

theorem LearntBefore.concat {x : Event ι} (hes : LearntBefore es) (hx : ∀ i ∈ x.learnt, i < es.length) :
    LearntBefore (es ++ [x]) := by
  intro j f hf i hi
  rcases Positions.getElem?_concat hf with ⟨-, hold⟩ | ⟨rfl, rfl⟩
  · exact hes j f hold i hi
  · exact hx i hi

/-- What precedes an old event are the old events that did, and what precedes a new one is what its process knows. -/
theorem happenedBefore_concat {x : Event ι} (hes : LearntBefore es)
    (hx : ∀ i ∈ x.learnt, i < es.length) (h : HappenedBefore (es ++ [x]) i j) :
    (j < es.length → HappenedBefore es i j) ∧ (j = es.length → Knows es x.learnt x.process i) := by
  have hbound : LearntBefore (es ++ [x]) := hes.concat hx
  induction h with
  | @sameProcess i j e f hi hj hp hij =>
    constructor
    · intro hlt
      have hold : ∀ k g, k < es.length → (es ++ [x])[k]? = some g → es[k]? = some g := by
        intro k g hk hg
        rwa [List.getElem?_append_left hk] at hg
      exact .sameProcess (hold i e (hij.trans hlt) hi) (hold j f hlt hj) hp hij
    · rintro rfl
      have hf : f = x := by
        rcases Positions.getElem?_concat hj with ⟨hlt, -⟩ | ⟨-, hf⟩
        · exact absurd hlt (Nat.lt_irrefl _)
        · exact hf
      rw [List.getElem?_append_left hij] at hi
      exact knows_own hi (hf ▸ hp)
  | @learnt i j f hj hi =>
    rcases Positions.getElem?_concat hj with ⟨hlt, hold⟩ | ⟨rfl, rfl⟩
    · refine ⟨fun _ => .learnt hold hi, fun heq => ?_⟩
      exact absurd heq (Nat.ne_of_lt hlt)
    · refine ⟨fun hlt => absurd hlt (Nat.lt_irrefl _), fun _ => ?_⟩
      exact ⟨i, Or.inl rfl, Or.inl hi⟩
  | @trans i j k h₁ h₂ ih₁ ih₂ =>
    have hjk : j < k := h₂.lt hbound
    constructor
    · intro hlt
      exact .trans (ih₁.1 (hjk.trans hlt)) (ih₂.1 hlt)
    · intro heq
      exact (ih₂.2 heq).past (Or.inr (ih₁.1 (heq ▸ hjk)))

/-- What is known after a new event was known before, or is the event itself at its process. -/
theorem knows_concat {x : Event ι} (hes : LearntBefore es) (hx : ∀ i ∈ x.learnt, i < es.length)
    (hlearnt : ∀ j ∈ learnt, j < es.length) (hsame : x.process = a → x.learnt = learnt)
    (h : Knows (es ++ [x]) learnt a i) :
    (i < es.length ∧ Knows es learnt a i) ∨ (i = es.length ∧ x.process = a) := by
  have hlt : ∀ i j, HappenedBefore (es ++ [x]) i j → i < j := fun i j hij => hij.lt (hes.concat hx)
  obtain ⟨j, hij, hown⟩ := h
  rcases hown with hown | ⟨f, hf, hp⟩
  · have hj := hlearnt j hown
    rcases hij with rfl | hij
    · exact Or.inl ⟨hj, i, Or.inl rfl, Or.inl hown⟩
    · exact Or.inl ⟨(hlt i j hij).trans hj, j, Or.inr ((happenedBefore_concat hes hx hij).1 hj), Or.inl hown⟩
  · rcases Positions.getElem?_concat hf with ⟨hj, hold⟩ | ⟨rfl, rfl⟩
    · rcases hij with rfl | hij
      · exact Or.inl ⟨hj, knows_own hold hp⟩
      · exact Or.inl ⟨(hlt i j hij).trans hj,
          (knows_own hold hp).past (Or.inr ((happenedBefore_concat hes hx hij).1 hj))⟩
    · rcases hij with rfl | hij
      · exact Or.inr ⟨rfl, hp⟩
      · have hk := (happenedBefore_concat hes hx hij).2 rfl
        rw [hsame hp, hp] at hk
        exact Or.inl ⟨hlt _ _ hij, hk⟩

end

/-! ### The clocks -/

/-- What ties the clocks to the events: the position of an event of `a` in the count of `a` is reached by a clock just
if the event is known there, and known events have their whole stamp below the clock. -/
structure Sound (s : System ι) : Prop where
  learntBefore : LearntBefore s.events
  learnt : ∀ a, ∀ i ∈ s.learnt a, i < s.events.length
  bound : ∀ a b, s.clock a b ≤ s.clock b b
  knows_le : ∀ a i e, s.events[i]? = some e → Knows s.events (s.learnt a) a i → e.stamp ≤ s.clock a
  le_knows : ∀ a i e, s.events[i]? = some e → e.stamp e.process ≤ s.clock a e.process →
    Knows s.events (s.learnt a) a i
  past_le : ∀ i j e f, s.events[i]? = some e → s.events[j]? = some f → HappenedBefore s.events i j →
    e.stamp ≤ f.stamp
  le_past : ∀ i j e f, s.events[i]? = some e → s.events[j]? = some f →
    e.stamp e.process ≤ f.stamp e.process → Past s.events i j

variable {s s' : System ι}

theorem Sound.init : Sound ({} : System ι) where
  learntBefore j f h := by cases h
  learnt a i h := by cases h
  bound a b := Nat.le_refl _
  knows_le a i e h := by cases h
  le_knows a i e h := by cases h
  past_le i j e f h := by cases h
  le_past i j e f h := by cases h

/-- A stamp is below the clock of the process of its event. -/
theorem Sound.stamp_le (h : Sound s) {i : Nat} {e : Event ι} (hi : s.events[i]? = some e) :
    e.stamp ≤ s.clock e.process :=
  h.knows_le _ i e hi (knows_own hi rfl)

theorem Sound.irrefl (h : Sound s) (i : Nat) : ¬HappenedBefore s.events i i :=
  fun hi => Nat.lt_irrefl i (hi.lt h.learntBefore)

/-- The order of the stamps is causality. -/
theorem Sound.stamp_le_iff (h : Sound s) {i j : Nat} {e f : Event ι} (hi : s.events[i]? = some e)
    (hj : s.events[j]? = some f) : e.stamp ≤ f.stamp ↔ Past s.events i j := by
  constructor
  · intro hle
    exact h.le_past i j e f hi hj (hle e.process)
  · rintro (rfl | hij)
    · exact (Option.some.inj (hi.symm.trans hj) ▸ le_refl _)
    · exact h.past_le i j e f hi hj hij

theorem Sound.stamp_lt_iff (h : Sound s) {i j : Nat} {e f : Event ι} (hi : s.events[i]? = some e)
    (hj : s.events[j]? = some f) : e.stamp < f.stamp ↔ HappenedBefore s.events i j := by
  rw [lt_iff_le_not_ge, h.stamp_le_iff hi hj, h.stamp_le_iff hj hi]
  constructor
  · rintro ⟨hij, hji⟩
    rcases hij with rfl | hij
    · exact absurd (Or.inl rfl) hji
    · exact hij
  · intro hij
    refine ⟨Or.inr hij, ?_⟩
    rintro (rfl | hji)
    · exact h.irrefl _ hij
    · exact h.irrefl _ (hij.trans hji)

/-! ### The steps -/

variable [DecidableEq ι]

/-- One more event of `a`. -/
def tick (a : ι) (v : ι → Nat) : ι → Nat := Function.update v a (v a + 1)

def System.emit (s : System ι) (a : ι) : System ι where
  clock := Function.update s.clock a (tick a (s.clock a))
  learnt := s.learnt
  events := s.events ++ [⟨a, tick a (s.clock a), s.learnt a⟩]

/-- The process `a` learns of the `i`-th event `e`. -/
def System.learn (s : System ι) (a : ι) (i : Nat) (e : Event ι) : System ι where
  clock := Function.update s.clock a (s.clock a ⊔ e.stamp)
  learnt := Function.update s.learnt a (i :: s.learnt a)
  events := s.events

inductive Action (ι : Type) where
  | emit (a : ι)
  | learn (a : ι) (i : Nat)

def step (s : System ι) : Action ι → Option (System ι)
  | .emit a => some (s.emit a)
  | .learn a i => s.events[i]?.map fun e => s.learn a i e

private theorem le_tick (a : ι) (v : ι → Nat) : v ≤ tick a v := by
  intro b
  by_cases hb : b = a
  · rw [hb, tick, Function.update_self]
    exact Nat.le_succ _
  · rw [tick, Function.update_of_ne hb]

private theorem tick_of_ne {a b : ι} (h : b ≠ a) (v : ι → Nat) : tick a v b = v b := Function.update_of_ne h _ _

theorem tick_self (a : ι) (v : ι → Nat) : tick a v a = v a + 1 := Function.update_self _ _ _

private theorem clock_emit_self (s : System ι) (a : ι) :
    (s.emit a).clock a = tick a (s.clock a) := Function.update_self _ _ _

private theorem clock_emit_of_ne (s : System ι) {a b : ι} (h : b ≠ a) : (s.emit a).clock b = s.clock b :=
  Function.update_of_ne h _ _

private theorem clock_le_emit (s : System ι) (a b : ι) : s.clock b ≤ (s.emit a).clock b := by
  by_cases hb : b = a
  · rw [hb, clock_emit_self]
    exact le_tick a _
  · rw [clock_emit_of_ne s hb]

/-- The count of a new event is above every clock so far. -/
theorem Sound.clock_lt_tick (h : Sound s) (a b : ι) : s.clock b a < tick a (s.clock a) a := by
  rw [tick_self]
  exact Nat.lt_succ_of_le (h.bound b a)

private theorem Sound.emit_bound (h : Sound s) (a b c : ι) : (s.emit a).clock b c ≤ (s.emit a).clock c c := by
  by_cases hb : b = a
  · subst hb
    by_cases hc : c = b
    · rw [hc]
    · rw [clock_emit_self, tick_of_ne hc, clock_emit_of_ne s hc]
      exact h.bound b c
  · rw [clock_emit_of_ne s hb]
    exact (h.bound b c).trans (clock_le_emit s a c c)

private theorem Sound.emit_knows_le (h : Sound s) (a b : ι) {i : Nat} {e : Event ι}
    (he : (s.emit a).events[i]? = some e)
    (hk : Knows (s.emit a).events (s.learnt b) b i) : e.stamp ≤ (s.emit a).clock b := by
  have hsame : a = b → s.learnt a = s.learnt b := fun hab => by rw [hab]
  rcases knows_concat h.learntBefore (h.learnt a) (h.learnt b) hsame hk with ⟨hi, hk⟩ | ⟨rfl, hab⟩
  · rcases Positions.getElem?_concat he with ⟨-, hold⟩ | ⟨rfl, -⟩
    · exact (h.knows_le b i e hold hk).trans (clock_le_emit s a b)
    · exact absurd hi (Nat.lt_irrefl _)
  · rcases Positions.getElem?_concat he with ⟨hi, -⟩ | ⟨-, rfl⟩
    · exact absurd hi (Nat.lt_irrefl _)
    · obtain rfl : a = b := hab
      exact (clock_emit_self s a).ge

private theorem Sound.emit_le_knows (h : Sound s) (a b : ι) {i : Nat} {e : Event ι}
    (he : (s.emit a).events[i]? = some e)
    (hle : e.stamp e.process ≤ (s.emit a).clock b e.process) : Knows (s.emit a).events (s.learnt b) b i := by
  rcases Positions.getElem?_concat he with ⟨hi, hold⟩ | ⟨rfl, rfl⟩
  · by_cases hp : e.process = b
    · exact knows_own he hp
    · have hle' : e.stamp e.process ≤ s.clock b e.process := by
        by_cases hb : b = a
        · subst hb
          rwa [clock_emit_self, tick_of_ne hp] at hle
        · rwa [clock_emit_of_ne s hb] at hle
      exact (h.le_knows b i e hold hle').append _
  · by_cases hb : b = a
    · exact knows_own he hb.symm
    · rw [clock_emit_of_ne s hb] at hle
      exact absurd hle (Nat.not_le_of_lt (h.clock_lt_tick a b))

private theorem Sound.emit_past_le (h : Sound s) (a : ι) {i j : Nat} {e f : Event ι}
    (he : (s.emit a).events[i]? = some e)
    (hf : (s.emit a).events[j]? = some f) (hij : HappenedBefore (s.emit a).events i j) : e.stamp ≤ f.stamp := by
  have hi : i < j := hij.lt (h.learntBefore.concat (h.learnt a))
  have hpast := happenedBefore_concat h.learntBefore (h.learnt a) hij
  rcases Positions.getElem?_concat hf with ⟨hj, hf⟩ | ⟨rfl, rfl⟩
  · rcases Positions.getElem?_concat he with ⟨-, he⟩ | ⟨rfl, -⟩
    · exact h.past_le i j e f he hf (hpast.1 hj)
    · exact absurd (hi.trans hj) (Nat.lt_irrefl _)
  · rcases Positions.getElem?_concat he with ⟨-, he⟩ | ⟨rfl, -⟩
    · exact (h.knows_le a i e he (hpast.2 rfl)).trans (le_tick a _)
    · exact absurd hi (Nat.lt_irrefl _)

/-- What a process knows precedes its next event. -/
theorem past_emit {a : ι} {i : Nat} (h : Knows s.events (s.learnt a) a i) :
    Past (s.emit a).events i s.events.length := by
  have hlast : (s.emit a).events[s.events.length]? = some ⟨a, tick a (s.clock a), s.learnt a⟩ :=
    List.getElem?_concat_length
  obtain ⟨k, hk, hown⟩ := h
  have hbefore : HappenedBefore (s.emit a).events k s.events.length := by
    rcases hown with hown | ⟨g, hg, hp⟩
    · exact .learnt hlast hown
    · have hlt : k < s.events.length := (List.getElem?_eq_some_iff.1 hg).1
      exact .sameProcess (Positions.getElem?_append_of_some hg _) hlast hp hlt
  exact (hk.append _).trans (Or.inr hbefore)

private theorem Sound.emit_le_past (h : Sound s) (a : ι) {i j : Nat} {e f : Event ι}
    (he : (s.emit a).events[i]? = some e)
    (hf : (s.emit a).events[j]? = some f) (hle : e.stamp e.process ≤ f.stamp e.process) :
    Past (s.emit a).events i j := by
  rcases Positions.getElem?_concat he with ⟨hi, hold⟩ | ⟨rfl, rfl⟩
  · rcases Positions.getElem?_concat hf with ⟨hj, hf⟩ | ⟨rfl, rfl⟩
    · exact (h.le_past i j e f hold hf hle).append _
    · by_cases hp : e.process = a
      · exact Or.inr (.sameProcess he hf hp hi)
      · have hle' : e.stamp e.process ≤ s.clock a e.process := by
          have hne := tick_of_ne hp (s.clock a)
          exact hle.trans hne.le
        exact past_emit (h.le_knows a i e hold hle')
  · rcases Positions.getElem?_concat hf with ⟨hj, hf⟩ | ⟨rfl, -⟩
    · -- no old stamp has the count of the new event
      have hstamp : f.stamp a ≤ s.clock f.process a := h.stamp_le hf a
      exact absurd (hle.trans hstamp) (Nat.not_le_of_lt (h.clock_lt_tick a _))
    · exact Or.inl rfl

theorem Sound.emit (h : Sound s) (a : ι) : Sound (s.emit a) where
  learntBefore := h.learntBefore.concat (h.learnt a)
  learnt b i hi := by
    have hlen := h.learnt b i hi
    show i < (s.events ++ [_]).length
    rw [List.length_append, List.length_singleton]
    omega
  bound := h.emit_bound a
  knows_le b _ _ he hk := h.emit_knows_le a b he hk
  le_knows b _ _ he hle := h.emit_le_knows a b he hle
  past_le _ _ _ _ he hf hij := h.emit_past_le a he hf hij
  le_past _ _ _ _ he hf hle := h.emit_le_past a he hf hle

private theorem clock_learn_self (s : System ι) (a : ι) (i : Nat) (e : Event ι) :
    (s.learn a i e).clock a = s.clock a ⊔ e.stamp := Function.update_self _ _ _

private theorem clock_learn_of_ne (s : System ι) {a b : ι} (h : b ≠ a) (i : Nat) (e : Event ι) :
    (s.learn a i e).clock b = s.clock b := Function.update_of_ne h _ _

private theorem learnt_learn_self (s : System ι) (a : ι) (i : Nat) (e : Event ι) :
    (s.learn a i e).learnt a = i :: s.learnt a := Function.update_self _ _ _

private theorem learnt_learn_of_ne (s : System ι) {a b : ι} (h : b ≠ a) (i : Nat) (e : Event ι) :
    (s.learn a i e).learnt b = s.learnt b := Function.update_of_ne h _ _

private theorem clock_le_learn (s : System ι) (a b : ι) (i : Nat) (e : Event ι) :
    s.clock b ≤ (s.learn a i e).clock b := by
  by_cases hb : b = a
  · rw [hb, clock_learn_self]
    exact le_sup_left
  · rw [clock_learn_of_ne s hb]

private theorem Sound.learn_bound (h : Sound s) (a : ι) {i : Nat} {e : Event ι} (hi : s.events[i]? = some e) (b c : ι) :
    (s.learn a i e).clock b c ≤ (s.learn a i e).clock c c := by
  refine le_trans ?_ (clock_le_learn s a c i e c)
  by_cases hb : b = a
  · rw [hb, clock_learn_self]
    have hstamp : e.stamp c ≤ s.clock c c := (h.stamp_le hi c).trans (h.bound _ c)
    exact sup_le (h.bound a c) hstamp
  · rw [clock_learn_of_ne s hb]
    exact h.bound b c

private theorem Sound.learn_knows_le (h : Sound s) (a : ι) {i : Nat} {e : Event ι} (hi : s.events[i]? = some e) (b : ι)
    {j : Nat} {f : Event ι} (hf : s.events[j]? = some f) (hk : Knows s.events ((s.learn a i e).learnt b) b j) :
    f.stamp ≤ (s.learn a i e).clock b := by
  by_cases hb : b = a
  · subst hb
    rw [learnt_learn_self] at hk
    rw [clock_learn_self]
    obtain ⟨k, hjk, hown⟩ := hk
    rcases hown with hown | hown
    · rcases List.mem_cons.1 hown with rfl | hown
      · refine le_trans ?_ le_sup_right
        rcases hjk with rfl | hjk
        · obtain rfl : e = f := Option.some.inj (hi.symm.trans hf)
          exact le_refl _
        · exact h.past_le j k f e hf hi hjk
      · exact (h.knows_le b j f hf ⟨k, hjk, Or.inl hown⟩).trans le_sup_left
    · exact (h.knows_le b j f hf ⟨k, hjk, Or.inr hown⟩).trans le_sup_left
  · rw [learnt_learn_of_ne s hb] at hk
    rw [clock_learn_of_ne s hb]
    exact h.knows_le b j f hf hk

private theorem Sound.learn_le_knows (h : Sound s) (a : ι) {i : Nat} {e : Event ι} (hi : s.events[i]? = some e) (b : ι)
    {j : Nat} {f : Event ι} (hf : s.events[j]? = some f) (hle : f.stamp f.process ≤ (s.learn a i e).clock b f.process) :
    Knows s.events ((s.learn a i e).learnt b) b j := by
  by_cases hb : b = a
  · subst hb
    rw [clock_learn_self] at hle
    rw [learnt_learn_self]
    rcases le_sup_iff.1 hle with hle | hle
    · obtain ⟨k, hjk, hown⟩ := h.le_knows b j f hf hle
      exact ⟨k, hjk, hown.imp_left (List.mem_cons_of_mem i)⟩
    · exact ⟨i, h.le_past j i f e hf hi hle, Or.inl List.mem_cons_self⟩
  · rw [clock_learn_of_ne s hb] at hle
    rw [learnt_learn_of_ne s hb]
    exact h.le_knows b j f hf hle

theorem Sound.learn (h : Sound s) (a : ι) {i : Nat} {e : Event ι} (hi : s.events[i]? = some e) :
    Sound (s.learn a i e) where
  learntBefore := h.learntBefore
  learnt b j hj := by
    by_cases hb : b = a
    · subst hb
      rw [learnt_learn_self] at hj
      rcases List.mem_cons.1 hj with rfl | hj
      · exact (List.getElem?_eq_some_iff.1 hi).1
      · exact h.learnt b j hj
    · rw [learnt_learn_of_ne s hb] at hj
      exact h.learnt b j hj
  bound := h.learn_bound a hi
  knows_le b _ _ hf hk := h.learn_knows_le a hi b hf hk
  le_knows b _ _ hf hle := h.learn_le_knows a hi b hf hle
  past_le := h.past_le
  le_past := h.le_past

theorem Sound.step (h : Sound s) {act : Action ι} (hstep : step s act = some s') : Sound s' := by
  cases act with
  | emit a =>
    cases hstep
    exact h.emit a
  | learn a i =>
    obtain ⟨e, he, rfl⟩ := Option.map_eq_some_iff.1 hstep
    exact h.learn a he

end Causality
