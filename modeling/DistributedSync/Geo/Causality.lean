import Mathlib.Algebra.Order.Ring.Int
import DistributedSync.Geo.Cluster

/-!
# The clocks of the replicators tell causality

A write happened before another one if its node is the same and it came earlier, if the node of the other one had
handled its entry before, or transitively.  In every run the clocks that the entries carry tell this exactly
(`clocks_tell_causality`): an entry dominates those of the writes before its own, and is concurrent with those of
the writes that are neither before nor after.
-/

namespace DistributedSync

namespace ReplicatorCluster

section

variable {α ν : Type} {s : State α ν}

/-- What a node has processed happened before its next write. -/
theorem State.Processed.happenedBefore {a : String} {i : Nat} (h : s.Processed a i) (key : String) (value : α) (now : ν)
    (peers : List String) :
    (s.write a key value now peers).HappenedBefore i s.writes.length := by
  have hlast : (s.write a key value now peers).system.events[s.writes.length]? =
      some (Written.event ⟨a, (s.replicator a).newEntry key value now, s.handled a⟩) :=
    getElem?_events List.getElem?_concat_length
  rcases h with h | ⟨w, hw, hnode⟩
  · exact .learnt hlast h
  · have hlt : i < s.writes.length := (List.getElem?_eq_some_iff.1 hw).1
    exact .sameProcess (getElem?_events (getElem?_writes_append hw)) hlast hnode hlt

variable [Zero ν] [LinearOrder ν]

private theorem dominates_iff_happenedBefore (h : Reach s) {i j : Nat} {w w' : Written α ν} (hi : s.writes[i]? = some w)
    (hj : s.writes[j]? = some w') : w'.entry.vectorClock.dominates w.entry.vectorClock ↔ s.HappenedBefore i j := by
  rw [VectorClock.dominates_iff]
  exact (sound_of_reach h).stamp_lt_iff (getElem?_events hi) (getElem?_events hj)

private theorem isConcurrent_iff_not_happenedBefore (h : Reach s) {i j : Nat} {w w' : Written α ν}
    (hi : s.writes[i]? = some w) (hj : s.writes[j]? = some w') : w'.entry.vectorClock.isConcurrent w.entry.vectorClock ↔
      i ≠ j ∧ ¬s.HappenedBefore i j ∧ ¬s.HappenedBefore j i := by
  have hsound := sound_of_reach h
  have hij := hsound.stamp_le_iff (getElem?_events hi) (getElem?_events hj)
  have hji := hsound.stamp_le_iff (getElem?_events hj) (getElem?_events hi)
  rw [VectorClock.isConcurrent_iff]
  constructor
  · rintro ⟨hnji, hnij⟩
    refine ⟨fun heq => hnij (hij.2 (Or.inl heq)), fun hb => hnij (hij.2 (Or.inr hb)), ?_⟩
    exact fun hb => hnji (hji.2 (Or.inr hb))
  · rintro ⟨hne, hnij, hnji⟩
    constructor
    · intro hle
      rcases hji.1 hle with heq | hb
      · exact hne heq.symm
      · exact hnji hb
    · intro hle
      rcases hij.1 hle with heq | hb
      · exact hne heq
      · exact hnij hb

/-- The entry of a local write dominates the one that it replaces. -/
theorem write_dominates (h : Reach s) {a key : String} {existing : ReplicatedEntry α ν}
    (he : (s.replicator a).dataStore.get? key = some existing) (value : α) (now : ν) :
    ((s.replicator a).newEntry key value now).vectorClock.dominates existing.vectorClock := by
  obtain ⟨-, i, w, hw, hp, hcarried⟩ := (Book.of_reach h).stored a key existing he
  have hr : Reach (s.write a key value now []) := .tail h trivial (show step s (.write a key value now []) = _ from rfl)
  have hb := hp.happenedBefore key value now []
  rw [hcarried.vectorClock]
  exact (dominates_iff_happenedBefore hr (getElem?_writes_append hw) List.getElem?_concat_length).2 hb

/-- Between any two writes of a run, dominance of the clocks is causality and concurrency is its absence; the clock
stored with a value is that of its write; and a local write dominates what it replaces. -/
theorem clocks_tell_causality (h : Reach s) :
    (∀ i j w w', s.writes[i]? = some w → s.writes[j]? = some w' →
      (w'.entry.vectorClock.dominates w.entry.vectorClock ↔ s.HappenedBefore i j) ∧
        (w'.entry.vectorClock.isConcurrent w.entry.vectorClock ↔
          i ≠ j ∧ ¬s.HappenedBefore i j ∧ ¬s.HappenedBefore j i)) ∧
    ∀ a key existing, (s.replicator a).dataStore.get? key = some existing →
      (∃ i w, s.writes[i]? = some w ∧ s.Processed a i ∧ existing.key = w.entry.key ∧
        existing.value = w.entry.value ∧ existing.vectorClock = w.entry.vectorClock) ∧
      ∀ value now peers s', step s (.write a key value now peers) = some s' →
        ∃ entry, (s'.replicator a).dataStore.get? key = some entry ∧
          entry.vectorClock.dominates existing.vectorClock := by
  refine ⟨fun i j w w' hi hj => ?_, fun a key existing he => ⟨?_, fun value now peers s' hstep => ?_⟩⟩
  · exact ⟨dominates_iff_happenedBefore h hi hj, isConcurrent_iff_not_happenedBefore h hi hj⟩
  · obtain ⟨-, i, w, hw, hp, hcarried⟩ := (Book.of_reach h).stored a key existing he
    exact ⟨i, w, hw, hp, hcarried.key, hcarried.value, hcarried.vectorClock⟩
  · cases hstep
    refine ⟨(s.replicator a).newEntry key value now, ?_, write_dominates h he value now⟩
    rw [replicator_write_self]
    exact Dict.get?_set_self _ _ _

end

/-- `q` writes after it has handled the entry of `p`, and `r` writes on its own. -/
theorem clocks_tell_causality_run : ∃ (s : State Nat Nat) (w₀ w₁ w₂ : Written Nat Nat),
    Transition.run step init [.write "p" "k" 1 10 ["q"], .handle 0 11, .write "q" "k" 2 12 [],
      .write "r" "k" 3 13 []] = some s ∧
    s.writes = [w₀, w₁, w₂] ∧ w₁.entry.vectorClock.dominates w₀.entry.vectorClock ∧ s.HappenedBefore 0 1 ∧
    w₂.entry.vectorClock.isConcurrent w₁.entry.vectorClock ∧ ¬s.HappenedBefore 1 2 := by
  let acts : List (Action Nat Nat) := [.write "p" "k" 1 10 ["q"], .handle 0 11, .write "q" "k" 2 12 [],
    .write "r" "k" 3 13 []]
  have hrun : (Transition.run step init acts).map (fun s => s.writes.map fun w => w.entry.vectorClock) =
      some [⟨⟨[("p", 1)], by decide⟩⟩, ⟨⟨[("p", 1), ("q", 1)], by decide⟩⟩, ⟨⟨[("r", 1)], by decide⟩⟩] := by decide
  obtain ⟨s, hs, hwrites⟩ := Option.map_eq_some_iff.1 hrun
  obtain ⟨w₀, ws, hcons, hw₀, hws⟩ := List.map_eq_cons_iff.1 hwrites
  obtain ⟨w₁, ws', hcons', hw₁, hws'⟩ := List.map_eq_cons_iff.1 hws
  obtain ⟨w₂, ws'', hcons'', hw₂, hnil⟩ := List.map_eq_cons_iff.1 hws'
  obtain rfl : ws'' = [] := List.map_eq_nil_iff.1 hnil
  have hall : s.writes = [w₀, w₁, w₂] := by rw [hcons, hcons', hcons'']
  have hcausality := (clocks_tell_causality (Transition.reach_of_run hs)).1
  have hdominates : w₁.entry.vectorClock.dominates w₀.entry.vectorClock := by
    rw [hw₀, hw₁]
    decide
  have hconcurrent : w₂.entry.vectorClock.isConcurrent w₁.entry.vectorClock := by
    rw [hw₁, hw₂]
    decide
  have h01 := (hcausality 0 1 w₀ w₁ (by rw [hall]; rfl) (by rw [hall]; rfl)).1
  have h12 := (hcausality 1 2 w₁ w₂ (by rw [hall]; rfl) (by rw [hall]; rfl)).2
  exact ⟨s, w₀, w₁, w₂, hs, hall, hdominates, h01.1 hdominates, hconcurrent, (h12.1 hconcurrent).2.1⟩

end ReplicatorCluster

end DistributedSync
