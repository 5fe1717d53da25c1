import Mathlib.Data.List.Basic
import DistributedSync.Geo.Replicator

/-!
# A cluster of replicators

Any number of replicators write and replicate.  A write sends its entry to the peers it is given, and a message that
has been sent may be handled by its receiver at any time later, any number of times, or never.

`writes` and `handled` record what has happened; no step reads them.
-/

namespace DistributedSync

namespace ReplicatorCluster

variable {α ν : Type}

/-- A `GEO_REPLICATE` message; `write` is the number of the write whose entry it carries. -/
structure Envelope (α ν : Type) where
  receiver : String
  data : EntryDict α ν
  write : Nat

/-- A write: its node, its entry, and the writes whose entries the node had handled before. -/
structure Written (α ν : Type) where
  node : String
  entry : ReplicatedEntry α ν
  handled : List Nat

structure State (α ν : Type) where
  replicator : String → Replicator α ν
  network : List (Envelope α ν) := []
  writes : List (Written α ν) := []
  handled : String → List Nat := fun _ => []

inductive Action (α ν : Type) where
  | write (a key : String) (value : α) (now : ν) (peers : List String)
  | handle (i : Nat) (now : ν)

/-- Before the first write. -/
def init : State α ν where
  replicator a := { nodeId := a }

namespace State

variable (s : State α ν)

/-- The node `a` writes. -/
def write (a key : String) (value : α) (now : ν) (peers : List String) : State α ν :=
  let entry := (s.replicator a).newEntry key value now
  { replicator := Function.update s.replicator a ((s.replicator a).write key value now)
    network := s.network ++ peers.map fun peer => ⟨peer, entry.toDict, s.writes.length⟩
    writes := s.writes ++ [⟨a, entry, s.handled a⟩]
    handled := s.handled }

/-- The receiver of the message `m` handles it. -/
def handle [Zero ν] [LinearOrder ν] (m : Envelope α ν) (now : ν) : State α ν :=
  { s with
    replicator := Function.update s.replicator m.receiver
      ((s.replicator m.receiver).handleReplicate now m.data).1
    handled := Function.update s.handled m.receiver (m.write :: s.handled m.receiver) }

end State

def step [Zero ν] [LinearOrder ν] (s : State α ν) : Action α ν → Option (State α ν)
  | .write a key value now peers => some (s.write a key value now peers)
  | .handle i now => s.network[i]?.map fun m => s.handle m now

/-- The states of all runs. -/
abbrev Reach [Zero ν] [LinearOrder ν] : State α ν → Prop :=
  Transition.Reach (fun s a s' => step s a = some s') init

/-! ### Causality -/

/-- A write as an event: what matters to causality is its node and what the node had handled before. -/
def Written.event (w : Written α ν) : Causality.Event String where
  process := w.node
  stamp := w.entry.vectorClock.get
  learnt := w.handled

def State.system (s : State α ν) : Causality.System String where
  clock a := (s.replicator a).vectorClock.get
  learnt := s.handled
  events := s.writes.map Written.event

/-- Write `i` happened before write `j`. -/
def State.HappenedBefore (s : State α ν) (i j : Nat) : Prop := Causality.HappenedBefore s.system.events i j

/-- The node has written the entry itself or has handled it. -/
def State.Processed (s : State α ν) (a : String) (i : Nat) : Prop :=
  i ∈ s.handled a ∨ ∃ w, s.writes[i]? = some w ∧ w.node = a

/-- The entry is that of the write; on its way it may have got another status, and another timestamp if it had
none. -/
structure Written.CarriedBy [Zero ν] (w : Written α ν) (e : ReplicatedEntry α ν) : Prop where
  key : e.key = w.entry.key
  value : e.value = w.entry.value
  vectorClock : e.vectorClock = w.entry.vectorClock
  timestamp : w.entry.timestamp ≠ 0 → e.timestamp = w.entry.timestamp

/-- What ties the replicators to the writes: nodes know their own ids, messages carry entries of writes, and what is
stored under a key is the entry of a write of the key that the node has processed. -/
structure Book [Zero ν] (s : State α ν) : Prop where
  nodeId : ∀ a, (s.replicator a).nodeId = a
  sent : ∀ m ∈ s.network, ∃ w, s.writes[m.write]? = some w ∧ m.data = w.entry.toDict
  stored : ∀ a k e, (s.replicator a).dataStore.get? k = some e →
    e.key = k ∧ ∃ i w, s.writes[i]? = some w ∧ s.Processed a i ∧ w.CarriedBy e

variable {s s' : State α ν}

theorem getElem?_writes_append {i : Nat} {w x : Written α ν} (h : s.writes[i]? = some w) :
    (s.writes ++ [x])[i]? = some w := by
  have hlt : i < s.writes.length := (List.getElem?_eq_some_iff.1 h).1
  rw [List.getElem?_append_left hlt, h]

theorem getElem?_events {i : Nat} {w : Written α ν} (h : s.writes[i]? = some w) :
    s.system.events[i]? = some w.event := by
  rw [State.system, List.getElem?_map, h]
  rfl

/-! ### Writes -/

section

variable (s : State α ν) (a key : String) (value : α) (now : ν) (peers : List String)

theorem replicator_write_self :
    (s.write a key value now peers).replicator a = (s.replicator a).write key value now := Function.update_self _ _ _

theorem replicator_write_of_ne {b : String} (h : b ≠ a) :
    (s.write a key value now peers).replicator b = s.replicator b := Function.update_of_ne h _ _

end

theorem State.Processed.write {a : String} {i : Nat} (h : s.Processed a i) (b key : String) (value : α)
    (now : ν) (peers : List String) : (s.write b key value now peers).Processed a i := by
  rcases h with h | ⟨w, hw, hnode⟩
  · exact Or.inl h
  · exact Or.inr ⟨w, getElem?_writes_append hw, hnode⟩

variable [Zero ν]

theorem Book.init : Book (init : State α ν) where
  nodeId a := rfl
  sent m hm := by cases hm
  stored a k e he := by cases he

theorem Book.write (h : Book s) (a key : String) (value : α) (now : ν) (peers : List String) :
    Book (s.write a key value now peers) where
  nodeId b := by
    by_cases hb : b = a
    · subst hb
      rw [replicator_write_self, Replicator.nodeId_write, h.nodeId]
    · rw [replicator_write_of_ne s a key value now peers hb, h.nodeId]
  sent m hm := by
    rcases List.mem_append.1 hm with hm | hm
    · obtain ⟨w, hw, hdata⟩ := h.sent m hm
      exact ⟨w, getElem?_writes_append hw, hdata⟩
    · obtain ⟨peer, -, rfl⟩ := List.mem_map.1 hm
      exact ⟨_, List.getElem?_concat_length, rfl⟩
  stored b k e he := by
    have hold : (s.replicator b).dataStore.get? k = some e → e.key = k ∧
        ∃ i w, (s.write a key value now peers).writes[i]? = some w ∧
          (s.write a key value now peers).Processed b i ∧ w.CarriedBy e := by
      intro hb
      obtain ⟨hkey, i, w, hw, hp, hcarried⟩ := h.stored b k e hb
      exact ⟨hkey, i, w, getElem?_writes_append hw, hp.write a key value now peers, hcarried⟩
    by_cases hb : b = a
    · subst hb
      rw [replicator_write_self, Replicator.write, Dict.get?_set] at he
      by_cases hk : k = key
      · rw [if_pos hk, Option.some.injEq] at he
        subst he
        have hlast := List.getElem?_concat_length (l := s.writes)
          (a := ⟨b, (s.replicator b).newEntry key value now, s.handled b⟩)
        exact ⟨hk.symm, s.writes.length, _, hlast, Or.inr ⟨_, hlast, rfl⟩, rfl, rfl, rfl, fun _ => rfl⟩
      · rw [if_neg hk] at he
        exact hold he
    · rw [replicator_write_of_ne s a key value now peers hb] at he
      exact hold he

private theorem system_write (h : Book s) (a key : String) (value : α) (now : ν) (peers : List String) :
    (s.write a key value now peers).system = s.system.emit a := by
  have hclock : ((s.replicator a).write key value now).vectorClock.get =
      Causality.tick a (s.replicator a).vectorClock.get := by
    rw [Replicator.get_write, h.nodeId a]
  have hevent : Written.event ⟨a, (s.replicator a).newEntry key value now, s.handled a⟩ =
      ⟨a, Causality.tick a (s.replicator a).vectorClock.get, s.handled a⟩ := by
    rw [Written.event, ← hclock]
    rfl
  unfold State.system State.write Causality.System.emit
  simp only [List.map_append, List.map_singleton, hevent, Causality.System.mk.injEq, and_true]
  funext b
  by_cases hb : b = a
  · rw [hb, Function.update_self, Function.update_self, hclock]
  · rw [Function.update_of_ne hb, Function.update_of_ne hb]

/-! ### Messages -/

variable [LinearOrder ν] {act : Action α ν}

section

variable (s : State α ν) (m : Envelope α ν) (now : ν)

theorem replicator_handle_self : (s.handle m now).replicator m.receiver =
    ((s.replicator m.receiver).handleReplicate now m.data).1 := Function.update_self _ _ _

theorem replicator_handle_of_ne {b : String} (h : b ≠ m.receiver) :
    (s.handle m now).replicator b = s.replicator b := Function.update_of_ne h _ _

private theorem handled_handle_self : (s.handle m now).handled m.receiver = m.write :: s.handled m.receiver :=
  Function.update_self _ _ _

private theorem handled_handle_of_ne {b : String} (h : b ≠ m.receiver) : (s.handle m now).handled b = s.handled b :=
  Function.update_of_ne h _ _

/-- What the receiver of a message has processed, and any other node. -/
theorem processed_handle (a : String) (i : Nat) :
    (s.handle m now).Processed a i ↔ s.Processed a i ∨ (a = m.receiver ∧ i = m.write) := by
  by_cases ha : a = m.receiver
  · subst ha
    rw [State.Processed, handled_handle_self, List.mem_cons, State.Processed]
    constructor
    · rintro ((rfl | h) | h)
      · exact Or.inr ⟨rfl, rfl⟩
      · exact Or.inl (Or.inl h)
      · exact Or.inl (Or.inr h)
    · rintro ((h | h) | ⟨-, rfl⟩)
      · exact Or.inl (Or.inr h)
      · exact Or.inr h
      · exact Or.inl (Or.inl rfl)
  · rw [State.Processed, handled_handle_of_ne s m now ha, State.Processed]
    constructor
    · exact Or.inl
    · rintro (h | ⟨h, -⟩)
      · exact h
      · exact absurd h ha

end

/-- An entry that arrives is that of its write. -/
theorem Book.arrives (h : Book s) {m : Envelope α ν} (hm : m ∈ s.network) (now : ν) :
    ∃ w, s.writes[m.write]? = some w ∧ w.CarriedBy (ReplicatedEntry.fromDict now m.data) := by
  obtain ⟨w, hw, hdata⟩ := h.sent m hm
  refine ⟨w, hw, ?_⟩
  rw [hdata, ReplicatedEntry.fromDict_toDict]
  exact ⟨rfl, rfl, rfl, fun hne => ReplicatedEntry.stamp_of_ne hne now⟩

theorem Book.handle (h : Book s) {m : Envelope α ν} (hm : m ∈ s.network) (now : ν) : Book (s.handle m now) where
  nodeId b := by
    by_cases hb : b = m.receiver
    · subst hb
      rw [replicator_handle_self, Replicator.nodeId_handleReplicate, h.nodeId]
    · rw [replicator_handle_of_ne s m now hb, h.nodeId]
  sent := h.sent
  stored b k e he := by
    have hold : (s.replicator b).dataStore.get? k = some e → e.key = k ∧
        ∃ i w, s.writes[i]? = some w ∧ (s.handle m now).Processed b i ∧ w.CarriedBy e := by
      intro hb
      obtain ⟨hkey, i, w, hw, hp, hcarried⟩ := h.stored b k e hb
      exact ⟨hkey, i, w, hw, (processed_handle s m now b i).2 (Or.inl hp), hcarried⟩
    by_cases hb : b = m.receiver
    · subst hb
      rw [replicator_handle_self, Replicator.get?_handleReplicate] at he
      split at he
      · next hk =>
        obtain ⟨status, hentry⟩ := Replicator.resolve_entry (ReplicatedEntry.fromDict now m.data)
          ((s.replicator m.receiver).dataStore.get? m.data.key)
        rw [Option.some.injEq, hentry] at he
        subst he
        obtain ⟨w, hw, hcarried⟩ := h.arrives hm now
        exact ⟨hk.1.symm, m.write, w, hw, (processed_handle s m now _ _).2 (Or.inr ⟨rfl, rfl⟩),
          hcarried.key, hcarried.value, hcarried.vectorClock, hcarried.timestamp⟩
      · exact hold he
    · rw [replicator_handle_of_ne s m now hb] at he
      exact hold he

private theorem system_handle (h : Book s) {m : Envelope α ν} (hm : m ∈ s.network) (now : ν) :
    ∃ w, s.writes[m.write]? = some w ∧
      (s.handle m now).system = s.system.learn m.receiver m.write w.event := by
  obtain ⟨w, hw, hcarried⟩ := h.arrives hm now
  refine ⟨w, hw, ?_⟩
  unfold State.system State.handle Causality.System.learn
  simp only [Causality.System.mk.injEq, and_true]
  funext b
  by_cases hb : b = m.receiver
  · rw [hb, Function.update_self, Function.update_self, Replicator.get_handleReplicate, hcarried.vectorClock]
    rfl
  · rw [Function.update_of_ne hb, Function.update_of_ne hb]

/-! ### Runs -/

theorem Book.step (h : Book s) (hstep : step s act = some s') : Book s' := by
  cases act with
  | write a key value now peers =>
    cases hstep
    exact h.write a key value now peers
  | handle i now =>
    obtain ⟨m, hm, rfl⟩ := Option.map_eq_some_iff.1 hstep
    exact h.handle (List.mem_of_getElem? hm) now

theorem Book.of_reach (h : Reach s) : Book s :=
  Transition.ReachWhile.invariant h Book.init fun _ _ _ _ hs _ hstep => hs.step hstep

/-- The clocks of the cluster are those of a system of processes that emit events and learn of them. -/
theorem system_step (h : Book s) (hstep : step s act = some s') :
    ∃ act', Causality.step s.system act' = some s'.system := by
  cases act with
  | write a key value now peers =>
    cases hstep
    exact ⟨.emit a, by rw [system_write h]; rfl⟩
  | handle i now =>
    obtain ⟨m, hm, rfl⟩ := Option.map_eq_some_iff.1 hstep
    obtain ⟨w, hw, hsystem⟩ := system_handle h (List.mem_of_getElem? hm) now
    refine ⟨.learn m.receiver m.write, ?_⟩
    rw [hsystem, Causality.step, getElem?_events hw]
    rfl

theorem sound_of_reach (h : Reach s) : Causality.Sound s.system := by
  refine Transition.ReachWhile.invariant (I := fun s => Causality.Sound s.system) h ?_ ?_
  · have hinit : (init : State α ν).system = {} := rfl
    rw [hinit]
    exact Causality.Sound.init
  · intro s a s' hr hs _ hstep
    obtain ⟨act', hact⟩ := system_step (Book.of_reach hr) hstep
    exact hs.step hact

end ReplicatorCluster

end DistributedSync
