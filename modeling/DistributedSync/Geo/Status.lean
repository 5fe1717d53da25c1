import Mathlib.Algebra.Order.Ring.Int
import DistributedSync.Geo.Cluster

/-!
# The status of the replication

`get_replication_status` and the background loop of `replicator.py`.  A write is appended to the list of pending
replications, and the loop takes out of this list what is no longer pending.  No step changes the status of an entry
that is in the list, so nothing is ever taken out: the list has all writes of the node, the status `pending` is that
of the entries that the node has written itself, and the reported number of pending replications is what the clock
of the node counts (`replication_status`).
-/

namespace DistributedSync

def ReplicationStatus.value : ReplicationStatus → String
  | pending => "pending"
  | replicated => "replicated"
  | conflict => "conflict"

/-- What `get_replication_status` returns. -/
structure StatusReport where
  totalKeys : Nat
  statuses : Dict String Nat
  vectorClock : Dict String Nat
  pendingReplications : Nat

variable {α ν : Type}

/-- `get_replication_status`, with the list of pending replications. -/
def Replicator.getReplicationStatus (r : Replicator α ν) (pending : List (ReplicatedEntry α ν)) : StatusReport where
  totalKeys := r.dataStore.entries.length
  statuses := (Dict.empty.fill [("pending", 0), ("replicated", 0), ("conflict", 0)]).tally
    (r.dataStore.entries.map fun e => e.2.status.value)
  vectorClock := r.vectorClock.toDict
  pendingReplications := pending.length

/-- One pass of `_replication_loop`. -/
def Replicator.clearCompleted (pending : List (ReplicatedEntry α ν)) : List (ReplicatedEntry α ν) :=
  pending.filter fun e => e.status = .pending

namespace ReplicatorCluster

/-- A node counts its own writes. -/
theorem clock_self_of_reach [Zero ν] [LinearOrder ν] {s : State α ν} (h : Reach s) (a : String) :
    (s.replicator a).vectorClock.get a = (s.writes.filter fun w => w.node = a).length := by
  refine Transition.ReachWhile.invariant
    (I := fun s => (s.replicator a).vectorClock.get a = (s.writes.filter fun w => w.node = a).length) h rfl ?_
  intro s act s' hr hs _ hstep
  cases act with
  | write b key value now peers =>
    cases hstep
    by_cases hab : a = b
    · subst hab
      rw [replicator_write_self, Replicator.get_write, (Book.of_reach hr).nodeId, Causality.tick_self, hs]
      simp [State.write]
    · rw [replicator_write_of_ne _ _ _ _ _ _ hab, hs]
      simp [State.write, Ne.symm hab]
  | handle i now =>
    obtain ⟨m, hm, rfl⟩ := Option.map_eq_some_iff.1 hstep
    by_cases ha : a = m.receiver
    · subst ha
      -- no clock is ahead of a node in the count of this node
      obtain ⟨w, hw, hcarried⟩ := (Book.of_reach hr).arrives (List.mem_of_getElem? hm) now
      have hsound := sound_of_reach hr
      have hle : w.entry.vectorClock.get m.receiver ≤ (s.replicator m.receiver).vectorClock.get m.receiver :=
        (hsound.stamp_le (getElem?_events hw) m.receiver).trans (hsound.bound _ _)
      rw [replicator_handle_self, Replicator.get_handleReplicate, hcarried.vectorClock, Pi.sup_apply,
        sup_eq_left.2 hle, hs]
      rfl
    · rw [replicator_handle_of_ne _ m now ha]
      exact hs

/-- The cluster with the lists `_pending_replications`. -/
structure Tracked (α ν : Type) where
  cluster : State α ν := init
  pending : String → List (ReplicatedEntry α ν) := fun _ => []

namespace Tracked

inductive Action (α ν : Type) where
  | write (a key : String) (value : α) (now : ν) (peers : List String)
  | handle (i : Nat) (now : ν)
  | clear (a : String)

/-- A write goes to other nodes only: `get_peer_nodes` leaves the own node out. -/
def ToOthers : Action α ν → Prop
  | .write a _ _ _ peers => a ∉ peers
  | .handle _ _ => True
  | .clear _ => True

instance (act : Action α ν) : Decidable (ToOthers act) :=
  match act with
  | .write a _ _ _ peers => inferInstanceAs (Decidable (a ∉ peers))
  | .handle _ _ => inferInstanceAs (Decidable True)
  | .clear _ => inferInstanceAs (Decidable True)

/-- The node `a` writes, and its list gets the entry. -/
def write (s : Tracked α ν) (a key : String) (value : α) (now : ν) (peers : List String) : Tracked α ν where
  cluster := s.cluster.write a key value now peers
  pending := Function.update s.pending a (s.pending a ++ [(s.cluster.replicator a).newEntry key value now])

/-- A pass of the loop on the node `a`. -/
def clear (s : Tracked α ν) (a : String) : Tracked α ν where
  cluster := s.cluster
  pending := Function.update s.pending a (Replicator.clearCompleted (s.pending a))

section

variable [Zero ν] [LinearOrder ν]

def step (s : Tracked α ν) : Action α ν → Option (Tracked α ν)
  | .write a key value now peers => some (s.write a key value now peers)
  | .handle i now => s.cluster.network[i]?.map fun m => { s with cluster := s.cluster.handle m now }
  | .clear a => some (s.clear a)

/-- The states of the runs in which the writes go to other nodes. -/
abbrev Reach : Tracked α ν → Prop :=
  Transition.ReachWhile (fun s a s' => step s a = some s') (fun _ act => ToOthers act) {}

end

/-- What the node `a` has written. -/
def written (s : Tracked α ν) (a : String) : List (ReplicatedEntry α ν) :=
  (s.cluster.writes.filter fun w => w.node = a).map Written.entry

def report (s : Tracked α ν) (a : String) : StatusReport :=
  (s.cluster.replicator a).getReplicationStatus (s.pending a)

/-! ### The invariant -/

/-- Entries keep the id of the node that wrote them, and an entry that a node stores is pending just if the node
wrote it.  Nothing that a node has written leaves its list. -/
structure Invariant (s : Tracked α ν) : Prop where
  nodeId : ∀ a, (s.cluster.replicator a).nodeId = a
  entry : ∀ w ∈ s.cluster.writes, w.entry.originNode = w.node ∧ w.entry.status = .pending
  sent : ∀ m ∈ s.cluster.network, ∃ w ∈ s.cluster.writes, m.data = w.entry.toDict ∧ w.node ≠ m.receiver
  stored : ∀ a, ∀ e ∈ (s.cluster.replicator a).dataStore.entries, e.2.status = .pending ↔ e.2.originNode = a
  pending : ∀ a, s.pending a = s.written a

variable {s s' : Tracked α ν} {act : Action α ν}

theorem Invariant.init : Invariant ({} : Tracked α ν) where
  nodeId a := rfl
  entry w hw := by cases hw
  sent m hm := by cases hm
  stored a e he := by cases he
  pending a := rfl

/-- An entry that is set in a dictionary is the new one or an old one. -/
theorem mem_entries_set {d : Dict String (ReplicatedEntry α ν)} {key : String} {x : ReplicatedEntry α ν}
    {e : String × ReplicatedEntry α ν} (h : e ∈ (d.set key x).entries) : e.2 = x ∨ e ∈ d.entries := by
  have hvalue : (d.set key x).get? e.1 = some e.2 := Dict.get?_of_mem h
  rw [Dict.get?_set] at hvalue
  by_cases hkey : e.1 = key
  · rw [if_pos hkey, Option.some.injEq] at hvalue
    exact Or.inl hvalue.symm
  · rw [if_neg hkey] at hvalue
    exact Or.inr (Dict.mem_of_get? hvalue)

private theorem cluster_write (a key : String) (value : α) (now : ν) (peers : List String) :
    (s.write a key value now peers).cluster = s.cluster.write a key value now peers := rfl

private theorem pending_write_self (a key : String) (value : α) (now : ν) (peers : List String) :
    (s.write a key value now peers).pending a = s.pending a ++ [(s.cluster.replicator a).newEntry key value now] :=
  Function.update_self _ _ _

private theorem pending_write_of_ne {a b : String} (hb : b ≠ a) (key : String) (value : α) (now : ν)
    (peers : List String) : (s.write a key value now peers).pending b = s.pending b :=
  Function.update_of_ne hb _ _

private theorem written_write_self (a key : String) (value : α) (now : ν) (peers : List String) :
    (s.write a key value now peers).written a = s.written a ++ [(s.cluster.replicator a).newEntry key value now] := by
  simp [written, write, State.write]

private theorem written_write_of_ne {a b : String} (hb : b ≠ a) (key : String) (value : α) (now : ν)
    (peers : List String) : (s.write a key value now peers).written b = s.written b := by
  simp [written, write, State.write, hb.symm]

theorem Invariant.write (h : Invariant s) {a : String} {peers : List String} (hpeers : a ∉ peers) (key : String)
    (value : α) (now : ν) : Invariant (s.write a key value now peers) where
  nodeId b := by
    by_cases hb : b = a
    · subst hb
      rw [cluster_write, replicator_write_self, Replicator.nodeId_write, h.nodeId]
    · rw [cluster_write, replicator_write_of_ne _ _ _ _ _ _ hb, h.nodeId]
  entry w hw := by
    rcases List.mem_append.1 hw with hw | hw
    · exact h.entry w hw
    · rw [List.mem_singleton.1 hw]
      exact ⟨h.nodeId a, rfl⟩
  sent m hm := by
    rcases List.mem_append.1 hm with hm | hm
    · obtain ⟨w, hw, hdata⟩ := h.sent m hm
      exact ⟨w, List.mem_append_left _ hw, hdata⟩
    · obtain ⟨peer, hpeer, rfl⟩ := List.mem_map.1 hm
      refine ⟨_, List.mem_append_right _ (List.mem_singleton_self _), rfl, ?_⟩
      rintro rfl
      exact hpeers hpeer
  stored b e he := by
    by_cases hb : b = a
    · subst hb
      rw [cluster_write, replicator_write_self] at he
      rcases mem_entries_set he with hnew | hold
      · rw [hnew]
        exact iff_of_true rfl (h.nodeId b)
      · exact h.stored b e hold
    · rw [cluster_write, replicator_write_of_ne _ _ _ _ _ _ hb] at he
      exact h.stored b e he
  pending b := by
    by_cases hb : b = a
    · subst hb
      rw [pending_write_self, written_write_self, h.pending]
    · rw [pending_write_of_ne hb, written_write_of_ne hb, h.pending]

/-- The loop finds nothing to take out. -/
theorem Invariant.clear_eq (h : Invariant s) (a : String) : s.clear a = s := by
  have hall : Replicator.clearCompleted (s.pending a) = s.pending a := by
    rw [Replicator.clearCompleted, List.filter_eq_self]
    intro e he
    rw [h.pending] at he
    obtain ⟨w, hw, rfl⟩ := List.mem_map.1 he
    exact decide_eq_true (h.entry w (List.mem_filter.1 hw).1).2
  rw [clear, hall, Function.update_eq_self]

/-! ### The report -/

private theorem count_value (l : List (String × ReplicatedEntry α ν)) (status : ReplicationStatus) :
    (l.map fun e => e.2.status.value).count status.value = l.countP fun e => e.2.status = status := by
  have hvalue : ∀ x y : ReplicationStatus, x.value = y.value ↔ x = y := by
    intro x y
    cases x <;> cases y <;> decide
  rw [List.count, List.countP_map]
  refine List.countP_congr fun e _ => ?_
  simp [hvalue]

/-- The number of entries with each status. -/
theorem statuses_report (s : Tracked α ν) (a : String) : (s.report a).statuses.entries =
    [("pending", (s.cluster.replicator a).dataStore.entries.countP fun e => e.2.status = .pending),
      ("replicated", (s.cluster.replicator a).dataStore.entries.countP fun e => e.2.status = .replicated),
      ("conflict", (s.cluster.replicator a).dataStore.entries.countP fun e => e.2.status = .conflict)] := by
  have hkeys : ∀ status : ReplicationStatus, status.value ∈
      (Dict.empty.fill [("pending", 0), ("replicated", 0), ("conflict", 0)] : Dict String Nat).keys := by
    intro status
    cases status <;> decide
  have hmem : ∀ k ∈ (s.cluster.replicator a).dataStore.entries.map (fun e => e.2.status.value), k ∈
      (Dict.empty.fill [("pending", 0), ("replicated", 0), ("conflict", 0)] : Dict String Nat).keys := by
    intro k hk
    obtain ⟨e, -, rfl⟩ := List.mem_map.1 hk
    exact hkeys e.2.status
  have hinit : (Dict.empty.fill [("pending", 0), ("replicated", 0), ("conflict", 0)] : Dict String Nat).entries =
      [("pending", 0), ("replicated", 0), ("conflict", 0)] := by decide
  rw [report, Replicator.getReplicationStatus, Dict.entries_tally hmem, hinit, ← count_value, ← count_value,
    ← count_value]
  simp [ReplicationStatus.value]

private theorem countP_statuses (l : List (String × ReplicatedEntry α ν)) :
    (l.countP fun e => e.2.status = .pending) + (l.countP fun e => e.2.status = .replicated) +
      (l.countP fun e => e.2.status = .conflict) = l.length := by
  induction l with
  | nil => rfl
  | cons e l ih =>
    rw [List.countP_cons, List.countP_cons, List.countP_cons, List.length_cons, ← ih]
    cases e.2.status with
    | pending => simp; omega
    | replicated => simp; omega
    | conflict => simp; omega

/-! ### Runs -/

variable [LinearOrder ν]

/-- An entry that goes into the store is no longer pending. -/
theorem resolve_status {entry : ReplicatedEntry α ν} {existing : Option (ReplicatedEntry α ν)}
    (h : (Replicator.resolve entry existing).2) : (Replicator.resolve entry existing).1.status ≠ .pending := by
  cases existing with
  | none => simp [Replicator.resolve]
  | some existing =>
    rw [Replicator.resolve] at h ⊢
    split
    · split <;> simp
    · split
      · simp
      · simp_all

variable [Zero ν]

theorem Invariant.handle (h : Invariant s) {m : Envelope α ν} (hm : m ∈ s.cluster.network) (now : ν) :
    Invariant { s with cluster := s.cluster.handle m now } where
  nodeId b := by
    by_cases hb : b = m.receiver
    · subst hb
      rw [replicator_handle_self, Replicator.nodeId_handleReplicate, h.nodeId]
    · rw [replicator_handle_of_ne _ m now hb, h.nodeId]
  entry := h.entry
  sent := h.sent
  stored b e he := by
    by_cases hb : b = m.receiver
    · subst hb
      rw [replicator_handle_self] at he
      have hvalue := Dict.get?_of_mem he
      rw [Replicator.get?_handleReplicate] at hvalue
      split at hvalue
      · next hset =>
        -- the entry has been written by another node
        rw [Option.some.injEq] at hvalue
        obtain ⟨w, hw, hdata, hne⟩ := h.sent m hm
        obtain ⟨status, hstatus⟩ := Replicator.resolve_entry (ReplicatedEntry.fromDict now m.data)
          ((s.cluster.replicator m.receiver).dataStore.get? m.data.key)
        have horigin : e.2.originNode = w.node := by
          rw [← hvalue, hstatus, hdata, ReplicatedEntry.fromDict_toDict]
          exact (h.entry w hw).1
        have hpending : e.2.status ≠ .pending := by
          rw [← hvalue]
          exact resolve_status hset.2
        rw [horigin]
        exact iff_of_false hpending hne
      · exact h.stored m.receiver e (Dict.mem_of_get? hvalue)
    · rw [replicator_handle_of_ne _ m now hb] at he
      exact h.stored b e he
  pending := h.pending

theorem Invariant.step (h : Invariant s) (hact : ToOthers act) (hstep : step s act = some s') : Invariant s' := by
  cases act with
  | write a key value now peers =>
    cases hstep
    exact h.write hact key value now
  | handle i now =>
    obtain ⟨m, hm, rfl⟩ := Option.map_eq_some_iff.1 hstep
    exact h.handle (List.mem_of_getElem? hm) now
  | clear a =>
    cases hstep
    rw [h.clear_eq]
    exact h

theorem invariant_of_reach (h : Reach s) : Invariant s :=
  Transition.ReachWhile.invariant h Invariant.init fun _ _ _ _ hs hact hstep => hs.step hact hstep

private theorem cluster_reach (h : Reach s) : ReplicatorCluster.Reach s.cluster := by
  induction h with
  | refl => exact .refl
  | @tail s s' act _ _ hstep ih =>
    cases act with
    | write a key value now peers =>
      cases hstep
      exact .tail ih trivial (show ReplicatorCluster.step _ (.write a key value now peers) = _ from rfl)
    | handle i now =>
      obtain ⟨m, hm, rfl⟩ := Option.map_eq_some_iff.1 hstep
      have hhandle : ReplicatorCluster.step s.cluster (.handle i now) = some (s.cluster.handle m now) := by
        rw [ReplicatorCluster.step, hm]
        rfl
      exact .tail ih trivial hhandle
    | clear a =>
      cases hstep
      exact ih

/-- The status `pending` is that of the keys whose value the node has written itself, the two others are those of the
rest, and as many replications are pending as the node has ever written. -/
theorem replication_status (h : Reach s) (a : String) :
    ∃ replicated conflict,
      (s.report a).statuses.entries =
        [("pending", (s.cluster.replicator a).dataStore.entries.countP fun e => e.2.originNode = a),
          ("replicated", replicated), ("conflict", conflict)] ∧
      ((s.cluster.replicator a).dataStore.entries.countP fun e => e.2.originNode = a) + replicated + conflict =
        (s.report a).totalKeys ∧
      (s.report a).pendingReplications = (s.written a).length ∧
      ((s.report a).vectorClock.get? a).getD 0 = (s.written a).length := by
  have hinv := invariant_of_reach h
  have hown : ((s.cluster.replicator a).dataStore.entries.countP fun e => e.2.originNode = a) =
      (s.cluster.replicator a).dataStore.entries.countP fun e => e.2.status = .pending := by
    refine List.countP_congr fun e he => ?_
    simp [hinv.stored a e he]
  rw [hown]
  refine ⟨_, _, s.statuses_report a, countP_statuses _, ?_, ?_⟩
  · rw [report, Replicator.getReplicationStatus, hinv.pending]
  · rw [written, List.length_map, ← clock_self_of_reach (cluster_reach h)]
    rfl

/-- The value that `p` has written under `k` is replaced by that of `q`; both writes of `p` stay in its list. -/
theorem replication_status_run : ∃ s : Tracked Nat Nat,
    Transition.runWhile step (fun _ act => ToOthers act) {}
      [.write "p" "k" 1 10 ["q"], .write "p" "l" 2 11 ["q"], .handle 0 12, .write "q" "k" 3 13 ["p"], .handle 2 14,
        .clear "p"] = some s ∧
    (s.report "p").totalKeys = 2 ∧ (s.report "p").pendingReplications = 2 ∧
    ((s.report "p").vectorClock.get? "p").getD 0 = 2 := by
  let acts : List (Action Nat Nat) := [.write "p" "k" 1 10 ["q"], .write "p" "l" 2 11 ["q"], .handle 0 12,
    .write "q" "k" 3 13 ["p"], .handle 2 14, .clear "p"]
  have hrun : (Transition.runWhile step (fun _ act => ToOthers act) {} acts).map
      (fun s => ((s.written "p").length, (s.report "p").totalKeys)) = some (2, 2) := by decide
  obtain ⟨s, hs, hobserve⟩ := Option.map_eq_some_iff.1 hrun
  obtain ⟨hwritten, htotal⟩ := Prod.mk.inj hobserve
  obtain ⟨-, -, -, -, hpending, hclock⟩ :=
    replication_status (Transition.ReachWhile.of_runWhile .refl hs).1 "p"
  exact ⟨s, hs, htotal, hpending.trans hwritten, hclock.trans hwritten⟩

end Tracked

end ReplicatorCluster

end DistributedSync
