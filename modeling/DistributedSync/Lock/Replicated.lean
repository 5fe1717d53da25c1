import DistributedSync.Lock.Service
import DistributedSync.Raft.Acknowledged
import DistributedSync.Raft.Callbacks

/-!
# The lock tables of a cluster

Every node of a cluster of unified nodes runs `_apply_lock_command` on the entries that its Raft node applies, so its
table is a function of these entries (`locksOf_of_fed`).  In runs outside the defects the tables are versions of one
table: a node that has applied more commands, now or later, has the table of the other one with some commands more,
and a client keeps a lock, in its mode, from version to version until it releases it (`replicated_locks`).  An acquire
that has been acknowledged stands at one place in this order for good, so when it was granted there it is in force on
every node that gets as far, until the client releases the lock (`acknowledged_acquire_in_force`).
-/

namespace DistributedSync.DistributedNode

open Raft (RaftNode LogEntry ProposeCall ClusterConfig Cluster Steps Safe Faithful)

variable {ν ι : Type}

/-- The step only brings entries that are new to their receiver, which has not proposed anything at their indices. -/
def BringsNew (c : Cluster ι (LockCommand ν)) (act : Raft.Action ι (LockCommand ν)) : Prop :=
  Raft.VotesOnce c act ∧ Raft.AcksCurrent c act ∧ ∀ r ∈ c.requestAt act,
    ((r.2.data.entries.getD []).isEmpty ∨
      (c.nodes r.1).log.length ≤ r.2.data.prevLogIndex.getD 0 + (r.2.data.entries.getD []).length) ∧
    ∀ e ∈ r.2.data.entries.getD [], (c.nodes r.1).pendingRequests e.index = none

instance [DecidableEq ι] (c : Cluster ι (LockCommand ν)) (act : Raft.Action ι (LockCommand ν)) :
    Decidable (BringsNew c act) :=
  inferInstanceAs (Decidable (_ ∧ _ ∧ ∀ r ∈ c.requestAt act, _))

private theorem BringsNew.faithful {c : Cluster ι (LockCommand ν)} {act : Raft.Action ι (LockCommand ν)}
    (h : BringsNew c act) : Faithful c act := by
  obtain ⟨hvotes, hacks, hnew⟩ := h
  refine ⟨⟨hvotes, ?_, hacks⟩, ?_⟩
  · rintro ⟨r, hr, -, -, -, hne, -, hlt⟩
    rcases (hnew r hr).1 with hempty | hle
    · exact hne (List.isEmpty_iff.1 hempty)
    · rw [List.length_drop] at hlt
      omega
  · rintro ⟨r, hr, -, -, -, e, he, k, hk, -⟩
    rw [(hnew r hr).2 e he] at hk
    cases hk

variable [Number ν]

/-- `_apply_lock_command` as a commit callback. -/
def lockCallback : Raft.Callback (LockCommand ν) (LockTable ν) := fun entry locks =>
  applyLockCommand locks entry.command

/-- `self.locks` of a node of the cluster: the callback has run on every applied entry. -/
def locksOf (n : RaftNode ι (LockCommand ν)) : LockTable ν := tableAfter (n.applied.map LogEntry.command)

private theorem tableAfter_append (cmds since : List (LockCommand ν)) : tableAfter (cmds ++ since) =
    since.foldl (fun locks cmd => (applyLockCommand locks cmd).state) (tableAfter cmds) :=
  List.foldl_append

/-- A handler that runs the callback on what it applies brings the table along. -/
theorem locksOf_of_fed {n : RaftNode ι (LockCommand ν)} {o : Outcome (RaftNode ι (LockCommand ν)) Unit}
    {o' : Outcome (RaftNode ι (LockCommand ν) × LockTable ν) Unit}
    (h : Raft.Fed [lockCallback] n (locksOf n) o o') : o'.state = (o.state, locksOf o.state) := by
  obtain ⟨new, happlied, rfl⟩ := h
  rw [locksOf, locksOf, happlied, List.map_append, tableAfter_append, List.foldl_map]
  rfl

/-- A client keeps a lock, and the lock its mode, from version to version of the table until one of its releases is
applied. -/
theorem tableAfter_append_keeps {cmds since : List (LockCommand ν)} {c r : Key ν}
    (hc : c ∈ ((tableAfter cmds).view r).holders) (hkept : ∀ rel ∈ since, ¬Releases rel c r) :
    c ∈ ((tableAfter (cmds ++ since)).view r).holders ∧
      ((tableAfter (cmds ++ since)).view r).lockType = ((tableAfter cmds).view r).lockType := by
  induction since using List.reverseRecOn with
  | nil =>
    rw [List.append_nil]
    exact ⟨hc, rfl⟩
  | append_singleton since new ih =>
    rw [List.forall_mem_append] at hkept
    obtain ⟨hheld, hmode⟩ := ih hkept.1
    obtain ⟨hheld', hmode'⟩ := tableAfter_concat_keeps hheld (hkept.2 new (List.mem_singleton_self new))
    rw [← List.append_assoc]
    exact ⟨hheld', hmode'.trans hmode⟩

theorem InForce.append {cmds since : List (LockCommand ν)} {cmd : LockCommand ν} (h : InForce (tableAfter cmds) cmd)
    (hkept : ∀ rel ∈ since, ¬Undoes rel cmd) : InForce (tableAfter (cmds ++ since)) cmd := by
  induction since using List.reverseRecOn with
  | nil => rwa [List.append_nil]
  | append_singleton since new ih =>
    rw [List.forall_mem_append] at hkept
    rw [← List.append_assoc]
    exact (ih hkept.1).concat (hkept.2 new (List.mem_singleton_self new))

variable [DecidableEq ι] {c c' : Cluster ι (LockCommand ν)} {a b : ι}

/-! ### The tables -/

/-- A node that has applied at least as many commands, at this moment or later, has the same table with some commands
more: whoever held a lock holds it in the same mode unless one of these releases it, and no lock that is held
exclusively has two holders. -/
theorem replicated_locks (cfg : ClusterConfig ι) (h : Raft.ReachWhile cfg Safe c)
    (h' : Transition.ReachWhile (Steps cfg) Safe c c') (hle : (c.nodes a).lastApplied ≤ (c'.nodes b).lastApplied) :
    ∃ since : List (LockCommand ν), (c.nodes a).lastApplied + since.length = (c'.nodes b).lastApplied ∧
      locksOf (c'.nodes b) =
        since.foldl (fun locks cmd => (applyLockCommand locks cmd).state) (locksOf (c.nodes a)) ∧
      (∀ r, ∀ client ∈ ((locksOf (c.nodes a)).view r).holders, (∀ rel ∈ since, ¬Releases rel client r) →
        client ∈ ((locksOf (c'.nodes b)).view r).holders ∧
          ((locksOf (c'.nodes b)).view r).lockType = ((locksOf (c.nodes a)).view r).lockType) ∧
      ∀ r, ((locksOf (c'.nodes b)).view r).lockType = some .exclusive →
        ((locksOf (c'.nodes b)).view r).holders.card ≤ 1 := by
  have hlen := Raft.length_applied h a
  have hlen' := Raft.length_applied (h.trans h') b
  have hpre : (c.nodes a).applied <+: (c'.nodes b).applied := by
    rcases Raft.applied_isPrefix_or h h' a b with hpre | hpre
    · exact hpre
    · rw [hpre.eq_of_length_le (by omega)]
  obtain ⟨new, hnew⟩ := hpre
  have htable : locksOf (c'.nodes b) = tableAfter ((c.nodes a).applied.map LogEntry.command ++
      new.map LogEntry.command) := by
    rw [locksOf, ← hnew, List.map_append]
  refine ⟨new.map LogEntry.command, ?_, ?_, fun r client hheld hkept => ?_, fun r => ?_⟩
  · rw [List.length_map, ← hlen, ← hlen', ← hnew, List.length_append]
  · rw [htable, tableAfter_append]
    rfl
  · rw [htable]
    exact tableAfter_append_keeps hheld hkept
  · rw [htable]
    exact tableAfter_exclusive _ r

/-- The node leads, and the client `a` acquires `r`. -/
def firstAcquire (leader : ι) : List (Raft.Action ι (LockCommand Int)) :=
  [.startElection leader, .deliver 0, .deliver 1, .countVotes leader,
    .propose leader (.acquire (.str "r") (.str "a") (.str "exclusive") none), .deliver 1, .deliver 2,
    .proposeReturn leader 0]

/-- The client `b` asks for `r` as well, and one of the other nodes learns that this is committed. -/
def secondAcquire (leader : ι) : List (Raft.Action ι (LockCommand Int)) :=
  [.propose leader (.acquire (.str "r") (.str "b") (.str "exclusive") none), .deliver 2, .deliver 3,
    .replicate leader, .deliver 3]

/-- Node `0` leads, and node `1` applies the second command after it. -/
theorem replicated_locks_run : ∃ c c' : Cluster (Fin 3) (LockCommand Int),
    Transition.run (Raft.step Raft.trio) Cluster.init (firstAcquire 0) = some c ∧
    Transition.run (Raft.step Raft.trio) c (secondAcquire 0) = some c' ∧
    ∃ since : List (LockCommand Int), since.length = 1 ∧
      locksOf (c'.nodes 1) =
        since.foldl (fun locks cmd => (applyLockCommand locks cmd).state) (locksOf (c.nodes 0)) ∧
      (∀ r, ∀ client ∈ ((locksOf (c.nodes 0)).view r).holders, (∀ rel ∈ since, ¬Releases rel client r) →
        client ∈ ((locksOf (c'.nodes 1)).view r).holders ∧
          ((locksOf (c'.nodes 1)).view r).lockType = ((locksOf (c.nodes 0)).view r).lockType) ∧
      ∀ r, ((locksOf (c'.nodes 1)).view r).lockType = some .exclusive →
        ((locksOf (c'.nodes 1)).view r).holders.card ≤ 1 := by
  have hrun : ((Transition.runWhile (Raft.step Raft.trio) BringsNew Cluster.init (firstAcquire 0)).bind fun c =>
      (Transition.runWhile (Raft.step Raft.trio) BringsNew c (secondAcquire 0)).map fun c' =>
        ((c.nodes 0).lastApplied, (c'.nodes 1).lastApplied)) = some (1, 2) := by decide
  obtain ⟨c, hc, hrest⟩ := Option.bind_eq_some_iff.1 hrun
  obtain ⟨c', hc', hobs⟩ := Option.map_eq_some_iff.1 hrest
  simp only [Prod.mk.injEq] at hobs
  obtain ⟨hlast, hlast'⟩ := hobs
  obtain ⟨hr, hrun⟩ := Transition.ReachWhile.of_runWhile .refl hc
  obtain ⟨hr', hrun'⟩ := Transition.ReachWhile.of_runWhile .refl hc'
  obtain ⟨since, hlen, hlocks⟩ := replicated_locks (a := 0) (b := 1) Raft.trio
    (hr.mono fun _ _ h => h.faithful.1) (hr'.mono fun _ _ h => h.faithful.1) (by omega)
  exact ⟨c, c', hrun, hrun', since, by omega, hlocks⟩

/-- An acquire that a client has been told of as acquired: the commands before it are the same on all nodes that get
as far and at all times, and when the lock was granted after these, the client holds it there, in its mode or a
stronger one, until one of its releases is applied. -/
theorem acknowledged_acquire_in_force (cfg : ClusterConfig ι) (h : Raft.ReachWhile cfg Faithful c) {k : Nat}
    {call : ProposeCall (LockCommand ν)} (hcall : (c.nodes a).calls[k]? = some call)
    (hret : call.returned = some true) (hacquire : call.entry.command.action.isStr "acquire") :
    ∃ before : List (LockCommand ν), ∀ c', Transition.ReachWhile (Steps cfg) Safe c c' → ∀ b,
      call.entry.index ≤ (c'.nodes b).lastApplied → ∃ since,
        (c'.nodes b).applied.map LogEntry.command = before ++ call.entry.command :: since ∧
        (Granted (tableAfter before) call.entry.command → (∀ rel ∈ since, ¬Undoes rel call.entry.command) →
          InForce (locksOf (c'.nodes b)) call.entry.command) := by
  have hsafe := Raft.safe_of_faithful h
  obtain ⟨hpos, happlied⟩ := Raft.acknowledged_applied h hcall hret
  refine ⟨((c.nodes a).applied.take (call.entry.index - 1)).map LogEntry.command, fun c' h' b hb => ?_⟩
  have hhere : (c'.nodes b).applied[call.entry.index - 1]? = some call.entry :=
    Raft.applied_eq_of_lt hsafe h' happlied (by omega)
  have hlen := (List.getElem?_eq_some_iff.1 happlied).1
  obtain ⟨hlen', heq'⟩ := List.getElem?_eq_some_iff.1 hhere
  have htake : (c'.nodes b).applied.take (call.entry.index - 1) =
      (c.nodes a).applied.take (call.entry.index - 1) := by
    rcases Raft.applied_isPrefix_or hsafe h' a b with hpre | hpre
    · exact Positions.take_of_isPrefix hpre hlen.le
    · exact (Positions.take_of_isPrefix hpre hlen'.le).symm
  have hsplit : (c'.nodes b).applied.map LogEntry.command =
      ((c.nodes a).applied.take (call.entry.index - 1)).map LogEntry.command ++ call.entry.command ::
        ((c'.nodes b).applied.drop (call.entry.index - 1 + 1)).map LogEntry.command := by
    have hdrop := List.getElem_cons_drop hlen'
    rw [heq'] at hdrop
    rw [← htake, ← List.map_cons, ← List.map_append, hdrop, List.take_append_drop]
  refine ⟨_, hsplit, fun hgranted hkept => ?_⟩
  rw [locksOf, hsplit, List.append_cons]
  exact InForce.append (hgranted.inForce hacquire) hkept

/-- Node `0` leads and acknowledges the first command. -/
theorem acknowledged_acquire_in_force_run : ∃ (c : Cluster (Fin 3) (LockCommand Int)) (call : _),
    Transition.run (Raft.step Raft.trio) Cluster.init (firstAcquire 0) = some c ∧ (c.nodes 0).calls[0]? = some call ∧
    ∃ before : List (LockCommand Int), ∀ c', Transition.ReachWhile (Steps Raft.trio) Safe c c' → ∀ b,
      call.entry.index ≤ (c'.nodes b).lastApplied → ∃ since,
        (c'.nodes b).applied.map LogEntry.command = before ++ call.entry.command :: since ∧
        (Granted (tableAfter before) call.entry.command → (∀ rel ∈ since, ¬Undoes rel call.entry.command) →
          InForce (locksOf (c'.nodes b)) call.entry.command) := by
  have hrun : ((Transition.runWhile (Raft.step Raft.trio) BringsNew Cluster.init (firstAcquire 0)).bind fun c =>
      (c.nodes 0).calls[0]?.map fun call => (call.returned, call.entry.command.action.isStr "acquire")) =
      some (some true, true) := by decide
  obtain ⟨c, hc, hrest⟩ := Option.bind_eq_some_iff.1 hrun
  obtain ⟨call, hcall, hobs⟩ := Option.map_eq_some_iff.1 hrest
  simp only [Prod.mk.injEq] at hobs
  obtain ⟨hr, hrun⟩ := Transition.ReachWhile.of_runWhile .refl hc
  exact ⟨c, call, hrun, hcall,
    acknowledged_acquire_in_force Raft.trio (hr.mono fun _ _ h => h.faithful) hcall hobs.1 hobs.2⟩

end DistributedSync.DistributedNode
