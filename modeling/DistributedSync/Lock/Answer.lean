import DistributedSync.Lock.Invariant
import DistributedSync.Raft.Node

/-!
# What a lock manager node answers

`_handle_acquire` of `LockManagerNode` proposes its command, waits, and then answers `acquired` if its client is among
the holders of the resource by then.  It asks neither what its own command has done nor in which mode the lock is held.
The handlers run on a node that leads; its log and its lock table hold whatever came before, and entries are committed
in the order of the log.  Any number of handlers may wait at a time, and they answer in any order.

The answer is right unless a client that shares the lock asks for it exclusively (`acquired_held_iff`).
-/

namespace DistributedSync

open Raft (RaftNode LogEntry ProposeCall)

/-! ### Modes of held locks -/

variable {ν : Type}

/-- A lock that is held has a mode, and an exclusive one has one holder at most. -/
structure LockView.Moded (v : LockView ν) : Prop where
  exclusive : v.lockType = some .exclusive → v.holders.card ≤ 1
  typed : v.holders ≠ ∅ → v.lockType ≠ none

namespace LockView

variable {v : LockView ν}

private theorem new_moded : ({} : LockView ν).Moded where
  exclusive h := by cases h
  typed h := absurd rfl h

private theorem Moded.of_shared (h : v.lockType = some .shared) : v.Moded where
  exclusive hex := by
    rw [h] at hex
    cases hex
  typed _ := by
    rw [h]
    exact Option.some_ne_none _

private theorem Moded.of_free (h : v.holders = ∅) : v.Moded where
  exclusive _ := by simp [h]
  typed hne := absurd h hne

end LockView

namespace LockManagerServer

/-- The client holds the lock in the mode or a stronger one, and alone if the mode is exclusive. -/
structure HeldAs (v : LockView ν) (c : Key ν) (lockType : LockType) : Prop where
  holds : c ∈ v.holders
  mode : v.lockType = some lockType ∨ v.lockType = some .exclusive
  alone : lockType = .exclusive → v.holders = {c}

/-- The client shares the lock that it asks for exclusively. -/
def Upgrades (v : LockView ν) (c : Key ν) (lockType : LockType) : Prop :=
  lockType = .exclusive ∧ v.lockType = some .shared ∧ c ∈ v.holders

/-- A holder holds the lock in the mode it asks for, unless it shares it and asks for more. -/
theorem heldAs_iff {v : LockView ν} (h : v.Moded) {c : Key ν} (hc : c ∈ v.holders) (lockType : LockType) :
    HeldAs v c lockType ↔ ¬Upgrades v c lockType := by
  constructor
  · rintro hheld ⟨rfl, hshared, -⟩
    rcases hheld.mode with hmode | hmode
    · rw [hshared] at hmode
      cases hmode
    · rw [hshared] at hmode
      cases hmode
  · intro hup
    have htyped : v.lockType ≠ none := h.typed (Finset.ne_empty_of_mem hc)
    cases lockType with
    | shared =>
      refine ⟨hc, ?_, fun hex => by cases hex⟩
      cases hmode : v.lockType with
      | none => exact absurd hmode htyped
      | some lockType => cases lockType <;> simp
    | exclusive =>
      have hex : v.lockType = some .exclusive := by
        cases hmode : v.lockType with
        | none => exact absurd hmode htyped
        | some lockType =>
          cases lockType with
          | shared => exact absurd ⟨rfl, hmode, hc⟩ hup
          | exclusive => rfl
      refine ⟨hc, Or.inr hex, fun _ => ?_⟩
      exact Finset.eq_singleton_iff_unique_mem.2 ⟨hc, fun c' hc' => Finset.card_le_one.1 (h.exclusive hex) c' hc' c hc⟩

end LockManagerServer

variable [Number ν]

namespace LockView

variable {v : LockView ν}

theorem Moded.acquire (h : v.Moded) (clientId : Json ν) (lockType : LockType) :
    (v.acquire clientId lockType).Moded := by
  refine ⟨acquire_exclusive h.exclusive clientId lockType, ?_⟩
  rw [LockView.acquire]
  by_cases hfree : v.holders = ∅
  · rw [if_pos hfree]
    cases clientId.key? with
    | none => exact fun _ => Option.some_ne_none _
    | some c => exact fun _ => Option.some_ne_none _
  · have htyped : v.lockType ≠ none := h.typed hfree
    rw [if_neg hfree]
    by_cases hshared : lockType = .shared ∧ v.lockType = some .shared
    · rw [if_pos hshared]
      cases clientId.key? with
      | none => exact fun _ => htyped
      | some c => exact fun _ => htyped
    · rw [if_neg hshared]
      exact fun _ => htyped

/-- The induction is on the queue; the lock stays shared. -/
theorem joinWaiting_lockType (ws : List (Json ν × LockType)) : (v.joinWaiting ws).lockType = v.lockType := by
  induction ws generalizing v with
  | nil => rfl
  | cons w ws ih =>
    obtain ⟨clientId, lockType⟩ := w
    rw [joinWaiting]
    split
    · cases clientId.key? with
      | none => rfl
      | some c => exact ih
    · rfl

private theorem handOver_moded (hfree : v.holders = ∅) : v.handOver.Moded := by
  rw [handOver]
  cases v.waiting with
  | nil => exact .of_free hfree
  | cons w rest =>
    obtain ⟨clientId, lockType⟩ := w
    cases hc : clientId.key? with
    | none =>
      simp only [hc]
      exact .of_free hfree
    | some c =>
      simp only [hc]
      by_cases hs : lockType = .shared
      · rw [if_pos hs]
        refine .of_shared ((joinWaiting_lockType rest).trans ?_)
        rw [hs]
      · rw [if_neg hs]
        exact ⟨fun _ => by simp [hfree], fun _ => Option.some_ne_none _⟩

theorem Moded.release (h : v.Moded) (clientId : Json ν) : (v.release clientId).Moded := by
  rw [LockView.release]
  cases clientId.key? with
  | none => exact h
  | some c =>
    simp only
    by_cases hfree : v.holders.erase c = ∅
    · rw [if_pos hfree]
      exact handOver_moded hfree
    · rw [if_neg hfree]
      have hheld : v.holders ≠ ∅ := by
        intro hempty
        rw [hempty, Finset.erase_empty] at hfree
        exact hfree rfl
      have hcard : (v.holders.erase c).card ≤ v.holders.card := Finset.card_le_card (Finset.erase_subset c v.holders)
      exact ⟨fun hex => hcard.trans (h.exclusive hex), fun _ => h.typed hheld⟩

private theorem expire_moded (v : LockView ν) : v.expire.Moded := handOver_moded rfl

theorem Moded.apply (h : v.Moded) (cmd : LockCommand ν) : (v.apply cmd).Moded := by
  rw [LockView.apply]
  split
  · rw [LockView.request]
    cases cmd.lockType? with
    | none => exact h
    | some lockType => exact h.acquire cmd.clientId lockType
  · split
    · exact h.release cmd.clientId
    · exact h

end LockView

namespace LockManagerNode

/-- Every lock of the table is moded, whatever the ids in the commands are. -/
def Moded (s : LockManagerNode ν) : Prop := ∀ r, (s.locks.view r).Moded

theorem Moded.applyLockCommand {s : LockManagerNode ν} (h : s.Moded) (now : ν) (cmd : LockCommand ν) :
    (s.applyLockCommand now cmd).state.Moded := by
  intro r
  rw [applyLockCommand_view]
  by_cases hr : cmd.resource.key? = some r
  · rw [if_pos hr]
    exact (h r).apply cmd
  · rw [if_neg hr]
    exact h r

theorem Moded.sweep {s : LockManagerNode ν} (h : s.Moded) {env : Sweep ν} (hlists : env.Lists s) :
    (s.sweep env).node.Moded := by
  intro r
  have hexp := sweep_expires hlists
  by_cases hr : r ∈ (s.sweep env).expired
  · rw [hexp.expired r hr]
    exact LockView.expire_moded _
  · rw [hexp.others r hr]
    exact h r

theorem Moded.step {s s' : LockManagerNode ν} {a : LockAction ν} (h : s.Moded) (hstep : s.step a = some s') :
    s'.Moded := by
  cases a with
  | apply now cmd =>
    obtain rfl : (s.applyLockCommand now cmd).state = s' := by simpa [LockManagerNode.step] using hstep
    exact h.applyLockCommand now cmd
  | sweep env =>
    obtain ⟨hlists, rfl⟩ : env.Lists s ∧ (s.sweep env).node = s' := by simpa [LockManagerNode.step] using hstep
    exact h.sweep hlists

theorem moded_of_reach {leaseTimeout : ν} {s : LockManagerNode ν} (h : ReachWhile (fun _ _ => True) leaseTimeout s) :
    s.Moded := by
  refine Transition.ReachWhile.invariant (I := Moded) h (fun _ => LockView.new_moded) ?_
  intro s a s' _ hs _ hstep
  exact hs.step hstep

end LockManagerNode

/-! ### The handlers -/

/-- A leading `LockManagerNode`: its `raft`, and its locks. -/
structure LockManagerServer (ν : Type) where
  raft : RaftNode String (LockCommand ν)
  node : LockManagerNode ν

/-- The body of a request; a missing key is `none`. -/
structure LockBody (ν : Type) where
  resource : Option (Json ν) := none
  clientId : Option (Json ν) := none
  lockType : Option (Json ν) := none
  timeout : Option (Json ν) := none

/-- The command that `_handle_acquire` proposes. -/
def LockBody.acquire {ν : Type} (data : LockBody ν) (leaseTimeout : ν) : LockCommand ν :=
  .acquire (data.resource.getD .null) (data.clientId.getD (.str "anonymous"))
    (data.lockType.getD (.str "exclusive")) (some (data.timeout.getD (.num leaseTimeout)))

/-- The command that `_handle_release` proposes. -/
def LockBody.release {ν : Type} (data : LockBody ν) : LockCommand ν :=
  .release (data.resource.getD .null) (data.clientId.getD (.str "anonymous"))

inductive LockAnswer where
  | lock (status : String) (fencingToken : Nat)
  | status (status : String)
  | commitFailed
  /-- the handler raised -/
  | raised
  deriving DecidableEq

inductive ServerAction (ν : Type) where
  | handleAcquire (data : LockBody ν)
  | handleRelease (data : LockBody ν)
  /-- the commit index goes up by one; the clock reads `clock i` when the entry with the index `i` is applied -/
  | commit (clock : Nat → ν)
  | sweep (env : Sweep ν)
  | timeout (call : Nat)
  | answer (call : Nat)

namespace LockManagerServer

/-- The rest of `_handle_acquire` after its proposal, which has returned `ok`. -/
def acquireAnswer (s : LockManagerServer ν) (cmd : LockCommand ν) (ok : Bool) : LockAnswer :=
  if ok then
    match cmd.resource.key? with
    | none => .raised
    | some r =>
      match s.node.locks.get? r with
      | none => .lock "waiting" 0
      | some lock =>
        match cmd.clientId.key? with
        | none => .raised
        | some c => .lock (if c ∈ lock.holders then "acquired" else "waiting") lock.fencingToken
  else .commitFailed

/-- The rest of `_handle_release`. -/
def releaseAnswer (ok : Bool) : LockAnswer := .status (if ok then "released" else "failed")

/-- What the handler of the call answers when its proposal returns now; `none` while it waits, and once it has
answered. -/
def answer (s : LockManagerServer ν) (call : Nat) : Option LockAnswer :=
  s.raft.calls[call]?.bind fun c =>
    if c.future = .resolved ∧ c.returned = none then
      some (if c.entry.command.action.isStr "acquire" then s.acquireAnswer c.entry.command true
        else releaseAnswer true)
    else none

/-- The entries that are applied run through the callback. -/
def applyEntries (clock : Nat → ν) (node : LockManagerNode ν) (entries : List (LogEntry (LockCommand ν))) :
    LockManagerNode ν :=
  entries.foldl (fun node e => (node.applyLockCommand (clock e.index) e.command).state) node

/-- The commit index goes up by one, and the entries up to it are applied. -/
def commit (s : LockManagerServer ν) (clock : Nat → ν) : LockManagerServer ν :=
  let raft := ({ s.raft with commitIndex := s.raft.commitIndex + 1 } : RaftNode String _).applyCommitted.state
  { raft := raft, node := applyEntries clock s.node (raft.applied.drop s.raft.applied.length) }

def step (s : LockManagerServer ν) : ServerAction ν → Option (LockManagerServer ν)
  | .handleAcquire data =>
    if s.raft.state = .leader then some { s with raft := Raft.propose s.raft (data.acquire s.node.leaseTimeout) }
    else none
  | .handleRelease data =>
    if s.raft.state = .leader then some { s with raft := Raft.propose s.raft data.release } else none
  | .commit clock => if s.raft.commitIndex < s.raft.log.length then some (s.commit clock) else none
  | .sweep env => if env.Lists s.node then some { s with node := (s.node.sweep env).node } else none
  | .timeout call => s.raft.calls[call]?.bind fun c =>
    if c.future = .pending then some { s with raft := Raft.proposeTimeout s.raft call c } else none
  | .answer call => s.raft.calls[call]?.bind fun c =>
    if c.future = .resolved ∧ c.returned = none then some { s with raft := Raft.proposeReturn s.raft call } else none

/-- The states that a node reaches from the one in which it is elected. -/
abbrev Reach (elected : LockManagerServer ν) : LockManagerServer ν → Prop :=
  Transition.Reach (fun s a s' => step s a = some s') elected

private theorem applyEntries_moded {clock : Nat → ν} {node : LockManagerNode ν} (h : node.Moded)
    (entries : List (LogEntry (LockCommand ν))) : (applyEntries clock node entries).Moded := by
  induction entries generalizing node with
  | nil => exact h
  | cons e entries ih => exact ih (h.applyLockCommand (clock e.index) e.command)

private theorem step_moded {s s' : LockManagerServer ν} {a : ServerAction ν} (h : s.node.Moded)
    (hstep : s.step a = some s') : s'.node.Moded := by
  cases a with
  | handleAcquire data =>
    obtain ⟨-, rfl⟩ : s.raft.state = .leader ∧ _ = s' := by simpa [step] using hstep
    exact h
  | handleRelease data =>
    obtain ⟨-, rfl⟩ : s.raft.state = .leader ∧ _ = s' := by simpa [step] using hstep
    exact h
  | commit clock =>
    obtain ⟨-, rfl⟩ : s.raft.commitIndex < s.raft.log.length ∧ s.commit clock = s' := by simpa [step] using hstep
    exact applyEntries_moded h _
  | sweep env =>
    obtain ⟨hlists, rfl⟩ : env.Lists s.node ∧ _ = s' := by simpa [step] using hstep
    exact h.sweep hlists
  | timeout call =>
    obtain ⟨c, -, -, rfl⟩ : ∃ c, s.raft.calls[call]? = some c ∧ c.future = .pending ∧ _ = s' := by
      simpa [step, Option.bind_eq_some_iff] using hstep
    exact h
  | answer call =>
    obtain ⟨c, -, -, rfl⟩ : ∃ c, s.raft.calls[call]? = some c ∧
        (c.future = .resolved ∧ c.returned = none) ∧ _ = s' := by
      simpa [step, Option.bind_eq_some_iff] using hstep
    exact h

private theorem node_moded {elected s : LockManagerServer ν} (helected : elected.node.Moded) (h : Reach elected s) :
    s.node.Moded := by
  refine Transition.ReachWhile.invariant (I := fun s => s.node.Moded) h helected ?_
  intro s a s' _ hs _ hstep
  exact step_moded hs hstep

/-- The answer is `acquired` just if the client is among the holders. -/
theorem acquireAnswer_acquired_iff {s : LockManagerServer ν} {cmd : LockCommand ν} {r c : Key ν}
    (hr : cmd.resource.key? = some r) (hc : cmd.clientId.key? = some c) :
    (∃ token, s.acquireAnswer cmd true = .lock "acquired" token) ↔ c ∈ (s.node.locks.view r).holders := by
  unfold acquireAnswer
  simp only [hr, hc, if_true]
  cases hl : s.node.locks.get? r with
  | none => simp [LockTable.view_of_none hl]
  | some lock =>
    have hholders : (s.node.locks.view r).holders = lock.holders := by
      rw [LockTable.view_of_get? hl]
      rfl
    by_cases hm : c ∈ lock.holders <;> simp [hholders, hm]

/-- In every run of a leader, from any log and any lock table it may have when it is elected: whenever the handler of
an acquire request answers `acquired` its client holds the lock as it has asked for it, unless it asks exclusively for
a lock that it then shares. -/
theorem acquired_held_iff {elected s : LockManagerServer ν} {leaseTimeout : ν}
    (helected : LockManagerNode.ReachWhile (fun _ _ => True) leaseTimeout elected.node) (h : Reach elected s)
    {call : Nat} {p : ProposeCall (LockCommand ν)} (hcall : s.raft.calls[call]? = some p)
    (hreturns : p.future = .resolved ∧ p.returned = none) {data : LockBody ν} {timeout : ν}
    (hdata : p.entry.command = data.acquire timeout) {r c : Key ν} {lockType : LockType}
    (hr : p.entry.command.resource.key? = some r) (hc : p.entry.command.clientId.key? = some c)
    (_ : p.entry.command.lockType? = some lockType) :
    ((∃ token, s.answer call = some (.lock "acquired" token)) → HeldAs (s.node.locks.view r) c lockType) ↔
      ¬Upgrades (s.node.locks.view r) c lockType := by
  have hmoded : (s.node.locks.view r).Moded := node_moded (LockManagerNode.moded_of_reach helected) h r
  have hacquire : p.entry.command.action.isStr "acquire" = true := by
    rw [hdata]
    rfl
  have hanswer : s.answer call = some (s.acquireAnswer p.entry.command true) := by
    rw [answer, hcall, Option.bind_some, if_pos hreturns, if_pos hacquire]
  rw [hanswer]
  simp only [Option.some.injEq]
  rw [acquireAnswer_acquired_iff hr hc]
  constructor
  · intro hheld hup
    exact (heldAs_iff hmoded hup.2.2 lockType).1 (hheld hup.2.2) hup
  · exact fun hup hm => (heldAs_iff hmoded hm lockType).2 hup

/-- A leader of the first term with an empty log. -/
def firstLeader : LockManagerServer Int where
  raft := { currentTerm := 1, state := .leader }
  node := .start 30

/-- The body of a request of `client` for the lock `r`. -/
def body (client lockType : String) : LockBody Int where
  resource := some (.str "r")
  clientId := some (.str client)
  lockType := some (.str lockType)

/-- Two clients share the lock, and the first one asks for it exclusively. -/
def upgrade : List (ServerAction Int) :=
  [.handleAcquire (body "a" "shared"), .handleAcquire (body "b" "shared"), .handleAcquire (body "a" "exclusive"),
    .commit fun _ => 1, .commit fun _ => 2, .commit fun _ => 3]

/-- The third call after these steps: it has been resolved, and has not returned. -/
def upgradeCall : ProposeCall (LockCommand Int) where
  entry := ⟨1, 3, (body "a" "exclusive").acquire 30⟩
  future := .resolved

private theorem upgrade_run : ∃ s : LockManagerServer Int, Reach firstLeader s ∧ s.raft.calls[2]? = some upgradeCall ∧
    s.answer 2 = some (.lock "acquired" 1) ∧ (s.node.locks.view (.str "r")).lockType = some .shared := by
  have hrun : ((Transition.run step firstLeader upgrade).map fun s =>
      (s.raft.calls[2]?, s.answer 2, (s.node.locks.view (.str "r")).lockType)) =
      some (some upgradeCall, some (.lock "acquired" 1), some .shared) := rfl
  obtain ⟨s, hs, hobs⟩ := Option.map_eq_some_iff.1 hrun
  obtain ⟨hcall, hanswer, htype⟩ : s.raft.calls[2]? = some upgradeCall ∧ s.answer 2 = some (.lock "acquired" 1) ∧
      (s.node.locks.view (.str "r")).lockType = some .shared := by simpa using hobs
  exact ⟨s, Transition.reach_of_run hs, hcall, hanswer, htype⟩

theorem acquired_held_iff_upgrade : ∃ s : LockManagerServer Int, Reach firstLeader s ∧
    (((∃ token, s.answer 2 = some (.lock "acquired" token)) →
      HeldAs (s.node.locks.view (.str "r")) (.str "a") .exclusive) ↔
      ¬Upgrades (s.node.locks.view (.str "r")) (.str "a") .exclusive) := by
  obtain ⟨s, h, hcall, -, -⟩ := upgrade_run
  have hdata : upgradeCall.entry.command = (body "a" "exclusive").acquire 30 := rfl
  exact ⟨s, h, acquired_held_iff .refl h hcall ⟨rfl, rfl⟩ hdata rfl rfl rfl⟩

/-- The exclusive request of a client that shares the lock is queued, and answered `acquired` all the same. -/
theorem upgrade_answered : ¬∀ (elected s : LockManagerServer Int) (leaseTimeout timeout : Int) (call : Nat)
    (p : ProposeCall (LockCommand Int)) (data : LockBody Int) (r c : Key Int) (lockType : LockType),
    LockManagerNode.ReachWhile (fun _ _ => True) leaseTimeout elected.node → Reach elected s →
      s.raft.calls[call]? = some p → p.future = .resolved ∧ p.returned = none →
      p.entry.command = data.acquire timeout → p.entry.command.resource.key? = some r →
      p.entry.command.clientId.key? = some c → p.entry.command.lockType? = some lockType →
      (∃ token, s.answer call = some (.lock "acquired" token)) → HeldAs (s.node.locks.view r) c lockType := by
  intro hall
  obtain ⟨s, h, hcall, hanswer, htype⟩ := upgrade_run
  have hheld : HeldAs (s.node.locks.view (.str "r")) (.str "a") .exclusive :=
    hall firstLeader s 30 30 2 upgradeCall (body "a" "exclusive") (.str "r") (.str "a") .exclusive .refl h hcall
      ⟨rfl, rfl⟩ rfl rfl rfl rfl ⟨1, hanswer⟩
  rcases hheld.mode with hmode | hmode
  · rw [htype] at hmode
    cases hmode
  · rw [htype] at hmode
    cases hmode

end LockManagerServer

end DistributedSync
