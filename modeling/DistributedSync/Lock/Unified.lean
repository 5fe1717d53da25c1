import DistributedSync.Lock.Invariant

/-!
# The lock table of the unified node

`DistributedNode` of `main.py` applies the same lock commands with a commit callback of its own.  It has no leases
and no detector, and its release only takes the client out of the holders.  So the two callbacks act alike on a
lock until a release leaves it to its queue: the lock manager then hands it over, and the unified node leaves the
requests waiting for a free lock (`tables_agree_iff`).
-/

namespace DistributedSync

variable {ν : Type} [Number ν]

namespace DistributedNode

/-- The branches of `_apply_lock_command` on the lock to acquire. -/
def acquire (lock : LockState ν) (clientId : Json ν) (lt : LockType) : Outcome (LockState ν) Unit :=
  if lock.holders = ∅ then
    let lock := { lock with lockType := some lt }
    match clientId.key? with
    | none => ⟨lock, .error .typeError⟩
    | some c => ⟨{ lock with holders := insert c lock.holders, fencingToken := lock.fencingToken + 1 }, .ok ()⟩
  else if lt = .shared ∧ lock.lockType = some .shared then
    match clientId.key? with
    | none => ⟨lock, .error .typeError⟩
    | some c => ⟨{ lock with holders := insert c lock.holders }, .ok ()⟩
  else ⟨{ lock with waiting := lock.waiting ++ [{ clientId := clientId, lockType := lt }] }, .ok ()⟩

/-- `DistributedNode._apply_lock_command`. -/
def applyLockCommand (locks : LockTable ν) (cmd : LockCommand ν) : Outcome (LockTable ν) Unit :=
  if cmd.action.isStr "acquire" then
    match cmd.resource.key? with
    | none => ⟨locks, .error .typeError⟩
    | some r =>
      -- the lock is created before the mode is checked
      match cmd.lockType? with
      | none => ⟨locks.set r (locks.getOrNew r), .error .valueError⟩
      | some lt =>
        let o := acquire (locks.getOrNew r) cmd.clientId lt
        ⟨locks.set r o.state, o.result⟩
  else if cmd.action.isStr "release" then
    match cmd.resource.key? with
    | none => ⟨locks, .error .typeError⟩
    | some r =>
      match locks.get? r with
      | none => ⟨locks, .ok ()⟩
      | some lock =>
        match cmd.clientId.key? with
        | none => ⟨locks, .error .typeError⟩
        | some c => ⟨locks.set r { lock with holders := lock.holders.erase c }, .ok ()⟩
  else ⟨locks, .ok ()⟩

end DistributedNode

/-! ### Its commands on the views -/

namespace LockView

/-- The release of the unified node. -/
def discard (v : LockView ν) (clientId : Json ν) : LockView ν :=
  match clientId.key? with
  | none => v
  | some c => { v with holders := v.holders.erase c }

/-- A command of the unified node that names the resource of the lock. -/
def applyUnified (v : LockView ν) (cmd : LockCommand ν) : LockView ν :=
  if cmd.action.isStr "acquire" then v.request cmd
  else if cmd.action.isStr "release" then v.discard cmd.clientId
  else v

/-- The command releases the last holder of a lock for which requests wait. -/
def HandsOver (v : LockView ν) (cmd : LockCommand ν) : Prop :=
  cmd.action.isStr "release" ∧ (∃ c, cmd.clientId.key? = some c ∧ v.holders.erase c = ∅) ∧ v.waiting ≠ []

variable {v : LockView ν} {cmd : LockCommand ν}

/-- A command leaves the lock alone, requests it or takes the client out. -/
theorem applyUnified_cases {P : LockView ν → Prop} (hid : P v)
    (hacquire : ∀ lockType, cmd.lockType? = some lockType → P (v.acquire cmd.clientId lockType))
    (hrelease : cmd.action.isStr "release" → P (v.discard cmd.clientId)) : P (v.applyUnified cmd) := by
  rw [applyUnified]
  by_cases ha : cmd.action.isStr "acquire"
  · rw [if_pos ha, request]
    cases htype : cmd.lockType? with
    | none => exact hid
    | some lockType => exact hacquire lockType htype
  · rw [if_neg ha]
    by_cases hr : cmd.action.isStr "release"
    · rw [if_pos hr]
      exact hrelease hr
    · rw [if_neg hr]
      exact hid

private theorem joinWaiting_length (v : LockView ν) (ws : List (Json ν × LockType)) :
    (v.joinWaiting ws).waiting.length ≤ ws.length := by
  induction ws generalizing v with
  | nil => exact le_refl _
  | cons w ws ih =>
    obtain ⟨clientId, lockType⟩ := w
    rw [joinWaiting]
    by_cases hs : lockType = .shared
    · rw [if_pos hs]
      cases clientId.key? with
      | none => exact Nat.le_succ _
      | some c => exact (ih _).trans (Nat.le_succ _)
    · rw [if_neg hs]

/-- A hand-over takes at least the head out of the queue. -/
theorem handOver_length (h : v.waiting ≠ []) : v.handOver.waiting.length < v.waiting.length := by
  rw [handOver]
  cases hq : v.waiting with
  | nil => exact absurd hq h
  | cons w rest =>
    obtain ⟨clientId, lockType⟩ := w
    rw [List.length_cons]
    cases hc : clientId.key? with
    | none =>
      simp only [hc]
      exact Nat.lt_succ_self _
    | some c =>
      simp only [hc]
      by_cases hs : lockType = .shared
      · rw [if_pos hs]
        have hle := joinWaiting_length ⟨some lockType, insert c v.holders, rest, v.fencingToken + 1⟩ rest
        omega
      · rw [if_neg hs]
        exact Nat.lt_succ_self _

/-- The two nodes act alike on a lock that the command does not hand over. -/
theorem apply_eq_applyUnified (h : ¬v.HandsOver cmd) : v.apply cmd = v.applyUnified cmd := by
  rw [LockView.apply, applyUnified]
  by_cases hr : cmd.action.isStr "release"
  · have ha := LockCommand.not_acquire_of_release hr
    rw [if_neg ha, if_neg ha, if_pos hr, if_pos hr, LockView.release, discard]
    cases hc : cmd.clientId.key? with
    | none => rfl
    | some c =>
      simp only
      by_cases hfree : v.holders.erase c = ∅
      · have hqueue : v.waiting = [] := by
          by_contra hne
          exact h ⟨hr, ⟨c, hc, hfree⟩, hne⟩
        rw [if_pos hfree, handOver]
        simp only [hqueue]
      · rw [if_neg hfree]
  · rw [if_neg hr, if_neg hr]

/-- A hand-over shortens the queue of the lock manager, and the unified node keeps it. -/
theorem waiting_of_handsOver (h : v.HandsOver cmd) :
    (v.apply cmd).waiting.length < v.waiting.length ∧ (v.applyUnified cmd).waiting = v.waiting := by
  obtain ⟨hr, ⟨c, hc, hfree⟩, hqueue⟩ := h
  have ha := LockCommand.not_acquire_of_release hr
  have happly : v.apply cmd = handOver { v with holders := v.holders.erase c } := by
    rw [LockView.apply, if_neg ha, if_pos hr, LockView.release]
    simp only [hc]
    rw [if_pos hfree]
  have hunified : v.applyUnified cmd = { v with holders := v.holders.erase c } := by
    rw [applyUnified, if_neg ha, if_pos hr, discard]
    simp only [hc]
  rw [happly, hunified]
  have hlt := handOver_length (v := { v with holders := v.holders.erase c }) hqueue
  exact ⟨hlt, rfl⟩

end LockView

namespace DistributedNode

theorem acquire_view (lock : LockState ν) (clientId : Json ν) (lt : LockType) :
    (acquire lock clientId lt).state.view = lock.view.acquire clientId lt := by
  have hholders : lock.view.holders = lock.holders := rfl
  have htype : lock.view.lockType = lock.lockType := rfl
  rw [acquire, LockView.acquire, hholders, htype]
  by_cases hfree : lock.holders = ∅
  · rw [if_pos hfree, if_pos hfree]
    cases clientId.key? with
    | none => rfl
    | some c => rfl
  · rw [if_neg hfree, if_neg hfree]
    by_cases hshared : lt = .shared ∧ lock.lockType = some .shared
    · rw [if_pos hshared, if_pos hshared]
      cases clientId.key? with
      | none => rfl
      | some c => rfl
    · rw [if_neg hshared, if_neg hshared]
      simp only [LockState.view, List.map_append, List.map_cons, List.map_nil, Waiting.request]

/-- A command acts on the view of the resource it names, and on no other. -/
theorem applyLockCommand_view (locks : LockTable ν) (cmd : LockCommand ν) (r : Key ν) :
    (applyLockCommand locks cmd).state.view r =
      if cmd.resource.key? = some r then (locks.view r).applyUnified cmd else locks.view r := by
  rw [applyLockCommand, LockView.applyUnified]
  by_cases ha : cmd.action.isStr "acquire"
  · rw [if_pos ha, if_pos ha, LockView.request]
    cases cmd.resource.key? with
    | none => rfl
    | some r' =>
      simp only [Option.some.injEq]
      cases cmd.lockType? with
      | none => exact LockTable.view_set (f := id) rfl r
      | some lt =>
        apply LockTable.view_set (f := fun v => v.acquire cmd.clientId lt)
        exact acquire_view _ _ _
  · rw [if_neg ha, if_neg ha]
    by_cases hr : cmd.action.isStr "release"
    · rw [if_pos hr, if_pos hr, LockView.discard]
      cases cmd.resource.key? with
      | none => rfl
      | some r' =>
        simp only [Option.some.injEq]
        cases hl : locks.get? r' with
        | none =>
          by_cases h : r' = r
          · rw [if_pos h, ← h, LockTable.view_of_none hl]
            cases cmd.clientId.key? <;> rfl
          · rw [if_neg h]
        | some lock =>
          cases cmd.clientId.key? with
          | none => exact (ite_self _).symm
          | some c =>
            apply LockTable.view_set (f := fun v => { v with holders := v.holders.erase c })
            rw [LockTable.view_of_get? hl]
            rfl
    · rw [if_neg hr, if_neg hr]
      exact (ite_self _).symm

/-- The lock table of a unified node that has applied the commands. -/
def tableAfter (cmds : List (LockCommand ν)) : LockTable ν :=
  cmds.foldl (fun locks cmd => (applyLockCommand locks cmd).state) .empty

theorem tableAfter_concat_view (cmds : List (LockCommand ν)) (cmd : LockCommand ν) (r : Key ν) :
    (tableAfter (cmds ++ [cmd])).view r =
      if cmd.resource.key? = some r then ((tableAfter cmds).view r).applyUnified cmd
      else (tableAfter cmds).view r := by
  rw [tableAfter, List.foldl_concat]
  exact applyLockCommand_view _ _ _

end DistributedNode

namespace LockManagerNode

/-- The lock table of a lock manager that has applied the commands, each when its clock read the given time, and
has run no sweep. -/
def tableAfter (leaseTimeout : ν) (cmds : List (ν × LockCommand ν)) : LockTable ν :=
  (cmds.foldl (fun s cmd => (s.applyLockCommand cmd.1 cmd.2).state) (start leaseTimeout)).locks

theorem tableAfter_concat_view (leaseTimeout : ν) (cmds : List (ν × LockCommand ν)) (cmd : ν × LockCommand ν)
    (r : Key ν) :
    (tableAfter leaseTimeout (cmds ++ [cmd])).view r =
      if cmd.2.resource.key? = some r then ((tableAfter leaseTimeout cmds).view r).apply cmd.2
      else (tableAfter leaseTimeout cmds).view r := by
  rw [tableAfter, List.foldl_concat]
  exact applyLockCommand_view _ _ _ _

end LockManagerNode

/-! ### The two tables -/

/-- The lock has a holder or a waiter. -/
def LockView.Busy (v : LockView ν) : Prop := v.holders ≠ ∅ ∨ v.waiting ≠ []

/-- The tables have the same busy locks and agree on each of them. -/
def LockTable.AgreeOnBusy (locks locks' : LockTable ν) : Prop :=
  ∀ r, ((locks.view r).Busy ↔ (locks'.view r).Busy) ∧ ((locks.view r).Busy → locks.view r = locks'.view r)

/-- No release in the sequence takes the last holder from a lock for which requests wait. -/
def NoHandOver (leaseTimeout : ν) (cmds : List (ν × LockCommand ν)) : Prop :=
  ∀ before cmd, before ++ [cmd] <+: cmds → ∀ r, cmd.2.resource.key? = some r →
    ¬((LockManagerNode.tableAfter leaseTimeout before).view r).HandsOver cmd.2

variable {leaseTimeout : ν} {cmds : List (ν × LockCommand ν)} {cmd : ν × LockCommand ν}

theorem NoHandOver.init (h : NoHandOver leaseTimeout (cmds ++ [cmd])) : NoHandOver leaseTimeout cmds :=
  fun before c hp => h before c (hp.trans (List.prefix_append _ _))

theorem NoHandOver.last (h : NoHandOver leaseTimeout (cmds ++ [cmd])) {r : Key ν}
    (hr : cmd.2.resource.key? = some r) :
    ¬((LockManagerNode.tableAfter leaseTimeout cmds).view r).HandsOver cmd.2 :=
  h cmds cmd (List.prefix_refl _) r hr

theorem NoHandOver.concat (h : NoHandOver leaseTimeout cmds)
    (hlast : ∀ r, cmd.2.resource.key? = some r →
      ¬((LockManagerNode.tableAfter leaseTimeout cmds).view r).HandsOver cmd.2) :
    NoHandOver leaseTimeout (cmds ++ [cmd]) := by
  intro before c hp
  rcases List.prefix_concat_iff.1 hp with heq | hp
  · obtain ⟨rfl, hc⟩ := List.append_inj' heq rfl
    obtain rfl : c = cmd := by simpa using hc
    exact hlast
  · exact h before c hp

/-- Without hand-overs the two tables look alike, busy or not. -/
theorem NoHandOver.view_eq (h : NoHandOver leaseTimeout cmds) (r : Key ν) :
    (LockManagerNode.tableAfter leaseTimeout cmds).view r =
      (DistributedNode.tableAfter (cmds.map Prod.snd)).view r := by
  induction cmds using List.reverseRecOn with
  | nil => rfl
  | append_singleton cmds cmd ih =>
    have heq := ih h.init
    rw [List.map_append, List.map_singleton, LockManagerNode.tableAfter_concat_view,
      DistributedNode.tableAfter_concat_view, ← heq]
    by_cases hr : cmd.2.resource.key? = some r
    · rw [if_pos hr, if_pos hr]
      exact LockView.apply_eq_applyUnified (h.last hr)
    · rw [if_neg hr, if_neg hr]

/-- The two nodes agree on the busy locks after every command of a sequence exactly when no release in it hands a
lock over. -/
theorem tables_agree_iff (leaseTimeout : ν) (cmds : List (ν × LockCommand ν)) :
    (∀ before, before <+: cmds → (LockManagerNode.tableAfter leaseTimeout before).AgreeOnBusy
      (DistributedNode.tableAfter (before.map Prod.snd))) ↔ NoHandOver leaseTimeout cmds := by
  constructor
  · intro h
    induction cmds using List.reverseRecOn with
    | nil =>
      intro before c hp
      exact absurd (List.prefix_nil.1 hp) (by simp)
    | append_singleton cmds cmd ih =>
      have hinit := ih fun before hp => h before (hp.trans (List.prefix_append _ _))
      refine hinit.concat fun r hr hover => ?_
      obtain ⟨hbusy, hagree⟩ := h _ (List.prefix_refl _) r
      obtain ⟨hlt, hkept⟩ := LockView.waiting_of_handsOver hover
      rw [List.map_append, List.map_singleton, LockManagerNode.tableAfter_concat_view,
        DistributedNode.tableAfter_concat_view, if_pos hr, if_pos hr, ← hinit.view_eq r] at hbusy hagree
      have hwaits : (((LockManagerNode.tableAfter leaseTimeout cmds).view r).applyUnified cmd.2).waiting ≠ [] := by
        rw [hkept]
        exact hover.2.2
      have heq := hagree (hbusy.2 (Or.inr hwaits))
      rw [heq, hkept] at hlt
      exact absurd hlt (lt_irrefl _)
  · intro h before hp r
    have hbefore : NoHandOver leaseTimeout before := fun b c hb => h b c (hb.trans hp)
    rw [hbefore.view_eq r]
    exact ⟨Iff.rfl, fun _ => rfl⟩

/-- An exclusive holder releases while an exclusive request waits. -/
theorem tables_differ : ¬∀ cmds : List (Int × LockCommand Int),
    (∀ cmd ∈ cmds, cmd.2.StringIds ∧ cmd.2.lockType? ≠ none) →
      (LockManagerNode.tableAfter 30 cmds).AgreeOnBusy (DistributedNode.tableAfter (cmds.map Prod.snd)) := by
  intro h
  have hagree := (h [(0, .acquire (.str "r") (.str "a") (.str "exclusive") none),
    (1, .acquire (.str "r") (.str "b") (.str "exclusive") none), (2, .release (.str "r") (.str "a"))]
    (by decide) (.str "r")).2
  have hheld := congrArg LockView.holders (hagree (Or.inl (by decide)))
  exact absurd hheld (by decide)

end DistributedSync
