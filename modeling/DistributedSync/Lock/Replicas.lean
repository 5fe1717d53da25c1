import DistributedSync.Lock.Invariant

/-!
# Replicas of the lock table

Two replicas apply the same commands, and each runs its sweeps when its own clock says so.  The view of a resource
is a function of the events that concern it, the commands that name it and the expiries that a sweep finds, in
their order (`run_view`).  So two replicas agree as long as their sweeps find the lease of each resource expired at
the same points of the command sequence (`replicas_agree`), and nothing else about clocks and sweeps matters.  The
code does nothing to bring that about: one sweep that only one of them makes is enough to separate them.
-/

namespace DistributedSync

/-- What happens to the lock of one resource. -/
inductive LockEvent (ν : Type) where
  | command (cmd : LockCommand ν)
  | expiry

def LockEvent.command? {ν : Type} : LockEvent ν → Option (LockCommand ν)
  | .command cmd => some cmd
  | .expiry => none

def LockEvent.isExpiry {ν : Type} : LockEvent ν → Bool
  | .command _ => false
  | .expiry => true

/-- The order of commands and expiries and the commands alone determine the events. -/
private theorem events_ext {ν : Type} {l l' : List (LockEvent ν)}
    (hmarks : l.map LockEvent.isExpiry = l'.map LockEvent.isExpiry)
    (hcmds : l.filterMap LockEvent.command? = l'.filterMap LockEvent.command?) : l = l' := by
  induction l generalizing l' with
  | nil => exact (List.map_eq_nil_iff.1 hmarks.symm).symm
  | cons e l ih =>
    cases l' with
    | nil => cases hmarks
    | cons e' l' =>
      obtain ⟨he, hrest⟩ := List.cons.inj hmarks
      cases e with
      | expiry =>
        cases e' with
        | expiry => rw [ih hrest hcmds]
        | command cmd' => cases he
      | command cmd =>
        cases e' with
        | expiry => cases he
        | command cmd' =>
          obtain ⟨rfl, htail⟩ := List.cons.inj hcmds
          rw [ih hrest htail]

/-- The command that a step applies. -/
def LockAction.command? {ν : Type} : LockAction ν → Option (LockCommand ν)
  | .apply _ cmd => some cmd
  | .sweep _ => none

/-- The commands of a run, in their order. -/
def commands {ν : Type} (as : List (LockAction ν)) : List (LockCommand ν) := as.filterMap LockAction.command?

variable {ν : Type} [Number ν]

def LockView.handle (v : LockView ν) : LockEvent ν → LockView ν
  | .command cmd => v.apply cmd
  | .expiry => v.expire

namespace LockManagerNode

/-- What a step of the node does, and to the lock of which resource. -/
def happenings (s : LockManagerNode ν) : LockAction ν → List (Key ν × LockEvent ν)
  | .apply _ cmd => cmd.resource.key?.toList.map fun r => (r, .command cmd)
  | .sweep env => (s.sweep env).expired.map fun r => (r, .expiry)

/-- What happens along a run. -/
def trace (s : LockManagerNode ν) : List (LockAction ν) → List (Key ν × LockEvent ν)
  | [] => []
  | a :: as => s.happenings a ++ ((step s a).map fun s' => trace s' as).getD []

/-- The events of the lock of `r`. -/
def eventsOf (r : Key ν) (l : List (Key ν × LockEvent ν)) : List (LockEvent ν) :=
  l.filterMap fun e => if e.1 = r then some e.2 else none

private theorem eventsOf_expiries {rs : List (Key ν)} (h : rs.Nodup) (r : Key ν) :
    eventsOf r (rs.map fun r => (r, .expiry)) = if r ∈ rs then [.expiry] else [] := by
  induction rs with
  | nil => rfl
  | cons r₀ rs ih =>
    obtain ⟨hr₀, hrs⟩ := List.nodup_cons.1 h
    have hrest := ih hrs
    rw [eventsOf] at hrest
    rw [eventsOf, List.map_cons, List.filterMap_cons, hrest]
    by_cases hr : r₀ = r
    · rw [hr] at hr₀
      simp [hr, hr₀]
    · simp [hr, Ne.symm hr]

private theorem step_view {s s' : LockManagerNode ν} {a : LockAction ν} (h : step s a = some s') (r : Key ν) :
    s'.locks.view r = (eventsOf r (s.happenings a)).foldl LockView.handle (s.locks.view r) := by
  cases a with
  | apply now cmd =>
    obtain rfl : (s.applyLockCommand now cmd).state = s' := by simpa [step] using h
    rw [applyLockCommand_view, happenings, eventsOf]
    cases hk : cmd.resource.key? with
    | none => rfl
    | some r' =>
      by_cases hr : r' = r
      · simp [hr, LockView.handle]
      · simp [hr]
  | sweep env =>
    obtain ⟨hlists, rfl⟩ : env.Lists s ∧ (s.sweep env).node = s' := by simpa [step] using h
    have hexp := sweep_expires hlists
    rw [happenings, eventsOf_expiries (s.locks.nodup_keys.sublist hexp.among)]
    by_cases hr : r ∈ (s.sweep env).expired
    · rw [if_pos hr, hexp.expired r hr]
      rfl
    · rw [if_neg hr, hexp.others r hr]
      rfl

/-- The view of a resource is a function of its events. -/
theorem run_view {s s' : LockManagerNode ν} {as : List (LockAction ν)} (h : Transition.run step s as = some s')
    (r : Key ν) : s'.locks.view r = (eventsOf r (s.trace as)).foldl LockView.handle (s.locks.view r) := by
  induction as generalizing s with
  | nil =>
    obtain rfl : s = s' := Option.some.inj h
    rfl
  | cons a as ih =>
    obtain ⟨t, ha, hrun⟩ := Transition.run_cons.1 h
    have hrest := ih hrun
    rw [step_view ha, ← List.foldl_append, eventsOf, eventsOf, ← List.filterMap_append] at hrest
    rw [trace, ha, eventsOf]
    exact hrest

/-- The commands among the events of `r` are those that name it. -/
theorem commands_eventsOf {s s' : LockManagerNode ν} {as : List (LockAction ν)}
    (h : Transition.run step s as = some s') (r : Key ν) :
    (eventsOf r (s.trace as)).filterMap LockEvent.command? =
      (commands as).filter fun cmd => cmd.resource.key? = some r := by
  induction as generalizing s with
  | nil => rfl
  | cons a as ih =>
    obtain ⟨t, ha, hrun⟩ := Transition.run_cons.1 h
    have hrest := ih hrun
    rw [eventsOf] at hrest
    rw [trace, ha, eventsOf, List.filterMap_append, List.filterMap_append, commands]
    simp only [Option.map_some, Option.getD_some]
    rw [hrest]
    cases a with
    | apply now cmd =>
      rw [happenings]
      cases hk : cmd.resource.key? with
      | none => simp [hk, LockAction.command?, commands]
      | some r' =>
        by_cases hr : r' = r
        · simp [hk, hr, LockAction.command?, LockEvent.command?, commands]
        · simp [hk, hr, LockAction.command?, commands]
    | sweep env =>
      have hnone : (eventsOf r (s.happenings (.sweep env))).filterMap LockEvent.command? = [] := by
        rw [List.filterMap_eq_nil_iff]
        intro e he
        obtain ⟨x, hx, hxe⟩ := List.mem_filterMap.1 he
        obtain ⟨r', -, rfl⟩ := List.mem_map.1 hx
        obtain rfl : LockEvent.expiry = e := by simpa using (Option.ite_none_right_eq_some.1 hxe).2
        rfl
      rw [eventsOf] at hnone
      rw [hnone]
      rfl

/-- The sweeps of the two runs find the lease of each resource expired at the same points of the sequence of
commands that name it. -/
def ExpireAlike (s t : LockManagerNode ν) (as bs : List (LockAction ν)) : Prop :=
  ∀ r, (eventsOf r (s.trace as)).map LockEvent.isExpiry = (eventsOf r (t.trace bs)).map LockEvent.isExpiry

/-- Two replicas that have applied the same commands agree on every lock, if their sweeps find the leases expired
at the same points of the command sequence. -/
theorem replicas_agree {leaseTimeout leaseTimeout' : ν} {as bs : List (LockAction ν)} {s t : LockManagerNode ν}
    (hs : Transition.run step (start leaseTimeout) as = some s)
    (ht : Transition.run step (start leaseTimeout') bs = some t) (hcmds : commands as = commands bs)
    (hexp : ExpireAlike (start leaseTimeout) (start leaseTimeout') as bs) (r : Key ν) :
    s.locks.view r = t.locks.view r := by
  have hevents : eventsOf r (trace (start leaseTimeout) as) =
      eventsOf r (trace (start leaseTimeout') bs) := by
    apply events_ext (hexp r)
    rw [commands_eventsOf hs, commands_eventsOf ht, hcmds]
  rw [run_view hs, run_view ht, hevents, view_start, view_start]

/-- Two exclusive requests for one lock, on a node whose clock is `d` seconds ahead. -/
def contention (d : Int) : List (LockAction Int) :=
  [.apply d (.acquire (.str "r") (.str "a") (.str "exclusive") (some (.num 10))),
    .apply (d + 1) (.acquire (.str "r") (.str "b") (.str "exclusive") (some (.num 10)))]

/-- A pass, `20` seconds later, over a lock that `a` holds. -/
def latePass (d : Int) : LockAction Int := .sweep ⟨d + 20, fun _ _ => d + 21, fun _ => [.str "a"]⟩

theorem replicas_agree_run : ∃ s t : LockManagerNode Int,
    Transition.run step (start 30) (contention 0 ++ [latePass 0]) = some s ∧
    Transition.run step (start 60) (contention 5 ++ [latePass 5]) = some t ∧
    (s.locks.view (.str "r")).holders = {.str "b"} ∧ s.locks.view (.str "r") = t.locks.view (.str "r") := by
  have hs : (Transition.run step (start 30) (contention 0 ++ [latePass 0])).map (fun s =>
      (s.locks.view (.str "r")).holders) = some {.str "b"} := by decide
  have ht : (Transition.run step (start 60) (contention 5 ++ [latePass 5])).isSome := by decide
  have htrace : trace (start 30) (contention 0 ++ [latePass 0]) =
      trace (start 60) (contention 5 ++ [latePass 5]) := rfl
  obtain ⟨s, hs, hheld⟩ := Option.map_eq_some_iff.1 hs
  obtain ⟨t, ht⟩ := Option.isSome_iff_exists.1 ht
  exact ⟨s, t, hs, ht, hheld, replicas_agree hs ht rfl (fun r => by rw [htrace]) (.str "r")⟩

/-- Only one of two replicas runs a sweep after the lease has expired. -/
theorem replicas_diverge : ¬∀ (as bs : List (LockAction Int)) (s t : LockManagerNode Int),
    Transition.run step (start 30) as = some s → Transition.run step (start 30) bs = some t →
    commands as = commands bs → ∀ r, s.locks.view r = t.locks.view r := by
  intro h
  have hs : (Transition.run step (start 30) (contention 0 ++ [latePass 0])).map (fun s =>
      (s.locks.view (.str "r")).holders) = some {.str "b"} := by decide
  have ht : (Transition.run step (start 30) (contention 0)).map (fun s =>
      (s.locks.view (.str "r")).holders) = some {.str "a"} := by decide
  obtain ⟨s, hs, hheld⟩ := Option.map_eq_some_iff.1 hs
  obtain ⟨t, ht, hheld'⟩ := Option.map_eq_some_iff.1 ht
  rw [h _ _ s t hs ht rfl (.str "r"), hheld'] at hheld
  exact absurd hheld (by decide)

end LockManagerNode

end DistributedSync
