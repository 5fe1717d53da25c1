import DistributedSync.Library.Clockwise
import DistributedSync.Library.Dict
import DistributedSync.Library.Timeout

/-!
# The failure detector

`failure_detector.py`.  A node records when it has last heard from another one: a peer is registered when the node
starts, and a heartbeat is recorded for the sender of every RPC and for every peer that answers a heartbeat.  The
monitor loop passes over all recorded times and judges each peer by the time that has gone by; the callbacks are told
of every change.  `notified` is what each callback is called with.

The statuses are a function of the history (`statuses_of_history`), they are right up to the age of the last pass
(`detection_bounds`), and the callbacks miss nothing but the registrations (`changes_connect`).
-/

namespace DistributedSync

inductive NodeStatus where
  | alive | suspected | dead | unknown
  deriving DecidableEq, Repr

def NodeStatus.value : NodeStatus → String
  | alive => "alive"
  | suspected => "suspected"
  | dead => "dead"
  | unknown => "unknown"

/-- The arguments of a callback. -/
structure StatusChange (ι : Type) where
  nodeId : ι
  oldStatus : NodeStatus
  newStatus : NodeStatus
  deriving DecidableEq

structure FailureDetector (ι τ : Type) where
  suspectTimeout : τ
  deadTimeout : τ
  lastHeartbeat : Dict ι τ := .empty
  nodeStatus : Dict ι NodeStatus := .empty
  notified : List (StatusChange ι) := []

namespace FailureDetector

section

variable {ι τ : Type}

/-- The changes of one peer lead from `old` to `new` without a gap, and none is reported that changes nothing. -/
def Connects (old new : NodeStatus) : List (StatusChange ι) → Prop
  | [] => old = new
  | c :: cs => c.oldStatus = old ∧ c.newStatus ≠ old ∧ Connects c.newStatus new cs

theorem Connects.append {old mid new : NodeStatus} {cs cs' : List (StatusChange ι)} (h : Connects old mid cs)
    (h' : Connects mid new cs') : Connects old new (cs ++ cs') := by
  induction cs generalizing old with
  | nil =>
    obtain rfl : old = mid := h
    exact h'
  | cons c cs ih => exact ⟨h.1, h.2.1, ih h.2.2⟩

variable [DecidableEq ι]

def registerPeer (s : FailureDetector ι τ) (nodeId : ι) (now : τ) : FailureDetector ι τ :=
  { s with
    lastHeartbeat := s.lastHeartbeat.set nodeId now
    nodeStatus := s.nodeStatus.set nodeId .alive }

/-- `get_status`. -/
def getStatus (s : FailureDetector ι τ) (nodeId : ι) : NodeStatus := (s.nodeStatus.get? nodeId).getD .unknown

/-- A status that is not the old one is set, and the callbacks are told (`_notify_status_change`). -/
def updateStatus (s : FailureDetector ι τ) (nodeId : ι) (newStatus : NodeStatus) : FailureDetector ι τ :=
  if newStatus ≠ s.getStatus nodeId then
    { s with
      nodeStatus := s.nodeStatus.set nodeId newStatus
      notified := s.notified ++ [⟨nodeId, s.getStatus nodeId, newStatus⟩] }
  else s

def recordHeartbeat (s : FailureDetector ι τ) (nodeId : ι) (now : τ) : FailureDetector ι τ :=
  { s with lastHeartbeat := s.lastHeartbeat.set nodeId now }.updateStatus nodeId .alive

def getAliveNodes (s : FailureDetector ι τ) : List ι :=
  (s.nodeStatus.entries.filter fun e => e.2 = .alive).map Prod.fst

def getAllStatuses (s : FailureDetector ι τ) : Dict ι String := s.nodeStatus.mapValues NodeStatus.value

/-- What happens to the detector, with the time read from the clock. -/
inductive Action (ι τ : Type) where
  | register (nodeId : ι) (now : τ)
  | heartbeat (nodeId : ι) (now : τ)
  | pass (now : τ)

/-! ### What one action does -/

section

variable (s : FailureDetector ι τ) (p q : ι) (new : NodeStatus) (now : τ)

private theorem getStatus_updateStatus : (s.updateStatus q new).getStatus p = if p = q then new else s.getStatus p := by
  unfold updateStatus
  split
  · rw [getStatus, Dict.get?_set]
    by_cases hp : p = q
    · simp [hp]
    · simp [hp, getStatus]
  · rename_i hsame
    by_cases hp : p = q
    · rw [if_pos hp, hp]
      exact (not_not.1 hsame).symm
    · rw [if_neg hp]

@[simp] theorem updateStatus_lastHeartbeat : (s.updateStatus q new).lastHeartbeat = s.lastHeartbeat := by
  unfold updateStatus
  split <;> rfl

@[simp] theorem updateStatus_suspectTimeout : (s.updateStatus q new).suspectTimeout = s.suspectTimeout := by
  unfold updateStatus
  split <;> rfl

@[simp] theorem updateStatus_deadTimeout : (s.updateStatus q new).deadTimeout = s.deadTimeout := by
  unfold updateStatus
  split <;> rfl

theorem getStatus_registerPeer :
    (s.registerPeer q now).getStatus p = if p = q then .alive else s.getStatus p := by
  rw [getStatus, registerPeer, Dict.get?_set]
  by_cases hp : p = q
  · simp [hp]
  · simp [hp, getStatus]

theorem getStatus_recordHeartbeat :
    (s.recordHeartbeat q now).getStatus p = if p = q then .alive else s.getStatus p :=
  getStatus_updateStatus _ p q .alive

end

/-! ### Which nodes have been heard of -/

def Action.nodeId? : Action ι τ → Option ι
  | register p _ | heartbeat p _ => some p
  | pass _ => none

/-- The nodes heard of, in the order in which they were first heard of. -/
def heardOf (h : List (Action ι τ)) : List ι := (h.filterMap Action.nodeId?).eraseDups

section

private theorem keys_updateStatus (s : FailureDetector ι τ) (q : ι) {new : NodeStatus} (hnew : new ≠ .unknown) :
    (s.updateStatus q new).nodeStatus.keys =
      if q ∈ s.nodeStatus.keys then s.nodeStatus.keys else s.nodeStatus.keys ++ [q] := by
  unfold updateStatus
  split
  · exact Dict.keys_set _ q new
  · rename_i hsame
    have hmem : q ∈ s.nodeStatus.keys := by
      by_contra hq
      have hunknown : s.getStatus q = .unknown := by rw [getStatus, Dict.get?_eq_none hq, Option.getD_none]
      exact hnew ((not_not.1 hsame).trans hunknown)
    rw [if_pos hmem]

private theorem heardOf_concat (h : List (Action ι τ)) (a : Action ι τ) :
    heardOf (h ++ [a]) =
      match a.nodeId? with
      | none => heardOf h
      | some p => if p ∈ heardOf h then heardOf h else heardOf h ++ [p] := by
  cases hp : a.nodeId? with
  | none => simp [heardOf, hp]
  | some p =>
    rw [heardOf, List.filterMap_append, List.filterMap_cons_some hp, List.filterMap_nil]
    by_cases hmem : p ∈ h.filterMap Action.nodeId?
    · rw [Clockwise.eraseDups_concat_of_mem hmem]
      exact (if_pos (List.mem_eraseDups.2 hmem)).symm
    · rw [Clockwise.eraseDups_concat_of_not_mem hmem]
      exact (if_neg fun hmem' => hmem (List.mem_eraseDups.1 hmem')).symm

end

/-! ### Notifications -/

/-- The changes of the peer among those that a callback is told of. -/
def changesOf (p : ι) (cs : List (StatusChange ι)) : List (StatusChange ι) := cs.filter fun c => c.nodeId = p

/-- What is told from `s` to `s'`, and that it connects the statuses of the peer. -/
def Tells (p : ι) (s s' : FailureDetector ι τ) : Prop :=
  ∃ new, s'.notified = s.notified ++ new ∧ Connects (s.getStatus p) (s'.getStatus p) (changesOf p new)

section

variable {p : ι} {s s' s'' : FailureDetector ι τ}

theorem Tells.refl : Tells p s s := ⟨[], (List.append_nil _).symm, rfl⟩

theorem Tells.trans (h : Tells p s s') (h' : Tells p s' s'') : Tells p s s'' := by
  obtain ⟨new, hnew, hconnects⟩ := h
  obtain ⟨new', hnew', hconnects'⟩ := h'
  refine ⟨new ++ new', ?_, ?_⟩
  · rw [hnew', hnew, List.append_assoc]
  · rw [changesOf, List.filter_append]
    exact hconnects.append hconnects'

private theorem tells_updateStatus (s : FailureDetector ι τ) (p q : ι) (new : NodeStatus) :
    Tells p s (s.updateStatus q new) := by
  by_cases hnew : new = s.getStatus q
  · have hsame : s.updateStatus q new = s := by rw [updateStatus, if_neg (not_not.2 hnew)]
    rw [hsame]
    exact .refl
  · refine ⟨[⟨q, s.getStatus q, new⟩], ?_, ?_⟩
    · rw [updateStatus, if_pos hnew]
    · rw [getStatus_updateStatus]
      by_cases hp : p = q
      · subst hp
        simp [changesOf, Connects, hnew]
      · have hq : ¬ q = p := fun heq => hp heq.symm
        simp [changesOf, Connects, hp, hq]

end

/-! ### The monitor -/

variable [LT τ] [DecidableLT τ]

/-- The status for the time that has gone by. -/
def judge (suspectTimeout deadTimeout elapsed : τ) : NodeStatus :=
  if deadTimeout < elapsed then .dead else if suspectTimeout < elapsed then .suspected else .alive

private theorem judge_ne_unknown (suspectTimeout deadTimeout elapsed : τ) :
    judge suspectTimeout deadTimeout elapsed ≠ .unknown := by
  unfold judge
  split
  · simp
  · split <;> simp

variable [Sub τ]

/-- The body of the loop over `_last_heartbeat.items()`. -/
def checkPeer (now : τ) (s : FailureDetector ι τ) (e : ι × τ) : FailureDetector ι τ :=
  s.updateStatus e.1 (judge s.suspectTimeout s.deadTimeout (now - e.2))

/-- One pass of `_monitor_loop`. -/
def monitorPass (s : FailureDetector ι τ) (now : τ) : FailureDetector ι τ :=
  s.lastHeartbeat.entries.foldl (checkPeer now) s

def act (s : FailureDetector ι τ) : Action ι τ → FailureDetector ι τ
  | .register p now => s.registerPeer p now
  | .heartbeat p now => s.recordHeartbeat p now
  | .pass now => s.monitorPass now

/-- The detector after a history. -/
def after (s : FailureDetector ι τ) (h : List (Action ι τ)) : FailureDetector ι τ := h.foldl act s

section

variable (s : FailureDetector ι τ) (now : τ)

private theorem getStatus_checkPeer (e : ι × τ) (p : ι) :
    (checkPeer now s e).getStatus p =
      if p = e.1 then judge s.suspectTimeout s.deadTimeout (now - e.2) else s.getStatus p :=
  getStatus_updateStatus s p e.1 _

/-- A pass changes neither the times nor the timeouts. -/
private theorem foldl_checkPeer (es : List (ι × τ)) :
    (es.foldl (checkPeer now) s).lastHeartbeat = s.lastHeartbeat ∧
      (es.foldl (checkPeer now) s).suspectTimeout = s.suspectTimeout ∧
      (es.foldl (checkPeer now) s).deadTimeout = s.deadTimeout := by
  induction es generalizing s with
  | nil => exact ⟨rfl, rfl, rfl⟩
  | cons e es ih =>
    simpa [checkPeer] using ih (checkPeer now s e)

@[simp] theorem monitorPass_lastHeartbeat : (s.monitorPass now).lastHeartbeat = s.lastHeartbeat :=
  (foldl_checkPeer s now _).1

@[simp] theorem monitorPass_suspectTimeout : (s.monitorPass now).suspectTimeout = s.suspectTimeout :=
  (foldl_checkPeer s now _).2.1

@[simp] theorem monitorPass_deadTimeout : (s.monitorPass now).deadTimeout = s.deadTimeout :=
  (foldl_checkPeer s now _).2.2

/-- Each peer is judged once, by its own time. -/
private theorem getStatus_foldl {es : List (ι × τ)} (hes : (es.map Prod.fst).Nodup) (p : ι) :
    (es.foldl (checkPeer now) s).getStatus p =
      match es.find? fun e => e.1 = p with
      | some e => judge s.suspectTimeout s.deadTimeout (now - e.2)
      | none => s.getStatus p := by
  induction es generalizing s with
  | nil => rfl
  | cons e es ih =>
    rw [List.map_cons, List.nodup_cons] at hes
    have hsuspect : (checkPeer now s e).suspectTimeout = s.suspectTimeout := updateStatus_suspectTimeout s _ _
    have hdead : (checkPeer now s e).deadTimeout = s.deadTimeout := updateStatus_deadTimeout s _ _
    rw [List.foldl_cons, ih (checkPeer now s e) hes.2, hsuspect, hdead, getStatus_checkPeer]
    by_cases hp : e.1 = p
    · have hnone : es.find? (fun e => e.1 = p) = none := by
        rw [List.find?_eq_none]
        intro e' he' hkey
        have hkey : e'.1 = e.1 := (of_decide_eq_true hkey).trans hp.symm
        exact hes.1 (hkey ▸ List.mem_map_of_mem he')
      simp [hnone, hp]
    · rw [List.find?_cons_of_neg (by simpa using hp), if_neg (fun h => hp h.symm)]

theorem getStatus_monitorPass (p : ι) :
    (s.monitorPass now).getStatus p =
      match s.lastHeartbeat.get? p with
      | some c => judge s.suspectTimeout s.deadTimeout (now - c)
      | none => s.getStatus p := by
  rw [monitorPass, getStatus_foldl s now s.lastHeartbeat.nodup, Dict.get?]
  cases s.lastHeartbeat.entries.find? fun e => e.1 = p <;> rfl

end

/-! ### The statuses are a function of the history -/

/-- The history as a detector by timeout sees it. -/
def Action.event : Action ι τ → Timeout.Event ι τ
  | register p now | heartbeat p now => .contact p now
  | pass now => .check now

/-- The status that a peer ought to have: it is judged by the last pass since it was last heard of. -/
def statusOf (suspectTimeout deadTimeout : τ) (h : List (Action ι τ)) (p : ι) : NodeStatus :=
  match Timeout.measured p (h.map Action.event) with
  | none => .unknown
  | some (_, none) => .alive
  | some (c, some t) => judge suspectTimeout deadTimeout (t - c)

private theorem keys_foldl {s : FailureDetector ι τ} {now : τ} {es : List (ι × τ)}
    (hes : ∀ e ∈ es, e.1 ∈ s.nodeStatus.keys) : (es.foldl (checkPeer now) s).nodeStatus.keys = s.nodeStatus.keys := by
  induction es generalizing s with
  | nil => rfl
  | cons e es ih =>
    have hkeys : (checkPeer now s e).nodeStatus.keys = s.nodeStatus.keys := by
      rw [checkPeer, keys_updateStatus s e.1 (judge_ne_unknown _ _ _), if_pos (hes e List.mem_cons_self)]
    rw [List.foldl_cons, ih fun e' he' => by rw [hkeys]; exact hes e' (List.mem_cons_of_mem _ he'), hkeys]

/-! ### The invariant of a run -/

/-- A new detector. -/
def start (suspectTimeout deadTimeout : τ) : FailureDetector ι τ where
  suspectTimeout := suspectTimeout
  deadTimeout := deadTimeout

/-- What a history leaves behind. -/
structure Follows (suspectTimeout deadTimeout : τ) (h : List (Action ι τ)) (s : FailureDetector ι τ) : Prop where
  suspect : s.suspectTimeout = suspectTimeout
  dead : s.deadTimeout = deadTimeout
  times : ∀ p, s.lastHeartbeat.get? p = (Timeout.measured p (h.map Action.event)).map Prod.fst
  statuses : ∀ p, s.getStatus p = statusOf suspectTimeout deadTimeout h p
  heard : s.lastHeartbeat.keys = heardOf h
  listed : s.nodeStatus.keys = heardOf h

variable {suspectTimeout deadTimeout : τ} {h : List (Action ι τ)} {s : FailureDetector ι τ}

theorem Follows.start :
    Follows suspectTimeout deadTimeout [] (start suspectTimeout deadTimeout : FailureDetector ι τ) where
  suspect := rfl
  dead := rfl
  times _ := rfl
  statuses _ := rfl
  heard := rfl
  listed := rfl

/-- Hearing of a node, by its registration or by a heartbeat. -/
private theorem Follows.contact {a : Action ι τ} {q : ι} {now : τ} {s' : FailureDetector ι τ}
    (hs : Follows suspectTimeout deadTimeout h s) (hevent : a.event = .contact q now) (hnode : a.nodeId? = some q)
    (hsuspect : s'.suspectTimeout = s.suspectTimeout) (hdead : s'.deadTimeout = s.deadTimeout)
    (htimes : s'.lastHeartbeat = s.lastHeartbeat.set q now)
    (hstatus : ∀ p, s'.getStatus p = if p = q then .alive else s.getStatus p)
    (hkeys : s'.nodeStatus.keys = if q ∈ s.nodeStatus.keys then s.nodeStatus.keys else s.nodeStatus.keys ++ [q]) :
    Follows suspectTimeout deadTimeout (h ++ [a]) s' where
  suspect := hsuspect.trans hs.suspect
  dead := hdead.trans hs.dead
  times p := by
    rw [htimes, Dict.get?_set, List.map_append, List.map_singleton, hevent, Timeout.measured_concat_contact]
    by_cases hp : p = q
    · rw [if_pos hp, if_pos hp.symm]
      rfl
    · rw [if_neg hp, if_neg (fun heq => hp heq.symm), hs.times]
  statuses p := by
    rw [hstatus, statusOf, List.map_append, List.map_singleton, hevent, Timeout.measured_concat_contact]
    by_cases hp : p = q
    · rw [if_pos hp, if_pos hp.symm]
    · rw [if_neg hp, if_neg (fun heq => hp heq.symm), hs.statuses]
      rfl
  heard := by rw [htimes, Dict.keys_set, hs.heard, heardOf_concat, hnode]
  listed := by rw [hkeys, hs.listed, heardOf_concat, hnode]

theorem Follows.act (hs : Follows suspectTimeout deadTimeout h s) (a : Action ι τ) :
    Follows suspectTimeout deadTimeout (h ++ [a]) (s.act a) := by
  cases a with
  | register q now =>
    exact hs.contact rfl rfl rfl rfl rfl (fun p => getStatus_registerPeer s p q now)
      (Dict.keys_set s.nodeStatus q .alive)
  | heartbeat q now =>
    refine hs.contact rfl rfl ?_ ?_ ?_ (fun p => getStatus_recordHeartbeat s p q now) ?_
    · exact updateStatus_suspectTimeout _ q .alive
    · exact updateStatus_deadTimeout _ q .alive
    · exact updateStatus_lastHeartbeat _ q .alive
    · exact keys_updateStatus _ q (by simp)
  | pass now =>
    have hlisted : ∀ e ∈ s.lastHeartbeat.entries, e.1 ∈ s.nodeStatus.keys := by
      intro e he
      rw [hs.listed, ← hs.heard]
      exact List.mem_map_of_mem he
    show Follows _ _ _ (s.monitorPass now)
    exact {
      suspect := (monitorPass_suspectTimeout s now).trans hs.suspect
      dead := (monitorPass_deadTimeout s now).trans hs.dead
      times := fun p => by
        rw [monitorPass_lastHeartbeat, hs.times, List.map_append, List.map_singleton]
        show _ = (Timeout.measured p (h.map Action.event ++ [.check now])).map Prod.fst
        rw [Timeout.measured_concat_check, Option.map_map]
        rfl
      statuses := fun p => by
        rw [getStatus_monitorPass, hs.times, hs.statuses, hs.suspect, hs.dead, statusOf, statusOf, List.map_append,
          List.map_singleton]
        show _ = match Timeout.measured p (h.map Action.event ++ [.check now]) with
          | none => NodeStatus.unknown
          | some (_, none) => .alive
          | some (c, some t) => judge suspectTimeout deadTimeout (t - c)
        rw [Timeout.measured_concat_check]
        cases Timeout.measured p (h.map Action.event) <;> rfl
      heard := by rw [monitorPass_lastHeartbeat, hs.heard, heardOf_concat]; rfl
      listed := by rw [monitorPass, keys_foldl hlisted, hs.listed, heardOf_concat]; rfl }

private theorem follows_after (suspectTimeout deadTimeout : τ) (h : List (Action ι τ)) :
    Follows suspectTimeout deadTimeout h ((start suspectTimeout deadTimeout).after h) := by
  induction h using List.reverseRecOn with
  | nil => exact .start
  | append_singleton h a ih =>
    rw [after, List.foldl_append]
    exact ih.act a

/-- The detector lists the nodes it has heard of in the order of their first contact, each with the status that the
last pass since its last contact gives it, and it takes those nodes for alive. -/
theorem statuses_of_history (suspectTimeout deadTimeout : τ) (h : List (Action ι τ)) :
    ((start suspectTimeout deadTimeout).after h).getAllStatuses.entries =
        (heardOf h).map (fun p => (p, (statusOf suspectTimeout deadTimeout h p).value)) ∧
      ((start suspectTimeout deadTimeout).after h).getAliveNodes =
        (heardOf h).filter (fun p => statusOf suspectTimeout deadTimeout h p = .alive) ∧
      ∀ p, ((start suspectTimeout deadTimeout).after h).getStatus p = statusOf suspectTimeout deadTimeout h p := by
  have hs := follows_after suspectTimeout deadTimeout h
  have hentries : ((start suspectTimeout deadTimeout).after h).nodeStatus.entries =
      (heardOf h).map fun p => (p, statusOf suspectTimeout deadTimeout h p) := by
    rw [← hs.listed]
    refine Dict.entries_eq_map fun p hp => ?_
    obtain ⟨status, hstatus⟩ := Dict.mem_keys.1 hp
    have hget : ((start suspectTimeout deadTimeout).after h).getStatus p = status := by
      rw [getStatus, hstatus, Option.getD_some]
    rw [hstatus, ← hs.statuses, hget]
  refine ⟨?_, ?_, hs.statuses⟩
  · rw [getAllStatuses, Dict.entries_mapValues, hentries, List.map_map]
    rfl
  · rw [getAliveNodes, hentries, List.filter_map, List.map_map]
    exact List.map_id _

/-! ### The callbacks -/

private theorem tells_act {p : ι} {a : Action ι τ} (ha : ∀ now, a ≠ .register p now) (s : FailureDetector ι τ) :
    Tells p s (s.act a) := by
  cases a with
  | register q now =>
    have hp : ¬ p = q := fun heq => ha now (by rw [heq])
    refine ⟨[], (List.append_nil _).symm, ?_⟩
    show s.getStatus p = (s.registerPeer q now).getStatus p
    rw [getStatus_registerPeer, if_neg hp]
  | heartbeat q now => exact tells_updateStatus _ p q .alive
  | pass now =>
    have hfold : ∀ (es : List (ι × τ)) (t : FailureDetector ι τ), Tells p t (es.foldl (checkPeer now) t) := by
      intro es
      induction es with
      | nil => exact fun t => .refl
      | cons e es ih => exact fun t => (tells_updateStatus t p e.1 _).trans (ih _)
    exact hfold _ s

/-- As long as a peer is not registered anew, what the callbacks are told of it leads from its status before to its
status after without a gap, whatever happens in between. -/
theorem changes_connect (s : FailureDetector ι τ) (p : ι) (h : List (Action ι τ))
    (hregister : ∀ now, .register p now ∉ h) :
    ∃ new, (s.after h).notified = s.notified ++ new ∧
      Connects (s.getStatus p) ((s.after h).getStatus p) (changesOf p new) := by
  show Tells p s (s.after h)
  induction h using List.reverseRecOn with
  | nil => exact .refl
  | append_singleton h a ih =>
    have hbefore : Tells p s (s.after h) := ih fun now hmem => hregister now (List.mem_append_left _ hmem)
    have ha : ∀ now, a ≠ .register p now := by
      rintro now rfl
      exact hregister now (List.mem_append_right _ (List.mem_singleton_self _))
    rw [after, List.foldl_append]
    exact hbefore.trans (tells_act ha _)

/-- A peer that fails, is noticed and comes back. -/
theorem changes_connect_recovery :
    ∃ new, (((start 3 10 : FailureDetector Nat Int).registerPeer 7 0).after
        [.pass 4, .heartbeat 7 5, .pass 6, .pass 20]).notified = [] ++ new ∧
      Connects .alive .dead (changesOf 7 new) :=
  changes_connect ((start 3 10 : FailureDetector Nat Int).registerPeer 7 0) 7
    [.pass 4, .heartbeat 7 5, .pass 6, .pass 20] (by simp)

end

/-! ### How well the detector detects -/

variable {ι τ : Type} [LinearOrder τ]

theorem judge_eq_dead {suspectTimeout deadTimeout elapsed : τ} :
    judge suspectTimeout deadTimeout elapsed = .dead ↔ deadTimeout < elapsed := by
  unfold judge
  split
  · rename_i hdead
    simp [hdead]
  · rename_i hdead
    split <;> simp [hdead]

theorem judge_eq_alive {suspectTimeout deadTimeout elapsed : τ} (hle : suspectTimeout ≤ deadTimeout) :
    judge suspectTimeout deadTimeout elapsed = .alive ↔ ¬ suspectTimeout < elapsed := by
  unfold judge
  split
  · rename_i hdead
    simp [lt_of_le_of_lt hle hdead]
  · split
    · rename_i hsuspect
      simp [hsuspect]
    · rename_i hsuspect
      simp [hsuspect]

variable [DecidableEq ι] [AddCommGroup τ]

/-- The status in terms of what the last pass has measured. -/
theorem statusOf_iff {suspectTimeout deadTimeout : τ} {h : List (Action ι τ)} {p : ι} {m : τ × Option τ}
    (hm : Timeout.measured p (h.map Action.event) = some m) (hle : suspectTimeout ≤ deadTimeout) :
    (statusOf suspectTimeout deadTimeout h p = .dead ↔ Timeout.Exceeds deadTimeout m) ∧
      (statusOf suspectTimeout deadTimeout h p ≠ .alive ↔ Timeout.Exceeds suspectTimeout m) := by
  obtain ⟨c, check?⟩ := m
  rw [statusOf, hm]
  cases check? with
  | none => simp [Timeout.Exceeds]
  | some t =>
    have hexceeds : ∀ limit : τ, Timeout.Exceeds limit (c, some t) ↔ limit < t - c := by
      intro limit
      constructor
      · rintro ⟨t', ht, hlt⟩
        cases ht
        exact hlt
      · intro hlt
        exact ⟨t, rfl, hlt⟩
    rw [hexceeds, hexceeds]
    refine ⟨judge_eq_dead, ?_⟩
    show judge suspectTimeout deadTimeout (t - c) ≠ .alive ↔ suspectTimeout < t - c
    rw [ne_eq, judge_eq_alive hle, not_not]

variable [IsOrderedAddMonoid τ]

/-- With a clock that does not go back and a last pass that is at most `d` old, a peer that has been silent for longer
than a timeout and `d` is reported, and a peer is reported only if it has been silent for longer than the timeout:
as dead for `deadTimeout`, and as not alive for `suspectTimeout`. -/
theorem detection_bounds {suspectTimeout deadTimeout d now lastPass c : τ} {h : List (Action ι τ)} {p : ι}
    (hsuspect : 0 ≤ suspectTimeout) (hle : suspectTimeout ≤ deadTimeout)
    (horder : Timeout.InOrder (h.map Action.event)) (hnow : ∀ e ∈ h.map Action.event, e.time ≤ now)
    (hpass : .pass lastPass ∈ h) (hrecent : now ≤ lastPass + d)
    (hcontact : Timeout.lastContact p (h.map Action.event) = some c) :
    (deadTimeout + d < now - c → ((start suspectTimeout deadTimeout).after h).getStatus p = .dead) ∧
      (((start suspectTimeout deadTimeout).after h).getStatus p = .dead → deadTimeout < now - c) ∧
      (suspectTimeout + d < now - c → ((start suspectTimeout deadTimeout).after h).getStatus p ≠ .alive) ∧
      (((start suspectTimeout deadTimeout).after h).getStatus p ≠ .alive → suspectTimeout < now - c) := by
  have hm : Timeout.measured p (h.map Action.event) =
      some (c, Timeout.lastCheck (Timeout.since p (h.map Action.event))) := by
    rw [Timeout.measured, hcontact, Option.map_some]
  have hcheck : Timeout.Event.check lastPass ∈ h.map Action.event := List.mem_map_of_mem hpass
  obtain ⟨hdead, halive⟩ := statusOf_iff hm hle
  rw [(follows_after suspectTimeout deadTimeout h).statuses p, hdead, halive]
  refine ⟨fun hsilent => ?_, fun hexceeds => ?_, fun hsilent => ?_, fun hexceeds => ?_⟩
  · exact Timeout.exceeds_of_silent horder hm (hsuspect.trans hle) hcheck hrecent hsilent
  · exact Timeout.silent_of_exceeds hm hnow hexceeds
  · exact Timeout.exceeds_of_silent horder hm hsuspect hcheck hrecent hsilent
  · exact Timeout.silent_of_exceeds hm hnow hexceeds

/-- A peer last heard of at time 5 by a detector that has made its last pass at time 16. -/
theorem detection_bounds_silent :
    ((start 3 10 : FailureDetector Nat Int).after
      [.register 7 0, .pass 4, .heartbeat 7 5, .pass 10, .pass 16]).getStatus 7 = .dead :=
  (detection_bounds (by decide) (by decide) (by decide)
    (by decide : ∀ e ∈ List.map Action.event _, e.time ≤ (17 : Int)) (List.mem_of_getLast? rfl)
    (by decide : (17 : Int) ≤ 16 + 1) rfl).1 (by decide)

end FailureDetector

end DistributedSync
