import Mathlib.Algebra.Order.Group.Defs
import Mathlib.Data.Fintype.Basic
import DistributedSync.Communication.FailureDetector
import DistributedSync.Library.Transition

/-!
# Heartbeats

The failure detectors of a cluster, with `_heartbeat_loop` of `main.py` and what `_handle_rpc` does with a heartbeat.  A
node sends heartbeats to its peers; the receiver of one records its sender and answers, and the sender records the
receiver when it gets the answer.  Nodes may crash and do not come back.  The nodes send nothing else: of other RPCs
only the receiver records the sender, and their answers are not recorded.

Time is that of one clock.  A run is timely (`Timely`) if no time goes by while a heartbeat or an answer has been on its
way for `delay`, or a node has sent neither to one of its peers for `period`.  In the timely runs the detectors are
perfect (`perfect_in_timely_runs`): a running node is always reported alive, and a crashed one is reported dead by every
pass that comes more than `delay` and the timeout after the crash.
-/

namespace DistributedSync

namespace Heartbeat

/-- The timeouts of the detectors, and the bounds that a timely run keeps. -/
structure Timing (τ : Type) [AddCommGroup τ] [LinearOrder τ] where
  suspectTimeout : τ
  deadTimeout : τ
  delay : τ
  period : τ
  delay_pos : 0 < delay
  period_nonneg : 0 ≤ period
  heard_in_time : period + delay ≤ suspectTimeout
  suspect_le_dead : suspectTimeout ≤ deadTimeout

/-- A heartbeat, or the answer to one. -/
structure Packet (ι τ : Type) where
  sender : ι
  receiver : ι
  sentAt : τ
  answer : Bool

/-- `handled` and `lastPass` record what has happened. -/
structure State (ι τ : Type) where
  now : τ
  detector : ι → FailureDetector ι τ
  crashedAt : ι → Option τ := fun _ => none
  network : List (Packet ι τ) := []
  handled : List Nat := []
  lastPass : ι → Option τ := fun _ => none

inductive Action (ι τ : Type) where
  | wait (t : τ)
  | send (a b : ι)
  | handle (i : Nat)
  | pass (a : ι)
  | crash (a : ι)

variable {ι τ : Type} [DecidableEq ι]

namespace State

/-- The sender is recorded, and a heartbeat is answered. -/
def receive (s : State ι τ) (i : Nat) (m : Packet ι τ) : State ι τ :=
  { s with
    detector := Function.update s.detector m.receiver ((s.detector m.receiver).recordHeartbeat m.sender s.now)
    network := if m.answer then s.network else s.network ++ [⟨m.receiver, m.sender, s.now, true⟩]
    handled := i :: s.handled }

def crash (s : State ι τ) (a : ι) : State ι τ :=
  { s with crashedAt := Function.update s.crashedAt a (some s.now) }

end State

/-! ### Messages and crashes -/

section

variable (s : State ι τ) (i : Nat) (m : Packet ι τ) (a p : ι)

private theorem detector_receive_self : (s.receive i m).detector m.receiver =
    (s.detector m.receiver).recordHeartbeat m.sender s.now := Function.update_self _ _ _

variable {a} in
private theorem detector_receive_of_ne (ha : a ≠ m.receiver) : (s.receive i m).detector a = s.detector a :=
  Function.update_of_ne ha _ _

private theorem lastHeartbeat_receive : ((s.receive i m).detector a).lastHeartbeat.get? p =
    if a = m.receiver ∧ p = m.sender then some s.now else (s.detector a).lastHeartbeat.get? p := by
  by_cases ha : a = m.receiver
  · subst ha
    rw [detector_receive_self, FailureDetector.recordHeartbeat,
      FailureDetector.updateStatus_lastHeartbeat, Dict.get?_set]
    simp
  · rw [detector_receive_of_ne s i m ha, if_neg fun hboth => ha hboth.1]

private theorem getStatus_receive : ((s.receive i m).detector a).getStatus p =
    if a = m.receiver ∧ p = m.sender then .alive else (s.detector a).getStatus p := by
  by_cases ha : a = m.receiver
  · subst ha
    rw [detector_receive_self, FailureDetector.getStatus_recordHeartbeat]
    simp
  · rw [detector_receive_of_ne s i m ha, if_neg fun hboth => ha hboth.1]

private theorem timeouts_receive : ((s.receive i m).detector a).suspectTimeout = (s.detector a).suspectTimeout ∧
    ((s.receive i m).detector a).deadTimeout = (s.detector a).deadTimeout := by
  by_cases ha : a = m.receiver
  · subst ha
    rw [detector_receive_self]
    exact ⟨FailureDetector.updateStatus_suspectTimeout _ _ _, FailureDetector.updateStatus_deadTimeout _ _ _⟩
  · rw [detector_receive_of_ne s i m ha]
    exact ⟨rfl, rfl⟩

variable {s}

/-- Who is running after a crash was running before. -/
theorem running_of_crash {a p : ι} (h : (s.crash a).crashedAt p = none) :
    p ≠ a ∧ s.crashedAt p = none := by
  by_cases hp : p = a
  · subst hp
    have hself : (s.crash p).crashedAt p = some s.now := Function.update_self _ _ _
    rw [hself] at h
    cases h
  · have hother : (s.crash a).crashedAt p = s.crashedAt p := Function.update_of_ne hp _ _
    exact ⟨hp, hother.symm.trans h⟩

private theorem crashedAt_crash {a p : ι} {d : τ} (h : (s.crash a).crashedAt p = some d) :
    d = s.now ∨ s.crashedAt p = some d := by
  by_cases hp : p = a
  · subst hp
    have hself : (s.crash p).crashedAt p = some s.now := Function.update_self _ _ _
    rw [hself, Option.some.injEq] at h
    exact Or.inl h.symm
  · have hother : (s.crash a).crashedAt p = s.crashedAt p := Function.update_of_ne hp _ _
    exact Or.inr (hother.symm.trans h)

end

/-! ### Runs -/

variable [AddCommGroup τ] [LinearOrder τ]

/-- The detector of a node that has registered its peers. -/
def registered (T : Timing τ) (t₀ : τ) (peers : List ι) : FailureDetector ι τ :=
  peers.foldl (fun s p => s.registerPeer p t₀) (FailureDetector.start T.suspectTimeout T.deadTimeout)

def init (T : Timing τ) (peers : ι → List ι) (t₀ : τ) : State ι τ where
  now := t₀
  detector a := registered T t₀ (peers a)

namespace State

def pass (s : State ι τ) (a : ι) : State ι τ :=
  { s with
    detector := Function.update s.detector a ((s.detector a).monitorPass s.now)
    lastPass := Function.update s.lastPass a (some s.now) }

end State

/-- A message is handled once, and a crashed node does nothing. -/
def step (s : State ι τ) : Action ι τ → Option (State ι τ)
  | .wait t => if s.now ≤ t then some { s with now := t } else none
  | .send a b =>
    if s.crashedAt a = none then some { s with network := s.network ++ [⟨a, b, s.now, false⟩] } else none
  | .handle i =>
    match s.network[i]? with
    | none => none
    | some m => if i ∉ s.handled ∧ s.crashedAt m.receiver = none then some (s.receive i m) else none
  | .pass a => if s.crashedAt a = none then some (s.pass a) else none
  | .crash a => if s.crashedAt a = none then some (s.crash a) else none

/-- Time goes on to `t` only if until then nothing is on its way for `delay` and every running node has sent a heartbeat
or an answer to each of its peers in the last `period`. -/
def Timely (T : Timing τ) (peers : ι → List ι) (t₀ : τ) (s : State ι τ) : Action ι τ → Prop
  | .wait t =>
    (∀ e ∈ s.network.zipIdx, e.2 ∉ s.handled → s.crashedAt e.1.receiver = none → t < e.1.sentAt + T.delay) ∧
      ∀ p, s.crashedAt p = none → ∀ q ∈ peers p, t ≤ t₀ + T.period ∨
        ∃ m ∈ s.network, m.sender = p ∧ m.receiver = q ∧ t ≤ m.sentAt + T.period
  | _ => True

instance [Fintype ι] (T : Timing τ) (peers : ι → List ι) (t₀ : τ) (s : State ι τ) (act : Action ι τ) :
    Decidable (Timely T peers t₀ s act) :=
  match act with
  | .wait _ => inferInstanceAs (Decidable (_ ∧ _))
  | .send _ _ | .handle _ | .pass _ | .crash _ => inferInstanceAs (Decidable True)

/-- The states of the timely runs. -/
abbrev Reach (T : Timing τ) (peers : ι → List ι) (t₀ : τ) : State ι τ → Prop :=
  Transition.ReachWhile (fun s a s' => step s a = some s') (Timely T peers t₀) (init T peers t₀)

/-- What the timely runs keep. -/
structure Invariant (T : Timing τ) (peers : ι → List ι) (t₀ : τ) (s : State ι τ) : Prop where
  started : t₀ ≤ s.now
  sent : ∀ m ∈ s.network, m.sentAt ≤ s.now
  onTheWay : ∀ i m, s.network[i]? = some m → i ∉ s.handled → s.crashedAt m.receiver = none →
    s.now < m.sentAt + T.delay
  -- at every moment so far, a running node had sent to its peers in the last period
  beats : ∀ p, s.crashedAt p = none → ∀ q ∈ peers p, ∀ t, t₀ + T.period < t → t ≤ s.now →
    ∃ m ∈ s.network, m.sender = p ∧ m.receiver = q ∧ m.sentAt ≤ t ∧ t ≤ m.sentAt + T.period
  silent : ∀ p d, s.crashedAt p = some d → t₀ ≤ d ∧ d ≤ s.now ∧ ∀ m ∈ s.network, m.sender = p → m.sentAt ≤ d
  suspect : ∀ a, (s.detector a).suspectTimeout = T.suspectTimeout
  dead : ∀ a, (s.detector a).deadTimeout = T.deadTimeout
  peer : ∀ a, ∀ p ∈ peers a, ∃ c, (s.detector a).lastHeartbeat.get? p = some c
  contact : ∀ a p c, (s.detector a).lastHeartbeat.get? p = some c → t₀ ≤ c ∧ c ≤ s.now
  handled : ∀ i ∈ s.handled, i < s.network.length
  heard : ∀ i m, s.network[i]? = some m → i ∈ s.handled →
    ∃ c, (s.detector m.receiver).lastHeartbeat.get? m.sender = some c ∧ m.sentAt ≤ c
  late : ∀ a p c d, (s.detector a).lastHeartbeat.get? p = some c → s.crashedAt p = some d → c ≤ d + T.delay
  passed : ∀ a u, s.lastPass a = some u → u ≤ s.now
  judged : ∀ a p c u, (s.detector a).lastHeartbeat.get? p = some c → s.lastPass a = some u → c < u →
    (s.detector a).getStatus p = FailureDetector.judge T.suspectTimeout T.deadTimeout (u - c)
  alive : ∀ a p, p ∈ peers a → a ∈ peers p → s.crashedAt p = none → (s.detector a).getStatus p = .alive

variable {T : Timing τ} {peers : ι → List ι} {t₀ : τ} {s s' : State ι τ} {act : Action ι τ}

/-! ### The beginning -/

private theorem registered_concat (l : List ι) (p : ι) :
    registered T t₀ (l ++ [p]) = (registered T t₀ l).registerPeer p t₀ := by
  rw [registered, List.foldl_append, List.foldl_cons, List.foldl_nil, registered]

private theorem registered_timeouts (l : List ι) : (registered T t₀ l).suspectTimeout = T.suspectTimeout ∧
    (registered T t₀ l).deadTimeout = T.deadTimeout := by
  induction l using List.reverseRecOn with
  | nil => exact ⟨rfl, rfl⟩
  | append_singleton l p ih =>
    rw [registered_concat]
    exact ih

/-- The peers, and no others, are recorded, and they are alive. -/
theorem registered_peer (l : List ι) (p : ι) :
    (registered T t₀ l).lastHeartbeat.get? p = (if p ∈ l then some t₀ else none) ∧
      (p ∈ l → (registered T t₀ l).getStatus p = .alive) := by
  induction l using List.reverseRecOn with
  | nil => exact ⟨rfl, fun hp => absurd hp List.not_mem_nil⟩
  | append_singleton l q ih =>
    rw [registered_concat, FailureDetector.getStatus_registerPeer, FailureDetector.registerPeer, Dict.get?_set]
    by_cases hp : p = q
    · simp [hp]
    · simp only [hp, if_false, List.mem_append, List.mem_singleton, or_false]
      exact ih

/-! ### What needs no sums of times -/

theorem Invariant.wait (h : Invariant T peers t₀ s) {t : τ} (ht : s.now ≤ t) (htimely : Timely T peers t₀ s (.wait t)) :
    Invariant T peers t₀ { s with now := t } :=
  { h with
    started := h.started.trans ht
    sent := fun m hm => (h.sent m hm).trans ht
    onTheWay := fun i m hm => htimely.1 (m, i) (List.mem_zipIdx_iff_getElem?.2 hm)
    beats := by
      intro p hp q hq t' ht' hle
      rcases le_or_gt t' s.now with hold | hnew
      · exact h.beats p hp q hq t' ht' hold
      · rcases htimely.2 p hp q hq with hearly | ⟨m, hm, hsender, hreceiver, hrecent⟩
        · exact absurd (hle.trans hearly) (not_le.2 ht')
        · exact ⟨m, hm, hsender, hreceiver, (h.sent m hm).trans hnew.le, hle.trans hrecent⟩
    silent := by
      intro p d hd
      obtain ⟨hstart, hnow, hsent⟩ := h.silent p d hd
      exact ⟨hstart, hnow.trans ht, hsent⟩
    contact := fun a p c hc => ⟨(h.contact a p c hc).1, (h.contact a p c hc).2.trans ht⟩
    passed := fun a u hu => (h.passed a u hu).trans ht }

section

variable (s : State ι τ) (a b : ι)

private theorem lastHeartbeat_pass : ((s.pass a).detector b).lastHeartbeat = (s.detector b).lastHeartbeat := by
  by_cases hb : b = a
  · subst hb
    exact (congrArg _ (Function.update_self _ _ _)).trans (FailureDetector.monitorPass_lastHeartbeat _ _)
  · exact congrArg _ (Function.update_of_ne hb _ _)

private theorem timeouts_pass : ((s.pass a).detector b).suspectTimeout = (s.detector b).suspectTimeout ∧
    ((s.pass a).detector b).deadTimeout = (s.detector b).deadTimeout := by
  by_cases hb : b = a
  · subst hb
    exact ⟨(congrArg _ (Function.update_self _ _ _)).trans (FailureDetector.monitorPass_suspectTimeout _ _),
      (congrArg _ (Function.update_self _ _ _)).trans (FailureDetector.monitorPass_deadTimeout _ _)⟩
  · exact ⟨congrArg _ (Function.update_of_ne hb _ _), congrArg _ (Function.update_of_ne hb _ _)⟩

end

/-- The pass judges every peer that the node has heard of. -/
theorem Invariant.getStatus_pass (h : Invariant T peers t₀ s) {a p : ι} {c : τ}
    (hc : (s.detector a).lastHeartbeat.get? p = some c) : ((s.pass a).detector a).getStatus p =
      FailureDetector.judge T.suspectTimeout T.deadTimeout (s.now - c) := by
  have hself : (s.pass a).detector a = (s.detector a).monitorPass s.now := Function.update_self _ _ _
  rw [hself, FailureDetector.getStatus_monitorPass, hc, h.suspect, h.dead]

variable [IsOrderedAddMonoid τ]

theorem Invariant.init : Invariant T peers t₀ (init T peers t₀) where
  started := le_rfl
  sent m hm := by cases hm
  onTheWay i m hm := by cases hm
  beats p _ q _ t ht hnow :=
    absurd ((le_add_of_nonneg_right T.period_nonneg).trans_lt ht) (not_lt.2 hnow)
  silent p d hd := by cases hd
  suspect a := (registered_timeouts (peers a)).1
  dead a := (registered_timeouts (peers a)).2
  peer a p hp := ⟨t₀, by rw [Heartbeat.init, (registered_peer (peers a) p).1, if_pos hp]⟩
  contact a p c hc := by
    rw [Heartbeat.init, (registered_peer (peers a) p).1] at hc
    split at hc
    · cases hc
      exact ⟨le_rfl, le_rfl⟩
    · cases hc
  handled i hi := by cases hi
  heard i m hm := by cases hm
  late a p c d _ hd := by cases hd
  passed a u hu := by cases hu
  judged a p c u _ hu := by cases hu
  alive a p hp _ _ := (registered_peer (peers a) p).2 hp

/-! ### One step -/

/-- A running node sends a message. -/
theorem Invariant.send (h : Invariant T peers t₀ s) {x : Packet ι τ} (hnow : x.sentAt = s.now)
    (hsender : s.crashedAt x.sender = none) : Invariant T peers t₀ { s with network := s.network ++ [x] } :=
  { h with
    sent := by
      intro m hm
      rcases List.mem_append.1 hm with hm | hm
      · exact h.sent m hm
      · rw [List.mem_singleton.1 hm]
        exact hnow.le
    onTheWay := by
      intro i m hm hi hup
      rcases Nat.lt_or_ge i s.network.length with hlt | hge
      · rw [List.getElem?_append_left hlt] at hm
        exact h.onTheWay i m hm hi hup
      · rw [List.getElem?_append_right hge] at hm
        rw [List.mem_singleton.1 (List.mem_of_getElem? hm), hnow]
        exact lt_add_of_pos_right s.now T.delay_pos
    beats := by
      intro p hp q hq t ht hle
      obtain ⟨m, hm, hrest⟩ := h.beats p hp q hq t ht hle
      exact ⟨m, List.mem_append_left _ hm, hrest⟩
    silent := by
      intro p d hd
      obtain ⟨hstart, hle, hsent⟩ := h.silent p d hd
      refine ⟨hstart, hle, fun m hm hp => ?_⟩
      rcases List.mem_append.1 hm with hm | hm
      · exact hsent m hm hp
      · rw [List.mem_singleton.1 hm] at hp
        rw [hp, hd] at hsender
        cases hsender
    handled := by
      intro i hi
      rw [List.length_append]
      exact Nat.lt_add_right _ (h.handled i hi)
    heard := by
      intro i m hm hi
      rw [List.getElem?_append_left (h.handled i hi)] at hm
      exact h.heard i m hm hi }

/-- A message arrives at a running node; the answer is left to `Invariant.send`. -/
theorem Invariant.record (h : Invariant T peers t₀ s) {i : Nat} {m : Packet ι τ} (hm : s.network[i]? = some m)
    (hi : i ∉ s.handled) (hup : s.crashedAt m.receiver = none) :
    Invariant T peers t₀ { s.receive i m with network := s.network } :=
  { h with
    onTheWay := fun j x hx hj => h.onTheWay j x hx fun hold => hj (List.mem_cons_of_mem i hold)
    suspect := fun a => (timeouts_receive s i m a).1.trans (h.suspect a)
    dead := fun a => (timeouts_receive s i m a).2.trans (h.dead a)
    peer := by
      intro a p hp
      obtain ⟨c, hc⟩ := h.peer a p hp
      show ∃ c, ((s.receive i m).detector a).lastHeartbeat.get? p = some c
      rw [lastHeartbeat_receive]
      split
      · exact ⟨s.now, rfl⟩
      · exact ⟨c, hc⟩
    contact := by
      intro a p c hc
      replace hc : ((s.receive i m).detector a).lastHeartbeat.get? p = some c := hc
      rw [lastHeartbeat_receive] at hc
      split at hc
      · cases hc
        exact ⟨h.started, le_rfl⟩
      · exact h.contact a p c hc
    handled := by
      intro j hj
      rcases List.mem_cons.1 hj with rfl | hj
      · exact (List.getElem?_eq_some_iff.1 hm).1
      · exact h.handled j hj
    heard := by
      intro j x hx hj
      show ∃ c, ((s.receive i m).detector x.receiver).lastHeartbeat.get? x.sender = some c ∧ x.sentAt ≤ c
      rw [lastHeartbeat_receive]
      split
      · exact ⟨s.now, rfl, h.sent x (List.mem_of_getElem? hx)⟩
      · rename_i hne
        rcases List.mem_cons.1 hj with rfl | hj
        · rw [hm, Option.some.injEq] at hx
          subst hx
          exact absurd ⟨rfl, rfl⟩ hne
        · exact h.heard j x hx hj
    late := by
      intro a p c d hc hd
      replace hc : ((s.receive i m).detector a).lastHeartbeat.get? p = some c := hc
      rw [lastHeartbeat_receive] at hc
      split at hc
      · rename_i hboth
        -- the sender has crashed after it sent the message
        cases hc
        have hsent : m.sentAt ≤ d := (h.silent p d hd).2.2 m (List.mem_of_getElem? hm) hboth.2.symm
        exact (h.onTheWay i m hm hi hup).le.trans (add_le_add_left hsent T.delay)
      · exact h.late a p c d hc hd
    judged := by
      intro a p c u hc hu hlt
      replace hc : ((s.receive i m).detector a).lastHeartbeat.get? p = some c := hc
      show ((s.receive i m).detector a).getStatus p = _
      rw [lastHeartbeat_receive] at hc
      rw [getStatus_receive]
      split at hc
      · cases hc
        exact absurd hlt (not_lt.2 (h.passed a u hu))
      · rename_i hne
        rw [if_neg hne]
        exact h.judged a p c u hc hu hlt
    alive := by
      intro a p hp ha hrunning
      show ((s.receive i m).detector a).getStatus p = .alive
      rw [getStatus_receive]
      split
      · rfl
      · exact h.alive a p hp ha hrunning }

theorem Invariant.receive (h : Invariant T peers t₀ s) {i : Nat} {m : Packet ι τ} (hm : s.network[i]? = some m)
    (hi : i ∉ s.handled) (hup : s.crashedAt m.receiver = none) : Invariant T peers t₀ (s.receive i m) := by
  have hrecord := h.record hm hi hup
  by_cases hanswer : m.answer
  · have hnetwork : s.receive i m = { s.receive i m with network := s.network } := by
      simp [State.receive, hanswer]
    rw [hnetwork]
    exact hrecord
  · have hnetwork : s.receive i m =
        { s.receive i m with network := s.network ++ [⟨m.receiver, m.sender, s.now, true⟩] } := by
      simp [State.receive, hanswer]
    rw [hnetwork]
    exact hrecord.send rfl hup

/-- A running peer has been heard of recently. -/
theorem Invariant.recent (h : Invariant T peers t₀ s) {a p : ι} (ha : a ∈ peers p) (hup : s.crashedAt a = none)
    (hrunning : s.crashedAt p = none) {c : τ} (hc : (s.detector a).lastHeartbeat.get? p = some c) :
    s.now - c ≤ T.suspectTimeout := by
  refine le_trans ?_ T.heard_in_time
  rcases le_or_gt (s.now - T.delay) (t₀ + T.period) with hearly | hlate
  · -- the peer has been registered since then
    have hstart : t₀ ≤ c := (h.contact a p c hc).1
    rw [sub_le_iff_le_add] at hearly ⊢
    calc s.now ≤ t₀ + T.period + T.delay := hearly
      _ ≤ c + T.period + T.delay := by gcongr
      _ = T.period + T.delay + c := by rw [add_assoc, add_comm]
  · obtain ⟨m, hm, rfl, rfl, hold, hrecent⟩ := h.beats p hrunning a ha (s.now - T.delay) hlate
      (sub_le_self s.now T.delay_pos.le)
    obtain ⟨i, hi⟩ := List.getElem?_of_mem hm
    have hhandled : i ∈ s.handled := by
      by_contra hnot
      exact absurd (h.onTheWay i m hi hnot hup) (not_lt.2 (le_sub_iff_add_le.1 hold))
    obtain ⟨c', hc', hle⟩ := h.heard i m hi hhandled
    rw [hc, Option.some.injEq] at hc'
    subst hc'
    rw [sub_le_iff_le_add] at hrecent ⊢
    calc s.now ≤ m.sentAt + T.period + T.delay := hrecent
      _ ≤ c + T.period + T.delay := by gcongr
      _ = T.period + T.delay + c := by rw [add_assoc, add_comm]

theorem Invariant.pass (h : Invariant T peers t₀ s) {a : ι} (hup : s.crashedAt a = none) :
    Invariant T peers t₀ (s.pass a) where
  started := h.started
  sent := h.sent
  onTheWay := h.onTheWay
  beats := h.beats
  silent := h.silent
  suspect b := (timeouts_pass s a b).1.trans (h.suspect b)
  dead b := (timeouts_pass s a b).2.trans (h.dead b)
  peer b p hp := by
    rw [lastHeartbeat_pass]
    exact h.peer b p hp
  contact b p c hc := by
    rw [lastHeartbeat_pass] at hc
    exact h.contact b p c hc
  handled := h.handled
  heard i m hm hi := by
    rw [lastHeartbeat_pass]
    exact h.heard i m hm hi
  late b p c d hc hd := by
    rw [lastHeartbeat_pass] at hc
    exact h.late b p c d hc hd
  passed b u hu := by
    by_cases hb : b = a
    · subst hb
      have hself : (s.pass b).lastPass b = some s.now := Function.update_self _ _ _
      rw [hself, Option.some.injEq] at hu
      exact hu.symm.le
    · have hother : (s.pass a).lastPass b = s.lastPass b := Function.update_of_ne hb _ _
      rw [hother] at hu
      exact h.passed b u hu
  judged b p c u hc hu hlt := by
    rw [lastHeartbeat_pass] at hc
    by_cases hb : b = a
    · subst hb
      have hself : (s.pass b).lastPass b = some s.now := Function.update_self _ _ _
      rw [hself, Option.some.injEq] at hu
      subst hu
      exact h.getStatus_pass hc
    · have hother : (s.pass a).lastPass b = s.lastPass b := Function.update_of_ne hb _ _
      have hdetector : (s.pass a).detector b = s.detector b := Function.update_of_ne hb _ _
      rw [hother] at hu
      rw [hdetector]
      exact h.judged b p c u hc hu hlt
  alive b p hp hb hrunning := by
    by_cases hba : b = a
    · subst hba
      obtain ⟨c, hc⟩ := h.peer b p hp
      rw [h.getStatus_pass hc, FailureDetector.judge_eq_alive T.suspect_le_dead]
      exact not_lt.2 (h.recent hb hup hrunning hc)
    · have hdetector : (s.pass a).detector b = s.detector b := Function.update_of_ne hba _ _
      rw [hdetector]
      exact h.alive b p hp hb hrunning

theorem Invariant.crash (h : Invariant T peers t₀ s) (a : ι) : Invariant T peers t₀ (s.crash a) :=
  { h with
    onTheWay := fun i m hm hi hup => h.onTheWay i m hm hi (running_of_crash hup).2
    beats := fun p hp => h.beats p (running_of_crash hp).2
    silent := by
      intro p d hd
      rcases crashedAt_crash hd with rfl | hd
      · exact ⟨h.started, le_rfl, fun m hm _ => h.sent m hm⟩
      · exact h.silent p d hd
    late := by
      intro b p c d hc hd
      rcases crashedAt_crash hd with rfl | hd
      · exact (h.contact b p c hc).2.trans (le_add_of_nonneg_right T.delay_pos.le)
      · exact h.late b p c d hc hd
    alive := fun b p hp hb hrunning => h.alive b p hp hb (running_of_crash hrunning).2 }

theorem Invariant.step (h : Invariant T peers t₀ s) (htimely : Timely T peers t₀ s act)
    (hstep : step s act = some s') : Invariant T peers t₀ s' := by
  cases act with
  | wait t =>
    rw [Heartbeat.step, Option.ite_none_right_eq_some] at hstep
    obtain ⟨ht, hs'⟩ := hstep
    cases hs'
    exact h.wait ht htimely
  | send a b =>
    rw [Heartbeat.step, Option.ite_none_right_eq_some] at hstep
    obtain ⟨hup, hs'⟩ := hstep
    cases hs'
    exact h.send rfl hup
  | handle i =>
    rw [Heartbeat.step] at hstep
    split at hstep
    · cases hstep
    · rename_i m hm
      rw [Option.ite_none_right_eq_some] at hstep
      obtain ⟨⟨hi, hup⟩, hs'⟩ := hstep
      cases hs'
      exact h.receive hm hi hup
  | pass a =>
    rw [Heartbeat.step, Option.ite_none_right_eq_some] at hstep
    obtain ⟨hup, hs'⟩ := hstep
    cases hs'
    exact h.pass hup
  | crash a =>
    rw [Heartbeat.step, Option.ite_none_right_eq_some] at hstep
    obtain ⟨-, hs'⟩ := hstep
    cases hs'
    exact h.crash a

theorem invariant_of_reach (h : Reach T peers t₀ s) : Invariant T peers t₀ s :=
  Transition.ReachWhile.invariant h Invariant.init fun _ _ _ _ hs htimely hstep => hs.step htimely hstep

/-! ### Perfect detection -/

/-- A running peer is reported alive at all times.  A crashed one is reported dead by a pass that comes more than the
delay and the timeout after the crash, and stays so. -/
theorem perfect_in_timely_runs (h : Reach T peers t₀ s) {a p : ι} (hp : p ∈ peers a) (ha : a ∈ peers p) :
    (s.crashedAt p = none → (s.detector a).getStatus p = .alive) ∧
      ∀ d u, s.crashedAt p = some d → s.lastPass a = some u → d + T.delay + T.deadTimeout < u →
        (s.detector a).getStatus p = .dead := by
  have hinv := invariant_of_reach h
  refine ⟨hinv.alive a p hp ha, fun d u hd hu hlate => ?_⟩
  obtain ⟨c, hc⟩ := hinv.peer a p hp
  have hcontact : c ≤ d + T.delay := hinv.late a p c d hc hd
  have hsilent : T.deadTimeout < u - c := by
    rw [lt_sub_iff_add_lt, add_comm]
    exact (add_le_add_left hcontact T.deadTimeout).trans_lt hlate
  have htimeout : 0 ≤ T.deadTimeout :=
    ((add_nonneg T.period_nonneg T.delay_pos.le).trans T.heard_in_time).trans T.suspect_le_dead
  have hlt : c < u := sub_pos.1 (htimeout.trans_lt hsilent)
  rw [hinv.judged a p c u hc hu hlt, FailureDetector.judge_eq_dead]
  exact hsilent

/-- The defaults of the detector, heartbeats every two seconds, and messages that take less than a second. -/
def timing : Timing Int where
  suspectTimeout := 3
  deadTimeout := 10
  delay := 1
  period := 2
  delay_pos := by decide
  period_nonneg := by decide
  heard_in_time := by decide
  suspect_le_dead := by decide

/-- One of two nodes crashes after a heartbeat. -/
theorem perfect_in_timely_runs_crash : ∃ s : State Bool Int,
    Transition.runWhile step (Timely timing (fun a => [!a]) 0) (init timing (fun a => [!a]) 0)
      [.send true false, .handle 0, .handle 1, .crash true, .wait 2, .send false true, .wait 4, .send false true,
        .wait 6, .send false true, .wait 8, .send false true, .wait 10, .send false true, .wait 12, .pass false] =
      some s ∧ (s.detector false).getStatus true = .dead := by
  let acts : List (Action Bool Int) := [.send true false, .handle 0, .handle 1, .crash true, .wait 2,
    .send false true, .wait 4, .send false true, .wait 6, .send false true, .wait 8, .send false true, .wait 10,
    .send false true, .wait 12, .pass false]
  have hrun : (Transition.runWhile step (Timely timing (fun a => [!a]) 0) (init timing (fun a => [!a]) 0) acts).map
      (fun s => (s.crashedAt true, s.lastPass false)) = some (some 0, some 12) := by decide
  obtain ⟨s, hs, hobserve⟩ := Option.map_eq_some_iff.1 hrun
  obtain ⟨hcrash, hpass⟩ := Prod.mk.inj hobserve
  have hreach := (Transition.ReachWhile.of_runWhile .refl hs).1
  have hdead := (perfect_in_timely_runs hreach (a := false) (p := true) (by decide) (by decide)).2 0 12 hcrash hpass
  exact ⟨s, hs, hdead (by decide)⟩

end Heartbeat

end DistributedSync
