import DistributedSync.Lock.Atomic
import DistributedSync.Lock.Overtaking

/-!
# Bounded waiting

A request in the queue of a lock is never lost.  Each time a holder gives the lock back or its lease expires, the lock
is one holder nearer to the next hand-over, or the hand-over brings the request nearer to the head by at least as many
places as it makes holders.  So the holders and the requests before it are at most as many as before, and one less
after each of these steps; only a shared request that joins the holders makes them more.  The request is granted
after at most that many (`waiting_request_served`).
-/

namespace DistributedSync

variable {ν : Type} [Number ν]

/-- The grant is what the request asks for. -/
def Grant.Answers (g : Grant ν) (w : Json ν × LockType) : Prop :=
  w.1.key? = some g.client ∧ g.mode = w.2

namespace LockView

variable {v w : LockView ν}

/-- The first requests get the lock, each by its own grant, and there are no other holders. -/
structure Serves (v w : LockView ν) (gs : List (Grant ν)) (left : Nat) : Prop where
  pos : 0 < left
  le : left ≤ v.waiting.length
  waiting : w.waiting = v.waiting.drop left
  holders : w.holders.card ≤ left
  answers : List.Forall₂ Grant.Answers gs (v.waiting.take left)

/-- The induction is on the queue; every request that joins is one grant and at most one holder more. -/
theorem joinWaiting_serves (v : LockView ν) (token : Nat) {ws : List (Json ν × LockType)}
    (hws : ∀ w ∈ ws, ∃ c, w.1.key? = some c) : ∃ left ≤ ws.length, (v.joinWaiting ws).waiting = ws.drop left ∧
      (v.joinWaiting ws).holders.card ≤ v.holders.card + left ∧
      List.Forall₂ Grant.Answers (joinGrants token ws) (ws.take left) := by
  induction ws generalizing v with
  | nil => exact ⟨0, le_rfl, rfl, le_rfl, .nil⟩
  | cons w ws ih =>
    obtain ⟨clientId, lockType⟩ := w
    obtain ⟨c, hc⟩ := hws _ List.mem_cons_self
    rw [joinWaiting, joinGrants]
    by_cases hs : lockType = .shared
    · rw [if_pos hs, if_pos hs]
      simp only [hc]
      obtain ⟨left, hle, hw, hcard, hgs⟩ := ih { v with holders := insert c v.holders }
        fun w hm => hws w (List.mem_cons_of_mem _ hm)
      have hinsert : (insert c v.holders).card ≤ v.holders.card + 1 := Finset.card_insert_le c v.holders
      refine ⟨left + 1, Nat.succ_le_succ hle, hw, ?_, .cons ⟨hc, hs.symm⟩ hgs⟩
      refine hcard.trans ?_
      show (insert c v.holders).card + left ≤ _
      omega
    · rw [if_neg hs, if_neg hs]
      exact ⟨0, Nat.zero_le _, rfl, le_rfl, .nil⟩

private theorem handOver_serves (hempty : v.holders = ∅) (hne : v.waiting ≠ [])
    (hws : ∀ w ∈ v.waiting, ∃ c, w.1.key? = some c) : ∃ left, Serves v v.handOver v.handOverGrants left := by
  cases hq : v.waiting with
  | nil => exact absurd hq hne
  | cons w rest =>
    obtain ⟨clientId, lockType⟩ := w
    obtain ⟨c, hc⟩ := hws (clientId, lockType) (by rw [hq]; exact List.mem_cons_self)
    have hone : (insert c v.holders).card = 1 := by rw [hempty, insert_empty_eq, Finset.card_singleton]
    rw [handOver, handOverGrants, hq]
    simp only [hc]
    by_cases hs : lockType = .shared
    · rw [if_pos hs, if_pos hs]
      obtain ⟨left, hle, hw, hcard, hgs⟩ := joinWaiting_serves
        ⟨some lockType, insert c v.holders, rest, v.fencingToken + 1⟩ (v.fencingToken + 1)
        fun w hm => hws w (by rw [hq]; exact List.mem_cons_of_mem _ hm)
      refine ⟨left + 1, Nat.succ_pos _, ?_, ?_, ?_, ?_⟩
      · rw [hq]
        exact Nat.succ_le_succ hle
      · rw [hq]
        exact hw
      · refine hcard.trans ?_
        show (insert c v.holders).card + left ≤ _
        omega
      · rw [hq]
        exact .cons ⟨hc, rfl⟩ hgs
    · rw [if_neg hs, if_neg hs]
      refine ⟨1, Nat.one_pos, ?_, ?_, hone.le, ?_⟩
      · rw [hq]
        exact Nat.succ_pos _
      · rw [hq]
        rfl
      · rw [hq]
        exact .cons ⟨hc, rfl⟩ .nil

private theorem Sound.expire_serves (h : v.Sound) (hne : v.waiting ≠ []) :
    ∃ left, Serves v v.expire v.expireGrants left := by
  obtain ⟨left, hs⟩ := handOver_serves (v := { v with holders := ∅ }) rfl hne h.hashable
  exact ⟨left, hs.pos, hs.le, hs.waiting, hs.holders, hs.answers⟩

/-- A release by a holder: the lock has one holder less, or the last holder gives it to the queue. -/
theorem Sound.release_serves (h : v.Sound) (hne : v.waiting ≠ []) {clientId : Json ν} {c : Key ν}
    (hc : clientId.key? = some c) (hmem : c ∈ v.holders) :
    ((v.release clientId).waiting = v.waiting ∧ (v.release clientId).holders.card + 1 = v.holders.card) ∨
    ∃ left, Serves v (v.release clientId) (v.releaseGrants clientId) left := by
  rw [LockView.release, LockView.releaseGrants, hc]
  simp only
  by_cases hfree : v.holders.erase c = ∅
  · rw [if_pos hfree, if_pos hfree]
    obtain ⟨left, hs⟩ := handOver_serves (v := { v with holders := v.holders.erase c }) hfree hne h.hashable
    exact Or.inr ⟨left, hs.pos, hs.le, hs.waiting, hs.holders, hs.answers⟩
  · rw [if_neg hfree, if_neg hfree]
    exact Or.inl ⟨rfl, Finset.card_erase_add_one hmem⟩

/-- Nothing comes of a release by a client that does not hold the lock. -/
theorem release_of_not_holder (hheld : v.holders ≠ ∅) {clientId : Json ν}
    (hno : ∀ c ∈ v.holders, clientId.key? ≠ some c) : v.release clientId = v := by
  rw [release]
  cases hc : clientId.key? with
  | none => rfl
  | some c =>
    have herase : v.holders.erase c = v.holders := Finset.erase_eq_of_notMem fun hmem => hno c hmem hc
    simp only [herase, if_neg hheld]

/-- Acquiring makes at most one holder more, and none when the request is queued. -/
theorem acquire_holders_card (v : LockView ν) (clientId : Json ν) (lockType : LockType) :
    (v.acquire clientId lockType).holders.card ≤ v.holders.card + if v.Grants lockType then 1 else 0 := by
  rw [acquire]
  by_cases hg : v.Grants lockType
  · rw [if_pos hg]
    by_cases hfree : v.holders = ∅
    · rw [if_pos hfree]
      cases clientId.key? with
      | none => exact Nat.le_succ _
      | some c => exact Finset.card_insert_le c v.holders
    · rw [if_neg hfree, if_pos (hg.resolve_left hfree)]
      cases clientId.key? with
      | none => exact Nat.le_succ _
      | some c => exact Finset.card_insert_le c v.holders
  · rw [if_neg hg]
    rw [Grants, not_or] at hg
    rw [if_neg hg.1, if_neg hg.2]
    exact le_rfl

end LockView

namespace LockManagerNode

variable {s s' : LockManagerNode ν} {r : Key ν} {a : LockAction ν}

/-- The step takes the lock from a holder: a release by one of them, or the expiry of the lease. -/
def Frees (r : Key ν) (s : LockManagerNode ν) : LockAction ν → Prop
  | .apply _ cmd => cmd.resource.key? = some r ∧ cmd.action.isStr "release" ∧
      ∃ c ∈ (s.locks.view r).holders, cmd.clientId.key? = some c
  | .sweep env => r ∈ (s.sweep env).expired

instance : (a : LockAction ν) → Decidable (Frees r s a)
  | .apply _ cmd => inferInstanceAs (Decidable (_ ∧ _ ∧ ∃ c ∈ (s.locks.view r).holders, cmd.clientId.key? = some c))
  | .sweep env => inferInstanceAs (Decidable (r ∈ (s.sweep env).expired))

/-- The step is a request for the lock that is granted at once. -/
def GrantsAtOnce (r : Key ν) (s : LockManagerNode ν) (a : LockAction ν) : Prop :=
  ∃ w ∈ requested r a, (s.locks.view r).Grants w.2

instance (a : LockAction ν) : Decidable (GrantsAtOnce r s a) :=
  inferInstanceAs (Decidable (∃ w ∈ requested r a, (s.locks.view r).Grants w.2))

private theorem not_frees_of_requested {w : Json ν × LockType} (hreq : requested r a = some w) : ¬ Frees r s a := by
  cases a with
  | apply now cmd =>
    rintro ⟨-, hrelease, -⟩
    rw [requested] at hreq
    by_cases hcmd : cmd.resource.key? = some r ∧ cmd.action.isStr "acquire"
    · exact LockCommand.not_acquire_of_release hrelease hcmd.2
    · rw [if_neg hcmd] at hreq
      cases hreq
  | sweep env => cases hreq

/-- A step that takes the lock from a holder is a release by a holder or an expiry. -/
theorem step_of_frees (hstep : s.step a = some s') (hfrees : Frees r s a) :
    (∃ clientId, ∃ c ∈ (s.locks.view r).holders, clientId.key? = some c ∧
      s'.locks.view r = (s.locks.view r).release clientId ∧ s.grants r a = (s.locks.view r).releaseGrants clientId) ∨
    (s'.locks.view r = (s.locks.view r).expire ∧ s.grants r a = (s.locks.view r).expireGrants) := by
  cases a with
  | apply now cmd =>
    obtain rfl : (s.applyLockCommand now cmd).state = s' := by simpa [step] using hstep
    obtain ⟨hr, hrelease, c, hmem, hc⟩ := hfrees
    have hno := LockCommand.not_acquire_of_release hrelease
    refine Or.inl ⟨cmd.clientId, c, hmem, hc, ?_, ?_⟩
    · rw [applyLockCommand_view, if_pos hr, LockView.apply, if_neg hno, if_pos hrelease]
    · rw [grants, if_pos hr, LockView.grants, if_neg hno, if_pos hrelease]
  | sweep env =>
    obtain ⟨hlists, rfl⟩ : env.Lists s ∧ (s.sweep env).node = s' := by simpa [step] using hstep
    refine Or.inr ⟨(sweep_expires hlists).expired r hfrees, ?_⟩
    rw [grants, if_pos (List.mem_toFinset.2 hfrees)]

/-- Any other step that does not request the lock leaves its holders and its queue alone, when it is held. -/
theorem step_of_not_frees (hstep : s.step a = some s') (hreq : requested r a = none) (hno : ¬ Frees r s a)
    (hheld : (s.locks.view r).holders ≠ ∅) : s'.locks.view r = s.locks.view r := by
  rcases step_cases_of_not_requested hstep hreq with ⟨now, cmd, rfl, hr, hrelease, hview, -⟩ |
    ⟨env, rfl, hexp, -, -⟩ | ⟨hview, -⟩
  · rw [hview]
    exact LockView.release_of_not_holder hheld fun c hmem hc => hno ⟨hr, hrelease, c, hmem, hc⟩
  · exact absurd (List.mem_toFinset.1 hexp) hno
  · exact hview

/-! ### The waiting request -/

/-- A hand-over grants the requests it takes from the queue and brings the others nearer to its head. -/
theorem Lined.moveUp_served {σ : Lined ν} {w : LockView ν} {gs : List (Grant ν)} {left k : Nat}
    {t : Nat × (Json ν × LockType)} (h : σ.Aligned r) (hs : LockView.Serves (σ.node.locks.view r) w gs left)
    (ht : σ.line.waiting[k]? = some t) :
    (∃ g, (t.1, g) ∈ (σ.line.moveUp left gs).granted.drop σ.line.granted.length ∧ g.Answers t.2) ∨
      left ≤ k ∧ (σ.line.moveUp left gs).waiting[k - left]? = some t := by
  by_cases hk : k < left
  · have hw : ((σ.node.locks.view r).waiting.take left)[k]? = some t.2 := by
      rw [List.getElem?_take_of_lt hk, ← h.waiting, List.getElem?_map, ht]
      rfl
    obtain ⟨hlen, heq⟩ := List.getElem?_eq_some_iff.1 hw
    have hlen' : k < gs.length := by
      rw [hs.answers.length_eq]
      exact hlen
    have hanswers := hs.answers.get hlen' hlen
    refine Or.inl ⟨gs[k], TicketLine.mem_moveUp_granted ht (List.getElem?_eq_getElem hlen') left, ?_⟩
    simpa only [List.get_eq_getElem, heq] using hanswers
  · refine Or.inr ⟨Nat.le_of_not_lt hk, ?_⟩
    show (σ.line.waiting.drop left)[k - left]? = some t
    rw [List.getElem?_drop, Nat.add_sub_cancel' (Nat.le_of_not_lt hk), ht]

/-- The holders of the lock and the requests before the one at a place. -/
def Lined.ahead (r : Key ν) (σ : Lined ν) (place : Nat) : Nat := (σ.node.locks.view r).holders.card + place

/-- A waiting request after a step: it has been granted, or it waits at a place with `freed` less before it. -/
def Lined.Served (r : Key ν) (σ σ' : Lined ν) (t : Nat × (Json ν × LockType)) (k freed joined : Nat) : Prop :=
  (∃ g, (t.1, g) ∈ σ'.line.granted.drop σ.line.granted.length ∧ g.Answers t.2) ∨
    ∃ k', σ'.line.waiting[k']? = some t ∧ σ'.ahead r k' + freed ≤ σ.ahead r k + joined

variable {σ σ' : Lined ν} {k : Nat} {t : Nat × (Json ν × LockType)}

private theorem Lined.held_of_waiting (h : σ.Aligned r) (hsound : (σ.node.locks.view r).Sound)
    (ht : σ.line.waiting[k]? = some t) : (σ.node.locks.view r).waiting ≠ [] ∧ (σ.node.locks.view r).holders ≠ ∅ := by
  have hne : (σ.node.locks.view r).waiting ≠ [] := by
    rw [← h.waiting, Ne, List.map_eq_nil_iff]
    exact List.ne_nil_of_mem (List.mem_of_getElem? ht)
  exact ⟨hne, hsound.served hne⟩

private theorem Lined.served_of_requested (hstep : Lined.step r σ a = some σ')
    (ht : σ.line.waiting[k]? = some t) {w : Json ν × LockType} (hreq : requested r a = some w) :
    Lined.Served r σ σ' t k 0 (if GrantsAtOnce r σ.node a then 1 else 0) := by
  obtain ⟨s', hs', rfl⟩ := Option.map_eq_some_iff.1 hstep
  obtain ⟨clientId, lockType⟩ := w
  have hacquire := step_of_requested hs' hreq
  have hgrants : GrantsAtOnce r σ.node a ↔ (σ.node.locks.view r).Grants lockType := by
    rw [GrantsAtOnce, hreq]
    simp
  have hcard := (σ.node.locks.view r).acquire_holders_card clientId lockType
  rw [← hacquire.1] at hcard
  refine Or.inr ⟨k, ?_, ?_⟩
  · -- the queue is the same, or one request longer
    simp only [nextLine, hreq]
    by_cases hg : (σ.node.locks.view r).Grants lockType
    · rw [if_pos hg]
      exact ht
    · rw [if_neg hg]
      show (σ.line.waiting ++ [_])[k]? = some t
      rw [List.getElem?_append_left (List.getElem?_eq_some_iff.1 ht).1, ht]
  · simp only [hgrants]
    show (s'.locks.view r).holders.card + k + 0 ≤ (σ.node.locks.view r).holders.card + k + _
    omega

/-- The hand-over takes `left` requests from the queue and makes at most as many holders, of a lock that had some. -/
theorem Lined.served_of_serves {s' : LockManagerNode ν} {gs : List (Grant ν)} {left : Nat} (h : σ.Aligned r)
    (hheld : (σ.node.locks.view r).holders ≠ ∅)
    (hs : LockView.Serves (σ.node.locks.view r) (s'.locks.view r) gs left) (ht : σ.line.waiting[k]? = some t) :
    Lined.Served r σ ⟨s', σ.line.moveUp
      ((σ.node.locks.view r).waiting.length - (s'.locks.view r).waiting.length) gs⟩ t k 1 0 := by
  have hleft : (σ.node.locks.view r).waiting.length - (s'.locks.view r).waiting.length = left := by
    have hle := hs.le
    rw [hs.waiting, List.length_drop]
    omega
  rw [hleft]
  rcases Lined.moveUp_served h hs ht with hgranted | ⟨hle, hwaits⟩
  · exact Or.inl hgranted
  · refine Or.inr ⟨k - left, hwaits, ?_⟩
    have hcard := hs.holders
    have hpos := Finset.card_pos.2 (Finset.nonempty_iff_ne_empty.2 hheld)
    show (s'.locks.view r).holders.card + (k - left) + 1 ≤ (σ.node.locks.view r).holders.card + k + 0
    omega

/-- The queue stays, and the lock may have lost holders. -/
theorem Lined.served_of_stays {s' : LockManagerNode ν} {gs : List (Grant ν)} {freed : Nat}
    (hw : (s'.locks.view r).waiting = (σ.node.locks.view r).waiting)
    (hcard : (s'.locks.view r).holders.card + freed ≤ (σ.node.locks.view r).holders.card)
    (ht : σ.line.waiting[k]? = some t) :
    Lined.Served r σ ⟨s', σ.line.moveUp
      ((σ.node.locks.view r).waiting.length - (s'.locks.view r).waiting.length) gs⟩ t k freed 0 := by
  refine Or.inr ⟨k, ?_, ?_⟩
  · show (σ.line.waiting.drop _)[k]? = some t
    rw [hw, Nat.sub_self, List.drop_zero, ht]
  · show (s'.locks.view r).holders.card + k + freed ≤ (σ.node.locks.view r).holders.card + k + 0
    omega

private theorem Lined.served_of_not_requested (h : σ.Aligned r) (hsound : (σ.node.locks.view r).Sound)
    (hstep : Lined.step r σ a = some σ') (ht : σ.line.waiting[k]? = some t) (hreq : requested r a = none) :
    Lined.Served r σ σ' t k (if Frees r σ.node a then 1 else 0) 0 := by
  obtain ⟨s', hs', rfl⟩ := Option.map_eq_some_iff.1 hstep
  obtain ⟨hne, hheld⟩ := Lined.held_of_waiting h hsound ht
  simp only [nextLine, hreq]
  by_cases hfrees : Frees r σ.node a
  · rw [if_pos hfrees]
    rcases step_of_frees hs' hfrees with ⟨clientId, c, hmem, hc, hview, hgrants⟩ | ⟨hview, hgrants⟩
    · rcases hsound.release_serves hne hc hmem with ⟨hw, hcard⟩ | ⟨left, hserves⟩
      · exact Lined.served_of_stays (by rw [hview, hw]) (by rw [hview, hcard]) ht
      · rw [← hview, ← hgrants] at hserves
        exact Lined.served_of_serves h hheld hserves ht
    · obtain ⟨left, hserves⟩ := hsound.expire_serves hne
      rw [← hview, ← hgrants] at hserves
      exact Lined.served_of_serves h hheld hserves ht
  · rw [if_neg hfrees]
    have hview := step_of_not_frees hs' hreq hfrees hheld
    exact Lined.served_of_stays (by rw [hview]) (by rw [hview]; exact le_rfl) ht

/-- One step: a waiting request is granted, or it still waits, and what is before it is no more than before, but for
the clients that are granted the lock at once, and one less when a holder loses the lock. -/
theorem Lined.step_served (h : σ.Aligned r) (hsound : (σ.node.locks.view r).Sound)
    (hstep : Lined.step r σ a = some σ') (ht : σ.line.waiting[k]? = some t) :
    Lined.Served r σ σ' t k (if Frees r σ.node a then 1 else 0) (if GrantsAtOnce r σ.node a then 1 else 0) := by
  cases hreq : requested r a with
  | none =>
    have hnot : ¬ GrantsAtOnce r σ.node a := by
      rw [GrantsAtOnce, hreq]
      simp
    rw [if_neg hnot]
    exact Lined.served_of_not_requested h hsound hstep ht hreq
  | some w =>
    rw [if_neg (not_frees_of_requested hreq)]
    exact Lined.served_of_requested hstep ht hreq

/-! ### Runs -/

private theorem Lined.step_granted_prefix (hstep : Lined.step r σ a = some σ') :
    σ.line.granted <+: σ'.line.granted := by
  obtain ⟨s', hs', rfl⟩ := Option.map_eq_some_iff.1 hstep
  cases hreq : requested r a with
  | none =>
    simp only [nextLine, hreq]
    exact List.prefix_append _ _
  | some w =>
    simp only [nextLine, hreq]
    by_cases hg : (σ.node.locks.view r).Grants w.2
    · rw [if_pos hg]
      exact List.prefix_append _ _
    · rw [if_neg hg]
      exact List.prefix_rfl

private theorem Lined.run_granted_prefix {actions : List (LockAction ν)}
    (hrun : Transition.run (Lined.step r) σ actions = some σ') : σ.line.granted <+: σ'.line.granted :=
  (Transition.reach_of_run hrun).invariant (I := fun τ => σ.line.granted <+: τ.line.granted) List.prefix_rfl
    fun _ _ _ _ hpre _ hstep => hpre.trans (Lined.step_granted_prefix hstep)

theorem Lined.Served.trans {τ : Lined ν} {freed freed' joined joined' : Nat}
    (h : Lined.Served r σ τ t k freed joined) (hpre : σ.line.granted <+: τ.line.granted)
    (hpre' : τ.line.granted <+: σ'.line.granted)
    (h' : ∀ k', τ.line.waiting[k']? = some t → Lined.Served r τ σ' t k' freed' joined') :
    Lined.Served r σ σ' t k (freed + freed') (joined + joined') := by
  rcases h with ⟨g, hg, hanswers⟩ | ⟨l, hl, hle⟩
  · exact Or.inl ⟨g, (hpre'.drop _).subset hg, hanswers⟩
  · rcases h' l hl with ⟨g, hg, hanswers⟩ | ⟨m, hm, hle'⟩
    · exact Or.inl ⟨g, List.drop_subset_drop_left _ hpre.length_le hg, hanswers⟩
    · exact Or.inr ⟨m, hm, by omega⟩

/-- The induction is on the steps; a request that waits after the first one waits at some place for the others. -/
theorem Lined.run_served {actions : List (LockAction ν)} (h : σ.Aligned r)
    (hsound : ∀ r, (σ.node.locks.view r).Sound) (hids : ∀ a ∈ actions, a.StringIds)
    (hrun : Transition.run (Lined.step r) σ actions = some σ') (ht : σ.line.waiting[k]? = some t) :
    Lined.Served r σ σ' t k (Transition.countRun LockManagerNode.step (Frees r) σ.node actions)
      (Transition.countRun LockManagerNode.step (GrantsAtOnce r) σ.node actions) := by
  induction actions generalizing σ k with
  | nil =>
    cases hrun
    exact Or.inr ⟨k, ht, le_rfl⟩
  | cons a actions ih =>
    obtain ⟨τ, hstep, hrun⟩ := Transition.run_cons.1 hrun
    obtain ⟨s', hs', hτ⟩ := Option.map_eq_some_iff.1 hstep
    have hnode : s' = τ.node := by rw [← hτ]
    subst hnode
    rw [List.forall_mem_cons] at hids
    rw [Transition.countRun_cons hs', Transition.countRun_cons hs']
    exact (Lined.step_served h (hsound r) hstep ht).trans (Lined.step_granted_prefix hstep)
      (Lined.run_granted_prefix hrun) fun l hl => ih (h.step hstep) (step_sound hsound hids.1 hs') hids.2 hrun hl

private theorem Lined.run_sound {actions : List (LockAction ν)} (h : σ.Aligned r)
    (hsound : ∀ r, (σ.node.locks.view r).Sound) (hids : ∀ a ∈ actions, a.StringIds)
    (hrun : Transition.run (Lined.step r) σ actions = some σ') : σ'.Aligned r ∧ ∀ r, (σ'.node.locks.view r).Sound := by
  induction actions generalizing σ with
  | nil =>
    cases hrun
    exact ⟨h, hsound⟩
  | cons a actions ih =>
    obtain ⟨τ, hstep, hrun⟩ := Transition.run_cons.1 hrun
    obtain ⟨s', hs', rfl⟩ := Option.map_eq_some_iff.1 hstep
    rw [List.forall_mem_cons] at hids
    exact ih (h.step hstep) (step_sound hsound hids.1 hs') hids.2 hrun

/-- A request for a lock that waits behind holders and other requests is not lost, and it waits only as long as the
holders have lost the lock less often than there were holders and requests before it, with those that were granted
the lock at once since then. -/
theorem waiting_request_served {leaseTimeout : ν} {r : Key ν} {before after : List (LockAction ν)} {σ σ' : Lined ν}
    (hids : ∀ a ∈ before ++ after, a.StringIds)
    (hbefore : Transition.run (Lined.step r) ⟨start leaseTimeout, {}⟩ before = some σ)
    (hafter : Transition.run (Lined.step r) σ after = some σ')
    {k : Nat} {t : Nat × (Json ν × LockType)} (ht : σ.line.waiting[k]? = some t) :
    (∃ g, (t.1, g) ∈ σ'.line.granted.drop σ.line.granted.length ∧ t.2.1.key? = some g.client ∧ g.mode = t.2.2) ∨
      (t ∈ σ'.line.waiting ∧ Transition.countRun step (Frees r) σ.node after <
        (σ.node.locks.view r).holders.card + k + Transition.countRun step (GrantsAtOnce r) σ.node after) := by
  rw [List.forall_mem_append] at hids
  obtain ⟨hσ, hsound⟩ := Lined.run_sound (r := r) ⟨rfl, TicketLine.sorted_empty⟩ (fun _ => LockView.new_sound) hids.1
    hbefore
  obtain ⟨hσ', hsound'⟩ := Lined.run_sound hσ hsound hids.2 hafter
  rcases Lined.run_served hσ hsound hids.2 hafter ht with hgranted | ⟨l, hl, hle⟩
  · exact Or.inl hgranted
  · refine Or.inr ⟨List.mem_of_getElem? hl, ?_⟩
    -- somebody holds the lock while the request waits
    have hheld := (Lined.held_of_waiting hσ' (hsound' r) hl).2
    have hpos := Finset.card_pos.2 (Finset.nonempty_iff_ne_empty.2 hheld)
    rw [Lined.ahead, Lined.ahead] at hle
    omega

/-- Two clients wait behind an exclusive holder; it releases the lock, and the lease of the next one expires. -/
theorem waiting_request_served_run : ∃ σ σ' : Lined Int, ∃ t ∈ σ.line.waiting, ∃ after : List (LockAction Int),
    t.2.1.key? = some (.str "c") ∧ σ'.line.waiting.isEmpty ∧ Transition.run (Lined.step (.str "r")) σ after = some σ' ∧
    ((∃ g, (t.1, g) ∈ σ'.line.granted.drop σ.line.granted.length ∧ t.2.1.key? = some g.client ∧ g.mode = t.2.2) ∨
      (t ∈ σ'.line.waiting ∧ Transition.countRun step (Frees (.str "r")) σ.node after <
        (σ.node.locks.view (.str "r")).holders.card + 1 +
          Transition.countRun step (GrantsAtOnce (.str "r")) σ.node after)) := by
  have hobs : ((Transition.run (Lined.step (.str "r")) ⟨start (30 : Int), {}⟩
      [.apply 1 (.acquire (.str "r") (.str "a") (.str "exclusive") none),
        .apply 2 (.acquire (.str "r") (.str "b") (.str "exclusive") none),
        .apply 3 (.acquire (.str "r") (.str "c") (.str "exclusive") none)]).bind fun σ =>
      (Transition.run (Lined.step (.str "r")) σ [.apply 4 (.release (.str "r") (.str "a")),
        .sweep ⟨40, fun _ _ => 40, fun _ => [.str "b"]⟩]).bind fun σ' =>
      (σ.line.waiting[1]?).map fun t =>
        decide (t.2.1.key? = some (.str "c") ∧ σ'.line.waiting.isEmpty)) = some true := by decide
  obtain ⟨σ, hσ, hobs⟩ := Option.bind_eq_some_iff.1 hobs
  obtain ⟨σ', hσ', hobs⟩ := Option.bind_eq_some_iff.1 hobs
  obtain ⟨t, ht, hobs⟩ := Option.map_eq_some_iff.1 hobs
  obtain ⟨hclient, hempty⟩ := of_decide_eq_true hobs
  exact ⟨σ, σ', t, List.mem_of_getElem? ht, _, hclient, hempty, hσ',
    waiting_request_served (by decide) hσ hσ' ht⟩

end LockManagerNode

end DistributedSync
