import DistributedSync.Lock.HandOver

/-!
# The expiry sweep

A pass releases the holders of an expired lock one by one, in any order, and the last release hands the lock over;
together they act on the lock as `LockState.expire` does, and touch no other lock (`sweep_handsOver`).  Which locks a
pass finds expired depends on the leases and on the clock, so that result is stated with the list that the pass
reports; unless a release raises, these are the locks whose lease has run out when the pass starts
(`mem_expired_iff`).  `sweep_expires` is what is left of it on the views.
-/

namespace DistributedSync

/-- The clock at the release of the last holder of `r`, which hands the lock over. -/
def Sweep.handOverTime {ν : Type} (env : Sweep ν) (r : Key ν) : ν := (env.order r).getLast?.elim env.now (env.clock r)

private theorem Sweep.handOverTime_eq {ν : Type} {env : Sweep ν} {r : Key ν} (hne : env.order r ≠ []) :
    env.handOverTime r = env.clock r ((env.order r).getLast hne) := by
  rw [Sweep.handOverTime, List.getLast?_eq_some_getLast hne]
  rfl

variable {ν : Type} [Number ν]

theorem Sweep.Lists.of_get? {env : Sweep ν} {s : LockManagerNode ν} {r : Key ν} {lock : LockState ν}
    (h : env.Lists s) (hl : s.locks.get? r = some lock) :
    (env.order r).Nodup ∧ (env.order r).toFinset = lock.holders :=
  h (r, lock) (Dict.mem_of_get? hl)

theorem LockView.release_last {v : LockView ν} {c : Key ν} (h : v.holders.erase c = ∅) :
    v.release c.toJson = v.expire := by
  simp only [LockView.release, Key.key?_toJson, LockView.expire]
  rw [if_pos h, h]

/-- The locks that a pass over `rs` reports had expired and have been handed over, and the others have not changed. -/
structure Swept.HandsOver (w : Swept ν) (env : Sweep ν) (rs : List (Key ν)) (s : LockManagerNode ν) : Prop where
  among : w.expired.Sublist rs
  expired : ∀ r ∈ w.expired, ∃ lock, s.locks.get? r = some lock ∧ lock.expired env.now ∧
    w.node.locks.get? r = some (lock.expire (env.handOverTime r) s.leaseTimeout)
  others : ∀ r ∉ w.expired, w.node.locks.get? r = s.locks.get? r

/-- The locks that a pass over `rs` reports have expired, and the other ones have not changed. -/
structure Swept.Expires (w : Swept ν) (rs : List (Key ν)) (s : LockManagerNode ν) : Prop where
  among : w.expired.Sublist rs
  expired : ∀ r ∈ w.expired, w.node.locks.view r = (s.locks.view r).expire
  others : ∀ r ∉ w.expired, w.node.locks.view r = s.locks.view r

theorem LockManagerNode.view_congr {locks locks' : LockTable ν} {r : Key ν} (h : locks.get? r = locks'.get? r) :
    locks.view r = locks'.view r := by
  rw [LockTable.view, LockTable.view, LockTable.getOrNew, LockTable.getOrNew, h]

namespace Swept.HandsOver

variable {w : Swept ν} {env : Sweep ν} {rs : List (Key ν)} {s s' : LockManagerNode ν} {r₀ : Key ν}
  {lock : LockState ν}

theorem expires (h : w.HandsOver env rs s) : w.Expires rs s where
  among := h.among
  expired r hr := by
    obtain ⟨lock, hl, -, hget⟩ := h.expired r hr
    rw [LockTable.view_of_get? hget, LockTable.view_of_get? hl, LockState.expire_view]
  others r hr := LockManagerNode.view_congr (h.others r hr)

theorem none (s : LockManagerNode ν) : Swept.HandsOver ⟨s, []⟩ env rs s where
  among := List.nil_sublist rs
  expired _ h := by cases h
  others _ _ := rfl

theorem one (hl : s.locks.get? r₀ = some lock) (he : lock.expired env.now)
    (hself : s'.locks.get? r₀ = some (lock.expire (env.handOverTime r₀) s.leaseTimeout))
    (hother : ∀ r, r ≠ r₀ → s'.locks.get? r = s.locks.get? r) : Swept.HandsOver ⟨s', [r₀]⟩ env (r₀ :: rs) s where
  among := (List.nil_sublist rs).cons_cons r₀
  expired r h := by
    rw [List.mem_singleton.1 h]
    exact ⟨lock, hl, he, hself⟩
  others r h := hother r fun heq => h (List.mem_singleton.2 heq)

theorem mono (h : w.HandsOver env rs s) : w.HandsOver env (r₀ :: rs) s :=
  { h with among := h.among.cons r₀ }

/-- The first resource expires and comes no second time. -/
theorem cons (hr₀ : r₀ ∉ rs) (hl : s.locks.get? r₀ = some lock) (he : lock.expired env.now)
    (hself : s'.locks.get? r₀ = some (lock.expire (env.handOverTime r₀) s.leaseTimeout))
    (hother : ∀ r, r ≠ r₀ → s'.locks.get? r = s.locks.get? r) (htimeout : s'.leaseTimeout = s.leaseTimeout)
    (h : w.HandsOver env rs s') : Swept.HandsOver ⟨w.node, r₀ :: w.expired⟩ env (r₀ :: rs) s where
  among := h.among.cons_cons r₀
  expired r hr := by
    rcases List.mem_cons.1 hr with rfl | hm
    · refine ⟨lock, hl, he, ?_⟩
      rw [h.others r fun hm => hr₀ (h.among.subset hm)]
      exact hself
    · have hne : r ≠ r₀ := by
        rintro rfl
        exact hr₀ (h.among.subset hm)
      obtain ⟨lock', hl', he', hget⟩ := h.expired r hm
      rw [hother r hne] at hl'
      rw [htimeout] at hget
      exact ⟨lock', hl', he', hget⟩
  others r hr := by
    have hne : r ≠ r₀ := by
      rintro rfl
      exact hr List.mem_cons_self
    rw [h.others r fun hm => hr (List.mem_cons_of_mem _ hm), hother r hne]

end Swept.HandsOver

theorem LockView.expire_erase (v : LockView ν) (c : Key ν) :
    LockView.expire { v with holders := v.holders.erase c } = v.expire := rfl

namespace LockManagerNode

private theorem doRelease_get?_of_ne (s : LockManagerNode ν) (now : ν) (clientId : Json ν) {r r' : Key ν} (h : r' ≠ r) :
    (s.doRelease now r.toJson clientId).state.locks.get? r' = s.locks.get? r' := by
  simp only [doRelease, Key.key?_toJson]
  cases s.locks.get? r with
  | none => rfl
  | some lock => exact Dict.get?_set_of_ne _ _ h

theorem releaseEach_get?_of_ne (s : LockManagerNode ν) (clock : Key ν → ν) {r r' : Key ν} (h : r' ≠ r)
    (hs : List (Key ν)) : (s.releaseEach clock r hs).state.locks.get? r' = s.locks.get? r' := by
  induction hs generalizing s with
  | nil => rfl
  | cons holder rest ih =>
    have hframe := doRelease_get?_of_ne s (clock holder) holder.toJson h
    rw [releaseEach]
    rcases hd : s.doRelease (clock holder) r.toJson holder.toJson with ⟨s', _ | _⟩
    · rw [hd] at hframe
      exact hframe
    · rw [hd] at hframe
      simp only
      rw [ih s', hframe]

/-- A release that leaves a holder: the lock only loses the client, and nothing raises. -/
theorem doRelease_of_held {s : LockManagerNode ν} {r : Key ν} {lock : LockState ν} {c : Key ν}
    (hl : s.locks.get? r = some lock) (h : lock.holders.erase c ≠ ∅) (now : ν) :
    ∃ s', s.doRelease now r.toJson c.toJson = ⟨s', .ok ()⟩ ∧
      s'.locks.get? r = some { lock with holders := lock.holders.erase c } := by
  have hd : s.doRelease now r.toJson c.toJson = s.store r
      ⟨({ lock with holders := lock.holders.erase c }, s.deadlockDetector.removeClient c), .ok ()⟩ := by
    simp only [doRelease, Key.key?_toJson, hl]
    rw [LockState.release_of_held h]
  exact ⟨_, hd, Dict.get?_set_self s.locks r _⟩

theorem erase_of_cons {holder : Key ν} {rest : List (Key ν)} {holders : Finset (Key ν)}
    (hnodup : (holder :: rest).Nodup) (hset : (holder :: rest).toFinset = holders) :
    holders.erase holder = rest.toFinset := by
  rw [← hset, List.toFinset_cons, Finset.erase_insert]
  rw [List.mem_toFinset]
  exact (List.nodup_cons.1 hnodup).1

/-- The releases of all the holders, in any order, take the lock from all of them, and the last one hands it over. -/
theorem releaseEach_vacate {s : LockManagerNode ν} {r : Key ν} {lock : LockState ν} (clock : Key ν → ν)
    {hs : List (Key ν)} (hl : s.locks.get? r = some lock) (hne : hs ≠ []) (hnodup : hs.Nodup)
    (hset : hs.toFinset = lock.holders) :
    (s.releaseEach clock r hs).state.locks.get? r = some (lock.expire (clock (hs.getLast hne)) s.leaseTimeout) ∧
      (s.releaseEach clock r hs).result = (lock.vacate (clock (hs.getLast hne)) s.leaseTimeout).result := by
  induction hs generalizing s lock with
  | nil => exact absurd rfl hne
  | cons holder rest ih =>
    have hrest := erase_of_cons hnodup hset
    cases rest with
    | nil =>
      -- the last release hands the lock over, and nothing follows it
      have hfree : lock.holders.erase holder = ∅ := hrest
      have hd : s.doRelease (clock holder) r.toJson holder.toJson = s.store r (LockState.handOver
          { lock with holders := ∅ } (s.deadlockDetector.removeClient holder) (clock holder) s.leaseTimeout) := by
        simp only [doRelease, Key.key?_toJson, hl, LockState.release]
        rw [if_pos hfree, hfree]
      have hcongr := LockState.handOver_congr { lock with holders := ∅ } (s.deadlockDetector.removeClient holder) {}
        (clock holder) s.leaseTimeout
      have hget : (s.doRelease (clock holder) r.toJson holder.toJson).state.locks.get? r =
          some (lock.expire (clock holder) s.leaseTimeout) := by
        rw [hd, store, Dict.get?_set_self, hcongr.1]
        rfl
      have hres : (s.doRelease (clock holder) r.toJson holder.toJson).result =
          (lock.vacate (clock holder) s.leaseTimeout).result := by
        rw [hd, store, hcongr.2]
        rfl
      rw [releaseEach, List.getLast_singleton]
      rcases hrun : s.doRelease (clock holder) r.toJson holder.toJson with ⟨s', _ | _⟩
      · rw [hrun] at hget hres
        exact ⟨hget, hres⟩
      · rw [hrun] at hget hres
        exact ⟨hget, hres⟩
    | cons holder' rest =>
      have hheld : lock.holders.erase holder ≠ ∅ := by
        rw [hrest, List.toFinset_cons]
        exact Finset.insert_ne_empty _ _
      obtain ⟨s', hd, hl'⟩ := doRelease_of_held hl hheld (clock holder)
      have htimeout : s'.leaseTimeout = s.leaseTimeout := by
        have hframe := s.doRelease_leaseTimeout (clock holder) r.toJson holder.toJson
        rw [hd] at hframe
        exact hframe
      have hstep := ih hl' (List.cons_ne_nil _ _) (List.nodup_cons.1 hnodup).2 hrest.symm
      rw [htimeout] at hstep
      rw [releaseEach, hd, List.getLast_cons (List.cons_ne_nil holder' rest)]
      exact hstep

private theorem order_ne_nil {env : Sweep ν} {r : Key ν} {lock : LockState ν} (he : lock.expired env.now)
    (hset : (env.order r).toFinset = lock.holders) : env.order r ≠ [] := by
  intro h
  rw [h, List.toFinset_nil] at hset
  have hheld : lock.holders ≠ ∅ := (of_decide_eq_true he).1
  exact hheld hset.symm

theorem sweepFrom_handsOver {env : Sweep ν} {rs : List (Key ν)} {s : LockManagerNode ν} (hnodup : rs.Nodup)
    (hlists : ∀ r ∈ rs, ∀ lock, s.locks.get? r = some lock →
      (env.order r).Nodup ∧ (env.order r).toFinset = lock.holders) :
    (sweepFrom env rs s).HandsOver env rs s := by
  induction rs generalizing s with
  | nil => exact .none s
  | cons r₀ rs ih =>
    obtain ⟨hr₀, hnodup⟩ := List.nodup_cons.1 hnodup
    have hlists' := fun r hr => hlists r (List.mem_cons_of_mem _ hr)
    rw [sweepFrom]
    cases hl : s.locks.get? r₀ with
    | none => exact .none s
    | some lock =>
      simp only
      by_cases he : lock.expired env.now
      · rw [if_pos he]
        obtain ⟨hord, hset⟩ := hlists r₀ List.mem_cons_self lock hl
        have hne := order_ne_nil he hset
        have hself := (releaseEach_vacate (env.clock r₀) hl hne hord hset).1
        rw [← Sweep.handOverTime_eq hne] at hself
        have hother := fun r (h : r ≠ r₀) => releaseEach_get?_of_ne s (env.clock r₀) h (env.order r₀)
        have htimeout := s.releaseEach_leaseTimeout (env.clock r₀) r₀ (env.order r₀)
        rcases hrel : s.releaseEach (env.clock r₀) r₀ (env.order r₀) with ⟨s', _ | _⟩
        · rw [hrel] at hself hother
          exact .one hl he hself hother
        · rw [hrel] at hself hother htimeout
          have hrest := ih (s := s') hnodup fun r hr lock' hl' => by
            have hne : r ≠ r₀ := by
              rintro rfl
              exact hr₀ hr
            rw [hother r hne] at hl'
            exact hlists' r hr lock' hl'
          exact .cons hr₀ hl he hself hother htimeout hrest
      · rw [if_neg he]
        exact (ih hnodup hlists').mono

/-- A pass of the sweep hands over the locks that it reports, and leaves the others as they are. -/
theorem sweep_handsOver {env : Sweep ν} {s : LockManagerNode ν} (h : env.Lists s) :
    (s.sweep env).HandsOver env s.locks.keys s :=
  sweepFrom_handsOver s.locks.nodup_keys fun _ _ _ hl => h.of_get? hl

theorem sweep_expires {env : Sweep ν} {s : LockManagerNode ν} (h : env.Lists s) :
    (s.sweep env).Expires s.locks.keys s := (sweep_handsOver h).expires

end LockManagerNode

/-! ### What a pass reports -/

/-- The requests that wait for the lock can be hashed, so that handing it over does not raise. -/
def LockState.Hashable (lock : LockState ν) : Prop := ∀ w ∈ lock.waiting, ∃ c, w.clientId.key? = some c

theorem LockState.Hashable.nextGroup {lock : LockState ν} (h : lock.Hashable) :
    ∀ w ∈ Waiting.nextGroup lock.waiting, w.hashable := by
  intro w hw
  have hmem : w ∈ lock.waiting := by
    rw [← Waiting.nextGroup_append_behindGroup lock.waiting]
    exact List.mem_append_left _ hw
  exact Option.isSome_iff_exists.2 (h w hmem)

namespace LockManagerNode

/-- A lock that a pass can release without an exception. -/
def Releasable (s : LockManagerNode ν) (env : Sweep ν) (r : Key ν) : Prop :=
  ∃ lock, s.locks.get? r = some lock ∧ lock.Hashable ∧ (env.order r).Nodup ∧ (env.order r).toFinset = lock.holders

/-- When no hand-over comes to a client that cannot be hashed, a pass gets to the end. -/
theorem mem_sweepFrom_iff {env : Sweep ν} {rs : List (Key ν)} {s : LockManagerNode ν} (hnodup : rs.Nodup)
    (hlists : ∀ r ∈ rs, ∃ lock, s.locks.get? r = some lock ∧
      (env.order r).Nodup ∧ (env.order r).toFinset = lock.holders)
    (hhash : ∀ r ∈ rs, ∀ lock, s.locks.get? r = some lock → lock.expired env.now →
      ∀ w ∈ Waiting.nextGroup lock.waiting, w.hashable) {r : Key ν} :
    r ∈ (sweepFrom env rs s).expired ↔ r ∈ rs ∧ ∃ lock, s.locks.get? r = some lock ∧ lock.expired env.now := by
  induction rs generalizing s with
  | nil =>
    constructor
    · intro hr
      cases hr
    · rintro ⟨hr, -⟩
      cases hr
  | cons r₀ rs ih =>
    obtain ⟨hr₀, hnodup⟩ := List.nodup_cons.1 hnodup
    obtain ⟨lock, hl, hord, hset⟩ := hlists r₀ List.mem_cons_self
    have hlists' := fun r hr => hlists r (List.mem_cons_of_mem _ hr)
    have hhash' := fun r hr => hhash r (List.mem_cons_of_mem _ hr)
    rw [sweepFrom, hl]
    simp only
    by_cases he : lock.expired env.now
    · rw [if_pos he]
      have hne := order_ne_nil he hset
      have hok : (s.releaseEach (env.clock r₀) r₀ (env.order r₀)).result = .ok () := by
        rw [(releaseEach_vacate (env.clock r₀) hl hne hord hset).2]
        exact (LockState.vacate_of_hashable (hhash r₀ List.mem_cons_self lock hl he) _ _).1
      have hother := fun r (h : r ≠ r₀) => releaseEach_get?_of_ne s (env.clock r₀) h (env.order r₀)
      rcases hrun : s.releaseEach (env.clock r₀) r₀ (env.order r₀) with ⟨s', _ | _⟩
      · rw [hrun] at hok
        cases hok
      · rw [hrun] at hother
        have hne : ∀ r ∈ rs, r ≠ r₀ := by
          rintro r hr rfl
          exact hr₀ hr
        have hih := ih (s := s') hnodup
          (fun r hr => by rw [hother r (hne r hr)]; exact hlists' r hr)
          (fun r hr => by rw [hother r (hne r hr)]; exact hhash' r hr)
        rw [List.mem_cons, List.mem_cons, hih]
        constructor
        · rintro (rfl | ⟨hr, lock', hl', he'⟩)
          · exact ⟨Or.inl rfl, lock, hl, he⟩
          · exact ⟨Or.inr hr, lock', (hother r (hne r hr)).symm.trans hl', he'⟩
        · rintro ⟨rfl | hr, lock', hl', he'⟩
          · exact Or.inl rfl
          · exact Or.inr ⟨hr, lock', (hother r (hne r hr)).trans hl', he'⟩
    · rw [if_neg he, ih hnodup hlists' hhash', List.mem_cons]
      constructor
      · rintro ⟨hr, hlock⟩
        exact ⟨Or.inr hr, hlock⟩
      · rintro ⟨rfl | hr, lock', hl', he'⟩
        · obtain rfl : lock = lock' := Option.some.inj (hl.symm.trans hl')
          exact absurd he' he
        · exact ⟨hr, lock', hl', he'⟩

private theorem mem_sweepFrom_expired {env : Sweep ν} {rs : List (Key ν)} {s : LockManagerNode ν} (hnodup : rs.Nodup)
    (hrel : ∀ r ∈ rs, s.Releasable env r) {r : Key ν} :
    r ∈ (sweepFrom env rs s).expired ↔ r ∈ rs ∧ ∃ lock, s.locks.get? r = some lock ∧ lock.expired env.now := by
  refine mem_sweepFrom_iff hnodup (fun r hr => ?_) fun r hr lock hl _ => ?_
  · obtain ⟨lock, hl, -, hlists⟩ := hrel r hr
    exact ⟨lock, hl, hlists⟩
  · obtain ⟨lock', hl', hhash, -⟩ := hrel r hr
    obtain rfl : lock = lock' := Option.some.inj (hl.symm.trans hl')
    exact hhash.nextGroup

/-- When no release raises, a pass reports exactly the locks whose lease has run out when it starts. -/
theorem mem_expired_iff {env : Sweep ν} {s : LockManagerNode ν} (h : env.Lists s)
    (hhash : ∀ r lock, s.locks.get? r = some lock → lock.Hashable) {r : Key ν} :
    r ∈ (s.sweep env).expired ↔ ∃ lock, s.locks.get? r = some lock ∧ lock.expired env.now := by
  have hrel : ∀ r ∈ s.locks.keys, s.Releasable env r := by
    intro r hr
    obtain ⟨lock, hl⟩ := Dict.mem_keys.1 hr
    exact ⟨lock, hl, hhash r lock hl, h.of_get? hl⟩
  rw [sweep, mem_sweepFrom_expired s.locks.nodup_keys hrel]
  constructor
  · exact And.right
  · rintro ⟨lock, hl, he⟩
    exact ⟨Dict.mem_keys.2 ⟨lock, hl⟩, lock, hl, he⟩

end LockManagerNode

end DistributedSync
