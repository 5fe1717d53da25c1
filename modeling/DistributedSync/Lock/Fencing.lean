import DistributedSync.Lock.Invariant

/-!
# Fencing tokens

A lock is granted in five places: a free lock to the client that asks for it, a shared lock to a client that joins it,
a lock without holders to the head of its queue, to the shared requests that follow the head, and all that again when
the sweep takes the lock from its holders.  Only some of these raise the fencing token.  `grants` and `expireGrants`
list the grants of a command and of an expiry with the token right after each (`LockManagerNode.step_granted`), and the
invariant `Fenced` says that while a lock is shared its token is greater than those of all exclusive grants so far.
So of two conflicting grants the later one has the greater token (`fencing_tokens_order`).
-/

namespace DistributedSync

/-- A client gets the lock in a mode, and `token` is the fencing token right after that. -/
structure Grant (ν : Type) where
  client : Key ν
  mode : LockType
  token : Nat

/-- If one of the two grants is exclusive the second one has the greater token. -/
def Grant.Ordered {ν : Type} (g g' : Grant ν) : Prop :=
  (g.mode = .exclusive ∨ g'.mode = .exclusive) → g.token < g'.token

variable {ν : Type}

namespace LockView

/-! ### Grants and tokens -/

/-- What the grants `gs` of a step from `v` to `w` are: `w` has the token of each, their clients hold it, and there
are no other new holders. -/
structure Granted (v w : LockView ν) (gs : List (Grant ν)) : Prop where
  token : ∀ g ∈ gs, g.token = w.fencingToken
  held : ∀ g ∈ gs, g.client ∈ w.holders
  new : ∀ c ∈ w.holders, c ∈ v.holders ∨ ∃ g ∈ gs, g.client = c

/-- The grants of a lock so far are in order, and while it is shared its token is greater than those of the exclusive
ones. -/
structure Fenced (v : LockView ν) (log : List (Grant ν)) : Prop where
  ordered : log.Pairwise Grant.Ordered
  bound : ∀ g ∈ log, g.token ≤ v.fencingToken
  shared : v.holders ≠ ∅ → v.lockType = some .shared → ∀ g ∈ log, g.mode = .exclusive → g.token < v.fencingToken

variable {v w : LockView ν} {log : List (Grant ν)}

theorem Granted.none (hsub : w.holders ⊆ v.holders) : Granted v w [] where
  token g hg := by cases hg
  held g hg := by cases hg
  new c hc := Or.inl (hsub hc)

theorem Granted.mono {u : LockView ν} {gs : List (Grant ν)} (h : Granted u w gs) (hsub : u.holders ⊆ v.holders) :
    Granted v w gs :=
  { h with new := fun c hc => (h.new c hc).imp_left fun hold => hsub hold }

theorem Fenced.nil (v : LockView ν) : v.Fenced [] where
  ordered := List.Pairwise.nil
  bound g hg := by cases hg
  shared _ _ g hg := by cases hg

/-- Nothing is granted, and a lock that ends up shared and held was so before. -/
theorem Fenced.keep (h : v.Fenced log) (htoken : w.fencingToken = v.fencingToken)
    (hshared : w.holders ≠ ∅ → w.lockType = some .shared → v.holders ≠ ∅ ∧ v.lockType = some .shared) :
    w.Fenced log where
  ordered := h.ordered
  bound g hg := by
    rw [htoken]
    exact h.bound g hg
  shared hheld htype g hg hex := by
    obtain ⟨hheld, htype⟩ := hshared hheld htype
    rw [htoken]
    exact h.shared hheld htype g hg hex

/-- A grant that raises the token, to a lock in the mode of the grant. -/
theorem Fenced.bump (h : v.Fenced log) {c : Key ν} {mode : LockType} (htoken : w.fencingToken = v.fencingToken + 1)
    (htype : w.lockType = some mode) : w.Fenced (log ++ [⟨c, mode, v.fencingToken + 1⟩]) where
  ordered := by
    refine List.pairwise_append.2 ⟨h.ordered, List.pairwise_singleton _ _, fun g hg g' hg' _ => ?_⟩
    have hbound := h.bound g hg
    rw [List.mem_singleton.1 hg']
    show g.token < v.fencingToken + 1
    omega
  bound g hg := by
    rw [htoken]
    rcases List.mem_append.1 hg with hg | hg
    · have hbound := h.bound g hg
      omega
    · rw [List.mem_singleton.1 hg]
  shared _ hshared g hg hex := by
    rw [htoken]
    rcases List.mem_append.1 hg with hg | hg
    · have hbound := h.bound g hg
      omega
    · rw [List.mem_singleton.1 hg] at hex
      have hmode : mode = .exclusive := hex
      rw [htype, hmode] at hshared
      cases hshared

/-- A client joins a shared lock, which keeps its token. -/
theorem Fenced.join (h : v.Fenced log) {c : Key ν} (hheld : v.holders ≠ ∅) (htype : v.lockType = some .shared)
    (htoken : w.fencingToken = v.fencingToken) : w.Fenced (log ++ [⟨c, .shared, v.fencingToken⟩]) where
  ordered := by
    refine List.pairwise_append.2 ⟨h.ordered, List.pairwise_singleton _ _, fun g hg g' hg' hconflict => ?_⟩
    rw [List.mem_singleton.1 hg'] at hconflict ⊢
    rcases hconflict with hex | hex
    · exact h.shared hheld htype g hg hex
    · cases hex
  bound g hg := by
    rw [htoken]
    rcases List.mem_append.1 hg with hg | hg
    · exact h.bound g hg
    · rw [List.mem_singleton.1 hg]
  shared _ _ g hg hex := by
    rw [htoken]
    rcases List.mem_append.1 hg with hg | hg
    · exact h.shared hheld htype g hg hex
    · rw [List.mem_singleton.1 hg] at hex
      cases hex

end LockView

variable [Number ν]

namespace LockView

/-- The grants of `_do_acquire`: of a free lock, or of a shared one that the client joins. -/
def acquireGrants (v : LockView ν) (clientId : Json ν) (lockType : LockType) : List (Grant ν) :=
  match clientId.key? with
  | none => []
  | some c =>
    if v.holders = ∅ then [⟨c, lockType, v.fencingToken + 1⟩]
    else if lockType = .shared ∧ v.lockType = some .shared then [⟨c, .shared, v.fencingToken⟩]
    else []

/-- The grants of the `while` loop of `_do_release`. -/
def joinGrants (token : Nat) : List (Json ν × LockType) → List (Grant ν)
  | [] => []
  | (clientId, lockType) :: rest =>
    if lockType = .shared then
      match clientId.key? with
      | none => []
      | some c => ⟨c, .shared, token⟩ :: joinGrants token rest
    else []

/-- The grants of the end of `_do_release`. -/
def handOverGrants (v : LockView ν) : List (Grant ν) :=
  match v.waiting with
  | [] => []
  | (clientId, lockType) :: rest =>
    match clientId.key? with
    | none => []
    | some c =>
      ⟨c, lockType, v.fencingToken + 1⟩ ::
        if lockType = .shared then joinGrants (v.fencingToken + 1) rest else []

def releaseGrants (v : LockView ν) (clientId : Json ν) : List (Grant ν) :=
  match clientId.key? with
  | none => []
  | some c => if v.holders.erase c = ∅ then v.handOverGrants else []

/-- The grants when all holders lose the lock. -/
def expireGrants (v : LockView ν) : List (Grant ν) := v.handOverGrants

/-- The grants of a command that names the resource of the lock. -/
def grants (v : LockView ν) (cmd : LockCommand ν) : List (Grant ν) :=
  if cmd.action.isStr "acquire" then
    match cmd.lockType? with
    | none => []
    | some lockType => v.acquireGrants cmd.clientId lockType
  else if cmd.action.isStr "release" then v.releaseGrants cmd.clientId
  else []

/-! ### The grants are those of the lock -/

variable {v w : LockView ν} {log : List (Grant ν)}

theorem Granted.one {g : Grant ν} (htoken : g.token = w.fencingToken)
    (hholders : w.holders = insert g.client v.holders) : Granted v w [g] where
  token g' hg' := by rw [List.mem_singleton.1 hg', htoken]
  held g' hg' := by
    rw [List.mem_singleton.1 hg', hholders]
    exact Finset.mem_insert_self _ _
  new c hc := by
    rw [hholders] at hc
    rcases Finset.mem_insert.1 hc with rfl | hc
    · exact Or.inr ⟨g, List.mem_singleton_self g, rfl⟩
    · exact Or.inl hc

/-- One more grant at the head, to a client that the other grants find among the holders. -/
theorem Granted.cons {u : LockView ν} {g : Grant ν} {gs : List (Grant ν)} (h : Granted u w gs)
    (htoken : g.token = w.fencingToken) (hheld : g.client ∈ w.holders)
    (hholders : u.holders = insert g.client v.holders) : Granted v w (g :: gs) where
  token g' hg' := by
    rcases List.mem_cons.1 hg' with rfl | hg'
    · exact htoken
    · exact h.token g' hg'
  held g' hg' := by
    rcases List.mem_cons.1 hg' with rfl | hg'
    · exact hheld
    · exact h.held g' hg'
  new c hc := by
    rcases h.new c hc with hold | ⟨g', hg', hgc⟩
    · rw [hholders] at hold
      rcases Finset.mem_insert.1 hold with rfl | hold
      · exact Or.inr ⟨g, List.mem_cons_self, rfl⟩
      · exact Or.inl hold
    · exact Or.inr ⟨g', List.mem_cons_of_mem _ hg', hgc⟩

theorem acquire_granted (v : LockView ν) (clientId : Json ν) (lockType : LockType) :
    Granted v (v.acquire clientId lockType) (v.acquireGrants clientId lockType) := by
  rw [acquire, acquireGrants]
  by_cases hfree : v.holders = ∅
  · simp only [if_pos hfree]
    cases clientId.key? with
    | none => exact .none (Finset.Subset.refl _)
    | some c => exact .one rfl rfl
  · simp only [if_neg hfree]
    by_cases hshared : lockType = .shared ∧ v.lockType = some .shared
    · simp only [if_pos hshared]
      cases clientId.key? with
      | none => exact .none (Finset.Subset.refl _)
      | some c => exact .one rfl rfl
    · simp only [if_neg hshared]
      cases clientId.key? with
      | none => exact .none (Finset.Subset.refl _)
      | some c => exact .none (Finset.Subset.refl _)

private theorem joinWaiting_token (v : LockView ν) (ws : List (Json ν × LockType)) :
    (v.joinWaiting ws).fencingToken = v.fencingToken := by
  induction ws generalizing v with
  | nil => rfl
  | cons w ws ih =>
    obtain ⟨clientId, lockType⟩ := w
    rw [joinWaiting]
    split
    · cases clientId.key? with
      | none => rfl
      | some c => exact ih _
    · rfl

/-- Each shared request that joins is granted with the token of the lock, and no holder leaves. -/
theorem joinWaiting_granted (v : LockView ν) (ws : List (Json ν × LockType)) :
    Granted v (v.joinWaiting ws) (joinGrants v.fencingToken ws) ∧ v.holders ⊆ (v.joinWaiting ws).holders := by
  induction ws generalizing v with
  | nil => exact ⟨.none (Finset.Subset.refl _), Finset.Subset.refl _⟩
  | cons w ws ih =>
    obtain ⟨clientId, lockType⟩ := w
    rw [joinWaiting, joinGrants]
    by_cases hs : lockType = .shared
    · simp only [if_pos hs]
      cases clientId.key? with
      | none => exact ⟨.none (Finset.Subset.refl _), Finset.Subset.refl _⟩
      | some c =>
        show Granted v (joinWaiting { v with holders := insert c v.holders } ws)
            (⟨c, .shared, v.fencingToken⟩ :: joinGrants v.fencingToken ws) ∧
          v.holders ⊆ (joinWaiting { v with holders := insert c v.holders } ws).holders
        obtain ⟨h, hsub⟩ := ih { v with holders := insert c v.holders }
        have htoken := (joinWaiting_token { v with holders := insert c v.holders } ws).symm
        exact ⟨h.cons htoken (hsub (Finset.mem_insert_self c v.holders)) rfl,
          (Finset.subset_insert c v.holders).trans hsub⟩
    · simp only [if_neg hs]
      exact ⟨.none (Finset.Subset.refl _), Finset.Subset.refl _⟩

private theorem handOver_granted (v : LockView ν) : Granted v v.handOver v.handOverGrants := by
  rw [handOver, handOverGrants]
  cases v.waiting with
  | nil => exact .none (Finset.Subset.refl _)
  | cons w rest =>
    obtain ⟨clientId, lockType⟩ := w
    simp only
    cases clientId.key? with
    | none => exact .none (Finset.Subset.refl _)
    | some c =>
      by_cases hs : lockType = .shared
      · simp only [if_pos hs]
        let u : LockView ν := ⟨some lockType, insert c v.holders, rest, v.fencingToken + 1⟩
        obtain ⟨h, hsub⟩ := joinWaiting_granted u rest
        have htoken := (joinWaiting_token u rest).symm
        exact h.cons htoken (hsub (Finset.mem_insert_self c v.holders)) rfl
      · simp only [if_neg hs]
        exact .one rfl rfl

private theorem release_granted (v : LockView ν) (clientId : Json ν) :
    Granted v (v.release clientId) (v.releaseGrants clientId) := by
  rw [release, releaseGrants]
  cases clientId.key? with
  | none => exact .none (Finset.Subset.refl _)
  | some c =>
    have hsub : v.holders.erase c ⊆ v.holders := Finset.erase_subset c v.holders
    simp only
    by_cases hfree : v.holders.erase c = ∅
    · rw [if_pos hfree, if_pos hfree]
      exact (handOver_granted { v with holders := v.holders.erase c }).mono hsub
    · rw [if_neg hfree, if_neg hfree]
      exact .none hsub

/-- The grants of a command are what it does to the lock. -/
theorem apply_granted (v : LockView ν) (cmd : LockCommand ν) : Granted v (v.apply cmd) (v.grants cmd) := by
  rw [apply, grants]
  by_cases ha : cmd.action.isStr "acquire"
  · rw [if_pos ha, if_pos ha, request]
    cases cmd.lockType? with
    | none => exact .none (Finset.Subset.refl _)
    | some lockType => exact acquire_granted v cmd.clientId lockType
  · rw [if_neg ha, if_neg ha]
    by_cases hr : cmd.action.isStr "release"
    · rw [if_pos hr, if_pos hr]
      exact release_granted v cmd.clientId
    · rw [if_neg hr, if_neg hr]
      exact .none (Finset.Subset.refl _)

private theorem expire_granted (v : LockView ν) : Granted v v.expire v.expireGrants :=
  (handOver_granted { v with holders := ∅ }).mono (Finset.empty_subset v.holders)

/-! ### The token -/

private theorem handOver_token_le (v : LockView ν) : v.fencingToken ≤ v.handOver.fencingToken := by
  rw [handOver]
  cases v.waiting with
  | nil => exact le_rfl
  | cons w rest =>
    obtain ⟨clientId, lockType⟩ := w
    simp only
    cases clientId.key? with
    | none => exact le_rfl
    | some c =>
      by_cases hs : lockType = .shared
      · simp only [if_pos hs, joinWaiting_token]
        omega
      · simp only [if_neg hs]
        omega

private theorem acquire_token_le (v : LockView ν) (clientId : Json ν) (lockType : LockType) :
    v.fencingToken ≤ (v.acquire clientId lockType).fencingToken := by
  rw [acquire]
  split
  · cases clientId.key? with
    | none => exact le_rfl
    | some c => exact Nat.le_succ v.fencingToken
  · split
    · cases clientId.key? <;> exact le_rfl
    · exact le_rfl

private theorem release_token_le (v : LockView ν) (clientId : Json ν) :
    v.fencingToken ≤ (v.release clientId).fencingToken := by
  rw [release]
  cases clientId.key? with
  | none => exact le_rfl
  | some c =>
    simp only
    split
    · exact handOver_token_le { v with holders := v.holders.erase c }
    · exact le_rfl

private theorem expire_token_le (v : LockView ν) : v.fencingToken ≤ v.expire.fencingToken :=
  handOver_token_le { v with holders := ∅ }

private theorem apply_token_le (v : LockView ν) (cmd : LockCommand ν) :
    v.fencingToken ≤ (v.apply cmd).fencingToken := by
  rw [apply]
  split
  · rw [request]
    cases cmd.lockType? with
    | none => exact le_rfl
    | some lockType => exact acquire_token_le v cmd.clientId lockType
  · split
    · exact release_token_le v cmd.clientId
    · exact le_rfl

/-! ### The invariant -/

theorem Fenced.acquire (h : v.Fenced log) (clientId : Json ν) (lockType : LockType) :
    (v.acquire clientId lockType).Fenced (log ++ v.acquireGrants clientId lockType) := by
  rw [LockView.acquire, acquireGrants]
  by_cases hfree : v.holders = ∅
  · simp only [if_pos hfree]
    cases clientId.key? with
    | none =>
      rw [List.append_nil]
      exact h.keep rfl fun hheld _ => absurd hfree hheld
    | some c => exact h.bump rfl rfl
  · simp only [if_neg hfree]
    by_cases hshared : lockType = .shared ∧ v.lockType = some .shared
    · simp only [if_pos hshared]
      cases clientId.key? with
      | none =>
        rw [List.append_nil]
        exact h
      | some c => exact h.join hfree hshared.2 rfl
    · simp only [if_neg hshared]
      have hkeep : Fenced { v with waiting := v.waiting ++ [(clientId, lockType)] } log :=
        h.keep rfl fun hheld htype => ⟨hheld, htype⟩
      cases clientId.key? <;> simpa using hkeep

/-- The induction is on the queue; the lock is shared and held all along. -/
theorem Fenced.joinWaiting (h : v.Fenced log) (hheld : v.holders ≠ ∅) (htype : v.lockType = some .shared)
    (ws : List (Json ν × LockType)) : (v.joinWaiting ws).Fenced (log ++ joinGrants v.fencingToken ws) := by
  induction ws generalizing v log with
  | nil =>
    rw [joinGrants, List.append_nil]
    exact h.keep rfl fun hheld htype => ⟨hheld, htype⟩
  | cons w ws ih =>
    obtain ⟨clientId, lockType⟩ := w
    rw [LockView.joinWaiting, joinGrants]
    by_cases hs : lockType = .shared
    · simp only [if_pos hs]
      cases clientId.key? with
      | none =>
        rw [List.append_nil]
        exact h.keep rfl fun hheld htype => ⟨hheld, htype⟩
      | some c =>
        have hjoin : Fenced { v with holders := insert c v.holders } (log ++ [⟨c, .shared, v.fencingToken⟩]) :=
          h.join hheld htype rfl
        have hrest := ih hjoin (Finset.insert_ne_empty c v.holders) htype
        rw [List.append_assoc, List.singleton_append] at hrest
        exact hrest
    · simp only [if_neg hs, List.append_nil]
      exact h.keep rfl fun hheld htype => ⟨hheld, htype⟩

theorem Fenced.handOver (h : v.Fenced log) (hfree : v.holders = ∅) : v.handOver.Fenced (log ++ v.handOverGrants) := by
  rw [LockView.handOver, handOverGrants]
  cases v.waiting with
  | nil =>
    rw [List.append_nil]
    exact h
  | cons w rest =>
    obtain ⟨clientId, lockType⟩ := w
    simp only
    cases clientId.key? with
    | none =>
      rw [List.append_nil]
      exact h.keep rfl fun hheld _ => absurd hfree hheld
    | some c =>
      have hhead : Fenced ⟨some lockType, insert c v.holders, rest, v.fencingToken + 1⟩
          (log ++ [⟨c, lockType, v.fencingToken + 1⟩]) := h.bump rfl rfl
      by_cases hs : lockType = .shared
      · simp only [if_pos hs]
        have hrest := hhead.joinWaiting (Finset.insert_ne_empty c v.holders) (congrArg some hs) rest
        rw [List.append_assoc, List.singleton_append] at hrest
        exact hrest
      · simp only [if_neg hs]
        exact hhead

theorem Fenced.release (h : v.Fenced log) (clientId : Json ν) :
    (v.release clientId).Fenced (log ++ v.releaseGrants clientId) := by
  rw [LockView.release, releaseGrants]
  cases clientId.key? with
  | none =>
    rw [List.append_nil]
    exact h
  | some c =>
    have hheld : v.holders.erase c ≠ ∅ → v.holders ≠ ∅ := by
      intro hne hempty
      rw [hempty, Finset.erase_empty] at hne
      exact hne rfl
    have hkeep : Fenced { v with holders := v.holders.erase c } log :=
      h.keep rfl fun hne htype => ⟨hheld hne, htype⟩
    simp only
    by_cases hfree : v.holders.erase c = ∅
    · rw [if_pos hfree, if_pos hfree]
      exact hkeep.handOver hfree
    · rw [if_neg hfree, if_neg hfree, List.append_nil]
      exact hkeep

theorem Fenced.expire (h : v.Fenced log) : v.expire.Fenced (log ++ v.expireGrants) := by
  have hkeep : Fenced { v with holders := ∅ } log := h.keep rfl fun hheld _ => absurd rfl hheld
  exact hkeep.handOver rfl

theorem Fenced.apply (h : v.Fenced log) (cmd : LockCommand ν) : (v.apply cmd).Fenced (log ++ v.grants cmd) := by
  rw [LockView.apply, grants]
  by_cases ha : cmd.action.isStr "acquire"
  · rw [if_pos ha, if_pos ha, request]
    cases cmd.lockType? with
    | none =>
      rw [List.append_nil]
      exact h
    | some lockType => exact h.acquire cmd.clientId lockType
  · rw [if_neg ha, if_neg ha]
    by_cases hr : cmd.action.isStr "release"
    · rw [if_pos hr, if_pos hr]
      exact h.release cmd.clientId
    · rw [if_neg hr, if_neg hr, List.append_nil]
      exact h

end LockView

/-! ### Runs of the node -/

namespace LockManagerNode

open LockView (Fenced Granted)

/-- The grants of the resource in a step. -/
def grants (s : LockManagerNode ν) (r : Key ν) : LockAction ν → List (Grant ν)
  | .apply _ cmd => if cmd.resource.key? = some r then (s.locks.view r).grants cmd else []
  | .sweep env => if r ∈ (s.sweep env).expired.toFinset then (s.locks.view r).expireGrants else []

/-- The grants of the resource in a run, in their order. -/
def grantLog (r : Key ν) (s : LockManagerNode ν) : List (LockAction ν) → List (Grant ν)
  | [] => []
  | a :: as =>
    match s.step a with
    | none => []
    | some s' => s.grants r a ++ grantLog r s' as

variable {s s' : LockManagerNode ν}

/-- What a pass of the sweep does to the lock of a resource: an expiry, or nothing. -/
theorem sweep_view_cases {env : Sweep ν} (hlists : env.Lists s) (r : Key ν) :
    (r ∈ (s.sweep env).expired.toFinset ∧ (s.sweep env).node.locks.view r = (s.locks.view r).expire ∧
        s.grants r (.sweep env) = (s.locks.view r).expireGrants) ∨
      ((s.sweep env).node.locks.view r = s.locks.view r ∧ s.grants r (.sweep env) = []) := by
  have hexp := sweep_expires hlists
  rw [grants]
  by_cases hr : r ∈ (s.sweep env).expired
  · have hmem := List.mem_toFinset.2 hr
    rw [if_pos hmem]
    exact Or.inl ⟨hmem, hexp.expired r hr, rfl⟩
  · rw [if_neg fun hmem => hr (List.mem_toFinset.1 hmem)]
    exact Or.inr ⟨hexp.others r hr, rfl⟩

/-- What a step does to the lock of a resource: a command or an expiry, or nothing. -/
theorem step_view_cases {a : LockAction ν} (hstep : s.step a = some s') (r : Key ν) :
    (∃ cmd, s'.locks.view r = (s.locks.view r).apply cmd ∧ s.grants r a = (s.locks.view r).grants cmd) ∨
      (s'.locks.view r = (s.locks.view r).expire ∧ s.grants r a = (s.locks.view r).expireGrants) ∨
      (s'.locks.view r = s.locks.view r ∧ s.grants r a = []) := by
  cases a with
  | apply now cmd =>
    obtain rfl : (s.applyLockCommand now cmd).state = s' := by simpa [step] using hstep
    rw [applyLockCommand_view, grants]
    by_cases hr : cmd.resource.key? = some r
    · rw [if_pos hr, if_pos hr]
      exact Or.inl ⟨cmd, rfl, rfl⟩
    · rw [if_neg hr, if_neg hr]
      exact Or.inr (Or.inr ⟨rfl, rfl⟩)
  | sweep env =>
    obtain ⟨hlists, rfl⟩ : env.Lists s ∧ (s.sweep env).node = s' := by simpa [step] using hstep
    exact Or.inr ((sweep_view_cases hlists r).imp_left And.right)

/-- The clients of the grants of a step are holders after it, with the token of the lock, and no other client has
become one. -/
theorem step_granted {a : LockAction ν} (hstep : s.step a = some s') (r : Key ν) :
    Granted (s.locks.view r) (s'.locks.view r) (s.grants r a) := by
  rcases step_view_cases hstep r with ⟨cmd, hview, hgrants⟩ | ⟨hview, hgrants⟩ | ⟨hview, hgrants⟩
  · rw [hview, hgrants]
    exact LockView.apply_granted _ cmd
  · rw [hview, hgrants]
    exact LockView.expire_granted _
  · rw [hview, hgrants]
    exact .none (Finset.Subset.refl _)

private theorem step_fenced {a : LockAction ν} {r : Key ν} {log : List (Grant ν)} (h : Fenced (s.locks.view r) log)
    (hstep : s.step a = some s') : Fenced (s'.locks.view r) (log ++ s.grants r a) := by
  rcases step_view_cases hstep r with ⟨cmd, hview, hgrants⟩ | ⟨hview, hgrants⟩ | ⟨hview, hgrants⟩
  · rw [hview, hgrants]
    exact h.apply cmd
  · rw [hview, hgrants]
    exact h.expire
  · rw [hview, hgrants, List.append_nil]
    exact h

private theorem step_token_le {a : LockAction ν} (hstep : s.step a = some s') (r : Key ν) :
    (s.locks.view r).fencingToken ≤ (s'.locks.view r).fencingToken := by
  rcases step_view_cases hstep r with ⟨cmd, hview, -⟩ | ⟨hview, -⟩ | ⟨hview, -⟩
  · rw [hview]
    exact LockView.apply_token_le _ cmd
  · rw [hview]
    exact LockView.expire_token_le _
  · rw [hview]

/-- The induction is on the steps of the run. -/
theorem run_fenced {r : Key ν} {log : List (Grant ν)} {actions : List (LockAction ν)}
    (h : Fenced (s.locks.view r) log) (hrun : Transition.run step s actions = some s') :
    Fenced (s'.locks.view r) (log ++ grantLog r s actions) := by
  induction actions generalizing s log with
  | nil =>
    cases hrun
    rw [grantLog, List.append_nil]
    exact h
  | cons a actions ih =>
    obtain ⟨t, hstep, hrun⟩ := Transition.run_cons.1 hrun
    have hrest := ih (step_fenced h hstep) hrun
    simp only [grantLog, hstep]
    rw [← List.append_assoc]
    exact hrest

private theorem run_token_le {actions : List (LockAction ν)} (hrun : Transition.run step s actions = some s')
    (r : Key ν) : (s.locks.view r).fencingToken ≤ (s'.locks.view r).fencingToken := by
  induction actions generalizing s with
  | nil =>
    cases hrun
    exact le_rfl
  | cons a actions ih =>
    obtain ⟨t, hstep, hrun⟩ := Transition.run_cons.1 hrun
    exact (step_token_le hstep r).trans (ih hrun)

/-- Of two grants of a resource in a run, at least one of them exclusive, the later one has the greater token, and the
token of the resource never decreases. -/
theorem fencing_tokens_order {leaseTimeout : ν} {actions : List (LockAction ν)} {s : LockManagerNode ν}
    (hrun : Transition.run step (start leaseTimeout) actions = some s) (r : Key ν) :
    (grantLog r (start leaseTimeout) actions).Pairwise Grant.Ordered ∧
      ∀ before after s₀, before ++ after = actions → Transition.run step (start leaseTimeout) before = some s₀ →
        (s₀.locks.view r).fencingToken ≤ (s.locks.view r).fencingToken := by
  constructor
  · have hfenced := run_fenced (Fenced.nil ((start leaseTimeout).locks.view r)) hrun
    rw [List.nil_append] at hfenced
    exact hfenced.ordered
  · rintro before after s₀ rfl hbefore
    rw [Transition.run_append, hbefore, Option.bind_some] at hrun
    exact run_token_le hrun r

/-- Two shared requests wait behind an exclusive holder, its lease expires, and another exclusive request gets the lock
when both have released it. -/
def turns : List (LockAction Int) :=
  [.apply 1 (.acquire (.str "r") (.str "a") (.str "exclusive") none),
    .apply 2 (.acquire (.str "r") (.str "b") (.str "shared") none),
    .apply 3 (.acquire (.str "r") (.str "c") (.str "shared") none),
    .sweep ⟨32, fun _ _ => 32, fun _ => [.str "a"]⟩, .apply 33 (.acquire (.str "r") (.str "a") (.str "exclusive") none),
    .apply 34 (.release (.str "r") (.str "b")), .apply 35 (.release (.str "r") (.str "c"))]

theorem fencing_tokens_order_turns : ∃ s, Transition.run step (start 30) turns = some s ∧
    (grantLog (.str "r") (start 30) turns).map Grant.token = [1, 2, 2, 3] ∧
    (grantLog (.str "r") (start 30) turns).Pairwise Grant.Ordered ∧
      ∀ before after s₀, before ++ after = turns → Transition.run step (start 30) before = some s₀ →
        (s₀.locks.view (.str "r")).fencingToken ≤ (s.locks.view (.str "r")).fencingToken := by
  have hsome : (Transition.run step (start 30) turns).isSome = true := by decide
  have htokens : (grantLog (.str "r") (start 30) turns).map Grant.token = [1, 2, 2, 3] := by decide
  obtain ⟨s, hs⟩ := Option.isSome_iff_exists.1 hsome
  exact ⟨s, hs, htokens, fencing_tokens_order hs (.str "r")⟩

end LockManagerNode

end DistributedSync
