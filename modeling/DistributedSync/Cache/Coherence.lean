import DistributedSync.Cache.Cluster

/-!
# One writer at a time

A node may hold a modified line only while no other node holds a valid one.  An answer keeps its node from the
operation until this node completes an operation of its own on the key (`Settled`), and nothing makes the first
operation notice that.  So the invariant holds throughout a run just if no operation puts a line into a cache while
a peer that it has been overtaken by holds a line that conflicts with it (`single_writer_iff`).
-/

namespace DistributedSync

namespace CacheCluster

variable {α : Type}

/-- If a node holds a line in the state `M` or `E`, no other node holds the key in `M`, `E` or `S`. -/
def Coherent (m : Mesh) (s : State α) : Prop :=
  ∀ k, ∀ a ∈ m.nodes, ∀ b ∈ m.nodes, a ≠ b → ∀ st value, s.valid? a k = some (st, value) →
    st = .modified ∨ st = .exclusive → s.valid? b k = none

/-- The line of another node that a request leaves room for: a read any but a modified one, a write or an
invalidation none. -/
def Request.Allows : Request α → Option (CacheLineState × Option α) → Prop
  | .read, line => ∀ value, line ≠ some (.modified, value)
  | _, line => line = none

/-- An operation that puts a line into a cache with room for it has not been overtaken by a peer that holds a
conflicting line. -/
def Undisturbed (m : Mesh) (s : State α) : Action α → Prop
  | .complete i => ∀ p ∈ s.ops[i]?, p.stores m → 0 < (s.cache p.node).maxSize →
      ∀ b ∈ m.peers p.node, b ∈ p.overtaken → p.request.Allows (s.valid? b p.key)
  | _ => True

/-! ### Answered operations -/

variable {m : Mesh} {s s' : State α} {act : Action α}

private theorem Request.allows_none (r : Request α) : r.Allows none := by
  cases r with
  | read =>
    intro value h
    cases h
  | write value => rfl
  | invalidate => rfl

/-- An answer leaves a line that the request allows. -/
theorem Request.allows_leaves (r : Request α) (line : Option (CacheLineState × Option α)) :
    r.Allows (r.leaves line) := by
  cases r with
  | read =>
    intro value h
    obtain ⟨l, -, hl⟩ := Option.map_eq_some_iff.1 h
    cases hl
  | write value => rfl
  | invalidate => rfl

/-- A line that is allowed stays so after an answer to another request. -/
theorem Request.Allows.leaves {r : Request α} {line : Option (CacheLineState × Option α)} (h : r.Allows line)
    (r' : Request α) : r.Allows (r'.leaves line) := by
  cases r with
  | read =>
    cases r' with
    | read => exact Request.allows_leaves .read line
    | write value => exact Request.allows_none .read
    | invalidate => exact Request.allows_none .read
  | write value =>
    have hline : line = none := h
    rw [hline, leaves_none]
    rfl
  | invalidate =>
    have hline : line = none := h
    rw [hline, leaves_none]
    rfl

/-- What holds of the operations under way: they are on nodes of the cluster, no line is exclusive, and the line of
a peer that has answered and has not overtaken the operation is one that the request allows. -/
structure Settled (m : Mesh) (s : State α) : Prop where
  node : ∀ q ∈ s.ops, q.node ∈ m.nodes
  notExclusive : ∀ b k value, s.valid? b k ≠ some (.exclusive, value)
  answered : ∀ q ∈ s.ops, ∀ b ∈ q.answers.keys, b ∉ q.overtaken → q.request.Allows (s.valid? b q.key)

theorem Settled.start (h : Settled m s) {a key : String} (ha : a ∈ m.nodes) (request : Request α) :
    Settled m (s.start a key request) where
  node q hq := by
    rcases mem_ops_start hq with hq | rfl
    · exact h.node q hq
    · exact ha
  notExclusive b k value := by
    rw [valid?_start]
    exact h.notExclusive b k value
  answered q hq b hb hlate := by
    rw [valid?_start]
    rcases mem_ops_start hq with hq | rfl
    · exact h.answered q hq b hb hlate
    · cases hb

theorem Settled.answer (h : Settled m s) {i : Nat} {p : Operation α} (hp : p ∈ s.ops) (b : String) :
    Settled m (s.answer i p b) where
  node q hq := by
    rcases mem_ops_answer hq with hq | rfl
    · exact h.node q hq
    · exact h.node p hp
  notExclusive c k value := by
    rw [valid?_answer]
    by_cases hc : c = b ∧ k = p.key
    · rw [if_pos hc]
      intro hleaves
      cases (leaves_eq_some hleaves).2.1
    · rw [if_neg hc]
      exact h.notExclusive c k value
  answered q hq c hc hlate := by
    rw [valid?_answer]
    by_cases hcb : c = b ∧ q.key = p.key
    · rw [if_pos hcb]
      rcases mem_ops_answer hq with hq | rfl
      · -- an operation on the same key that `b` had answered before
        have hbefore := h.answered q hq c hc hlate
        rw [hcb.1, hcb.2] at hbefore
        exact hbefore.leaves p.request
      · exact p.request.allows_leaves _
    · rw [if_neg hcb]
      rcases mem_ops_answer hq with hq | rfl
      · exact h.answered q hq c hc hlate
      · have hold : c ∈ p.answers.keys := by
          rcases Dict.mem_keys_set.1 hc with rfl | hold
          · exact absurd ⟨rfl, rfl⟩ hcb
          · exact hold
        exact h.answered p hp c hold hlate

theorem Settled.complete (h : Settled m s) (i : Nat) (p : Operation α) : Settled m (s.complete m i p) where
  node q hq := by
    obtain ⟨q₀, hq₀, l, rfl⟩ := exists_of_mem_complete hq
    exact h.node q₀ (List.mem_of_mem_eraseIdx hq₀)
  notExclusive b k value := by
    rcases valid?_complete m s i p b k with ⟨-, hnone⟩ | hvalid
    · rw [hnone]
      intro hsome
      cases hsome
    · rw [hvalid]
      by_cases hb : b = p.node ∧ k = p.key
      · rw [if_pos hb]
        unfold Operation.installs
        cases p.request with
        | read =>
          cases p.found m with
          | none => exact h.notExclusive b k value
          | some found => simp
        | write v => simp
        | invalidate => simp
      · rw [if_neg hb]
        exact h.notExclusive b k value
  answered q hq b hb hlate := by
    obtain ⟨q₀, hq₀, rfl⟩ := mem_ops_complete hq
    have hmem : q₀ ∈ s.ops := List.mem_of_mem_eraseIdx hq₀
    unfold Operation.overtake at hb hlate ⊢
    by_cases hover : q₀.key = p.key ∧ p.node ∈ q₀.answers.keys
    · rw [if_pos hover] at hb hlate ⊢
      -- the node of the completed operation is among the peers that have overtaken `q₀`
      have hne : b ≠ p.node := fun hbn => hlate (hbn ▸ List.mem_cons_self)
      have hbefore := h.answered q₀ hmem b hb fun hold => hlate (List.mem_cons_of_mem _ hold)
      rcases valid?_complete m s i p b q₀.key with ⟨hbn, -⟩ | hvalid
      · exact absurd hbn hne
      · rw [if_neg fun hbk => hne hbk.1] at hvalid
        show q₀.request.Allows ((s.complete m i p).valid? b q₀.key)
        rw [hvalid]
        exact hbefore
    · rw [if_neg hover] at hb hlate ⊢
      have hbefore := h.answered q₀ hmem b hb hlate
      have hother : ¬(b = p.node ∧ q₀.key = p.key) := fun hbk => hover ⟨hbk.2, hbk.1 ▸ hb⟩
      rcases valid?_complete m s i p b q₀.key with ⟨-, hnone⟩ | hvalid
      · rw [hnone]
        exact q₀.request.allows_none
      · rw [if_neg hother] at hvalid
        rw [hvalid]
        exact hbefore

theorem Settled.step (h : Settled m s) (hstep : step m s act = some s') : Settled m s' := by
  rcases step_cases hstep with ⟨a, key, request, -, ha, rfl⟩ | ⟨i, b, p, -, hp, -, -, rfl⟩ | ⟨i, p, -, hp, -, rfl⟩
  · exact h.start ha request
  · exact h.answer (List.mem_of_getElem? hp) b
  · exact h.complete i p

theorem Settled.init (m : Mesh) : Settled m (CacheCluster.init m : State α) where
  node q hq := by cases hq
  notExclusive b k value h := by cases h
  answered q hq := by cases hq

/-! ### Coherent states -/

theorem Coherent.start (h : Coherent m s) (a key : String) (request : Request α) :
    Coherent m (s.start a key request) := by
  intro k b hb c hc hne st value hline hown
  rw [valid?_start] at hline ⊢
  exact h k b hb c hc hne st value hline hown

theorem Coherent.answer (h : Coherent m s) (i : Nat) (p : Operation α) (b : String) :
    Coherent m (s.answer i p b) := by
  intro k a ha c hc hne st value hline hown
  rw [valid?_answer] at hline ⊢
  by_cases hab : a = b ∧ k = p.key
  · rw [if_pos hab] at hline
    -- an answer leaves no line that its node owns
    have hst := (leaves_eq_some hline).2.1
    rcases hown with rfl | rfl
    · cases hst
    · cases hst
  · rw [if_neg hab] at hline
    have hnone := h k a ha c hc hne st value hline hown
    by_cases hcb : c = b ∧ k = p.key
    · rw [if_pos hcb, ← hcb.1, ← hcb.2, hnone, leaves_none]
    · rw [if_neg hcb, hnone]

/-- When an operation that has not been disturbed completes, the lines of the other nodes are ones that it allows. -/
theorem Settled.allows (h : Settled m s) {i : Nat} {p : Operation α} (hp : s.ops[i]? = some p)
    (hall : ∀ b ∈ m.peers p.node, b ∈ p.answers.keys) (hok : Undisturbed m s (.complete i)) (hstores : p.stores m)
    (hroom : 0 < (s.cache p.node).maxSize) {b : String} (hb : b ∈ m.nodes) (hne : b ≠ p.node) :
    p.request.Allows (s.valid? b p.key) := by
  have hmem : p ∈ s.ops := List.mem_of_getElem? hp
  have hpeer : b ∈ m.peers p.node := (m.knows p.node (h.node p hmem) b).2 ⟨hb, hne⟩
  by_cases hover : b ∈ p.overtaken
  · exact hok p hp hstores hroom b hpeer hover
  · exact h.answered p hmem b (hall b hpeer) hover

/-- A stored line that is owned is the one of a write, which allows no other line. -/
theorem installs_owned {p : Operation α} (h : p.stores m) {st : CacheLineState} {value : Option α}
    (hline : p.installs m none = some (st, value)) (hown : st = .modified ∨ st = .exclusive)
    {other : Option (CacheLineState × Option α)} (hother : p.request.Allows other) : other = none := by
  unfold Operation.stores at h
  unfold Operation.installs at hline
  cases hreq : p.request with
  | read =>
    rw [hreq] at h hline
    obtain ⟨found, hfound⟩ := Option.isSome_iff_exists.1 h
    simp only [hfound, Option.elim_some, Option.some.injEq, Prod.mk.injEq] at hline
    rcases hown with hst | hst
    · rw [hst] at hline
      cases hline.1
    · rw [hst] at hline
      cases hline.1
  | write v =>
    rw [hreq] at hother
    exact hother
  | invalidate =>
    rw [hreq] at h
    exact absurd h id

theorem Coherent.complete (h : Coherent m s) (hs : Settled m s) {i : Nat} {p : Operation α} (hp : s.ops[i]? = some p)
    (hall : ∀ b ∈ m.peers p.node, b ∈ p.answers.keys) (hok : Undisturbed m s (.complete i)) :
    Coherent m (s.complete m i p) := by
  intro k a ha c hc hne st value hline hown
  by_cases hap : a = p.node
  · -- the owner of the line completes the operation
    subst hap
    rw [valid?_complete_of_ne m s i p (Ne.symm hne)]
    rcases valid?_complete_self m s i p k with hnone | hsame | ⟨rfl, hstores, hroom⟩
    · rw [hnone] at hline
      cases hline
    · rw [hsame] at hline
      exact h k _ ha c hc hne st value hline hown
    · rw [(valid?_complete_of_stores hstores i none).1 hroom] at hline
      exact installs_owned hstores hline hown (hs.allows hp hall hok hstores hroom hc (Ne.symm hne))
  · rw [valid?_complete_of_ne m s i p hap] at hline
    have hnone := h k a ha c hc hne st value hline hown
    by_cases hcp : c = p.node
    · subst hcp
      rcases valid?_complete_self m s i p k with hgone | hsame | ⟨rfl, hstores, hroom⟩
      · exact hgone
      · rw [hsame, hnone]
      · -- the operation would have been disturbed by the owner
        have hallows := hs.allows hp hall hok hstores hroom ha hap
        rw [hline] at hallows
        have hmod : st = .modified := by
          rcases hown with hst | hst
          · exact hst
          · exact absurd (hst ▸ hline) (hs.notExclusive a p.key value)
        unfold Operation.stores at hstores
        cases hreq : p.request with
        | read =>
          rw [hreq, hmod] at hallows
          exact absurd rfl (hallows value)
        | write v =>
          rw [hreq] at hallows
          cases hallows
        | invalidate =>
          rw [hreq] at hstores
          exact absurd hstores id
    · rw [valid?_complete_of_ne m s i p hcp, hnone]

/-- The operation has been disturbed when two lines conflict after its completion. -/
theorem undisturbed_of_coherent (hs : Settled m s) {i : Nat} {p : Operation α} (hp : s.ops[i]? = some p)
    (h : Coherent m (s.complete m i p)) : Undisturbed m s (.complete i) := by
  intro p' hp' hstores hroom b hb hover
  obtain rfl : p' = p := Option.some.inj (hp'.symm.trans hp)
  have hnode : p'.node ∈ m.nodes := hs.node p' (List.mem_of_getElem? hp)
  have hpeer := (m.knows p'.node hnode b).1 hb
  have hline := (valid?_complete_of_stores (s := s) hstores i none).1 hroom
  have hother := valid?_complete_of_ne m s i p' hpeer.2 p'.key
  unfold Operation.stores at hstores
  unfold Operation.installs at hline
  cases hreq : p'.request with
  | read =>
    rw [hreq] at hstores hline
    -- the stored line is shared, so no other node can hold a modified one
    obtain ⟨found, hfound⟩ := Option.isSome_iff_exists.1 hstores
    simp only [hfound, Option.elim_some] at hline
    intro value hmod
    rw [hmod] at hother
    have hnone := h p'.key b hpeer.1 p'.node hnode hpeer.2 .modified value hother (Or.inl rfl)
    rw [hnone] at hline
    cases hline
  | write value =>
    rw [hreq] at hline
    have hnone := h p'.key p'.node hnode b hpeer.1 (Ne.symm hpeer.2) .modified value hline (Or.inl rfl)
    rw [hother] at hnone
    exact hnone
  | invalidate =>
    rw [hreq] at hstores
    exact absurd hstores id

theorem undisturbed_iff (hs : Settled m s) (h : Coherent m s) (hstep : step m s act = some s') :
    Undisturbed m s act ↔ Coherent m s' := by
  rcases step_cases hstep with
    ⟨a, key, request, rfl, -, rfl⟩ | ⟨i, b, p, rfl, -, -, -, rfl⟩ | ⟨i, p, rfl, hp, hall, rfl⟩
  · exact ⟨fun _ => h.start a key request, fun _ => trivial⟩
  · exact ⟨fun _ => h.answer i p b, fun _ => trivial⟩
  · exact ⟨h.complete hs hp hall, undisturbed_of_coherent hs hp⟩

/-- The invariant of one writer holds in every state of a run just if no operation of the run stores a line after a
peer with a conflicting line has overtaken it. -/
theorem single_writer_iff (m : Mesh) (as : List (Action α)) :
    (∀ pre, pre <+: as → ∀ s, Transition.run (step m) (CacheCluster.init m) pre = some s → Coherent m s) ↔
      ∀ pre a s s', pre ++ [a] <+: as → Transition.run (step m) (CacheCluster.init m) pre = some s →
        step m s a = some s' → Undisturbed m s a :=
  Transition.forall_prefix_iff (Settled.init m) (fun _ _ _ hs hst => hs.step hst)
    (fun _ _ _ _ _ _ _ _ h => by cases h) (fun _ _ _ hs h hst => undisturbed_iff hs h hst) as

/-- Two writes invalidate the line of the other node before either has stored its own. -/
theorem two_writers : ¬∀ (m : Mesh) (s : State Nat),
    Transition.Reach (fun s a s' => step m s a = some s') (CacheCluster.init m) s → Coherent m s := by
  intro h
  have hrun : (Transition.run (step Mesh.pair) (CacheCluster.init Mesh.pair : State Nat) [
      .start "a" "k" (.write (some 1)), .start "b" "k" (.write (some 2)), .answer 0 "b", .answer 1 "a",
      .complete 0, .complete 0]).map (fun s => (s.valid? "a" "k", s.valid? "b" "k")) =
        some (some (.modified, some 1), some (.modified, some 2)) := by decide
  obtain ⟨s, hs, hobs⟩ := Option.map_eq_some_iff.1 hrun
  obtain ⟨ha, hb⟩ := Prod.mk.inj hobs
  have hnone := h .pair s (Transition.reach_of_run hs) "k" "a" (by decide) "b" (by decide) (by decide) _ _ ha
    (Or.inl rfl)
  rw [hnone] at hb
  cases hb

end CacheCluster

end DistributedSync
