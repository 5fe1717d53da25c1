import DistributedSync.Cache.Cluster
import DistributedSync.Library.Positions

/-!
# The numbers of writes and invalidations

As long as the writes and invalidations of a key do not overlap, their numbers say which of them each node has
processed (`Ordered`): all nodes those that are completed, and the peers that have answered also the one under way.
-/

namespace DistributedSync

namespace CacheCluster

variable {α : Type}

/-- Writes and invalidations of a key begin only while none of this key is under way. -/
def NonOverlapping (s : State α) : Action α → Prop
  | .start _ key request => request = .read ∨ ∀ q ∈ s.ops, q.key = key → q.request = .read
  | _ => True

variable {m : Mesh} {s s' : State α} {act : Action α}

/-! ### The steps in detail -/

theorem start_of_update (s : State α) (a key : String) {request : Request α} (h : request ≠ .read) :
    s.start a key request = { s with
      ops := s.ops ++ [s.fresh a key request]
      updates := Function.update s.updates key (s.updates key ++ [request]) } := by
  cases request with
  | read => exact absurd rfl h
  | write value => rfl
  | invalidate => rfl

/-- The read of a valid line returns its value at once. -/
theorem start_of_hit {a key : String} {st : CacheLineState} {value : Option α} (h : s.valid? a key = some (st, value)) :
    s.start a key .read = { s with
      cache := (s.start a key .read).cache
      returned := s.returned ++ [⟨key, s.completed key, s.updates key, value⟩] } := by
  unfold State.start
  have hhit := CacheNode.beginRead_of_valid h
  simp only [hhit]

theorem start_of_miss {a key : String} (h : s.valid? a key = none) :
    s.start a key .read = { s with
      cache := (s.start a key .read).cache
      ops := s.ops ++ [s.fresh a key .read] } := by
  unfold State.start
  have hmiss := CacheNode.beginRead_of_not_valid h
  simp only [hmiss]
  rfl

@[simp] theorem updates_answer (s : State α) (i : Nat) (p : Operation α) (b : String) :
    (s.answer i p b).updates = s.updates := by
  unfold State.answer
  cases p.request <;> rfl

@[simp] theorem completed_answer (s : State α) (i : Nat) (p : Operation α) (b : String) :
    (s.answer i p b).completed = s.completed := by
  unfold State.answer
  cases p.request <;> rfl

@[simp] theorem returned_answer (s : State α) (i : Nat) (p : Operation α) (b : String) :
    (s.answer i p b).returned = s.returned := by
  unfold State.answer
  cases p.request <;> rfl

theorem processed_answer_of_read {p : Operation α} (h : p.request = .read) (s : State α) (i : Nat) (b : String) :
    (s.answer i p b).processed = s.processed := by
  unfold State.answer
  simp only [h]

theorem processed_answer_of_update {p : Operation α} (h : p.request ≠ .read) (s : State α) (i : Nat) (b : String) :
    (s.answer i p b).processed = s.process b p.key p.number := by
  unfold State.answer
  cases hreq : p.request with
  | read => exact absurd hreq h
  | write value => rfl
  | invalidate => rfl

@[simp] theorem updates_complete (m : Mesh) (s : State α) (i : Nat) (p : Operation α) :
    (s.complete m i p).updates = s.updates := by
  unfold State.complete
  cases p.request <;> rfl

theorem complete_of_read {p : Operation α} (h : p.request = .read) (m : Mesh) (s : State α) (i : Nat) :
    (s.complete m i p).completed = s.completed ∧ (s.complete m i p).processed = s.processed ∧
      (s.complete m i p).returned = s.returned ++ [⟨p.key, p.number, s.updates p.key, p.found m⟩] := by
  have hresult : (CacheNode.finishRead (s.cache p.node) p.key ((p.results m).map (·.reply))).2 = p.found m := by
    cases hfound : p.found m with
    | none => rw [CacheNode.finishRead_of_none hfound]
    | some value => rw [CacheNode.finishRead_of_some hfound]
  unfold State.complete
  simp only [h, hresult]
  exact ⟨trivial, trivial, trivial⟩

theorem complete_of_update {p : Operation α} (h : p.request ≠ .read) (m : Mesh) (s : State α) (i : Nat) :
    (s.complete m i p).completed = Function.update s.completed p.key p.number ∧
      (s.complete m i p).processed = s.process p.node p.key p.number ∧ (s.complete m i p).returned = s.returned := by
  unfold State.complete
  cases hreq : p.request with
  | read => exact absurd hreq h
  | write value => exact ⟨rfl, rfl, rfl⟩
  | invalidate => exact ⟨rfl, rfl, rfl⟩

@[simp] theorem process_eq (s : State α) (b key : String) (number : Nat) (c k : String) :
    s.process b key number c k = if c = b ∧ k = key then number else s.processed c k := by
  unfold State.process
  by_cases hc : c = b
  · subst hc
    rw [Function.update_self]
    by_cases hk : k = key
    · rw [hk, Function.update_self, if_pos ⟨rfl, rfl⟩]
    · rw [Function.update_of_ne hk, if_neg fun h => hk h.2]
  · rw [Function.update_of_ne hc, if_neg fun h => hc h.1]

/-! ### The invariant -/

/-- What tells writes and invalidations of the same key apart. -/
def Operation.kind (q : Operation α) : String × Request α := (q.key, q.request)

/-- At most one write or invalidation of a key is under way.  It is the last one begun; the peers that have answered
it have processed it, and all nodes have processed those before. -/
structure Ordered (m : Mesh) (s : State α) : Prop where
  node : ∀ q ∈ s.ops, q.node ∈ m.nodes
  apart : (s.ops.map Operation.kind).Pairwise fun x y => x.1 = y.1 → x.2 = .read ∨ y.2 = .read
  idle : ∀ k, (∀ q ∈ s.ops, q.key = k → q.request = .read) →
    s.completed k = (s.updates k).length ∧ ∀ b ∈ m.nodes, s.processed b k = (s.updates k).length
  busy : ∀ q ∈ s.ops, q.request ≠ .read → q.number = (s.updates q.key).length ∧ s.completed q.key + 1 = q.number ∧
    (s.updates q.key).getLast? = some q.request ∧
    ∀ b ∈ m.nodes, s.processed b q.key = if b ∈ q.answers.keys then q.number else s.completed q.key

/-- No other write or invalidation of the key of one under way is under way. -/
theorem Ordered.others (h : Ordered m s) {i : Nat} {p : Operation α} (hp : s.ops[i]? = some p) {q : Operation α}
    (hq : q ∈ s.ops.eraseIdx i) (hkey : q.key = p.key) : p.request = .read ∨ q.request = .read := by
  have hperm := (Positions.perm_of_getElem? hp).map Operation.kind
  have hpairs := (hperm.pairwise_iff fun {x y} hxy hyx => (hxy hyx.symm).symm).2 h.apart
  rw [List.map_cons, List.pairwise_cons] at hpairs
  exact hpairs.1 q.kind (List.mem_map_of_mem hq) hkey.symm

/-- What is completed has been processed by all nodes. -/
theorem Ordered.completed_le (h : Ordered m s) {b : String} (hb : b ∈ m.nodes) (k : String) :
    s.completed k ≤ s.processed b k := by
  by_cases hidle : ∀ q ∈ s.ops, q.key = k → q.request = .read
  · have hk := h.idle k hidle
    rw [hk.1, hk.2 b hb]
  · push Not at hidle
    obtain ⟨q, hq, rfl, hreq⟩ := hidle
    obtain ⟨-, hnumber, -, hprocessed⟩ := h.busy q hq hreq
    rw [hprocessed b hb]
    by_cases hans : b ∈ q.answers.keys
    · rw [if_pos hans]
      omega
    · rw [if_neg hans]

private theorem kind_answered (s : State α) (p : Operation α) (b : String) : (p.answered s b).kind = p.kind := rfl

private theorem kind_overtake (a key : String) (q : Operation α) : (q.overtake a key).kind = q.kind := by
  obtain ⟨l, hl⟩ := overtake_eq a key q
  rw [hl]
  rfl

private theorem map_kind_answer (s : State α) {i : Nat} {p : Operation α} (hp : s.ops[i]? = some p) (b : String) :
    (s.answer i p b).ops.map Operation.kind = s.ops.map Operation.kind := by
  obtain ⟨hi, rfl⟩ := List.getElem?_eq_some_iff.1 hp
  rw [ops_answer, List.map_set, kind_answered]
  exact List.ext_getElem (by simp) fun j hj hj' => by
    by_cases hij : i = j
    · simp [hij]
    · simp [hij]

private theorem map_kind_complete (m : Mesh) (s : State α) (i : Nat) (p : Operation α) :
    ((s.complete m i p).ops.map Operation.kind).Sublist (s.ops.map Operation.kind) := by
  have hkind : Operation.kind ∘ Operation.overtake p.node p.key = (Operation.kind : Operation α → _) := by
    funext q
    exact kind_overtake p.node p.key q
  rw [ops_complete, List.map_map, hkind]
  exact (List.eraseIdx_sublist s.ops i).map _

theorem Ordered.init (m : Mesh) : Ordered m (CacheCluster.init m : State α) where
  node q hq := by cases hq
  apart := List.Pairwise.nil
  idle _ _ := ⟨rfl, fun _ _ => rfl⟩
  busy q hq := by cases hq

/-- A step that neither begins, answers nor completes a write or invalidation keeps the numbers. -/
theorem Ordered.of_reads (h : Ordered m s) (hcompleted : s'.completed = s.completed) (hupdates : s'.updates = s.updates)
    (hprocessed : s'.processed = s.processed) (hnode : ∀ q ∈ s'.ops, q.node ∈ m.nodes)
    (hapart : (s'.ops.map Operation.kind).Pairwise fun x y => x.1 = y.1 → x.2 = .read ∨ y.2 = .read)
    (hops : ∀ q ∈ s'.ops, q.request ≠ .read → ∃ l, { q with overtaken := l } ∈ s.ops)
    (hback : ∀ q ∈ s.ops, q.request ≠ .read → ∃ q' ∈ s'.ops, q'.kind = q.kind) : Ordered m s' where
  node := hnode
  apart := hapart
  idle k hk := by
    rw [hcompleted, hupdates, hprocessed]
    refine h.idle k fun q hq hkey => ?_
    by_contra hreq
    obtain ⟨q', hq', hkind⟩ := hback q hq hreq
    have hread := hk q' hq' ((congrArg Prod.fst hkind).trans hkey)
    exact hreq ((congrArg Prod.snd hkind).symm.trans hread)
  busy q hq hreq := by
    obtain ⟨l, hl⟩ := hops q hq hreq
    rw [hcompleted, hupdates, hprocessed]
    exact h.busy { q with overtaken := l } hl hreq

theorem Ordered.start_read (h : Ordered m s) {a : String} (ha : a ∈ m.nodes) (key : String) :
    Ordered m (s.start a key .read) := by
  have hfields : (s.start a key .read).completed = s.completed ∧ (s.start a key .read).updates = s.updates ∧
      (s.start a key .read).processed = s.processed := by
    cases hline : s.valid? a key with
    | none =>
      rw [start_of_miss hline]
      exact ⟨rfl, rfl, rfl⟩
    | some l =>
      rw [start_of_hit hline]
      exact ⟨rfl, rfl, rfl⟩
  refine h.of_reads hfields.1 hfields.2.1 hfields.2.2 ?_ ?_ ?_ ?_
  · intro q hq
    rcases mem_ops_start hq with hq | rfl
    · exact h.node q hq
    · exact ha
  · rcases ops_start s a key .read with hops | ⟨-, hops⟩
    · rw [hops, List.map_append, List.pairwise_append]
      refine ⟨h.apart, List.pairwise_singleton _ _, fun x _ y hy _ => Or.inr ?_⟩
      rw [List.map_singleton, List.mem_singleton] at hy
      rw [hy]
      rfl
    · rw [hops]
      exact h.apart
  · intro q hq hreq
    rcases mem_ops_start hq with hq | rfl
    · exact ⟨q.overtaken, hq⟩
    · exact absurd rfl hreq
  · intro q hq _
    rcases ops_start s a key .read with hops | ⟨-, hops⟩
    · exact ⟨q, by rw [hops]; exact List.mem_append_left _ hq, rfl⟩
    · exact ⟨q, by rw [hops]; exact hq, rfl⟩

theorem Ordered.start_update (h : Ordered m s) {a : String} (ha : a ∈ m.nodes) {key : String} {request : Request α}
    (hreq : request ≠ .read) (hno : ∀ q ∈ s.ops, q.key = key → q.request = .read) :
    Ordered m (s.start a key request) := by
  have hkey := h.idle key hno
  rw [start_of_update s a key hreq]
  have hother : ∀ k, k ≠ key →
      Function.update s.updates key (s.updates key ++ [request]) k = s.updates k :=
    fun k hk => Function.update_of_ne hk _ _
  have hsame : Function.update s.updates key (s.updates key ++ [request]) key = s.updates key ++ [request] :=
    Function.update_self _ _ _
  have hnumber : (s.fresh a key request).number = (s.updates key).length + 1 := by
    cases request with
    | read => exact absurd rfl hreq
    | write value => rfl
    | invalidate => rfl
  constructor
  · intro q hq
    rcases List.mem_append.1 hq with hq | hq
    · exact h.node q hq
    · rw [List.mem_singleton.1 hq]
      exact ha
  · rw [List.map_append, List.pairwise_append]
    refine ⟨h.apart, List.pairwise_singleton _ _, fun x hx y hy hxy => Or.inl ?_⟩
    obtain ⟨q, hq, rfl⟩ := List.mem_map.1 hx
    rw [List.map_singleton, List.mem_singleton] at hy
    rw [hy] at hxy
    exact hno q hq hxy
  · intro k hk
    -- the key of the new operation is not idle
    have hne : k ≠ key := by
      intro heq
      exact hreq (hk _ (List.mem_append_right _ (List.mem_singleton_self _)) heq.symm)
    show s.completed k = (Function.update s.updates key (s.updates key ++ [request]) k).length ∧
      ∀ b ∈ m.nodes, s.processed b k = (Function.update s.updates key (s.updates key ++ [request]) k).length
    rw [hother k hne]
    exact h.idle k fun q hq => hk q (List.mem_append_left _ hq)
  · intro q hq hqreq
    show q.number = (Function.update s.updates key (s.updates key ++ [request]) q.key).length ∧
      s.completed q.key + 1 = q.number ∧
      (Function.update s.updates key (s.updates key ++ [request]) q.key).getLast? = some q.request ∧
      ∀ b ∈ m.nodes, s.processed b q.key = if b ∈ q.answers.keys then q.number else s.completed q.key
    rcases List.mem_append.1 hq with hq | hq
    · rw [hother q.key fun heq => hqreq (hno q hq heq)]
      exact h.busy q hq hqreq
    · obtain rfl := List.mem_singleton.1 hq
      have hfresh : (s.fresh a key request).key = key := rfl
      rw [hfresh, hsame, hnumber, hkey.1, List.length_append, List.length_singleton, List.getLast?_concat]
      refine ⟨rfl, rfl, rfl, fun b hb => ?_⟩
      have hempty : b ∉ (s.fresh a key request).answers.keys := List.not_mem_nil
      rw [if_neg hempty, hkey.2 b hb]

private theorem Ordered.answer_read (h : Ordered m s) {i : Nat} {p : Operation α} (hp : s.ops[i]? = some p)
    (hreq : p.request = .read) (b : String) : Ordered m (s.answer i p b) := by
  have hops := ops_answer s i p b
  refine h.of_reads (completed_answer s i p b) (updates_answer s i p b) (processed_answer_of_read hreq s i b)
    ?_ ?_ ?_ ?_
  · intro q hq
    rcases mem_ops_answer hq with hq | rfl
    · exact h.node q hq
    · exact h.node p (List.mem_of_getElem? hp)
  · rw [map_kind_answer s hp]
    exact h.apart
  · intro q hq hqreq
    rcases mem_ops_answer hq with hq | rfl
    · exact ⟨q.overtaken, hq⟩
    · exact absurd hreq hqreq
  · intro q hq _
    rw [hops]
    rcases (Positions.mem_iff_of_getElem? hp).1 hq with rfl | hq
    · exact ⟨_, (Positions.mem_set_iff_of_getElem? hp).2 (Or.inl rfl), rfl⟩
    · exact ⟨q, (Positions.mem_set_iff_of_getElem? hp).2 (Or.inr hq), rfl⟩

private theorem Ordered.answer_update (h : Ordered m s) {i : Nat} {p : Operation α} (hp : s.ops[i]? = some p)
    (hreq : p.request ≠ .read) (b : String) : Ordered m (s.answer i p b) := by
  have hmem : p ∈ s.ops := List.mem_of_getElem? hp
  have hprocessed := processed_answer_of_update hreq s i b
  constructor
  · intro q hq
    rcases mem_ops_answer hq with hq | rfl
    · exact h.node q hq
    · exact h.node p hmem
  · rw [map_kind_answer s hp]
    exact h.apart
  · intro k hk
    rw [ops_answer] at hk
    have hne : k ≠ p.key := fun hkey =>
      hreq (hk (p.answered s b) ((Positions.mem_set_iff_of_getElem? hp).2 (Or.inl rfl)) hkey.symm)
    have hidle := h.idle k fun q hq hkey => by
      rcases (Positions.mem_iff_of_getElem? hp).1 hq with rfl | hq
      · exact absurd hkey.symm hne
      · exact hk q ((Positions.mem_set_iff_of_getElem? hp).2 (Or.inr hq)) hkey
    rw [completed_answer, updates_answer, hprocessed]
    refine ⟨hidle.1, fun c hc => ?_⟩
    rw [process_eq, if_neg fun h => hne h.2]
    exact hidle.2 c hc
  · intro q hq hqreq
    rw [ops_answer] at hq
    rw [completed_answer, updates_answer, hprocessed]
    rcases (Positions.mem_set_iff_of_getElem? hp).1 hq with rfl | hq
    · obtain ⟨hnumber, hnext, hlast, hold⟩ := h.busy p hmem hreq
      refine ⟨hnumber, hnext, hlast, fun c hc => ?_⟩
      have hkeys : c ∈ (p.answered s b).answers.keys ↔ c = b ∨ c ∈ p.answers.keys := Dict.mem_keys_set
      have hsame : (p.answered s b).key = p.key := rfl
      have hnum : (p.answered s b).number = p.number := rfl
      rw [process_eq, hsame, hnum]
      by_cases hcb : c = b
      · rw [if_pos ⟨hcb, rfl⟩, if_pos (hkeys.2 (Or.inl hcb))]
      · rw [if_neg fun h => hcb h.1, hold c hc]
        by_cases hans : c ∈ p.answers.keys
        · rw [if_pos hans, if_pos (hkeys.2 (Or.inr hans))]
        · rw [if_neg hans, if_neg fun hmem => (hkeys.1 hmem).elim hcb hans]
    · -- another write or invalidation is one of another key
      have hne : q.key ≠ p.key := fun hkey => (h.others hp hq hkey).elim hreq hqreq
      obtain ⟨hnumber, hnext, hlast, hold⟩ := h.busy q (List.mem_of_mem_eraseIdx hq) hqreq
      refine ⟨hnumber, hnext, hlast, fun c hc => ?_⟩
      rw [process_eq, if_neg fun h => hne h.2, hold c hc]

theorem Ordered.complete_read (h : Ordered m s) {i : Nat} {p : Operation α} (hp : s.ops[i]? = some p)
    (hreq : p.request = .read) : Ordered m (s.complete m i p) := by
  obtain ⟨hcompleted, hprocessed, -⟩ := complete_of_read hreq m s i
  refine h.of_reads hcompleted (updates_complete m s i p) hprocessed ?_ ?_ ?_ ?_
  · intro q hq
    obtain ⟨q₀, hq₀, l, rfl⟩ := exists_of_mem_complete hq
    exact h.node q₀ (List.mem_of_mem_eraseIdx hq₀)
  · exact h.apart.sublist (map_kind_complete m s i p)
  · intro q hq _
    obtain ⟨q₀, hq₀, l, rfl⟩ := exists_of_mem_complete hq
    exact ⟨q₀.overtaken, List.mem_of_mem_eraseIdx hq₀⟩
  · intro q hq hqreq
    rcases (Positions.mem_iff_of_getElem? hp).1 hq with rfl | hq
    · exact absurd hreq hqreq
    · refine ⟨q.overtake p.node p.key, ?_, kind_overtake _ _ q⟩
      rw [ops_complete]
      exact List.mem_map_of_mem hq

theorem Ordered.complete_update (h : Ordered m s) {i : Nat} {p : Operation α} (hp : s.ops[i]? = some p)
    (hreq : p.request ≠ .read) (hall : ∀ b ∈ m.peers p.node, b ∈ p.answers.keys) :
    Ordered m (s.complete m i p) := by
  have hmem : p ∈ s.ops := List.mem_of_getElem? hp
  obtain ⟨hcompleted, hprocessed, -⟩ := complete_of_update hreq m s i
  obtain ⟨hnumber, hnext, -, hold⟩ := h.busy p hmem hreq
  constructor
  · intro q hq
    obtain ⟨q₀, hq₀, l, rfl⟩ := exists_of_mem_complete hq
    exact h.node q₀ (List.mem_of_mem_eraseIdx hq₀)
  · exact h.apart.sublist (map_kind_complete m s i p)
  · intro k hk
    rw [hcompleted, updates_complete, hprocessed]
    by_cases hkey : k = p.key
    · -- the last one begun is completed, and all nodes have processed it
      rw [hkey, Function.update_self]
      refine ⟨hnumber, fun b hb => ?_⟩
      rw [process_eq, ← hnumber]
      by_cases hnode : b = p.node
      · rw [if_pos ⟨hnode, rfl⟩]
      · have hans := hall b ((m.knows p.node (h.node p hmem) b).2 ⟨hb, hnode⟩)
        rw [if_neg fun h => hnode h.1, hold b hb, if_pos hans]
    · have hidle := h.idle k fun q hq hqk => by
        rcases (Positions.mem_iff_of_getElem? hp).1 hq with rfl | hq
        · exact absurd hqk.symm hkey
        · have hq' : q.overtake p.node p.key ∈ (s.complete m i p).ops := by
            rw [ops_complete]
            exact List.mem_map_of_mem hq
          have hkind := kind_overtake p.node p.key q
          have hread := hk _ hq' ((congrArg Prod.fst hkind).trans hqk)
          exact (congrArg Prod.snd hkind).symm.trans hread
      rw [Function.update_of_ne hkey]
      refine ⟨hidle.1, fun b hb => ?_⟩
      rw [process_eq, if_neg fun h => hkey h.2, hidle.2 b hb]
  · intro q hq hqreq
    obtain ⟨q₀, hq₀, l, rfl⟩ := exists_of_mem_complete hq
    have hne : q₀.key ≠ p.key := fun hkey => (h.others hp hq₀ hkey).elim hreq hqreq
    obtain ⟨hnumber, hnext, hlast, hold⟩ := h.busy q₀ (List.mem_of_mem_eraseIdx hq₀) hqreq
    show q₀.number = ((s.complete m i p).updates q₀.key).length ∧ (s.complete m i p).completed q₀.key + 1 = q₀.number ∧
      ((s.complete m i p).updates q₀.key).getLast? = some q₀.request ∧ ∀ b ∈ m.nodes,
        (s.complete m i p).processed b q₀.key =
          if b ∈ q₀.answers.keys then q₀.number else (s.complete m i p).completed q₀.key
    rw [hcompleted, updates_complete, hprocessed, Function.update_of_ne hne]
    refine ⟨hnumber, hnext, hlast, fun b hb => ?_⟩
    rw [process_eq, if_neg fun h => hne h.2, hold b hb]

theorem Ordered.step (h : Ordered m s) (hok : NonOverlapping s act) (hstep : step m s act = some s') :
    Ordered m s' := by
  rcases step_cases hstep with ⟨a, key, request, rfl, ha, rfl⟩ | ⟨i, b, p, -, hp, -, -, rfl⟩ | ⟨i, p, -, hp, hall, rfl⟩
  · by_cases hreq : request = .read
    · rw [hreq]
      exact h.start_read ha key
    · exact h.start_update ha hreq (hok.resolve_left hreq)
  · by_cases hreq : p.request = .read
    · exact h.answer_read hp hreq b
    · exact h.answer_update hp hreq b
  · by_cases hreq : p.request = .read
    · exact h.complete_read hp hreq
    · exact h.complete_update hp hreq hall

end CacheCluster

end DistributedSync
