import DistributedSync.Cache.Numbering

/-!
# Reads after a completed write

The writes and invalidations of a key that do not overlap are numbered.  A valid line holds the value of the last of
them that its node has processed (`Fresh.line`), and an answer to a read brings a value at least as recent as the
last one completed when the read began (`Fresh.answer`).  Reads, however, do not wait for anything: one that takes
an answer from a peer, while its node processes a write that the peer had not processed yet, leaves an old line
behind.  If no read does so, all reads return the value of the last completed write, or none (`read_fresh`).
-/

namespace DistributedSync

namespace CacheCluster

variable {α : Type}

/-- The value of an answer that has found the key. -/
def Answer.value? (ans : Answer α) : Option (Option α) :=
  match ans.reply with
  | .found value _ => some value
  | _ => none

/-- The answer that decides about the result of a read. -/
def Operation.supplier (m : Mesh) (p : Operation α) : Option (Answer α) :=
  (p.results m).foldl (fun acc ans => if ans.value?.isSome then some ans else acc) none

/-- A read that puts a line into a cache with room for it takes its value from a peer that had processed, when it
answered, all writes and invalidations of the key that the node of the read has processed. -/
def UpToDate (m : Mesh) (s : State α) : Action α → Prop
  | .complete i => ∀ p ∈ s.ops[i]?, p.request = .read → (p.found m).isSome → 0 < (s.cache p.node).maxSize →
      ∀ ans ∈ p.supplier m, s.processed p.node p.key ≤ ans.version
  | _ => True

/-! ### The deciding answer -/

variable {m : Mesh} {s s' : State α} {act : Action α}

/-- A peer answers a read with the value of its line. -/
theorem value?_processRemoteRead (s : State α) (b key : String) (n : Nat) :
    (⟨(CacheNode.processRemoteRead (s.cache b) key).2, n⟩ : Answer α).value? = (s.valid? b key).map Prod.snd := by
  unfold Answer.value?
  cases hline : s.valid? b key with
  | none =>
    have hmissing := (CacheNode.processRemoteRead_of_not_valid hline).1
    simp only [hmissing, Option.map_none]
  | some l =>
    obtain ⟨st, value⟩ := l
    have hfound := (CacheNode.processRemoteRead_of_valid hline).1
    simp only [hfound, Option.map_some]

private theorem foldl_found (l : List (Answer α)) (acc : Option (Answer α)) (found : Option α)
    (h : found = acc.bind fun ans => ans.value?.join) :
    (l.map (·.reply)).foldl (fun found resp => match resp with | .found value _ => value | _ => found) found =
      (l.foldl (fun acc ans => if ans.value?.isSome then some ans else acc) acc).bind fun ans => ans.value?.join := by
  induction l generalizing acc found with
  | nil => exact h
  | cons ans l ih =>
    rw [List.map_cons, List.foldl_cons, List.foldl_cons]
    refine ih _ _ ?_
    cases hreply : ans.reply with
    | found value st => simp [Answer.value?, hreply]
    | invalidated hadCopy => simpa [Answer.value?, hreply] using h
    | missing => simpa [Answer.value?, hreply] using h

/-- A read finds what the deciding answer brings. -/
theorem found_eq (m : Mesh) (p : Operation α) : p.found m = (p.supplier m).bind fun ans => ans.value?.join :=
  foldl_found (p.results m) none none rfl

private theorem foldl_mem (l : List (Answer α)) (acc : Option (Answer α)) {ans : Answer α}
    (h : l.foldl (fun acc ans => if ans.value?.isSome then some ans else acc) acc = some ans) :
    ans ∈ l ∨ acc = some ans := by
  induction l generalizing acc with
  | nil => exact Or.inr h
  | cons x l ih =>
    rw [List.foldl_cons] at h
    rcases ih _ h with hmem | hx
    · exact Or.inl (List.mem_cons_of_mem _ hmem)
    · by_cases hsome : x.value?.isSome
      · rw [if_pos hsome, Option.some.injEq] at hx
        rw [hx]
        exact Or.inl List.mem_cons_self
      · rw [if_neg hsome] at hx
        exact Or.inr hx

/-- The deciding answer of a read that finds a value is one of its answers. -/
theorem supplier_of_found {p : Operation α} {value : α} (h : p.found m = some value) :
    ∃ ans b st, p.supplier m = some ans ∧ p.answers.get? b = some ans ∧ ans.reply = .found (some value) st := by
  rw [found_eq, Option.bind_eq_some_iff] at h
  obtain ⟨ans, hans, hvalue⟩ := h
  have hmem : ans ∈ p.results m := by
    rcases foldl_mem _ _ hans with hmem | hnone
    · exact hmem
    · cases hnone
  obtain ⟨b, -, hb⟩ := List.mem_filterMap.1 hmem
  cases hreply : ans.reply with
  | found v st =>
    have hv : v = some value := by simpa [Answer.value?, hreply] using hvalue
    rw [hv] at hreply
    exact ⟨ans, b, st, hans, hb, hreply⟩
  | invalidated hadCopy => simp [Answer.value?, hreply] at hvalue
  | missing => simp [Answer.value?, hreply] at hvalue

private theorem foldl_isSome (l : List (Answer α)) (acc : Option (Answer α))
    (h : (∃ x ∈ l, x.value?.isSome) ∨ ∃ x, acc = some x ∧ x.value?.isSome) :
    ∃ ans, l.foldl (fun acc ans => if ans.value?.isSome then some ans else acc) acc = some ans ∧ ans.value?.isSome := by
  induction l generalizing acc with
  | nil =>
    rcases h with ⟨x, hx, -⟩ | h
    · cases hx
    · exact h
  | cons y l ih =>
    rw [List.foldl_cons]
    refine ih _ ?_
    by_cases hy : y.value?.isSome
    · rw [if_pos hy]
      exact Or.inr ⟨y, rfl, hy⟩
    · rw [if_neg hy]
      rcases h with ⟨x, hx, hsome⟩ | h
      · rcases List.mem_cons.1 hx with rfl | hx
        · exact absurd hsome hy
        · exact Or.inl ⟨x, hx, hsome⟩
      · exact Or.inr h

/-- A read with an answer that has found the key has a deciding one. -/
theorem exists_supplier {p : Operation α} (h : ∃ ans ∈ p.results m, ans.value?.isSome) :
    ∃ ans ∈ p.results m, p.supplier m = some ans ∧ ans.value?.isSome := by
  obtain ⟨ans, hsupplier, hsome⟩ := foldl_isSome (p.results m) none (Or.inl h)
  rcases foldl_mem _ _ hsupplier with hmem | hnone
  · exact ⟨ans, hmem, hsupplier, hsome⟩
  · cases hnone

/-! ### Values -/

/-- The completed write of the key with the number `n` wrote `value`. -/
def Current (s : State α) (key : String) (n : Nat) (value : Option α) : Prop :=
  n ≤ s.completed key ∧ ∃ j, n = j + 1 ∧ (s.updates key)[j]? = some (.write value)

theorem Current.mono {key : String} {n : Nat} {value : Option α} (h : Current s key n value)
    (hcompleted : s.completed key ≤ s'.completed key) (hupdates : s.updates key <+: s'.updates key) :
    Current s' key n value := by
  obtain ⟨hn, j, rfl, hj⟩ := h
  obtain ⟨t, ht⟩ := hupdates
  have hlt : j < (s.updates key).length := (List.getElem?_eq_some_iff.1 hj).1
  refine ⟨hn.trans hcompleted, j, rfl, ?_⟩
  rw [← ht, List.getElem?_append_left hlt]
  exact hj

private theorem Current.of_updates_eq {key : String} {n : Nat} {value : Option α} (h : Current s key n value)
    (hcompleted : s.completed key ≤ s'.completed key) (hupdates : s'.updates = s.updates) : Current s' key n value :=
  h.mono hcompleted ⟨[], by rw [hupdates, List.append_nil]⟩

/-- A value at least as recent as the last write begun is the value of that write. -/
theorem Current.eq_last {key : String} {n number : Nat} {value last : Option α} (h : Current s key n value)
    (hle : number ≤ n) (hnumber : number = (s.updates key).length)
    (hlast : (s.updates key).getLast? = some (.write last)) : value = last := by
  obtain ⟨-, j, rfl, hj⟩ := h
  have hlt : j < (s.updates key).length := (List.getElem?_eq_some_iff.1 hj).1
  have hidx : (s.updates key).length - 1 = j := by omega
  rw [List.getLast?_eq_getElem?, hidx, hj, Option.some.injEq] at hlast
  cases hlast
  rfl

/-- Valid lines hold the value of the last write that their node has processed, answers to reads bring the value of a
write at least as recent as the last one completed when the read began, and reads have returned such values. -/
structure Fresh (m : Mesh) (s : State α) : Prop where
  line : ∀ b ∈ m.nodes, ∀ k st value, s.valid? b k = some (st, value) → Current s k (s.processed b k) value
  number : ∀ q ∈ s.ops, q.request = .read → q.number ≤ s.completed q.key
  answer : ∀ q ∈ s.ops, q.request = .read → ∀ b ans value st, q.answers.get? b = some ans →
    ans.reply = .found value st → Current s q.key ans.version value ∧ q.number ≤ ans.version
  returned : ∀ e ∈ s.returned, ∀ value, e.number = e.updates.length → e.updates.getLast? = some (.write value) →
    e.result = none ∨ e.result = value

theorem Fresh.init (m : Mesh) : Fresh m (CacheCluster.init m : State α) where
  line b _ k st value h := by cases h
  number q hq := by cases hq
  answer q hq := by cases hq
  returned e he := by cases he

theorem Fresh.start_update (h : Fresh m s) (a : String) {key : String} {request : Request α}
    (hreq : request ≠ .read) : Fresh m (s.start a key request) := by
  have hcompleted : (s.start a key request).completed = s.completed := by rw [start_of_update s a key hreq]
  have hprocessed : (s.start a key request).processed = s.processed := by rw [start_of_update s a key hreq]
  have hreturned : (s.start a key request).returned = s.returned := by rw [start_of_update s a key hreq]
  have hcurrent : ∀ k n value, Current s k n value → Current (s.start a key request) k n value := by
    intro k n value hk
    refine hk.mono (by rw [hcompleted]) ?_
    rw [start_of_update s a key hreq]
    show s.updates k <+: Function.update s.updates key (s.updates key ++ [request]) k
    by_cases hkey : k = key
    · rw [hkey, Function.update_self]
      exact List.prefix_append _ _
    · exact ⟨[], by rw [Function.update_of_ne hkey, List.append_nil]⟩
  constructor
  · intro b hb k st value hline
    rw [valid?_start] at hline
    rw [hprocessed]
    exact hcurrent k _ value (h.line b hb k st value hline)
  · intro q hq hqreq
    rw [hcompleted]
    rcases mem_ops_start hq with hq | rfl
    · exact h.number q hq hqreq
    · exact absurd hqreq hreq
  · intro q hq hqreq b ans value st hans hreply
    rcases mem_ops_start hq with hq | rfl
    · obtain ⟨hvalue, hle⟩ := h.answer q hq hqreq b ans value st hans hreply
      exact ⟨hcurrent _ _ _ hvalue, hle⟩
    · cases hans
  · rw [hreturned]
    exact h.returned

theorem Fresh.start_read (h : Fresh m s) (ho : Ordered m s) {a : String} (ha : a ∈ m.nodes) (key : String) :
    Fresh m (s.start a key .read) := by
  cases hline : s.valid? a key with
  | none =>
    rw [start_of_miss hline]
    have hvalid : ∀ b k, ({ s with
        cache := (s.start a key .read).cache
        ops := s.ops ++ [s.fresh a key .read] } : State α).valid? b k = s.valid? b k :=
      fun b k => valid?_start a key .read b k
    constructor
    · intro b hb k st value hvalue
      rw [hvalid] at hvalue
      exact h.line b hb k st value hvalue
    · intro q hq hqreq
      rcases List.mem_append.1 hq with hq | hq
      · exact h.number q hq hqreq
      · rw [List.mem_singleton.1 hq]
        exact Nat.le_refl _
    · intro q hq hqreq b ans value st hans hreply
      rcases List.mem_append.1 hq with hq | hq
      · exact h.answer q hq hqreq b ans value st hans hreply
      · rw [List.mem_singleton.1 hq] at hans
        cases hans
    · exact h.returned
  | some l =>
    obtain ⟨st, found⟩ := l
    rw [start_of_hit hline]
    have hvalid : ∀ b k, ({ s with
        cache := (s.start a key .read).cache
        returned := s.returned ++ [⟨key, s.completed key, s.updates key, found⟩] } : State α).valid? b k =
          s.valid? b k := fun b k => valid?_start a key .read b k
    constructor
    · intro b hb k st value hvalue
      rw [hvalid] at hvalue
      exact h.line b hb k st value hvalue
    · exact h.number
    · exact h.answer
    · intro e he value hnumber hlast
      rcases List.mem_append.1 he with he | he
      · exact h.returned e he value hnumber hlast
      · -- a hit returns the value of a line
        obtain rfl := List.mem_singleton.1 he
        exact Or.inr ((h.line a ha key st found hline).eq_last (ho.completed_le ha key) hnumber hlast)

theorem Fresh.answer_step (h : Fresh m s) (ho : Ordered m s) {i : Nat} {p : Operation α} (hp : s.ops[i]? = some p)
    {b : String} (hb : b ∈ m.peers p.node) : Fresh m (s.answer i p b) := by
  have hmem : p ∈ s.ops := List.mem_of_getElem? hp
  have hnode : b ∈ m.nodes := ((m.knows p.node (ho.node p hmem) b).1 hb).1
  have hcurrent : ∀ {k n value}, Current s k n value → Current (s.answer i p b) k n value := fun hk =>
    hk.of_updates_eq (by rw [completed_answer]) (updates_answer s i p b)
  constructor
  · intro c hc k st value hline
    rw [valid?_answer] at hline
    by_cases hcb : c = b ∧ k = p.key
    · rw [if_pos hcb] at hline
      obtain ⟨hreq, -, st', hbefore⟩ := leaves_eq_some hline
      rw [processed_answer_of_read hreq, hcb.1, hcb.2]
      exact hcurrent (h.line b hnode p.key st' value hbefore)
    · rw [if_neg hcb] at hline
      have hprocessed : (s.answer i p b).processed c k = s.processed c k := by
        by_cases hreq : p.request = .read
        · rw [processed_answer_of_read hreq]
        · rw [processed_answer_of_update hreq, process_eq, if_neg hcb]
      rw [hprocessed]
      exact hcurrent (h.line c hc k st value hline)
  · intro q hq hqreq
    rw [completed_answer]
    rcases mem_ops_answer hq with hq | rfl
    · exact h.number q hq hqreq
    · exact h.number p hmem hqreq
  · intro q hq hqreq c ans value st hans hreply
    rcases mem_ops_answer hq with hq | rfl
    · obtain ⟨hvalue, hle⟩ := h.answer q hq hqreq c ans value st hans hreply
      exact ⟨hcurrent hvalue, hle⟩
    · have hreq : p.request = .read := hqreq
      unfold Operation.answered at hans
      rw [Dict.get?_set] at hans
      by_cases hcb : c = b
      · -- the answer is given from a valid line
        rw [if_pos hcb, hreq, Option.some.injEq] at hans
        have hvalue : ans.value? = some value := by
          unfold Answer.value?
          rw [hreply]
        rw [← hans, value?_processRemoteRead] at hvalue
        obtain ⟨⟨stBefore, found⟩, hline, rfl⟩ := Option.map_eq_some_iff.1 hvalue
        rw [← hans]
        refine ⟨hcurrent (h.line b hnode p.key stBefore found hline), ?_⟩
        exact (h.number p hmem hreq).trans (ho.completed_le hnode p.key)
      · rw [if_neg hcb] at hans
        obtain ⟨hvalue, hle⟩ := h.answer p hmem hreq c ans value st hans hreply
        exact ⟨hcurrent hvalue, hle⟩
  · rw [returned_answer]
    exact h.returned

/-- What is left of the invariant to show when an operation completes. -/
theorem Fresh.of_complete (h : Fresh m s) {i : Nat} {p : Operation α}
    (hcompleted : ∀ k, s.completed k ≤ (s.complete m i p).completed k)
    (hline : ∀ b ∈ m.nodes, ∀ k st value, (s.complete m i p).valid? b k = some (st, value) →
      Current (s.complete m i p) k ((s.complete m i p).processed b k) value)
    (hreturned : ∀ e ∈ (s.complete m i p).returned, ∀ value, e.number = e.updates.length →
      e.updates.getLast? = some (.write value) → e.result = none ∨ e.result = value) :
    Fresh m (s.complete m i p) where
  line := hline
  number q hq hqreq := by
    obtain ⟨q₀, hq₀, l, rfl⟩ := exists_of_mem_complete hq
    exact (h.number q₀ (List.mem_of_mem_eraseIdx hq₀) hqreq).trans (hcompleted q₀.key)
  answer q hq hqreq b ans value st hans hreply := by
    obtain ⟨q₀, hq₀, l, rfl⟩ := exists_of_mem_complete hq
    obtain ⟨hvalue, hle⟩ := h.answer q₀ (List.mem_of_mem_eraseIdx hq₀) hqreq b ans value st hans hreply
    exact ⟨hvalue.of_updates_eq (hcompleted q₀.key) (updates_complete m s i p), hle⟩
  returned := hreturned

theorem Fresh.complete_read (h : Fresh m s) (ho : Ordered m s) {i : Nat} {p : Operation α} (hp : s.ops[i]? = some p)
    (hreq : p.request = .read) (hok : UpToDate m s (.complete i)) : Fresh m (s.complete m i p) := by
  have hmem : p ∈ s.ops := List.mem_of_getElem? hp
  obtain ⟨hcompleted, hprocessed, hreturned⟩ := complete_of_read hreq m s i
  have hcurrent : ∀ {k n value}, Current s k n value → Current (s.complete m i p) k n value := fun hk =>
    hk.of_updates_eq (by rw [hcompleted]) (updates_complete m s i p)
  refine h.of_complete (fun k => by rw [hcompleted]) ?_ ?_
  · intro b hb k st value hline
    rw [hprocessed]
    by_cases hbn : b = p.node
    · subst hbn
      rcases valid?_complete_self m s i p k with hnone | hsame | ⟨rfl, hstores, hroom⟩
      · rw [hnone] at hline
        cases hline
      · rw [hsame] at hline
        exact hcurrent (h.line _ hb k st value hline)
      · -- the value comes from a peer that had processed no less than the node of the read
        rw [(valid?_complete_of_stores hstores i none).1 hroom] at hline
        unfold Operation.stores at hstores
        unfold Operation.installs at hline
        rw [hreq] at hstores hline
        obtain ⟨found, hfound⟩ := Option.isSome_iff_exists.1 hstores
        simp only [hfound, Option.elim_some, Option.some.injEq, Prod.mk.injEq] at hline
        obtain ⟨-, rfl⟩ := hline
        obtain ⟨ans, c, st', hsupplier, hans, hreply⟩ := supplier_of_found hfound
        have hvalue := (h.answer p hmem hreq c ans _ st' hans hreply).1
        have hge := hok p hp hreq hstores hroom ans hsupplier
        have hle := hvalue.1.trans (ho.completed_le hb p.key)
        have heq : s.processed p.node p.key = ans.version := by omega
        rw [heq]
        exact hcurrent hvalue
    · rw [valid?_complete_of_ne m s i p hbn] at hline
      exact hcurrent (h.line b hb k st value hline)
  · intro e he value hnumber hlast
    rw [hreturned] at he
    rcases List.mem_append.1 he with he | he
    · exact h.returned e he value hnumber hlast
    · obtain rfl := List.mem_singleton.1 he
      cases hfound : p.found m with
      | none => exact Or.inl rfl
      | some found =>
        obtain ⟨ans, c, st, -, hans, hreply⟩ := supplier_of_found hfound
        obtain ⟨hvalue, hle⟩ := h.answer p hmem hreq c ans _ st hans hreply
        exact Or.inr (hvalue.eq_last hle hnumber hlast)

theorem Fresh.complete_update (h : Fresh m s) (ho : Ordered m s) {i : Nat} {p : Operation α}
    (hp : s.ops[i]? = some p) (hreq : p.request ≠ .read) : Fresh m (s.complete m i p) := by
  have hmem : p ∈ s.ops := List.mem_of_getElem? hp
  obtain ⟨hcompleted, hprocessed, hreturned⟩ := complete_of_update hreq m s i
  obtain ⟨hnumber, hnext, hlast, hold⟩ := ho.busy p hmem hreq
  have hle : ∀ k, s.completed k ≤ (s.complete m i p).completed k := by
    intro k
    rw [hcompleted]
    by_cases hk : k = p.key
    · rw [hk, Function.update_self]
      omega
    · rw [Function.update_of_ne hk]
  have hcurrent : ∀ {k n value}, Current s k n value → Current (s.complete m i p) k n value := fun {k n value} hk =>
    hk.of_updates_eq (hle k) (updates_complete m s i p)
  refine h.of_complete hle ?_ (by rw [hreturned]; exact h.returned)
  intro b hb k st value hline
  rw [hprocessed, process_eq]
  by_cases hbk : b = p.node ∧ k = p.key
  · obtain ⟨rfl, rfl⟩ := hbk
    rw [if_pos ⟨rfl, rfl⟩]
    rcases valid?_complete m s i p p.node p.key with ⟨-, hnone⟩ | hvalid
    · rw [hnone] at hline
      cases hline
    · rw [hline, if_pos ⟨rfl, rfl⟩] at hvalid
      unfold Operation.installs at hvalid
      cases hkind : p.request with
      | read => exact absurd hkind hreq
      | write v =>
        simp only [hkind, Option.some.injEq, Prod.mk.injEq] at hvalid
        obtain ⟨-, rfl⟩ := hvalid
        rw [List.getLast?_eq_getElem?, hkind] at hlast
        refine ⟨by rw [hcompleted, Function.update_self], s.completed p.key, hnext.symm, ?_⟩
        have hidx : (s.updates p.key).length - 1 = s.completed p.key := by omega
        rw [updates_complete, ← hidx]
        exact hlast
      | invalidate =>
        simp only [hkind] at hvalid
        cases hvalid
  · rw [if_neg hbk]
    have hbefore : s.valid? b k = some (st, value) := by
      rcases valid?_complete m s i p b k with ⟨-, hnone⟩ | hvalid
      · rw [hnone] at hline
        cases hline
      · rw [if_neg hbk] at hvalid
        rw [← hvalid]
        exact hline
    exact hcurrent (h.line b hb k st value hbefore)

theorem Fresh.step (h : Fresh m s) (ho : Ordered m s) (hok : UpToDate m s act) (hstep : step m s act = some s') :
    Fresh m s' := by
  rcases step_cases hstep with ⟨a, key, request, -, ha, rfl⟩ | ⟨i, b, p, -, hp, hb, -, rfl⟩ | ⟨i, p, rfl, hp, -, rfl⟩
  · by_cases hreq : request = .read
    · rw [hreq]
      exact h.start_read ho ha key
    · exact h.start_update a hreq
  · exact h.answer_step ho hp hb
  · by_cases hreq : p.request = .read
    · exact h.complete_read ho hp hreq hok
    · exact h.complete_update ho hp hreq

/-- In a run whose writes and invalidations of a key do not overlap and whose reads leave no outdated lines, a read
that has begun after the completion of a write returns its value or none, unless a later write or invalidation of
the key has begun by then. -/
theorem read_fresh (h : Transition.ReachWhile (fun s a s' => step m s a = some s')
      (fun s a => NonOverlapping s a ∧ UpToDate m s a) (CacheCluster.init m) s)
    {e : Returned α} (he : e ∈ s.returned) {value : Option α} (hcompleted : e.number = e.updates.length)
    (hlast : e.updates.getLast? = some (.write value)) : e.result = none ∨ e.result = value := by
  have hinv := h.invariant (I := fun s => Ordered m s ∧ Fresh m s) ⟨Ordered.init m, Fresh.init m⟩
    fun _ _ _ _ hs hok hstep => ⟨hs.1.step hok.1 hstep, hs.2.step hs.1 hok.2 hstep⟩
  exact hinv.2.returned e he value hcompleted hlast

instance [DecidableEq α] (s : State α) : (a : Action α) → Decidable (NonOverlapping s a)
  | .start _ key request => inferInstanceAs (Decidable (request = .read ∨ ∀ q ∈ s.ops, q.key = key → q.request = .read))
  | .answer _ _ => isTrue trivial
  | .complete _ => isTrue trivial

instance [DecidableEq α] (m : Mesh) (s : State α) : (a : Action α) → Decidable (UpToDate m s a)
  | .start _ _ _ => isTrue trivial
  | .answer _ _ => isTrue trivial
  | .complete i => inferInstanceAs (Decidable (∀ p ∈ s.ops[i]?, p.request = .read → (p.found m).isSome →
      0 < (s.cache p.node).maxSize → ∀ ans ∈ p.supplier m, s.processed p.node p.key ≤ ans.version))

/-- The other node reads the value of a completed write, and again after that from its own line. -/
theorem read_fresh_run : ∃ (s : State Nat) (e : Returned Nat), e ∈ s.returned ∧ e.result = some 1 ∧
    Transition.ReachWhile (fun s a s' => step Mesh.pair s a = some s')
      (fun s a => NonOverlapping s a ∧ UpToDate Mesh.pair s a) (CacheCluster.init Mesh.pair) s ∧
    (e.result = none ∨ e.result = some 1) := by
  have hrun : (Transition.runWhile (step Mesh.pair) (fun s a => NonOverlapping s a ∧ UpToDate Mesh.pair s a)
      (CacheCluster.init Mesh.pair : State Nat) [
        .start "b" "k" (.write (some 1)), .answer 0 "a", .complete 0, .start "a" "k" .read, .answer 0 "b",
        .complete 0, .start "a" "k" .read]).map (fun s => s.returned.map fun e => (e.number, e.updates, e.result)) =
          some [(1, [.write (some 1)], some 1), (1, [.write (some 1)], some 1)] := by decide
  obtain ⟨s, hs, hobs⟩ := Option.map_eq_some_iff.1 hrun
  have hreach := (Transition.ReachWhile.of_runWhile .refl hs).1
  cases hreturned : s.returned with
  | nil =>
    rw [hreturned] at hobs
    cases hobs
  | cons e rest =>
    rw [hreturned, List.map_cons, List.cons.injEq] at hobs
    obtain ⟨hfields, -⟩ := hobs
    obtain ⟨hnumber, hfields⟩ := Prod.mk.inj hfields
    obtain ⟨hupdates, hresult⟩ := Prod.mk.inj hfields
    have hmem : e ∈ s.returned := by
      rw [hreturned]
      exact List.mem_cons_self
    refine ⟨s, e, hreturned ▸ hmem, hresult, hreach, read_fresh hreach hmem ?_ ?_⟩
    · rw [hnumber, hupdates]
      rfl
    · rw [hupdates]
      rfl

/-- A read takes the answer of `b` before `b` writes again, and leaves it in a line of `a` after the write is completed;
the next read at `a` returns it. -/
theorem stale_read : ¬∀ (m : Mesh) (s : State Nat),
    Transition.ReachWhile (fun s a s' => step m s a = some s') NonOverlapping (CacheCluster.init m) s →
      ∀ e ∈ s.returned, ∀ value, e.number = e.updates.length → e.updates.getLast? = some (.write value) →
        e.result = none ∨ e.result = value := by
  intro h
  have hrun : (Transition.runWhile (step Mesh.pair) NonOverlapping (CacheCluster.init Mesh.pair : State Nat) [
      .start "b" "k" (.write (some 1)), .answer 0 "a", .complete 0, .start "a" "k" .read, .answer 0 "b",
      .start "b" "k" (.write (some 2)), .answer 1 "a", .complete 1, .complete 0, .start "a" "k" .read]).map
        (fun s => s.returned.map fun e => (e.number, e.updates, e.result)) =
          some [(1, [.write (some 1), .write (some 2)], some 1), (2, [.write (some 1), .write (some 2)], some 1)] := by
    decide
  obtain ⟨s, hs, hobs⟩ := Option.map_eq_some_iff.1 hrun
  have hall := h .pair s (Transition.ReachWhile.of_runWhile .refl hs).1
  have hmem : (2, [Request.write (some 1), .write (some 2)], some 1) ∈
      s.returned.map fun e => (e.number, e.updates, e.result) := by
    rw [hobs]
    exact List.mem_cons_of_mem _ (List.mem_singleton_self _)
  obtain ⟨e, he, hfields⟩ := List.mem_map.1 hmem
  obtain ⟨hnumber, hfields⟩ := Prod.mk.inj hfields
  obtain ⟨hupdates, hresult⟩ := Prod.mk.inj hfields
  have hfresh := hall e he (some 2) (by rw [hnumber, hupdates]; rfl) (by rw [hupdates]; rfl)
  rw [hresult] at hfresh
  exact absurd hfresh (by decide)

end CacheCluster

end DistributedSync
