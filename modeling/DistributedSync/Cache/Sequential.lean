import DistributedSync.Cache.Coherence
import DistributedSync.Cache.Freshness

/-!
# One operation at a time

When every operation has been completed before the next one begins, no peer overtakes an operation and no read
leaves an old line behind, so the invariants of concurrent runs hold without further conditions (`Sequential`).
Then all valid lines of a key hold the value of the last write, and a read fails to return it only when no node has
a valid line (`sequential_coherence`).
-/

namespace DistributedSync

namespace CacheCluster

variable {α : Type}

/-- An operation begins only when no other one is under way. -/
def OneAtATime (s : State α) : Action α → Prop
  | .start _ _ _ => s.ops = []
  | _ => True

/-- The value of the last completed write of the key, unless an invalidation has been completed after it. -/
def State.lastWritten (s : State α) (key : String) : Option (Option α) :=
  match ((s.updates key).take (s.completed key)).getLast? with
  | some (.write value) => some value
  | _ => none

variable {m : Mesh} {s s' : State α} {act : Action α}

/-- The write with the number of the last one completed is the last write. -/
theorem Current.lastWritten {key : String} {n : Nat} {value : Option α} (h : Current s key n value)
    (hle : s.completed key ≤ n) : s.lastWritten key = some value := by
  obtain ⟨hn, j, rfl, hj⟩ := h
  have hcompleted : s.completed key = j + 1 := by omega
  have hlast : ((s.updates key).take (j + 1)).getLast? = some (.write value) := by
    rw [List.getLast?_take, if_neg (Nat.succ_ne_zero j), Nat.add_sub_cancel, hj, Option.some_or]
  unfold State.lastWritten
  simp only [hcompleted, hlast]

/-! ### The invariant -/

/-- What holds of the only operation under way: no peer overtakes it; while it is a read, no write or invalidation is
completed, its node has no valid line, and the answers agree with the lines of the peers. -/
structure Lone (s : State α) : Prop where
  single : s.ops.length ≤ 1
  overtaken : ∀ q ∈ s.ops, q.overtaken = []
  number : ∀ q ∈ s.ops, q.request = .read → q.number = s.completed q.key
  missed : ∀ q ∈ s.ops, q.request = .read → s.valid? q.node q.key = none
  answer : ∀ q ∈ s.ops, q.request = .read → ∀ b ans, q.answers.get? b = some ans →
    ans.value? = (s.valid? b q.key).map Prod.snd

/-- The invariants of concurrent runs, with at most one operation under way. -/
structure Sequential (m : Mesh) (s : State α) : Prop extends Lone s where
  ordered : Ordered m s
  settled : Settled m s
  fresh : Fresh m s
  coherent : Coherent m s

private theorem Lone.of_ops_nil (hops : s.ops = []) : Lone s := by
  have hno : ∀ q, q ∉ s.ops := by
    intro q hq
    rw [hops] at hq
    cases hq
  constructor
  · rw [hops]
    exact Nat.zero_le 1
  · exact fun q hq => absurd hq (hno q)
  · exact fun q hq => absurd hq (hno q)
  · exact fun q hq => absurd hq (hno q)
  · exact fun q hq => absurd hq (hno q)

private theorem Lone.eq_of_mem (h : Lone s) {p q : Operation α} (hp : p ∈ s.ops) (hq : q ∈ s.ops) : q = p := by
  have hlen := h.single
  cases hops : s.ops with
  | nil =>
    rw [hops] at hp
    cases hp
  | cons x l =>
    rw [hops, List.length_cons] at hlen
    have hl : l = [] := List.eq_nil_of_length_eq_zero (by omega)
    rw [hops, hl, List.mem_singleton] at hp hq
    rw [hp, hq]

private theorem Lone.eraseIdx_eq_nil (h : Lone s) {i : Nat} {p : Operation α} (hp : s.ops[i]? = some p) :
    s.ops.eraseIdx i = [] := by
  obtain ⟨hi, -⟩ := List.getElem?_eq_some_iff.1 hp
  have hlen := h.single
  apply List.eq_nil_of_length_eq_zero
  rw [List.length_eraseIdx_of_lt hi]
  omega

theorem Sequential.init (m : Mesh) : Sequential m (CacheCluster.init m : State α) where
  toLone := .of_ops_nil rfl
  ordered := Ordered.init m
  settled := Settled.init m
  fresh := Fresh.init m
  coherent _ _ _ _ _ _ _ _ h := by cases h

/-- A node with a valid line has processed just the completed writes and invalidations. -/
theorem Sequential.processed_eq (h : Sequential m s) {a key : String} (ha : a ∈ m.nodes)
    {line : CacheLineState × Option α} (hline : s.valid? a key = some line) :
    s.processed a key = s.completed key := by
  by_cases hidle : ∀ q ∈ s.ops, q.key = key → q.request = .read
  · have hkey := h.ordered.idle key hidle
    rw [hkey.1, hkey.2 a ha]
  · push Not at hidle
    obtain ⟨q, hq, rfl, hreq⟩ := hidle
    obtain ⟨-, -, -, hprocessed⟩ := h.ordered.busy q hq hreq
    by_cases hans : a ∈ q.answers.keys
    · -- the line would have been invalidated by the answer
      have hlate : a ∉ q.overtaken := by
        rw [h.overtaken q hq]
        exact List.not_mem_nil
      have hallows := h.settled.answered q hq a hans hlate
      rw [hline] at hallows
      cases hkind : q.request with
      | read => exact absurd hkind hreq
      | write value =>
        rw [hkind] at hallows
        cases hallows
      | invalidate =>
        rw [hkind] at hallows
        cases hallows
    · rw [hprocessed a ha, if_neg hans]

theorem Sequential.value (h : Sequential m s) {a key : String} (ha : a ∈ m.nodes) {st : CacheLineState}
    {value : Option α} (hline : s.valid? a key = some (st, value)) : s.lastWritten key = some value := by
  have hcurrent := h.fresh.line a ha key st value hline
  exact hcurrent.lastWritten (by rw [h.processed_eq ha hline])

/-! ### The conditions of concurrent runs -/

private theorem OneAtATime.nonOverlapping (h : OneAtATime s act) : NonOverlapping s act := by
  cases act with
  | start a key request =>
    have hops : s.ops = [] := h
    refine Or.inr fun q hq => ?_
    rw [hops] at hq
    cases hq
  | answer i b => trivial
  | complete i => trivial

theorem Sequential.upToDate (h : Sequential m s) (act : Action α) : UpToDate m s act := by
  cases act with
  | start a key request => trivial
  | answer i b => trivial
  | complete i =>
    intro p hp hreq hfound _ ans hans
    have hmem : p ∈ s.ops := List.mem_of_getElem? hp
    -- the read is all that is under way, so its node has processed just what is completed
    have hidle := h.ordered.idle p.key fun q hq _ => by rw [h.eq_of_mem hmem hq, hreq]
    have hprocessed : s.processed p.node p.key = p.number := by
      rw [h.number p hmem hreq, hidle.1, hidle.2 p.node (h.ordered.node p hmem)]
    obtain ⟨value, hvalue⟩ := Option.isSome_iff_exists.1 hfound
    obtain ⟨ans', b, st, hsupplier, hget, hreply⟩ := supplier_of_found hvalue
    obtain rfl : ans' = ans := Option.some.inj (hsupplier.symm.trans hans)
    rw [hprocessed]
    exact (h.fresh.answer p hmem hreq b ans' (some value) st hget hreply).2

private theorem Sequential.undisturbed (h : Sequential m s) (act : Action α) : Undisturbed m s act := by
  cases act with
  | start a key request => trivial
  | answer i b => trivial
  | complete i =>
    intro p hp _ _ b _ hover
    rw [h.overtaken p (List.mem_of_getElem? hp)] at hover
    cases hover

/-! ### Steps -/

private theorem completed_start (s : State α) (a key : String) (request : Request α) :
    (s.start a key request).completed = s.completed := by
  by_cases hreq : request = .read
  · rw [hreq]
    cases hline : s.valid? a key with
    | none => rw [start_of_miss hline]
    | some l =>
      obtain ⟨st, value⟩ := l
      rw [start_of_hit hline]
  · rw [start_of_update s a key hreq]

/-- A read under way after its beginning is one that has missed. -/
theorem start_read_missed (hops : s.ops = []) {a key : String} {q : Operation α}
    (hq : q ∈ (s.start a key .read).ops) : s.valid? a key = none := by
  cases hline : s.valid? a key with
  | none => rfl
  | some l =>
    obtain ⟨st, value⟩ := l
    have hno : (s.start a key .read).ops = [] := by
      rw [start_of_hit hline]
      exact hops
    rw [hno] at hq
    cases hq

theorem Lone.start (hops : s.ops = []) (a key : String) (request : Request α) : Lone (s.start a key request) := by
  have honly : ∀ q ∈ (s.start a key request).ops, q = s.fresh a key request := by
    intro q hq
    rcases mem_ops_start hq with hq | hq
    · rw [hops] at hq
      cases hq
    · exact hq
  constructor
  · rcases ops_start s a key request with hafter | ⟨-, hafter⟩
    · rw [hafter, hops]
      exact Nat.le_refl 1
    · rw [hafter, hops]
      exact Nat.zero_le 1
  · intro q hq
    rw [honly q hq]
    rfl
  · intro q hq hreq
    obtain rfl := honly q hq
    have hread : request = .read := hreq
    rw [completed_start, hread]
    rfl
  · intro q hq hreq
    obtain rfl := honly q hq
    have hread : request = .read := hreq
    rw [hread] at hq
    rw [valid?_start]
    exact start_read_missed hops hq
  · intro q hq _ b ans hans
    rw [honly q hq] at hans
    cases hans

/-- The answer to a read leaves the values of the lines as they are. -/
theorem value_answer_of_read {p : Operation α} (hreq : p.request = .read) (i : Nat) (b c : String) :
    ((s.answer i p b).valid? c p.key).map Prod.snd = (s.valid? c p.key).map Prod.snd := by
  rw [valid?_answer]
  by_cases hc : c = b
  · rw [if_pos ⟨hc, rfl⟩, hreq, hc]
    show ((s.valid? b p.key).map fun l => (CacheLineState.shared, l.2)).map Prod.snd = _
    rw [Option.map_map]
    rfl
  · rw [if_neg fun h => hc h.1]

theorem Lone.answer_step (h : Lone s) {i : Nat} {p : Operation α} (hp : s.ops[i]? = some p) {b : String}
    (hb : b ≠ p.node) : Lone (s.answer i p b) := by
  have hmem : p ∈ s.ops := List.mem_of_getElem? hp
  have honly : ∀ q ∈ (s.answer i p b).ops, q = p.answered s b := by
    intro q hq
    rw [ops_answer] at hq
    rcases (Positions.mem_set_iff_of_getElem? hp).1 hq with heq | hq
    · exact heq
    · rw [h.eraseIdx_eq_nil hp] at hq
      cases hq
  constructor
  · rw [ops_answer, List.length_set]
    exact h.single
  · intro q hq
    rw [honly q hq]
    exact h.overtaken p hmem
  · intro q hq hreq
    rw [honly q hq] at hreq ⊢
    rw [completed_answer]
    exact h.number p hmem hreq
  · intro q hq hreq
    rw [honly q hq] at hreq ⊢
    show (s.answer i p b).valid? p.node p.key = none
    rw [valid?_answer, if_neg fun heq => hb heq.1.symm]
    exact h.missed p hmem hreq
  · intro q hq hreq c ans hans
    rw [honly q hq] at hreq hans ⊢
    have hread : p.request = .read := hreq
    show ans.value? = ((s.answer i p b).valid? c p.key).map Prod.snd
    rw [value_answer_of_read hread]
    unfold Operation.answered at hans
    rw [Dict.get?_set] at hans
    by_cases hcb : c = b
    · rw [if_pos hcb, hread, Option.some.injEq] at hans
      rw [← hans, hcb]
      exact value?_processRemoteRead s b p.key _
    · rw [if_neg hcb] at hans
      exact h.answer p hmem hread c ans hans

theorem Lone.complete (h : Lone s) {i : Nat} {p : Operation α} (hp : s.ops[i]? = some p) :
    Lone (s.complete m i p) := by
  refine .of_ops_nil ?_
  rw [ops_complete, h.eraseIdx_eq_nil hp]
  rfl

theorem Sequential.step (h : Sequential m s) (hok : OneAtATime s act) (hstep : step m s act = some s') :
    Sequential m s' where
  toLone := by
    rcases step_cases hstep with
      ⟨a, key, request, rfl, -, rfl⟩ | ⟨i, b, p, rfl, hp, hb, -, rfl⟩ | ⟨i, p, rfl, hp, -, rfl⟩
    · exact .start hok a key request
    · have hnode := h.ordered.node p (List.mem_of_getElem? hp)
      exact h.toLone.answer_step hp ((m.knows p.node hnode b).1 hb).2
    · exact h.toLone.complete hp
  ordered := h.ordered.step hok.nonOverlapping hstep
  settled := h.settled.step hstep
  fresh := h.fresh.step h.ordered (h.upToDate act) hstep
  coherent := (undisturbed_iff h.settled h.coherent hstep).1 (h.undisturbed act)

/-! ### Reads that return -/

private theorem Sequential.reading_lastWritten (h : Sequential m s) {p : Operation α} (hp : p ∈ s.ops)
    (hreq : p.request = .read) {value : α} (hfound : p.found m = some value) :
    s.lastWritten p.key = some (some value) := by
  obtain ⟨ans, b, st, -, hget, hreply⟩ := supplier_of_found hfound
  obtain ⟨hcurrent, hle⟩ := h.fresh.answer p hp hreq b ans (some value) st hget hreply
  rw [h.number p hp hreq] at hle
  exact hcurrent.lastWritten hle

/-- A read that has been answered by all peers finds the last write if a node has a valid line. -/
theorem Sequential.found_of_valid (h : Sequential m s) {p : Operation α} (hp : p ∈ s.ops) (hreq : p.request = .read)
    (hall : ∀ b ∈ m.peers p.node, b ∈ p.answers.keys) {value : α} (hlast : s.lastWritten p.key = some (some value))
    {b : String} (hb : b ∈ m.nodes) {line : CacheLineState × Option α} (hline : s.valid? b p.key = some line) :
    p.found m = some value := by
  have hnode : p.node ∈ m.nodes := h.ordered.node p hp
  -- every answer that has found the key brings the value of a valid line, which is that of the last write
  have hvalue : ∀ c ∈ m.nodes, ∀ found, (s.valid? c p.key).map Prod.snd = some found → found = some value := by
    intro c hc found hfound
    obtain ⟨⟨st, w⟩, hc', rfl⟩ := Option.map_eq_some_iff.1 hfound
    have hw := h.value hc hc'
    rw [hlast, Option.some.injEq] at hw
    exact hw.symm
  have hne : b ≠ p.node := by
    rintro rfl
    rw [h.missed p hp hreq] at hline
    cases hline
  have hpeer : b ∈ m.peers p.node := (m.knows p.node hnode b).2 ⟨hb, hne⟩
  obtain ⟨ans, hans⟩ := Dict.mem_keys.1 (hall b hpeer)
  have hsome : ans.value?.isSome := by
    rw [h.answer p hp hreq b ans hans, hline]
    rfl
  obtain ⟨last, hmem, hsupplier, hlastSome⟩ :=
    exists_supplier ⟨ans, List.mem_filterMap.2 ⟨b, hpeer, hans⟩, hsome⟩
  obtain ⟨c, hc, hget⟩ := List.mem_filterMap.1 hmem
  obtain ⟨found, hfound⟩ := Option.isSome_iff_exists.1 hlastSome
  have hagree := h.answer p hp hreq c last hget
  rw [hfound] at hagree
  have heq := hvalue c ((m.knows p.node hnode c).1 hc).1 found hagree.symm
  rw [found_eq, hsupplier]
  show last.value?.join = some value
  rw [hfound, heq]
  rfl

/-- A read returns the value of the last write or none, and none instead of a value only if no node has a valid
line. -/
theorem Sequential.returned (h : Sequential m s) (hstep : CacheCluster.step m s act = some s') {r : Returned α}
    (hr : s'.returned = s.returned ++ [r]) : (r.result = none ∨ s.lastWritten r.key = some r.result) ∧
      (r.result = none → ∀ value : α, s.lastWritten r.key = some (some value) →
        ∀ b ∈ m.nodes, s.valid? b r.key = none) := by
  have hlater : ∀ l : List (Returned α), l ≠ l ++ [r] := fun l hl => by simpa using congrArg List.length hl
  rcases step_cases hstep with ⟨a, key, request, -, ha, rfl⟩ | ⟨i, b, p, -, -, -, -, rfl⟩ | ⟨i, p, -, hp, hall, rfl⟩
  · by_cases hreq : request = .read
    · rw [hreq] at hr
      cases hline : s.valid? a key with
      | none =>
        rw [start_of_miss hline] at hr
        exact absurd hr (hlater _)
      | some l =>
        obtain ⟨st, found⟩ := l
        rw [start_of_hit hline] at hr
        obtain rfl : _ = r := List.singleton_inj.1 (List.append_cancel_left hr)
        have hlast := h.value ha hline
        refine ⟨Or.inr hlast, fun hnone value hvalue => ?_⟩
        have hfound : found = none := hnone
        rw [hlast, hfound] at hvalue
        cases hvalue
    · rw [start_of_update s a key hreq] at hr
      exact absurd hr (hlater _)
  · rw [returned_answer] at hr
    exact absurd hr (hlater _)
  · by_cases hreq : p.request = .read
    · have hmem : p ∈ s.ops := List.mem_of_getElem? hp
      obtain ⟨-, -, hreturned⟩ := complete_of_read hreq m s i
      rw [hreturned] at hr
      obtain rfl : _ = r := List.singleton_inj.1 (List.append_cancel_left hr)
      constructor
      · cases hfound : p.found m with
        | none => exact Or.inl rfl
        | some value => exact Or.inr (h.reading_lastWritten hmem hreq hfound)
      · intro hnone value hlast b hb
        have hfound : p.found m = none := hnone
        by_contra hvalid
        obtain ⟨line, hline⟩ := Option.ne_none_iff_exists'.1 hvalid
        rw [h.found_of_valid hmem hreq hall hlast hb hline] at hfound
        cases hfound
    · rw [(complete_of_update hreq m s i).2.2] at hr
      exact absurd hr (hlater _)

/-- In a run of operations one at a time, all valid lines of a key hold the value of the last write to it since its last
invalidation, a modified line is the only valid one, and a read returns that value or none, and none instead of it
only if no node has a valid line. -/
theorem sequential_coherence
    (h : Transition.ReachWhile (fun s a s' => step m s a = some s') OneAtATime (CacheCluster.init m) s) :
    (∀ key, ∀ a ∈ m.nodes, ∀ st value, s.valid? a key = some (st, value) → s.lastWritten key = some value) ∧
      (∀ key, ∀ a ∈ m.nodes, ∀ b ∈ m.nodes, a ≠ b → ∀ value, s.valid? a key = some (.modified, value) →
        s.valid? b key = none) ∧
      ∀ act s' (r : Returned α), step m s act = some s' → s'.returned = s.returned ++ [r] →
        (r.result = none ∨ s.lastWritten r.key = some r.result) ∧
          (r.result = none → ∀ value : α, s.lastWritten r.key = some (some value) →
            ∀ b ∈ m.nodes, s.valid? b r.key = none) := by
  have hinv := h.invariant (Sequential.init m) fun _ _ _ _ hs hok hstep => hs.step hok hstep
  refine ⟨fun key a ha st value hline => hinv.value ha hline, ?_, fun act s' r hstep hr => hinv.returned hstep hr⟩
  intro key a ha b hb hne value hline
  exact hinv.coherent key a ha b hb hne .modified value hline (Or.inl rfl)

instance [DecidableEq α] (s : State α) : (a : Action α) → Decidable (OneAtATime s a)
  | .start _ _ _ => inferInstanceAs (Decidable (s.ops = []))
  | .answer _ _ => isTrue trivial
  | .complete _ => isTrue trivial

/-- A write of another key evicts the only valid line, so a read at the other node returns none. -/
theorem sequential_coherence_evicted : ∃ s s' : State Nat, ∃ r,
    Transition.ReachWhile (fun s a s' => step Mesh.pair s a = some s') OneAtATime (CacheCluster.init Mesh.pair) s ∧
      step Mesh.pair s (.complete 0) = some s' ∧ s'.returned = s.returned ++ [r] ∧ r.result = none ∧
      s.lastWritten r.key = some (some 1) ∧ s.lastWritten "l" = some (some 2) ∧ s.valid? "a" "l" = none ∧
      ∀ b ∈ Mesh.pair.nodes, s.valid? b r.key = none := by
  have hrun : (Transition.runWhile (step Mesh.pair) OneAtATime (CacheCluster.init Mesh.pair : State Nat) [
      .start "b" "k" (.write (some 1)), .answer 0 "a", .complete 0, .start "b" "l" (.write (some 2)), .answer 0 "a",
      .complete 0, .start "a" "k" .read, .answer 0 "b"]).map (fun s => decide (
        s.valid? "b" "l" = some (.modified, some 2) ∧ s.lastWritten "k" = some (some 1) ∧ s.returned.length = 0 ∧
        (step Mesh.pair s (.complete 0)).map (fun s' => s'.returned.map fun r => (r.key, r.result)) =
          some [("k", none)])) = some true := by decide
  obtain ⟨s, hs, hobs⟩ := Option.map_eq_some_iff.1 hrun
  obtain ⟨hline, hlast, hbefore, hnext⟩ := of_decide_eq_true hobs
  obtain ⟨s', hstep, hafter⟩ := Option.map_eq_some_iff.1 hnext
  obtain ⟨r, hreturned, hr⟩ := List.map_eq_singleton_iff.1 hafter
  obtain ⟨hkey, hresult⟩ := Prod.mk.inj hr
  rw [← hkey] at hlast
  have hreach := (Transition.ReachWhile.of_runWhile .refl hs).1
  have happend : s'.returned = s.returned ++ [r] := by
    rw [List.eq_nil_of_length_eq_zero hbefore, List.nil_append, hreturned]
  obtain ⟨hvalue, hsingle, hread⟩ := sequential_coherence hreach
  exact ⟨s, s', r, hreach, hstep, happend, hresult, hlast, hvalue "l" "b" (by decide) _ _ hline,
    hsingle "l" "b" (by decide) "a" (by decide) (by decide) _ hline,
    (hread (.complete 0) s' r hstep happend).2 hresult 1 hlast⟩

end CacheCluster

end DistributedSync
