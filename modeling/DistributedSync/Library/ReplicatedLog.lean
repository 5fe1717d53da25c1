import Mathlib.Data.Set.Insert
import Mathlib.Logic.Function.Basic
import DistributedSync.Library.Positions
import DistributedSync.Library.Quorum
import DistributedSync.Library.Transition

/-!
# Logs replicated by one leader for each term

An abstract replication protocol over processes `ι` and entries `E`, each entry carrying a term.  A term `t` is won
at most once, with some log; from then on `leaderLog t` only grows, by entries of term `t`, and a process may
replace its log by any prefix of it.  How processes learn these prefixes is left open.

This file has the protocol and the facts that need no quorums: every log is a prefix of the log of some leader, and
logs that agree on the term at a position agree up to that position (`Inv.logs_agree`).
-/

namespace ReplicatedLog

variable {ι E : Type}

/-- `ballots` holds `(p, t, ℓ)` when `p` supports in term `t` a candidate with log `ℓ`, and `acks` holds
`(p, t, k)` when `p` took over the first `k` entries of the leader of term `t`. -/
structure State (ι E : Type) where
  term : ι → Nat
  log : ι → List E
  elected : Nat → Option (List E)
  leaderLog : Nat → List E
  ballots : Set (ι × Nat × List E)
  acks : Set (ι × Nat × Nat)

def State.init : State ι E := ⟨fun _ => 0, fun _ => [], fun _ => none, fun _ => [], ∅, ∅⟩

inductive Action (ι E : Type) where
  | advance (p : ι) (t : Nat)
  | vote (p : ι) (t : Nat) (ℓ : List E)
  | elect (t : Nat) (ℓ : List E)
  | extend (t : Nat) (e : E)
  | accept (p : ι) (t : Nat) (S : List E)

/-- The term of the last entry, `0` for the empty log. -/
def lastTerm (trm : E → Nat) (ℓ : List E) : Nat := (ℓ.getLast?.map trm).getD 0

/-- `ℓ` is at least as up to date as `ℓ'`. -/
def NotOlder (trm : E → Nat) (ℓ ℓ' : List E) : Prop :=
  lastTerm trm ℓ' < lastTerm trm ℓ ∨ (lastTerm trm ℓ = lastTerm trm ℓ' ∧ ℓ'.length ≤ ℓ.length)

variable {trm : E → Nat} {s s' : State ι E}

/-! ### The last term -/

theorem lastTerm_eq_of_getElem? (trm : E → Nat) {ℓ : List E} {i : Nat} {e : E} (he : ℓ[i]? = some e)
    (hi : i + 1 = ℓ.length) : lastTerm trm ℓ = trm e := by
  have : ℓ.getLast? = some e := by rw [List.getLast?_eq_getElem?, ← hi]; exact he
  simp [lastTerm, this]

/-! ### The invariant -/

/-- Terms, won terms, leaders' logs, ballots and acknowledgements only grow from `s` to `s'`. -/
structure Grows (s s' : State ι E) : Prop where
  term : ∀ p, s.term p ≤ s'.term p
  elected : ∀ {t ℓ}, s.elected t = some ℓ → s'.elected t = some ℓ
  leaderLog : ∀ t, s.leaderLog t <+: s'.leaderLog t
  ballots : s.ballots ⊆ s'.ballots
  acks : s.acks ⊆ s'.acks

theorem Grows.refl (s : State ι E) : Grows s s :=
  ⟨fun _ => le_rfl, id, fun _ => List.prefix_rfl, subset_rfl, subset_rfl⟩

theorem Grows.trans {s'' : State ι E} (h : Grows s s') (h' : Grows s' s'') : Grows s s'' :=
  ⟨fun p => (h.term p).trans (h'.term p), fun he => h'.elected (h.elected he),
    fun t => (h.leaderLog t).trans (h'.leaderLog t), h.ballots.trans h'.ballots, h.acks.trans h'.acks⟩

/-- The shape of the leaders' logs, and where the other components come from. -/
structure Inv (trm : E → Nat) (s : State ι E) : Prop where
  /-- a term that is not won has no log -/
  unelected : ∀ t, s.elected t = none → s.leaderLog t = []
  /-- the log a term was won with is a prefix of the leader's log, and older than the term -/
  electedLog : ∀ t ℓ, s.elected t = some ℓ → ℓ <+: s.leaderLog t ∧ ∀ e ∈ ℓ, trm e < t
  /-- up to an entry of term `u`, a leader's log is the log of the leader of `u` -/
  origin : ∀ t i e, (s.leaderLog t)[i]? = some e → trm e ≤ t ∧ s.elected (trm e) ≠ none ∧
    (s.leaderLog t).take (i + 1) = (s.leaderLog (trm e)).take (i + 1)
  /-- the terms along a leader's log do not decrease -/
  sorted : ∀ t, (s.leaderLog t).Pairwise fun e e' => trm e ≤ trm e'
  /-- every log is a prefix of the log of some leader -/
  log : ∀ p, ∃ t ≤ s.term p, s.log p <+: s.leaderLog t
  ballot : ∀ p t ℓ, (p, t, ℓ) ∈ s.ballots → t ≤ s.term p ∧ ∃ t₀ < t, ℓ <+: s.leaderLog t₀
  ack : ∀ p t k, (p, t, k) ∈ s.acks → t ≤ s.term p ∧ s.elected t ≠ none ∧ k ≤ (s.leaderLog t).length

theorem Inv.init : Inv trm (State.init : State ι E) where
  unelected := fun _ _ => rfl
  electedLog := by simp [State.init]
  origin := by simp [State.init]
  sorted := by simp [State.init]
  log := fun p => ⟨0, by simp [State.init], by simp [State.init]⟩
  ballot := by simp [State.init]
  ack := by simp [State.init]

/-- Only won terms have entries, so an entry of term `t` in any leader's log shows that `t` is won. -/
theorem Inv.elected_of_mem (h : Inv trm s) {t : Nat} {e : E} (he : e ∈ s.leaderLog t) : s.elected t ≠ none := by
  intro hn
  rw [h.unelected t hn] at he
  cases he

private theorem Inv.log_grows (h : Inv trm s) (hg : Grows s s') {p : ι} (hp : s'.log p = s.log p) :
    ∃ t ≤ s'.term p, s'.log p <+: s'.leaderLog t := by
  obtain ⟨t, ht, hpre⟩ := h.log p
  exact ⟨t, ht.trans (hg.term p), hp ▸ hpre.trans (hg.leaderLog t)⟩

private theorem Inv.ballot_grows (h : Inv trm s) (hg : Grows s s') {p : ι} {t : Nat} {ℓ : List E}
    (hb : (p, t, ℓ) ∈ s.ballots) : t ≤ s'.term p ∧ ∃ t₀ < t, ℓ <+: s'.leaderLog t₀ := by
  obtain ⟨ht, t₀, ht₀, hℓ⟩ := h.ballot p t ℓ hb
  exact ⟨ht.trans (hg.term p), t₀, ht₀, hℓ.trans (hg.leaderLog t₀)⟩

private theorem Inv.ack_grows (h : Inv trm s) (hg : Grows s s') {p : ι} {t k : Nat} (ha : (p, t, k) ∈ s.acks) :
    t ≤ s'.term p ∧ s'.elected t ≠ none ∧ k ≤ (s'.leaderLog t).length := by
  obtain ⟨ht, hel, hk⟩ := h.ack p t k ha
  obtain ⟨ℓ, hℓ⟩ := Option.ne_none_iff_exists'.1 hel
  refine ⟨ht.trans (hg.term p), ?_, hk.trans (hg.leaderLog t).length_le⟩
  rw [hg.elected hℓ]
  simp

/-- The log a term is won with is a prefix of an earlier leader's log, so all its entries are older. -/
theorem Inv.lt_of_mem_earlier (h : Inv trm s) {t t₀ : Nat} {ℓ : List E} (ht : t₀ < t) (hℓ : ℓ <+: s.leaderLog t₀) :
    ∀ e ∈ ℓ, trm e < t := by
  intro e he
  obtain ⟨i, hi⟩ := List.mem_iff_getElem?.1 he
  have := (h.origin t₀ i e (Positions.getElem?_of_isPrefix hℓ hi)).1
  omega

/-! ### Log matching -/

/-- Up to an entry of term `t`, a log of the system is the log of the leader of `t`. -/
theorem Inv.log_origin (h : Inv trm s) {p : ι} {i : Nat} {e : E} (he : (s.log p)[i]? = some e) :
    trm e ≤ s.term p ∧ s.elected (trm e) ≠ none ∧
      (s.log p).take (i + 1) = (s.leaderLog (trm e)).take (i + 1) := by
  obtain ⟨t, ht, hpre⟩ := h.log p
  obtain ⟨hle, hel, htake⟩ := h.origin t i e (Positions.getElem?_of_isPrefix hpre he)
  have hi : i + 1 ≤ (s.log p).length := (List.getElem?_eq_some_iff.1 he).1
  exact ⟨hle.trans ht, hel, (Positions.take_of_isPrefix hpre hi).symm.trans htake⟩

/-- Logs that hold an entry of the same term at the same position agree up to it. -/
theorem Inv.logs_agree (h : Inv trm s) {p q : ι} {i : Nat} {e e' : E} (he : (s.log p)[i]? = some e)
    (he' : (s.log q)[i]? = some e') (ht : trm e = trm e') : (s.log p).take (i + 1) = (s.log q).take (i + 1) := by
  rw [(h.log_origin he).2.2, (h.log_origin he').2.2, ht]

/-- A process whose log agrees with a prefix `S` of a leader's log on the term at position `i` agrees with `S` up to
that position. -/
theorem Inv.log_matching_leader (h : Inv trm s) {p : ι} {t i : Nat} {e e' : E} {S : List E}
    (hS : S <+: s.leaderLog t) (he : (s.log p)[i]? = some e) (he' : S[i]? = some e') (ht : trm e = trm e') :
    (s.log p).take (i + 1) = S.take (i + 1) := by
  have hi : i + 1 ≤ S.length := (List.getElem?_eq_some_iff.1 he').1
  rw [(h.log_origin he).2.2, ht, ← Positions.take_of_isPrefix hS hi,
    ← (h.origin t i e' (Positions.getElem?_of_isPrefix hS he')).2.2]

/-! ### The protocol -/

variable [DecidableEq ι]

inductive Step (trm : E → Nat) (QS : QuorumSystem ι) (s : State ι E) : Action ι E → State ι E → Prop where
  | advance (p : ι) (t : Nat) (ht : s.term p ≤ t) :
    Step trm QS s (.advance p t) { s with term := Function.update s.term p t }
  | vote (p : ι) (t : Nat) (ℓ : List E) (ht : s.term p ≤ t) (hℓ : ∃ t₀ < t, ℓ <+: s.leaderLog t₀)
      (hup : NotOlder trm ℓ (s.log p)) :
    Step trm QS s (.vote p t ℓ)
      { s with term := Function.update s.term p t, ballots := insert (p, t, ℓ) s.ballots }
  | elect (t : Nat) (ℓ : List E) (Q : Finset ι) (hnew : s.elected t = none) (hQ : QS.IsQuorum Q)
      (hb : ∀ p ∈ Q, (p, t, ℓ) ∈ s.ballots) :
    Step trm QS s (.elect t ℓ)
      { s with elected := Function.update s.elected t (some ℓ), leaderLog := Function.update s.leaderLog t ℓ }
  | extend (t : Nat) (e : E) (hel : s.elected t ≠ none) (he : trm e = t) :
    Step trm QS s (.extend t e) { s with leaderLog := Function.update s.leaderLog t (s.leaderLog t ++ [e]) }
  | accept (p : ι) (t : Nat) (S : List E) (hel : s.elected t ≠ none) (ht : s.term p ≤ t)
      (hS : S <+: s.leaderLog t) :
    Step trm QS s (.accept p t S)
      { s with
        term := Function.update s.term p t
        log := Function.update s.log p S
        acks := insert (p, t, S.length) s.acks }

variable {QS : QuorumSystem ι} {a : Action ι E}

private theorem le_update_of_le {f : ι → Nat} {p : ι} {t : Nat} (h : f p ≤ t) (q : ι) :
    f q ≤ Function.update f p t q := by
  by_cases hq : q = p
  · subst hq; simpa using h
  · simp [hq]

theorem Step.grows (h : Step trm QS s a s') (hnone : ∀ t, s.elected t = none → s.leaderLog t = []) :
    Grows s s' := by
  cases h with
  | advance p t ht =>
    exact ⟨le_update_of_le ht, id, fun _ => List.prefix_rfl, subset_rfl, subset_rfl⟩
  | vote p t ℓ ht hℓ hup =>
    exact ⟨le_update_of_le ht, id, fun _ => List.prefix_rfl, Set.subset_insert _ _, subset_rfl⟩
  | elect t ℓ Q hnew hQ hb =>
    refine ⟨fun _ => le_rfl, ?_, ?_, subset_rfl, subset_rfl⟩
    · intro t' ℓ' h'
      have hne : t' ≠ t := by rintro rfl; rw [hnew] at h'; cases h'
      simpa [hne] using h'
    · intro t'
      by_cases ht : t' = t
      · subst ht; rw [hnone _ hnew]; exact List.nil_prefix
      · simp [ht]
  | extend t e hel he =>
    refine ⟨fun _ => le_rfl, id, ?_, subset_rfl, subset_rfl⟩
    intro t'
    by_cases ht : t' = t
    · subst ht; simp
    · simp [ht]
  | accept p t S hel ht hS =>
    exact ⟨le_update_of_le ht, id, fun _ => List.prefix_rfl, subset_rfl, Set.subset_insert _ _⟩

private theorem Inv.elect (h : Inv trm s) {t : Nat} {ℓ : List E} {Q : Finset ι} (hnew : s.elected t = none)
    (hQ : QS.IsQuorum Q) (hb : ∀ p ∈ Q, (p, t, ℓ) ∈ s.ballots) : Inv trm { s with
      elected := Function.update s.elected t (some ℓ), leaderLog := Function.update s.leaderLog t ℓ } := by
  have hg := (Step.elect t ℓ Q hnew hQ hb : Step trm QS s _ _).grows h.unelected
  obtain ⟨p, hp⟩ := QS.nonempty hQ
  obtain ⟨-, t₀, ht₀, hℓ⟩ := h.ballot p t ℓ (hb p hp)
  -- an entry of an older term comes from a leader whose log is not touched
  have horigin : ∀ (u i : Nat) (e : E), u ≠ t → (s.leaderLog u)[i]? = some e → trm e ≠ t := by
    rintro u i e - he rfl
    exact (h.origin u i e he).2.1 hnew
  refine ⟨?_, ?_, ?_, ?_, fun q => h.log_grows hg rfl, fun _ _ _ => h.ballot_grows hg, fun _ _ _ => h.ack_grows hg⟩
  · intro u hu
    by_cases hut : u = t
    · subst hut; simp at hu
    · simp only [ne_eq, hut, not_false_eq_true, Function.update_of_ne] at hu ⊢
      exact h.unelected u hu
  · intro u ℓ' hu
    by_cases hut : u = t
    · subst hut
      simp only [Function.update_self, Option.some.injEq] at hu ⊢
      subst hu
      exact ⟨List.prefix_rfl, h.lt_of_mem_earlier ht₀ hℓ⟩
    · simp only [ne_eq, hut, not_false_eq_true, Function.update_of_ne] at hu ⊢
      exact h.electedLog u ℓ' hu
  · intro u i e he
    by_cases hut : u = t
    · subst hut
      simp only [Function.update_self] at he ⊢
      have he₀ := Positions.getElem?_of_isPrefix hℓ he
      obtain ⟨hle, hel, htake⟩ := h.origin t₀ i e he₀
      have hu : trm e ≠ u := by omega
      have hi : i + 1 ≤ ℓ.length := (List.getElem?_eq_some_iff.1 he).1
      simp only [ne_eq, hu, not_false_eq_true, Function.update_of_ne]
      exact ⟨by omega, hel, (Positions.take_of_isPrefix hℓ hi).symm.trans htake⟩
    · simp only [ne_eq, hut, not_false_eq_true, Function.update_of_ne] at he ⊢
      obtain ⟨hle, hel, htake⟩ := h.origin u i e he
      simp only [ne_eq, horigin u i e hut he, not_false_eq_true, Function.update_of_ne]
      exact ⟨hle, hel, htake⟩
  · intro u
    by_cases hut : u = t
    · subst hut; simpa using (h.sorted t₀).sublist hℓ.sublist
    · simpa [hut] using h.sorted u

private theorem Inv.extend (h : Inv trm s) (QS : QuorumSystem ι) {t : Nat} {e : E}
    (hel : s.elected t ≠ none) (he : trm e = t) :
    Inv trm { s with leaderLog := Function.update s.leaderLog t (s.leaderLog t ++ [e]) } := by
  have hg := (Step.extend t e hel he : Step trm QS s _ _).grows h.unelected
  have htake : ∀ (u i : Nat) (e' : E), (s.leaderLog u)[i]? = some e' →
      (Function.update s.leaderLog t (s.leaderLog t ++ [e]) u).take (i + 1) = (s.leaderLog u).take (i + 1) := by
    intro u i e' hi
    exact Positions.take_of_isPrefix (hg.leaderLog u) (List.getElem?_eq_some_iff.1 hi).1
  -- the old entries of any leader's log
  have hold : ∀ (u i : Nat) (e' : E), (s.leaderLog u)[i]? = some e' → trm e' ≤ u ∧ s.elected (trm e') ≠ none ∧
      (Function.update s.leaderLog t (s.leaderLog t ++ [e]) u).take (i + 1) =
        (Function.update s.leaderLog t (s.leaderLog t ++ [e]) (trm e')).take (i + 1) := by
    intro u i e' hi
    obtain ⟨hle, hel', heq⟩ := h.origin u i e' hi
    have hi' : (s.leaderLog (trm e'))[i]? = some e' := by
      have hlt := congrArg (fun ℓ : List E => ℓ[i]?) heq
      simpa [List.getElem?_take, hi] using hlt.symm
    exact ⟨hle, hel', by rw [htake u i e' hi, htake _ i e' hi', heq]⟩
  refine ⟨?_, ?_, ?_, ?_, fun q => h.log_grows hg rfl, fun _ _ _ => h.ballot_grows hg, fun _ _ _ => h.ack_grows hg⟩
  · intro u hu
    by_cases hut : u = t
    · subst hut; exact absurd hu hel
    · simpa [hut] using h.unelected u hu
  · intro u ℓ hu
    exact ⟨(h.electedLog u ℓ hu).1.trans (hg.leaderLog u), (h.electedLog u ℓ hu).2⟩
  · intro u i e' hi
    by_cases hut : u = t
    · subst hut
      by_cases hlt : i < (s.leaderLog u).length
      · refine hold u i e' ?_
        simpa [List.getElem?_append_left hlt] using hi
      · have hmem : e' = e := by
          simp only [Function.update_self] at hi
          rw [List.getElem?_append_right (by omega)] at hi
          exact (by simpa using List.mem_of_getElem? hi)
        subst hmem
        rw [he]
        exact ⟨le_rfl, hel, rfl⟩
    · simp only [ne_eq, hut, not_false_eq_true, Function.update_of_ne] at hi
      exact hold u i e' hi
  · intro u
    by_cases hut : u = t
    · subst hut
      simp only [Function.update_self, List.pairwise_append, List.pairwise_singleton, List.mem_singleton]
      refine ⟨h.sorted u, trivial, ?_⟩
      rintro e₁ h₁ e₂ rfl
      obtain ⟨i, hi⟩ := List.mem_iff_getElem?.1 h₁
      rw [he]
      exact (h.origin u i e₁ hi).1
    · simpa [hut] using h.sorted u

theorem Inv.step (h : Inv trm s) (hs : Step trm QS s a s') : Inv trm s' := by
  have hg := hs.grows h.unelected
  cases hs with
  | advance p t ht =>
    exact ⟨h.unelected, h.electedLog, h.origin, h.sorted, fun q => h.log_grows hg rfl,
      fun _ _ _ => h.ballot_grows hg, fun _ _ _ => h.ack_grows hg⟩
  | vote p t ℓ ht hℓ hup =>
    refine ⟨h.unelected, h.electedLog, h.origin, h.sorted, fun q => h.log_grows hg rfl, ?_,
      fun _ _ _ => h.ack_grows hg⟩
    rintro q u ℓ' (heq | hb)
    · obtain ⟨rfl, rfl, rfl⟩ : q = p ∧ u = t ∧ ℓ' = ℓ := by simpa using heq
      exact ⟨by simp, hℓ⟩
    · exact h.ballot_grows hg hb
  | elect t ℓ Q hnew hQ hb => exact h.elect hnew hQ hb
  | extend t e hel he => exact h.extend QS hel he
  | accept p t S hel ht hS =>
    refine ⟨h.unelected, h.electedLog, h.origin, h.sorted, ?_, fun _ _ _ => h.ballot_grows hg, ?_⟩
    · intro q
      by_cases hq : q = p
      · subst hq; exact ⟨t, by simp, by simpa using hS⟩
      · exact h.log_grows hg (by simp [hq])
    · rintro q u k (heq | hb)
      · obtain ⟨rfl, rfl, rfl⟩ : q = p ∧ u = t ∧ k = S.length := by simpa using heq
        exact ⟨by simp, hel, hS.length_le⟩
      · exact h.ack_grows hg hb

theorem Inv.of_reach {ok : State ι E → Action ι E → Prop} (h : Transition.ReachWhile (Step trm QS) ok .init s) :
    Inv trm s :=
  h.invariant Inv.init fun _ _ _ _ ih _ hs => ih.step hs

/-- What a run adds to an ordered state. -/
theorem Inv.grows_of_steps {ok : State ι E → Action ι E → Prop} (h : Inv trm s)
    (hr : Transition.ReachWhile (Step trm QS) ok s s') : Inv trm s' ∧ Grows s s' :=
  hr.invariant (I := fun r => Inv trm r ∧ Grows s r) ⟨h, Grows.refl s⟩ fun _ _ _ _ ih _ hs =>
    ⟨ih.1.step hs, ih.2.trans (hs.grows ih.1.unelected)⟩

end ReplicatedLog
