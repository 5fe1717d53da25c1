import DistributedSync.Library.ReplicatedLog

/-!
# Commitment in a replicated log

A position of the log of the leader of term `t` that holds an entry of term `t` is *chosen* when a quorum has taken
it over in term `t`.  If no process ever replaces its log by a proper prefix of it (`Keeps`), a chosen prefix is part
of every later leader's log (`leader_completeness`), committed prefixes are comparable (`Committed.comparable`) and
no process drops one (`Committed.kept`).

The argument follows the log of a single process `p` from the moment it acknowledged a prefix: either the prefix is
still there, or some later term was won without it (`Lost`).  The second case is excluded by induction on the term.
-/

namespace ReplicatedLog

variable {ι E : Type} {trm : E → Nat} {s s' : State ι E}

/-- A step keeps logs if it does not replace a log by a proper prefix of it. -/
def Keeps (s : State ι E) : Action ι E → Prop
  | .accept p _ S => S <+: s.log p → S = s.log p
  | _ => True

/-- Position `i` of the log of the leader of `t` holds an entry of term `t`. -/
def Own (trm : E → Nat) (s : State ι E) (t i : Nat) : Prop := ∃ e, (s.leaderLog t)[i]? = some e ∧ trm e = t

/-- Some term after `t`, up to `u`, was won without the first `n` entries of the leader of `t`. -/
def Lost (s : State ι E) (t n u : Nat) : Prop :=
  ∃ t' ℓ, t < t' ∧ t' ≤ u ∧ s.elected t' = some ℓ ∧ ¬(s.leaderLog t).take n <+: ℓ

/-- Position `i` of the log of the leader of `t` is chosen. -/
def Chosen (trm : E → Nat) (QS : QuorumSystem ι) (s : State ι E) (t i : Nat) : Prop :=
  Own trm s t i ∧ ∃ Q, QS.IsQuorum Q ∧ ∀ p ∈ Q, ∃ k, (p, t, k) ∈ s.acks ∧ i < k

/-- `ℓ` is a prefix chosen in a term up to `u`. -/
def Committed (trm : E → Nat) (QS : QuorumSystem ι) (s : State ι E) (u : Nat) (ℓ : List E) : Prop :=
  ℓ = [] ∨ ∃ t i, t ≤ u ∧ Chosen trm QS s t i ∧ ℓ <+: (s.leaderLog t).take (i + 1)

/-- What becomes of acknowledged entries. -/
structure Kept (trm : E → Nat) (QS : QuorumSystem ι) (s : State ι E) : Prop where
  /-- in the log of the process that acknowledged them -/
  held : ∀ p t k n, (p, t, k) ∈ s.acks → n ≤ k →
    (s.leaderLog t).take n <+: s.log p ∨ Lost s t n (s.term p)
  /-- in the logs of the candidates that the process supports -/
  voted : ∀ p u ℓ t k i, (p, u, ℓ) ∈ s.ballots → (p, t, k) ∈ s.acks → t < u → i < k → Own trm s t i →
    (s.leaderLog t).take (i + 1) <+: ℓ ∨ Lost s t (i + 1) u
  /-- in the logs that terms are won with -/
  electors : ∀ u ℓ, s.elected u = some ℓ → ∃ Q, QS.IsQuorum Q ∧ ∀ p ∈ Q, u ≤ s.term p ∧
    ∀ t k i, (p, t, k) ∈ s.acks → t < u → i < k → Own trm s t i →
      (s.leaderLog t).take (i + 1) <+: ℓ ∨ Lost s t (i + 1) (u - 1)

variable {QS : QuorumSystem ι}

theorem Kept.init : Kept trm QS (State.init : State ι E) where
  held := by simp [State.init]
  voted := by simp [State.init]
  electors := by simp [State.init]

/-! ### Growth -/

private theorem Grows.take_eq (hg : Grows s s') {t n : Nat} (hn : n ≤ (s.leaderLog t).length) :
    (s'.leaderLog t).take n = (s.leaderLog t).take n :=
  Positions.take_of_isPrefix (hg.leaderLog t) hn

private theorem Own.lt_length {t i : Nat} (h : Own trm s t i) : i < (s.leaderLog t).length := by
  obtain ⟨e, he, -⟩ := h
  exact (List.getElem?_eq_some_iff.1 he).1

theorem Own.grows {t i : Nat} (h : Own trm s t i) (hg : Grows s s') : Own trm s' t i := by
  obtain ⟨e, he, ht⟩ := h
  exact ⟨e, Positions.getElem?_of_isPrefix (hg.leaderLog t) he, ht⟩

/-- The entries that were there before the step are unchanged. -/
theorem Own.of_grows {t i : Nat} (h : Own trm s' t i) (hg : Grows s s') (hi : i < (s.leaderLog t).length) :
    Own trm s t i := by
  obtain ⟨e, he, ht⟩ := h
  refine ⟨e, ?_, ht⟩
  have := congrArg (fun ℓ : List E => ℓ[i]?) (hg.take_eq (t := t) (n := i + 1) hi)
  simpa [List.getElem?_take, he] using this.symm

theorem Lost.grows {t n u u' : Nat} (h : Lost s t n u) (hg : Grows s s') (hn : n ≤ (s.leaderLog t).length)
    (hu : u ≤ u') : Lost s' t n u' := by
  obtain ⟨t', ℓ, htt', ht'u, hel, hnp⟩ := h
  exact ⟨t', ℓ, htt', ht'u.trans hu, hg.elected hel, by rwa [hg.take_eq hn]⟩

theorem Chosen.grows {t i : Nat} (h : Chosen trm QS s t i) (hg : Grows s s') : Chosen trm QS s' t i := by
  obtain ⟨hown, Q, hQ, hacks⟩ := h
  refine ⟨hown.grows hg, Q, hQ, fun p hp => ?_⟩
  obtain ⟨k, hk, hik⟩ := hacks p hp
  exact ⟨k, hg.acks hk, hik⟩

theorem Committed.grows {u u' : Nat} {ℓ : List E} (h : Committed trm QS s u ℓ) (hg : Grows s s') (hu : u ≤ u') :
    Committed trm QS s' u' ℓ := by
  rcases h with rfl | ⟨t, i, ht, hc, hpre⟩
  · exact Or.inl rfl
  · exact Or.inr ⟨t, i, ht.trans hu, hc.grows hg, by rwa [hg.take_eq hc.1.lt_length]⟩

/-! ### Candidates -/

private theorem getElem?_last {ℓ : List E} (hne : ℓ ≠ []) : ∃ g, ℓ[ℓ.length - 1]? = some g := by
  have := List.length_pos_iff.2 hne
  exact ⟨_, List.getElem?_eq_getElem (by omega)⟩

private theorem lastTerm_eq {ℓ : List E} {g : E} (hg : ℓ[ℓ.length - 1]? = some g) : lastTerm trm ℓ = trm g := by
  have := (List.getElem?_eq_some_iff.1 hg).1
  exact lastTerm_eq_of_getElem? trm hg (by omega)

/-- Along a prefix of a leader's log no entry is newer than the last one. -/
theorem Inv.le_lastTerm (h : Inv trm s) {t₀ i : Nat} {ℓ : List E} {e : E} (hℓ : ℓ <+: s.leaderLog t₀)
    (he : ℓ[i]? = some e) : trm e ≤ lastTerm trm ℓ := by
  obtain ⟨hi, rfl⟩ := List.getElem?_eq_some_iff.1 he
  obtain ⟨g, hg⟩ := getElem?_last (List.ne_nil_of_length_pos (by omega : 0 < ℓ.length))
  rw [lastTerm_eq hg]
  obtain ⟨hlast, rfl⟩ := List.getElem?_eq_some_iff.1 hg
  rcases Nat.lt_or_ge i (ℓ.length - 1) with hlt | hge
  · exact List.pairwise_iff_getElem.1 ((h.sorted t₀).sublist hℓ.sublist) i _ hi hlast hlt
  · have : i = ℓ.length - 1 := by omega
    subst this
    exact le_rfl

/-- A prefix of a leader's log is a prefix of the log of the leader of its last term. -/
theorem Inv.isPrefix_lastTerm (h : Inv trm s) {t₀ : Nat} {ℓ : List E} (hℓ : ℓ <+: s.leaderLog t₀) (hne : ℓ ≠ []) :
    lastTerm trm ℓ ≤ t₀ ∧ s.elected (lastTerm trm ℓ) ≠ none ∧ ℓ <+: s.leaderLog (lastTerm trm ℓ) := by
  obtain ⟨g, hg⟩ := getElem?_last hne
  obtain ⟨hle, hel, htake⟩ := h.origin t₀ _ g (Positions.getElem?_of_isPrefix hℓ hg)
  rw [lastTerm_eq hg]
  rw [Nat.sub_add_cancel (List.length_pos_iff.2 hne), Positions.take_of_isPrefix hℓ le_rfl, List.take_length] at htake
  exact ⟨hle, hel, htake ▸ List.take_prefix _ _⟩

/-- A candidate log that is at least as up to date as a log holding an own entry of the leader of `t` holds that
entry too, unless a later term was won without it. -/
theorem upToDate_holds (h : Inv trm s) {p : ι} {t i u t₀ : Nat} {ℓ : List E} (hown : Own trm s t i)
    (hheld : (s.leaderLog t).take (i + 1) <+: s.log p) (ht₀ : t₀ < u) (hℓ : ℓ <+: s.leaderLog t₀)
    (hup : NotOlder trm ℓ (s.log p)) : (s.leaderLog t).take (i + 1) <+: ℓ ∨ Lost s t (i + 1) u := by
  have hlen : ((s.leaderLog t).take (i + 1)).length = i + 1 := by
    have := hown.lt_length
    simp; omega
  obtain ⟨e, he, hte⟩ := hown
  obtain ⟨t₁, -, hlog⟩ := h.log p
  -- the last entry of the voter's log has a term of at least `t`
  have hep : (s.log p)[i]? = some e := Positions.getElem?_of_isPrefix hheld (by simp [he])
  have hvoter : t ≤ lastTerm trm (s.log p) := hte ▸ h.le_lastTerm hlog hep
  have hvlen : i + 1 ≤ (s.log p).length := hlen ▸ hheld.length_le
  -- hence so has the last entry of the candidate's log
  have hne : ℓ ≠ [] := by
    rintro rfl
    rcases hup with hlt | ⟨-, hle⟩
    · simp [lastTerm] at hlt
    · change (s.log p).length ≤ 0 at hle; omega
  have hcand : t ≤ lastTerm trm ℓ := by
    rcases hup with hlt | ⟨heq, -⟩ <;> omega
  obtain ⟨hle₀, hel, hpre⟩ := h.isPrefix_lastTerm hℓ hne
  rcases Nat.eq_or_lt_of_le hcand with heq | hlt
  · -- the candidate's log ends in term `t` as the voter's does, and is the longer one
    obtain ⟨hlast, -, -⟩ := h.isPrefix_lastTerm hlog (List.ne_nil_of_length_pos (by omega : 0 < (s.log p).length))
    have : (s.log p).length ≤ ℓ.length := by
      rcases hup with hlt | ⟨-, hle⟩ <;> omega
    exact Or.inl (List.prefix_of_prefix_length_le (List.take_prefix _ _) (heq ▸ hpre) (by omega))
  · -- the candidate's last entry comes from a later leader
    obtain ⟨ℓ', hℓ'⟩ := Option.ne_none_iff_exists'.1 hel
    by_cases hheld' : (s.leaderLog t).take (i + 1) <+: ℓ'
    · rcases List.prefix_or_prefix_of_prefix (hheld'.trans (h.electedLog _ _ hℓ').1) hpre with hp | hp
      · exact Or.inl hp
      · have := (h.isPrefix_lastTerm (hp.trans (List.take_prefix _ _)) hne).1
        omega
    · exact Or.inr ⟨_, ℓ', hlt, by omega, hℓ', hheld'⟩

/-! ### Preservation -/

private theorem Kept.held_grows (hk : Kept trm QS s) (h : Inv trm s) (hg : Grows s s') {p : ι} {t k n : Nat}
    (hp : s'.log p = s.log p) (ha : (p, t, k) ∈ s.acks) (hn : n ≤ k) :
    (s'.leaderLog t).take n <+: s'.log p ∨ Lost s' t n (s'.term p) := by
  have hlen := hn.trans (h.ack p t k ha).2.2
  rw [hp, hg.take_eq hlen]
  exact (hk.held p t k n ha hn).imp_right fun hl => hl.grows hg hlen (hg.term p)

private theorem Kept.voted_grows (hk : Kept trm QS s) (h : Inv trm s) (hg : Grows s s') {p : ι} {u t k i : Nat}
    {ℓ : List E} (hb : (p, u, ℓ) ∈ s.ballots) (ha : (p, t, k) ∈ s.acks) (ht : t < u) (hi : i < k)
    (hown : Own trm s' t i) : (s'.leaderLog t).take (i + 1) <+: ℓ ∨ Lost s' t (i + 1) u := by
  have hlen : i + 1 ≤ (s.leaderLog t).length := hi.trans_le (h.ack p t k ha).2.2
  rw [hg.take_eq hlen]
  exact (hk.voted p u ℓ t k i hb ha ht hi (hown.of_grows hg hlen)).imp_right fun hl => hl.grows hg hlen le_rfl

private theorem Kept.electors_grows (hk : Kept trm QS s) (h : Inv trm s) (hg : Grows s s')
    (hnew : ∀ p t k, (p, t, k) ∈ s'.acks → (p, t, k) ∈ s.acks ∨ s.term p ≤ t) {u : Nat} {ℓ : List E}
    (hel : s.elected u = some ℓ) : ∃ Q, QS.IsQuorum Q ∧ ∀ p ∈ Q, u ≤ s'.term p ∧
      ∀ t k i, (p, t, k) ∈ s'.acks → t < u → i < k → Own trm s' t i →
        (s'.leaderLog t).take (i + 1) <+: ℓ ∨ Lost s' t (i + 1) (u - 1) := by
  obtain ⟨Q, hQ, hall⟩ := hk.electors u ℓ hel
  refine ⟨Q, hQ, fun p hp => ⟨(hall p hp).1.trans (hg.term p), fun t k i ha ht hi hown => ?_⟩⟩
  rcases hnew p t k ha with ha | hlate
  · have hlen : i + 1 ≤ (s.leaderLog t).length := hi.trans_le (h.ack p t k ha).2.2
    rw [hg.take_eq hlen]
    exact ((hall p hp).2 t k i ha ht hi (hown.of_grows hg hlen)).imp_right fun hl => hl.grows hg hlen le_rfl
  · -- an elector has left the terms before `u`
    have := (hall p hp).1
    omega

/-- The new log of a process keeps what it has acknowledged, unless the term of the new log was won without it. -/
private theorem Kept.accept_held (hk : Kept trm QS s) (h : Inv trm s) {p : ι} {t : Nat} {S : List E}
    (hel : s.elected t ≠ none) (ht : s.term p ≤ t) (hS : S <+: s.leaderLog t) (hkeep : S <+: s.log p → S = s.log p)
    {t' k n : Nat} (ha : (p, t', k) ∈ s.acks) (hn : n ≤ k) : (s.leaderLog t').take n <+: S ∨ Lost s t' n t := by
  rcases hk.held p t' k n ha hn with hheld | hlost
  · have hcmp : (s.leaderLog t').take n <+: s.leaderLog t → (s.leaderLog t').take n <+: S := by
      intro hpre
      rcases List.prefix_or_prefix_of_prefix hpre hS with hp | hp
      · exact hp
      · rw [hkeep (hp.trans hheld)]; exact hheld
    obtain ⟨ℓ, hℓ⟩ := Option.ne_none_iff_exists'.1 hel
    rcases Nat.eq_or_lt_of_le ((h.ack p t' k ha).1.trans ht) with rfl | hlt
    · exact Or.inl (hcmp (List.take_prefix _ _))
    · by_cases hpre : (s.leaderLog t').take n <+: ℓ
      · exact Or.inl (hcmp (hpre.trans (h.electedLog t ℓ hℓ).1))
      · exact Or.inr ⟨t, ℓ, hlt, le_rfl, hℓ, hpre⟩
  · obtain ⟨u, ℓ, h1, h2, h3, h4⟩ := hlost
    exact Or.inr ⟨u, ℓ, h1, h2.trans ht, h3, h4⟩

section

variable [DecidableEq ι] {a : Action ι E}

theorem Kept.step (hk : Kept trm QS s) (h : Inv trm s) (hs : Step trm QS s a s') (hkeep : Keeps s a) :
    Kept trm QS s' := by
  have hg := hs.grows h.unelected
  cases hs with
  | advance p t ht =>
    exact ⟨fun _ _ _ _ => hk.held_grows h hg rfl, fun _ _ _ _ _ _ => hk.voted_grows h hg,
      fun _ _ => hk.electors_grows h hg fun _ _ _ => Or.inl⟩
  | vote p u ℓ ht hℓ hup =>
    refine ⟨fun _ _ _ _ => hk.held_grows h hg rfl, ?_, fun _ _ => hk.electors_grows h hg fun _ _ _ => Or.inl⟩
    rintro q u' ℓ' t k i (heq | hb) ha htu hik hown
    · obtain ⟨rfl, rfl, rfl⟩ : q = p ∧ u' = u ∧ ℓ' = ℓ := by simpa using heq
      obtain ⟨t₀, ht₀, hpre⟩ := hℓ
      rcases hk.held q t k (i + 1) ha hik with hheld | ⟨t', ℓ, h1, h2, h3⟩
      · exact upToDate_holds h hown hheld ht₀ hpre hup
      · exact Or.inr ⟨t', ℓ, h1, h2.trans ht, h3⟩
    · exact hk.voted_grows h hg hb ha htu hik hown
  | elect u ℓ Q hnew hQ hb =>
    refine ⟨fun _ _ _ _ => hk.held_grows h hg rfl, fun _ _ _ _ _ _ => hk.voted_grows h hg, ?_⟩
    intro u' ℓ' hel
    by_cases hu : u' = u
    · subst hu
      obtain rfl : ℓ' = ℓ := by simpa using hel.symm
      refine ⟨Q, hQ, fun p hp => ⟨(h.ballot p u' ℓ' (hb p hp)).1, fun t k i ha htu hik hown => ?_⟩⟩
      have hlen : i + 1 ≤ (s.leaderLog t).length := hik.trans_le (h.ack p t k ha).2.2
      rw [hg.take_eq hlen]
      refine (hk.voted p u' ℓ' t k i (hb p hp) ha htu hik (hown.of_grows hg hlen)).imp_right ?_
      -- the term was free until now, so the entry was lost in an earlier one
      rintro ⟨t', ℓ'', h1, h2, h3, h4⟩
      have hne : t' ≠ u' := by rintro rfl; rw [hnew] at h3; cases h3
      exact Lost.grows (u := u' - 1) ⟨t', ℓ'', h1, by omega, h3, h4⟩ hg hlen le_rfl
    · exact hk.electors_grows h hg (fun _ _ _ => Or.inl) (by simpa [hu] using hel)
  | extend t e hel he =>
    exact ⟨fun _ _ _ _ => hk.held_grows h hg rfl, fun _ _ _ _ _ _ => hk.voted_grows h hg,
      fun _ _ => hk.electors_grows h hg fun _ _ _ => Or.inl⟩
  | accept p t S hel ht hS =>
    refine ⟨?_, ?_, fun u ℓ => hk.electors_grows h hg ?_⟩
    · rintro q t' k n (heq | ha) hn
      · obtain ⟨rfl, rfl, rfl⟩ : q = p ∧ t' = t ∧ k = S.length := by simpa using heq
        left
        simpa [Positions.take_of_isPrefix hS hn] using List.take_prefix n S
      · by_cases hq : q = p
        · subst hq
          simpa using (hk.accept_held h hel ht hS hkeep ha hn).imp_right fun hl =>
            hl.grows hg (hn.trans (h.ack q t' k ha).2.2) le_rfl
        · exact hk.held_grows h hg (by simp [hq]) ha hn
    · rintro q u ℓ t' k i hb (heq | ha) htu hik hown
      · -- a process that supports a candidate of term `u` has left the terms before `u`
        obtain ⟨rfl, rfl, rfl⟩ : q = p ∧ t' = t ∧ k = S.length := by simpa using heq
        have := (h.ballot q u ℓ hb).1
        omega
      · exact hk.voted_grows h hg hb ha htu hik hown
    · rintro q t' k (heq | ha)
      · obtain ⟨rfl, rfl, rfl⟩ : q = p ∧ t' = t ∧ k = S.length := by simpa using heq
        exact Or.inr ht
      · exact Or.inl ha

theorem Kept.of_reach (h : Transition.ReachWhile (Step trm QS) Keeps .init s) : Kept trm QS s :=
  h.invariant Kept.init fun _ _ _ hr ih hok hs => ih.step (Inv.of_reach hr) hs hok

end

/-! ### Leader completeness -/

/-- A chosen prefix is part of the log every later term is won with. -/
theorem leader_completeness (hk : Kept trm QS s) {t i : Nat} (hc : Chosen trm QS s t i) :
    ∀ u ℓ, t < u → s.elected u = some ℓ → (s.leaderLog t).take (i + 1) <+: ℓ := by
  intro u
  induction u using Nat.strong_induction_on with
  | _ u ih =>
    intro ℓ htu hel
    obtain ⟨hown, Q, hQ, hacks⟩ := hc
    obtain ⟨Q', hQ', hall⟩ := hk.electors u ℓ hel
    obtain ⟨p, hp, hp'⟩ := QS.meet hQ hQ'
    obtain ⟨k, ha, hik⟩ := hacks p hp
    rcases (hall p hp').2 t k i ha htu hik hown with hpre | ⟨t', ℓ', h1, h2, h3, h4⟩
    · exact hpre
    · exact absurd (ih t' (by omega) ℓ' h1 h3) h4

/-- A committed prefix is part of the log of the leader of any term that is not earlier. -/
theorem Committed.isPrefix_leaderLog {u t : Nat} {ℓ : List E} (hℓ : Committed trm QS s u ℓ) (h : Inv trm s)
    (hk : Kept trm QS s) (hut : u ≤ t) (hel : s.elected t ≠ none) : ℓ <+: s.leaderLog t := by
  rcases hℓ with rfl | ⟨t', i, ht', hc, hpre⟩
  · exact List.nil_prefix
  · rcases Nat.eq_or_lt_of_le (ht'.trans hut) with rfl | hlt
    · exact hpre.trans (List.take_prefix _ _)
    · obtain ⟨ℓ', hℓ'⟩ := Option.ne_none_iff_exists'.1 hel
      exact (hpre.trans (leader_completeness hk hc t ℓ' hlt hℓ')).trans (h.electedLog t ℓ' hℓ').1

private theorem Chosen.elected (h : Inv trm s) {t i : Nat} (hc : Chosen trm QS s t i) : s.elected t ≠ none := by
  obtain ⟨e, he, -⟩ := hc.1
  exact h.elected_of_mem (List.mem_of_getElem? he)

/-- Committed prefixes are comparable. -/
theorem Committed.comparable {u u' : Nat} {ℓ ℓ' : List E} (hℓ : Committed trm QS s u ℓ)
    (hℓ' : Committed trm QS s u' ℓ') (h : Inv trm s) (hk : Kept trm QS s) : ℓ <+: ℓ' ∨ ℓ' <+: ℓ := by
  rcases hℓ with rfl | ⟨t, i, -, hc, hpre⟩
  · exact Or.inl List.nil_prefix
  rcases hℓ' with rfl | ⟨t', i', -, hc', hpre'⟩
  · exact Or.inr List.nil_prefix
  rcases Nat.le_total t t' with hle | hle
  · have hcom : Committed trm QS s t ℓ := Or.inr ⟨t, i, le_rfl, hc, hpre⟩
    exact List.prefix_or_prefix_of_prefix (hcom.isPrefix_leaderLog h hk hle (hc'.elected h))
      (hpre'.trans (List.take_prefix _ _))
  · have hcom : Committed trm QS s t' ℓ' := Or.inr ⟨t', i', le_rfl, hc', hpre'⟩
    exact List.prefix_or_prefix_of_prefix (hpre.trans (List.take_prefix _ _))
      (hcom.isPrefix_leaderLog h hk hle (hc.elected h))

/-- A process that takes over a prefix `S` of a leader's log keeps the committed part of its log. -/
theorem Committed.kept {u t : Nat} {p : ι} {ℓ S : List E} (hℓ : Committed trm QS s u ℓ) (h : Inv trm s)
    (hk : Kept trm QS s) (hut : u ≤ t) (hel : s.elected t ≠ none) (hS : S <+: s.leaderLog t)
    (hkeep : S <+: s.log p → S = s.log p) (hp : ℓ <+: s.log p) : ℓ <+: S := by
  rcases List.prefix_or_prefix_of_prefix (hℓ.isPrefix_leaderLog h hk hut hel) hS with hpre | hpre
  · exact hpre
  · rw [hkeep (hpre.trans hp)]; exact hp

end ReplicatedLog
