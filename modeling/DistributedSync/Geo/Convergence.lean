import DistributedSync.Geo.Causality
import DistributedSync.Library.LastWriter

/-!
# Convergence

Dominance decides between writes that are ordered by causality, and the timestamp between the others.  As long as no
write is stamped earlier than one that it follows, with the stamp of a third write that is unordered with both in
between, every replica holds under each key the entry that beats all others it has processed, and so two replicas
that have processed the same entries hold the same values (`replicas_converge`).  A writer whose clock is behind breaks
this (`replicas_differ`).
-/

namespace DistributedSync

namespace ReplicatorCluster

section

variable {α ν : Type}

/-- No write is stamped 0, which receivers take for a missing timestamp. -/
def State.Stamped [Zero ν] (s : State α ν) : Prop := ∀ w ∈ s.writes, w.entry.timestamp ≠ 0

/-- Different writes have different timestamps. -/
def State.DistinctStamps (s : State α ν) : Prop :=
  ∀ (i j : Nat) (w w' : Written α ν), s.writes[i]? = some w → s.writes[j]? = some w' →
    w.entry.timestamp = w'.entry.timestamp → i = j

/-- A write `x` has an earlier timestamp than a write `y` that happened before it, and a third one `z`, which neither
happened before one of them nor after, has its timestamp in between; all three are of one key. -/
def State.Inverted [LT ν] (s : State α ν) : Prop :=
  ∃ (i j k : Nat) (x y z : Written α ν), s.writes[i]? = some x ∧ s.writes[j]? = some y ∧ s.writes[k]? = some z ∧
    x.entry.key = z.entry.key ∧ y.entry.key = z.entry.key ∧ s.HappenedBefore j i ∧
    (¬s.HappenedBefore i k ∧ ¬s.HappenedBefore k i ∧ ¬s.HappenedBefore j k ∧ ¬s.HappenedBefore k j) ∧
    x.entry.timestamp < z.entry.timestamp ∧ z.entry.timestamp < y.entry.timestamp

/-! ### Writes as a register sees them -/

/-- Causality between writes, told by their clocks. -/
def Written.Before (w w' : Written α ν) : Prop := w.event.stamp < w'.event.stamp

def Written.time (w : Written α ν) : ν := w.entry.timestamp

/-- The writes to a key. -/
def State.writesTo (s : State α ν) (key : String) : Set (Written α ν) := {w | w ∈ s.writes ∧ w.entry.key = key}

/-- Those of them that a node has processed. -/
def State.seen (s : State α ν) (a key : String) : Set (Written α ν) :=
  {w | w.entry.key = key ∧ ∃ i, s.writes[i]? = some w ∧ s.Processed a i}

private theorem seen_subset (s : State α ν) (a key : String) : s.seen a key ⊆ s.writesTo key := by
  rintro w ⟨hkey, i, hi, -⟩
  exact ⟨List.mem_of_getElem? hi, hkey⟩

private theorem get?_write (s : State α ν) (a key : String) (value : α) (now : ν) (peers : List String) (b k : String) :
    ((s.write a key value now peers).replicator b).dataStore.get? k =
      if b = a ∧ k = key then some ((s.replicator a).newEntry key value now)
      else (s.replicator b).dataStore.get? k := by
  by_cases hb : b = a
  · subst hb
    rw [replicator_write_self, Replicator.write]
    by_cases hk : k = key
    · rw [if_pos ⟨rfl, hk⟩, hk, Dict.get?_set_self]
    · rw [if_neg fun h => hk h.2, Dict.get?_set_of_ne _ _ hk]
  · rw [replicator_write_of_ne s a key value now peers hb, if_neg fun h => hb h.1]

private theorem distinctStamps_of_nodup {s : State α ν} (h : (s.writes.map Written.time).Nodup) : s.DistinctStamps := by
  intro i j w w' hi hj heq
  have hi' : (s.writes.map Written.time)[i]? = some w.time := by rw [List.getElem?_map, hi]; rfl
  have hj' : (s.writes.map Written.time)[j]? = some w'.time := by rw [List.getElem?_map, hj]; rfl
  obtain ⟨hil, hi'⟩ := List.getElem?_eq_some_iff.1 hi'
  obtain ⟨hjl, hj'⟩ := List.getElem?_eq_some_iff.1 hj'
  exact (List.Nodup.getElem_inj_iff h).1 (hi'.trans (Eq.trans heq hj'.symm))

private theorem processed_iff (s : State α ν) (a : String) (i : Nat) :
    s.Processed a i ↔ i ∈ s.handled a ∨ (s.writes.map Written.node)[i]? = some a := by
  rw [State.Processed, List.getElem?_map, Option.map_eq_some_iff]

/-! ### Champions -/

section

variable [LinearOrder ν]

private theorem champion_singleton (w : Written α ν) :
    LastWriter.Champion Written.Before Written.time (insert w ∅) w where
  mem := Set.mem_insert w ∅
  beats x hx := by
    rcases Set.mem_insert_iff.1 hx with rfl | hx
    · exact Or.inl rfl
    · exact absurd hx (Set.notMem_empty x)

end

variable [Zero ν] [LinearOrder ν] {s s' : State α ν}

/-- What is stored is the champion of what has been processed. -/
structure Settled (s : State α ν) : Prop where
  empty : ∀ a key, (s.replicator a).dataStore.get? key = none → s.seen a key = ∅
  champion : ∀ a key e, (s.replicator a).dataStore.get? key = some e →
    ∃ c, LastWriter.Champion Written.Before Written.time (s.seen a key) c ∧ c.CarriedBy e

/-- What the theorem asks of the writes so far, in terms of their clocks. -/
structure Orderly (s : State α ν) : Prop where
  stamped : s.Stamped
  straight : ∀ key, LastWriter.Straight Written.Before Written.time (s.writesTo key)

theorem orderly_of_reach (h : Reach s) (hstamped : s.Stamped) (hdistinct : s.DistinctStamps)
    (hinverted : ¬s.Inverted) : Orderly s where
  stamped := hstamped
  straight key := by
    refine ⟨fun w => lt_irrefl _, fun x y z => lt_trans, fun x hx y hy heq => ?_, fun x hx y hy z hz hinv => ?_⟩
    · obtain ⟨i, hi⟩ := List.mem_iff_getElem?.1 hx.1
      obtain ⟨j, hj⟩ := List.mem_iff_getElem?.1 hy.1
      obtain rfl := hdistinct i j x y hi hj heq
      exact Option.some.inj (hi.symm.trans hj)
    · obtain ⟨i, hi⟩ := List.mem_iff_getElem?.1 hx.1
      obtain ⟨j, hj⟩ := List.mem_iff_getElem?.1 hy.1
      obtain ⟨k, hk⟩ := List.mem_iff_getElem?.1 hz.1
      have hcausal : ∀ {m n w w'}, s.writes[m]? = some w → s.writes[n]? = some w' →
          (w.Before w' ↔ s.HappenedBefore m n) :=
        fun hm hn => (sound_of_reach h).stamp_lt_iff (getElem?_events hm) (getElem?_events hn)
      obtain ⟨hxz, hzx, hyz, hzy⟩ := hinv.apart
      rw [hcausal hi hk] at hxz
      rw [hcausal hk hi] at hzx
      rw [hcausal hj hk] at hyz
      rw [hcausal hk hj] at hzy
      exact hinverted ⟨i, j, k, x, y, z, hi, hj, hk, hx.2.trans hz.2.symm, hy.2.trans hz.2.symm,
        (hcausal hj hi).1 hinv.follows, ⟨hxz, hzx, hyz, hzy⟩, hinv.between⟩

/-- Fewer writes are as orderly. -/
theorem Orderly.mono (h : Orderly s') (hsub : ∀ w ∈ s.writes, w ∈ s'.writes) : Orderly s where
  stamped w hw := h.stamped w (hsub w hw)
  straight key := by
    have hs := h.straight key
    have hmem : ∀ w, w ∈ s.writesTo key → w ∈ s'.writesTo key := fun w hw => ⟨hsub w hw.1, hw.2⟩
    exact ⟨hs.irrefl, hs.trans, fun x hx y hy => hs.distinct x (hmem x hx) y (hmem y hy),
      fun x hx y hy z hz => hs.notInverted x (hmem x hx) y (hmem y hy) z (hmem z hz)⟩

/-! ### One step -/

/-- A set that has grown by one element at most. -/
theorem eq_insert_if {β : Type} {S S' : Set β} {x : β} {p : Prop} [Decidable p] (hold : S ⊆ S')
    (hnew : ∀ y ∈ S', y ∈ S ∨ (p ∧ y = x)) (hmem : p → x ∈ S') : S' = if p then insert x S else S := by
  by_cases hp : p
  · rw [if_pos hp]
    ext y
    rw [Set.mem_insert_iff]
    constructor
    · intro hy
      rcases hnew y hy with hy | ⟨-, rfl⟩
      · exact Or.inr hy
      · exact Or.inl rfl
    · rintro (rfl | hy)
      · exact hmem hp
      · exact hold hy
  · rw [if_neg hp]
    refine Set.Subset.antisymm (fun y hy => ?_) hold
    rcases hnew y hy with hy | ⟨h, -⟩
    · exact hy
    · exact absurd h hp

/-- The new write is processed at its node; nothing else changes. -/
theorem seen_write (h : Reach s) (a key : String) (value : α) (now : ν) (peers : List String) (b k : String) :
    (s.write a key value now peers).seen b k =
      if b = a ∧ k = key then insert ⟨a, (s.replicator a).newEntry key value now, s.handled a⟩ (s.seen b k)
      else s.seen b k := by
  have hlast : (s.write a key value now peers).writes[s.writes.length]? =
      some ⟨a, (s.replicator a).newEntry key value now, s.handled a⟩ := List.getElem?_concat_length
  have hold : ∀ {w}, w ∈ s.seen b k → w ∈ (s.write a key value now peers).seen b k := by
    rintro w ⟨hkey, i, hi, hp⟩
    exact ⟨hkey, i, getElem?_writes_append hi, hp.write a key value now peers⟩
  have hnew : ∀ w, w ∈ (s.write a key value now peers).seen b k → w ∈ s.seen b k ∨
      (b = a ∧ k = key ∧ w = ⟨a, (s.replicator a).newEntry key value now, s.handled a⟩) := by
    rintro w ⟨hkey, i, hi, hp⟩
    rcases Nat.lt_or_ge i s.writes.length with hlt | hge
    · have hi' : s.writes[i]? = some w := by rwa [← List.getElem?_append_left hlt]
      refine Or.inl ⟨hkey, i, hi', ?_⟩
      rcases hp with hp | ⟨w', hw', hnode⟩
      · exact Or.inl hp
      · obtain rfl : w = w' := Option.some.inj (hi.symm.trans hw')
        exact Or.inr ⟨w, hi', hnode⟩
    · have hlen := (List.getElem?_eq_some_iff.1 hi).1
      have hcount : (s.write a key value now peers).writes.length = s.writes.length + 1 := List.length_append
      obtain rfl : i = s.writes.length := by omega
      obtain rfl := Option.some.inj (hlast.symm.trans hi)
      refine Or.inr ⟨?_, hkey.symm, rfl⟩
      -- no node has handled a write that had not been made
      rcases hp with hp | ⟨w', hw', hnode⟩
      · have hlt := (sound_of_reach h).learnt b _ hp
        rw [State.system, List.length_map] at hlt
        exact absurd hlt (Nat.lt_irrefl _)
      · obtain rfl := Option.some.inj (hlast.symm.trans hw')
        exact hnode.symm
  refine eq_insert_if (fun w hw => hold hw) (fun w hw => ?_) fun hbk => ?_
  · rcases hnew w hw with hw | ⟨hb, hk, hw⟩
    · exact Or.inl hw
    · exact Or.inr ⟨⟨hb, hk⟩, hw⟩
  · exact ⟨hbk.2.symm, s.writes.length, hlast, Or.inr ⟨_, hlast, hbk.1.symm⟩⟩

private theorem seen_handle {m : Envelope α ν} {w : Written α ν} (hw : s.writes[m.write]? = some w) (now : ν)
    (b k : String) : (s.handle m now).seen b k =
      if b = m.receiver ∧ k = w.entry.key then insert w (s.seen b k) else s.seen b k := by
  refine eq_insert_if (fun x hx => ?_) (fun x hx => ?_) fun hbk => ?_
  · obtain ⟨hkey, i, hi, hp⟩ := hx
    exact ⟨hkey, i, hi, (processed_handle s m now b i).2 (Or.inl hp)⟩
  · obtain ⟨hkey, i, hi, hp⟩ := hx
    rcases (processed_handle s m now b i).1 hp with hp | ⟨hb, rfl⟩
    · exact Or.inl ⟨hkey, i, hi, hp⟩
    · obtain rfl : w = x := Option.some.inj (hw.symm.trans hi)
      exact Or.inr ⟨⟨hb, hkey.symm⟩, rfl⟩
  · exact ⟨hbk.2.symm, m.write, hw, (processed_handle s m now b _).2 (Or.inr ⟨hbk.1, rfl⟩)⟩

/-- The comparison of an arriving entry with the stored one keeps the champion. -/
theorem resolve_champion {key : String} {S : Set (Written α ν)} {c w : Written α ν} {x e : ReplicatedEntry α ν}
    (hs : LastWriter.Straight Written.Before Written.time (s.writesTo key)) (hS : S ⊆ s.writesTo key)
    (hstamped : s.Stamped) (hc : LastWriter.Champion Written.Before Written.time S c) (he : c.CarriedBy e)
    (hw : w ∈ s.writesTo key) (hx : w.CarriedBy x) (hsame : w.event.stamp = c.event.stamp → w = c) :
    LastWriter.Champion Written.Before Written.time (insert w S)
      (if (Replicator.resolve x (some e)).2 then w else c) := by
  have hxt : x.timestamp = w.time := hx.timestamp (hstamped w hw.1)
  have het : e.timestamp = c.time := he.timestamp (hstamped c (hS hc.mem).1)
  have hxc : x.vectorClock.get = w.event.stamp := by rw [hx.vectorClock]; rfl
  have hec : e.vectorClock.get = c.event.stamp := by rw [he.vectorClock]; rfl
  by_cases hconc : x.vectorClock.isConcurrent e.vectorClock
  · rw [Replicator.resolve_of_concurrent hconc, hxt, het]
    obtain ⟨hwc, hcw⟩ := VectorClock.isConcurrent_iff.1 hconc
    rw [hxc, hec] at hwc hcw
    have hne : w ≠ c := by
      rintro rfl
      exact hwc (le_refl _)
    have hnwc : ¬w.Before c := fun hb => hwc hb.le
    have hncw : ¬c.Before w := fun hb => hcw hb.le
    by_cases hlt : c.time < w.time
    · rw [decide_eq_true hlt, if_pos rfl]
      exact hc.replace hs hS hw (Or.inr ⟨hnwc, hlt⟩)
    · have hne' : w.time ≠ c.time := fun heq => hne (hs.distinct w hw c (hS hc.mem) heq)
      have hgt : w.time < c.time := lt_of_le_of_ne (le_of_not_gt hlt) hne'
      rw [decide_eq_false hlt, if_neg Bool.false_ne_true]
      exact hc.keep (Or.inr (Or.inr ⟨hncw, hgt⟩))
  · rw [Replicator.resolve_of_ordered hconc]
    by_cases hdom : x.vectorClock.dominates e.vectorClock
    · rw [if_pos hdom]
      have hb : c.Before w := by
        have hlt := VectorClock.dominates_iff.1 hdom
        rwa [hxc, hec] at hlt
      exact hc.replace hs hS hw (Or.inl hb)
    · rw [if_neg hdom]
      -- neither unordered nor above, so the same or below
      rw [VectorClock.isConcurrent_iff, hxc, hec] at hconc
      rw [VectorClock.dominates_iff, hxc, hec] at hdom
      have hle : w.event.stamp ≤ c.event.stamp := by
        by_contra hwc
        have hcw : c.event.stamp ≤ w.event.stamp := by
          by_contra hcw
          exact hconc ⟨hwc, hcw⟩
        exact hdom (lt_of_le_not_ge hcw hwc)
      refine hc.keep ?_
      rcases hle.lt_or_eq with hlt | heq
      · exact Or.inr (Or.inl hlt)
      · exact Or.inl (hsame heq)

theorem Settled.init : Settled (init : State α ν) where
  empty a key _ := by
    refine Set.eq_empty_of_forall_notMem ?_
    rintro w ⟨-, i, hi, -⟩
    cases hi
  champion a key e he := by cases he

/-- What is left to show when a step adds one write to what one node has processed of one key, and leaves the other
entries as they are. -/
theorem Settled.of_insert (h : Settled s) {a key : String} {w : Written α ν}
    (hseen : ∀ b k, s'.seen b k = if b = a ∧ k = key then insert w (s.seen b k) else s.seen b k)
    (hrest : ∀ b k, ¬(b = a ∧ k = key) →
      (s'.replicator b).dataStore.get? k = (s.replicator b).dataStore.get? k)
    (hown : ∃ e, (s'.replicator a).dataStore.get? key = some e ∧
      ∃ c, LastWriter.Champion Written.Before Written.time (insert w (s.seen a key)) c ∧ c.CarriedBy e) :
    Settled s' := by
  obtain ⟨e₀, hstored, hchampion⟩ := hown
  constructor
  · intro b k hnone
    rw [hseen]
    by_cases hbk : b = a ∧ k = key
    · rw [hbk.1, hbk.2, hstored] at hnone
      cases hnone
    · rw [hrest b k hbk] at hnone
      rw [if_neg hbk]
      exact h.empty b k hnone
  · intro b k e he
    rw [hseen]
    by_cases hbk : b = a ∧ k = key
    · obtain ⟨rfl, rfl⟩ := hbk
      obtain rfl : e₀ = e := Option.some.inj (hstored.symm.trans he)
      rw [if_pos ⟨rfl, rfl⟩]
      exact hchampion
    · rw [hrest b k hbk] at he
      rw [if_neg hbk]
      exact h.champion b k e he

/-- An arriving entry changes nothing but what the receiver stores under its key. -/
theorem get?_handle_of_not {m : Envelope α ν} (now : ν) {b k : String} (h : ¬(b = m.receiver ∧ k = m.data.key)) :
    ((s.handle m now).replicator b).dataStore.get? k = (s.replicator b).dataStore.get? k := by
  by_cases hb : b = m.receiver
  · subst hb
    rw [replicator_handle_self, Replicator.get?_handleReplicate, if_neg fun hk => h ⟨rfl, hk.1⟩]
  · rw [replicator_handle_of_ne s m now hb]

/-- A new write beats all that its node has processed. -/
theorem Settled.write_champion (h : Settled s) (hr : Reach s) {a key : String} {value : α} {now : ν}
    {peers : List String} (ho : Orderly (s.write a key value now peers)) :
    LastWriter.Champion Written.Before Written.time
      (insert ⟨a, (s.replicator a).newEntry key value now, s.handled a⟩ (s.seen a key))
      ⟨a, (s.replicator a).newEntry key value now, s.handled a⟩ := by
  cases hex : (s.replicator a).dataStore.get? key with
  | none =>
    rw [h.empty a key hex]
    exact champion_singleton _
  | some existing =>
    obtain ⟨c, hc, hcarried⟩ := h.champion a key existing hex
    have hdom := write_dominates hr hex value now
    rw [hcarried.vectorClock] at hdom
    have hsub : s.seen a key ⊆ (s.write a key value now peers).writesTo key := fun w hw =>
      ⟨List.mem_append_left _ (seen_subset s a key hw).1, hw.1⟩
    have hnew : (⟨a, (s.replicator a).newEntry key value now, s.handled a⟩ : Written α ν) ∈
        (s.write a key value now peers).writesTo key :=
      ⟨List.mem_append_right _ (List.mem_singleton_self _), rfl⟩
    exact hc.replace (ho.straight key) hsub hnew (Or.inl (VectorClock.dominates_iff.1 hdom))

theorem Settled.write (h : Settled s) (hr : Reach s) {a key : String} {value : α} {now : ν} {peers : List String}
    (ho : Orderly (s.write a key value now peers)) : Settled (s.write a key value now peers) := by
  refine h.of_insert (seen_write hr a key value now peers) (fun b k hbk => ?_) ?_
  · rw [get?_write, if_neg hbk]
  · refine ⟨(s.replicator a).newEntry key value now, ?_, _, h.write_champion hr ho, rfl, rfl, rfl, fun _ => rfl⟩
    rw [get?_write, if_pos ⟨rfl, rfl⟩]

/-- Writes with the same stamp are the same. -/
theorem eq_of_stamp_eq (hr : Reach s) {w c : Written α ν} (hw : w ∈ s.writes) (hc : c ∈ s.writes)
    (heq : w.event.stamp = c.event.stamp) : w = c := by
  obtain ⟨i, hi⟩ := List.mem_iff_getElem?.1 hw
  obtain ⟨j, hj⟩ := List.mem_iff_getElem?.1 hc
  have hsound := sound_of_reach hr
  have hij := (hsound.stamp_le_iff (getElem?_events hi) (getElem?_events hj)).1 heq.le
  have hji := (hsound.stamp_le_iff (getElem?_events hj) (getElem?_events hi)).1 heq.ge
  rcases hij with rfl | hij
  · exact Option.some.inj (hi.symm.trans hj)
  · rcases hji with rfl | hji
    · exact Option.some.inj (hi.symm.trans hj)
    · exact absurd (hij.trans hji) (hsound.irrefl _)

/-- What the receiver stores is the champion of what it has processed with the write that arrives. -/
theorem Settled.handle_champion (h : Settled s) (hr : Reach s) (ho : Orderly s) {m : Envelope α ν} {w : Written α ν}
    (hw : w ∈ s.writes) {now : ν} (hx : w.CarriedBy (ReplicatedEntry.fromDict now m.data)) :
    ∃ e, ((s.handle m now).replicator m.receiver).dataStore.get? w.entry.key = some e ∧
      ∃ c, LastWriter.Champion Written.Before Written.time (insert w (s.seen m.receiver w.entry.key)) c ∧
        c.CarriedBy e := by
  have hkey : m.data.key = w.entry.key := hx.key
  obtain ⟨status, hentry⟩ := Replicator.resolve_entry (ReplicatedEntry.fromDict now m.data)
    ((s.replicator m.receiver).dataStore.get? w.entry.key)
  have hcarried : w.CarriedBy { ReplicatedEntry.fromDict now m.data with status := status } :=
    ⟨hx.key, hx.value, hx.vectorClock, hx.timestamp⟩
  rw [replicator_handle_self, Replicator.get?_handleReplicate, hkey, hentry]
  simp only [true_and]
  cases hex : (s.replicator m.receiver).dataStore.get? w.entry.key with
  | none =>
    rw [h.empty _ _ hex]
    exact ⟨_, rfl, w, champion_singleton w, hcarried⟩
  | some existing =>
    obtain ⟨c, hc, hce⟩ := h.champion _ _ existing hex
    have hchampion := resolve_champion (ho.straight w.entry.key) (seen_subset s _ _) ho.stamped hc hce ⟨hw, rfl⟩ hx
      (eq_of_stamp_eq hr hw (seen_subset s _ _ hc.mem).1)
    by_cases hstore : (Replicator.resolve (ReplicatedEntry.fromDict now m.data) (some existing)).2
    · rw [if_pos hstore] at hchampion ⊢
      exact ⟨_, rfl, w, hchampion, hcarried⟩
    · rw [if_neg hstore] at hchampion ⊢
      exact ⟨existing, rfl, c, hchampion, hce⟩

theorem Settled.handle (h : Settled s) (hr : Reach s) (ho : Orderly s) {m : Envelope α ν} (hm : m ∈ s.network)
    (now : ν) : Settled (s.handle m now) := by
  obtain ⟨w, hw, hx⟩ := (Book.of_reach hr).arrives hm now
  have hkey : m.data.key = w.entry.key := hx.key
  refine h.of_insert (seen_handle hw now) (fun b k hbk => ?_) ?_
  · rw [← hkey] at hbk
    exact get?_handle_of_not now hbk
  · exact h.handle_champion hr ho (List.mem_of_getElem? hw) hx

/-! ### Runs -/

theorem settled_of_reach (h : Reach s) (ho : Orderly s) : Settled s := by
  revert ho
  refine Transition.ReachWhile.invariant (I := fun s => Orderly s → Settled s) h (fun _ => Settled.init) ?_
  intro s a s' hr hs _ hstep ho
  cases a with
  | write a key value now peers =>
    cases hstep
    have hold : Orderly s := ho.mono fun w hw => List.mem_append_left _ hw
    exact (hs hold).write hr ho
  | handle i now =>
    obtain ⟨m, hm, rfl⟩ := Option.map_eq_some_iff.1 hstep
    have hold : Orderly s := ho.mono fun w hw => hw
    exact (hs hold).handle hr hold (List.mem_of_getElem? hm) now

/-- Two replicas that have processed the same entries hold the same values, in every run without an inverted write. -/
theorem replicas_converge (h : Reach s) (hdistinct : s.DistinctStamps) (hstamped : s.Stamped)
    (hinverted : ¬s.Inverted) {a b : String} (hsame : ∀ i, s.Processed a i ↔ s.Processed b i) (key : String) :
    ((s.replicator a).dataStore.get? key).map ReplicatedEntry.value =
      ((s.replicator b).dataStore.get? key).map ReplicatedEntry.value := by
  have ho := orderly_of_reach h hstamped hdistinct hinverted
  have hs := settled_of_reach h ho
  have hseen : s.seen a key = s.seen b key := by
    ext w
    simp only [State.seen, Set.mem_ofPred_eq, hsame]
  cases ha : (s.replicator a).dataStore.get? key with
  | none =>
    cases hb : (s.replicator b).dataStore.get? key with
    | none => rfl
    | some e =>
      obtain ⟨c, hc, -⟩ := hs.champion b key e hb
      have hmem := hc.mem
      rw [← hseen, hs.empty a key ha] at hmem
      exact absurd hmem (Set.notMem_empty c)
  | some e =>
    obtain ⟨c, hc, hce⟩ := hs.champion a key e ha
    cases hb : (s.replicator b).dataStore.get? key with
    | none =>
      have hmem := hc.mem
      rw [hseen, hs.empty b key hb] at hmem
      exact absurd hmem (Set.notMem_empty c)
    | some e' =>
      obtain ⟨c', hc', hce'⟩ := hs.champion b key e' hb
      rw [hseen] at hc
      obtain rfl := hc.unique (ho.straight key) hc'
      rw [Option.map_some, Option.map_some, hce.value, hce'.value]

/-- Writes whose timestamps grow in the order in which they are made are not inverted. -/
theorem not_inverted_of_increasing (h : Reach s)
    (hts : (s.writes.map Written.time).Pairwise (· < ·)) : ¬s.Inverted := by
  rintro ⟨i, j, k, x, y, z, hi, hj, hk, -, -, hji, -, hxz, hzy⟩
  have hlt : j < i := hji.lt (sound_of_reach h).learntBefore
  have hyx : y.time < x.time := by
    obtain ⟨hjl, hy⟩ := List.getElem?_eq_some_iff.1 hj
    obtain ⟨hil, hx⟩ := List.getElem?_eq_some_iff.1 hi
    have hpair := List.pairwise_iff_getElem.1 hts j i (by simpa using hjl) (by simpa using hil) hlt
    simpa [hx, hy] using hpair
  exact lt_asymm hyx (hxz.trans hzy)

/-- Two nodes have processed the same if they agree on the writes that there are. -/
theorem same_of_lt {l l' : List Nat} {nodes : List String} {a b : String} (hl : ∀ j ∈ l, j < nodes.length)
    (hl' : ∀ j ∈ l', j < nodes.length)
    (h : ∀ i < nodes.length, (i ∈ l ∨ nodes[i]? = some a) ↔ (i ∈ l' ∨ nodes[i]? = some b)) (i : Nat) :
    (i ∈ l ∨ nodes[i]? = some a) ↔ (i ∈ l' ∨ nodes[i]? = some b) := by
  by_cases hi : i < nodes.length
  · exact h i hi
  · have hnode : nodes[i]? = none := List.getElem?_eq_none (by omega)
    have hout : i ∉ l := fun hmem => hi (hl i hmem)
    have hout' : i ∉ l' := fun hmem => hi (hl' i hmem)
    rw [hnode]
    constructor
    · rintro (hmem | hsome)
      · exact absurd hmem hout
      · cases hsome
    · rintro (hmem | hsome)
      · exact absurd hmem hout'
      · cases hsome

end

/-- What an observer sees of two replicas: the nodes and times of the writes, what `q` and `r` have handled, and the
values that they hold under `k`. -/
def observe (s : State Nat Nat) : (List String × List Nat) × (List Nat × List Nat) × Option Nat × Option Nat :=
  ((s.writes.map Written.node, s.writes.map Written.time), (s.handled "q", s.handled "r"),
    ((s.replicator "q").dataStore.get? "k").map ReplicatedEntry.value,
    ((s.replicator "r").dataStore.get? "k").map ReplicatedEntry.value)

/-- `p` and `r` write; `q` and `r` handle the entries in different orders. -/
theorem replicas_converge_run : ∃ s : State Nat Nat,
    Transition.run step init [.write "p" "k" 1 10 ["q", "r"], .write "r" "k" 3 12 ["q"], .handle 0 13, .handle 2 14,
      .handle 1 15] = some s ∧
    ((s.replicator "q").dataStore.get? "k").map ReplicatedEntry.value = some 3 ∧
    ((s.replicator "q").dataStore.get? "k").map ReplicatedEntry.value =
      ((s.replicator "r").dataStore.get? "k").map ReplicatedEntry.value := by
  let acts : List (Action Nat Nat) := [.write "p" "k" 1 10 ["q", "r"], .write "r" "k" 3 12 ["q"], .handle 0 13,
    .handle 2 14, .handle 1 15]
  have hrun : (Transition.run step init acts).map observe =
      some ((["p", "r"], [10, 12]), ([1, 0], [0]), some 3, some 3) := by decide
  obtain ⟨s, hs, hobs⟩ := Option.map_eq_some_iff.1 hrun
  simp only [observe, Prod.mk.injEq] at hobs
  obtain ⟨⟨hnodes, htimes⟩, ⟨hq, hr⟩, hvq, -⟩ := hobs
  have hreach : Reach s := Transition.reach_of_run hs
  have hdistinct : s.DistinctStamps := distinctStamps_of_nodup (by rw [htimes]; decide)
  have hstamped : s.Stamped := by
    intro w hw hzero
    have hmem : w.time ∈ s.writes.map Written.time := List.mem_map_of_mem hw
    rw [htimes, show w.time = 0 from hzero] at hmem
    exact absurd hmem (by decide)
  have hinverted : ¬s.Inverted := not_inverted_of_increasing hreach (by rw [htimes]; decide)
  have hsame : ∀ i, s.Processed "q" i ↔ s.Processed "r" i := by
    intro i
    rw [processed_iff, processed_iff, hq, hr, hnodes]
    exact same_of_lt (by decide) (by decide) (by decide) i
  exact ⟨s, hs, hvq, replicas_converge hreach hdistinct hstamped hinverted hsame "k"⟩

/-- The clock of `q` is behind: its write follows that of `p` and has the earlier timestamp, and the one of `r` lies in
between. -/
theorem replicas_differ : ¬∀ s : State Nat Nat, Reach s → s.DistinctStamps → ∀ a b,
    (∀ i, s.Processed a i ↔ s.Processed b i) → ∀ key,
      ((s.replicator a).dataStore.get? key).map ReplicatedEntry.value =
        ((s.replicator b).dataStore.get? key).map ReplicatedEntry.value := by
  intro h
  let acts : List (Action Nat Nat) := [.write "p" "k" 1 10 ["q", "r"], .handle 0 20, .write "q" "k" 2 1 ["r"],
    .write "r" "k" 3 5 ["q"], .handle 3 20, .handle 1 20, .handle 2 20]
  have hrun : (Transition.run step init acts).map observe =
      some ((["p", "q", "r"], [10, 1, 5]), ([2, 0], [1, 0]), some 3, some 2) := by decide
  obtain ⟨s, hs, hobs⟩ := Option.map_eq_some_iff.1 hrun
  simp only [observe, Prod.mk.injEq] at hobs
  obtain ⟨⟨hnodes, htimes⟩, ⟨hq, hr⟩, hvq, hvr⟩ := hobs
  have hsame : ∀ i, s.Processed "q" i ↔ s.Processed "r" i := by
    intro i
    rw [processed_iff, processed_iff, hq, hr, hnodes]
    exact same_of_lt (by decide) (by decide) (by decide) i
  have heq := h s (Transition.reach_of_run hs) (distinctStamps_of_nodup (by rw [htimes]; decide)) "q" "r" hsame "k"
  rw [hvq, hvr] at heq
  exact absurd heq (by decide)

end ReplicatorCluster

end DistributedSync
