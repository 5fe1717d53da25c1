import DistributedSync.Security.AuditFile

/-!
# Queries of the audit log

`query` of `audit_logger.py`.  The loop appends an entry before it looks at the limit, so it lists one entry where the
limit is 0 or less.  Whatever appends fail and wherever the logger is restarted, the sequence numbers increase along
the log, and a query lists the newest entries that match, the newest first (`query_of_run`).
-/

namespace DistributedSync

variable {ν : Type} [Number ν]

/-- `text and value != text`; no text and the empty one are alike. -/
def differs (numEq : ν → ν → Bool) (text : Option String) (value : Json ν) : Bool :=
  match text with
  | none => false
  | some t => t ≠ "" && !value.pyEq numEq (.str t)

/-- The loop of `query` over the entries, the newest first. -/
def queryFrom (numEq : ν → ν → Bool) (user action : Option String) (limit : Int) (results : List (Json ν)) :
    List (AuditEntry ν) → List (Json ν)
  | [] => results
  | entry :: entries =>
    if differs numEq user entry.user then queryFrom numEq user action limit results entries
    else if differs numEq action entry.action then queryFrom numEq user action limit results entries
    else
      let results := results ++ [entry.toDict]
      if limit ≤ results.length then results else queryFrom numEq user action limit results entries

def AuditLogger.query (lib : AuditLib ν) (l : AuditLogger ν) (user action : Option String) (limit : Int) :
    List (Json ν) :=
  queryFrom lib.numEq user action limit [] l.entries.reverse

/-- The entry is of the user and of the action, where they are given. -/
def Matches (user action : Option String) (e : AuditEntry ν) : Prop :=
  (∀ t, user = some t → t = "" ∨ e.user = .str t) ∧ ∀ t, action = some t → t = "" ∨ e.action = .str t

private theorem differs_iff {numEq : ν → ν → Bool} {text : Option String} {value : Json ν} :
    differs numEq text value = false ↔ ∀ t, text = some t → t = "" ∨ value = .str t := by
  cases text with
  | none => simp [differs]
  | some t =>
    rw [differs, Bool.and_eq_false_iff, Bool.not_eq_false', Json.pyEq_str]
    simp

instance (user action : Option String) (e : AuditEntry ν) : Decidable (Matches user action e) :=
  decidable_of_iff
    (differs (fun _ _ => false) user e.user = false ∧ differs (fun _ _ => false) action e.action = false)
    (and_congr differs_iff differs_iff)

/-- What the loop appends to its results. -/
theorem queryFrom_eq (numEq : ν → ν → Bool) (user action : Option String) (limit : Int) (results : List (Json ν))
    (es : List (AuditEntry ν)) : queryFrom numEq user action limit results es =
      results ++ ((es.filter fun e => Matches user action e).take (max (limit - results.length) 1).toNat).map
        AuditEntry.toDict := by
  induction es generalizing results with
  | nil => simp [queryFrom]
  | cons e es ih =>
    rw [queryFrom]
    by_cases huser : differs numEq user e.user
    · have hno : ¬Matches user action e := fun h => by
        rw [differs_iff.2 h.1] at huser
        cases huser
      rw [if_pos huser, ih, List.filter_cons_of_neg (by simpa using hno)]
    · by_cases haction : differs numEq action e.action
      · have hno : ¬Matches user action e := fun h => by
          rw [differs_iff.2 h.2] at haction
          cases haction
        rw [if_neg huser, if_pos haction, ih, List.filter_cons_of_neg (by simpa using hno)]
      · have hyes : Matches user action e :=
          ⟨differs_iff.1 (Bool.eq_false_iff.2 huser), differs_iff.1 (Bool.eq_false_iff.2 haction)⟩
        rw [if_neg huser, if_neg haction, List.filter_cons_of_pos (by simpa using hyes)]
        by_cases hlimit : limit ≤ (results ++ [e.toDict]).length
        · have hone : (max (limit - results.length) 1).toNat = 1 := by
            rw [List.length_append, List.length_singleton] at hlimit
            omega
          rw [if_pos hlimit, hone]
          rfl
        · have hmore : (max (limit - results.length) 1).toNat =
              (max (limit - (results ++ [e.toDict]).length) 1).toNat + 1 := by
            rw [List.length_append, List.length_singleton] at hlimit ⊢
            omega
          rw [if_neg hlimit, ih, hmore, List.take_succ_cons, List.map_cons, List.append_assoc, List.singleton_append]

/-- The newest entries that match, but one at least, the newest first. -/
def newest (l : AuditLogger ν) (user action : Option String) (limit : Int) : List (AuditEntry ν) :=
  (l.entries.filter fun e => Matches user action e).reverse.take (max limit 1).toNat

private theorem query_eq (lib : AuditLib ν) (l : AuditLogger ν) (user action : Option String) (limit : Int) :
    l.query lib user action limit = (newest l user action limit).map AuditEntry.toDict := by
  rw [AuditLogger.query, queryFrom_eq, List.nil_append, List.filter_reverse, newest, List.length_nil, Int.natCast_zero,
    Int.sub_zero]

/-! ### Sequence numbers -/

section

variable {ν : Type} [Zero ν] [One ν] [Add ν] [LinearOrder ν] {lib : AuditLib ν} {bound : ν} {es : List (AuditEntry ν)}

/-- The sequence numbers increase along the entries up to the bound. -/
def Numbered (bound : ν) (es : List (AuditEntry ν)) : Prop :=
  ∃ ns : List ν, es.map AuditEntry.sequence = ns.map Json.num ∧ ns.Pairwise (· < ·) ∧ ∀ n ∈ ns, n ≤ bound

theorem Numbered.nil : Numbered bound ([] : List (AuditEntry ν)) :=
  ⟨[], rfl, .nil, fun _ hn => absurd hn List.not_mem_nil⟩

theorem Numbered.mono (h : Numbered bound es) {bound' : ν} (hle : bound ≤ bound') : Numbered bound' es := by
  obtain ⟨ns, hes, hlt, hbound⟩ := h
  exact ⟨ns, hes, hlt, fun n hn => (hbound n hn).trans hle⟩

theorem Numbered.concat (h : Numbered bound es) {n : ν} (hn : bound < n) {e : AuditEntry ν}
    (he : e.sequence = .num n) : Numbered n (es ++ [e]) := by
  obtain ⟨ns, hes, hlt, hbound⟩ := h
  refine ⟨ns ++ [n], ?_, ?_, ?_⟩
  · rw [List.map_append, hes, List.map_append, List.map_singleton, List.map_singleton, he]
  · refine List.pairwise_append.2 ⟨hlt, List.pairwise_singleton _ _, fun m hm k hk => ?_⟩
    rw [List.mem_singleton.1 hk]
    exact (hbound m hm).trans_lt hn
  · intro m hm
    rcases List.mem_append.1 hm with hm | hm
    · exact (hbound m hm).trans hn.le
    · exact (List.mem_singleton.1 hm).le

private theorem pyMax_eq_max (a b : ν) : pyMax a b = max a b := by
  rw [pyMax, max_def]
  by_cases h : a < b
  · rw [if_pos h, if_pos h.le]
  · rw [if_neg h]
    split
    · exact le_antisymm ‹_› (not_lt.1 h)
    · rfl

/-- The loader goes on counting from the greatest number that it has read. -/
theorem le_sequence_load {lines : List String} (h : Stored lib lines es) (l : AuditLogger ν) :
    l.sequence ≤ (l.load lib lines).sequence ∧
      ∀ ns : List ν, es.map AuditEntry.sequence = ns.map Json.num → ∀ n ∈ ns, n ≤ (l.load lib lines).sequence := by
  induction h generalizing l with
  | nil =>
    refine ⟨le_rfl, fun ns hns n hn => ?_⟩
    rw [List.map_eq_nil_iff.1 hns.symm] at hn
    cases hn
  | @cons line e lines es hline _ ih =>
    obtain ⟨hblank, hread, n, hn⟩ := hline
    obtain ⟨hstart, hrest⟩ := ih
      { l with entries := l.entries ++ [e], sequence := pyMax l.sequence n }
    rw [AuditLogger.load, if_neg hblank]
    simp only [hread, hn]
    have hmax : max l.sequence n ≤ _ := (pyMax_eq_max l.sequence n).symm.trans_le hstart
    refine ⟨(le_max_left _ _).trans hmax, fun ns hns m hm => ?_⟩
    obtain ⟨k, ks, rfl, hk, hks⟩ := List.map_eq_cons_iff.1 hns.symm
    rcases List.mem_cons.1 hm with rfl | hm
    · rw [← hk] at hn
      obtain rfl : m = n := Option.some.inj hn
      exact (le_max_right _ _).trans hmax
    · exact hrest ks hks.symm m hm

namespace AuditRun

/-- The numbers increase in memory and in the file, and the logger counts on from them. -/
structure Counted (lib : AuditLib ν) (s : AuditRun ν) : Prop where
  memory : Numbered s.logger.sequence s.logger.entries
  file : ∃ saved, Stored lib s.file saved ∧ Numbered s.logger.sequence saved

theorem Counted.start (nodeId : String) : Counted lib (start lib nodeId) where
  memory := Numbered.nil
  file := ⟨[], .nil, Numbered.nil⟩

theorem Counted.log (hsucc : ∀ n : ν, n < n + 1) {s : AuditRun ν} (h : Counted lib s) {call : LogCall ν} {ok : Bool}
    (hjson : ok = true → RoundTrips lib (s.nextEntry lib call)) : Counted lib (s.step lib (.log call ok)) where
  memory := h.memory.concat (hsucc s.logger.sequence) rfl
  file := by
    obtain ⟨saved, hstored, hnumbered⟩ := h.file
    cases ok with
    | false => exact ⟨saved, hstored, hnumbered.mono (hsucc s.logger.sequence).le⟩
    | true =>
      exact ⟨_, List.rel_append hstored (stored_nextEntry (hjson rfl)),
        hnumbered.concat (hsucc s.logger.sequence) rfl⟩

theorem Counted.restart {s : AuditRun ν} (h : Counted lib s) (nodeId : String) :
    Counted lib (s.step lib (.restart nodeId)) := by
  obtain ⟨saved, hstored, ns, hns, hlt, -⟩ := h.file
  have hentries : (s.step lib (.restart nodeId)).logger.entries = saved := AuditLogger.load_of_stored hstored _
  have hnumbered : Numbered (s.step lib (.restart nodeId)).logger.sequence saved :=
    ⟨ns, hns, hlt, (le_sequence_load hstored _).2 ns hns⟩
  exact ⟨hentries.symm ▸ hnumbered, saved, hstored, hnumbered⟩

theorem Counted.run (hsucc : ∀ n : ν, n < n + 1) {s : AuditRun ν} (h : Counted lib s)
    {actions : List (AuditAction ν)} (hjson : ∀ e ∈ s.written lib actions, RoundTrips lib e) :
    Counted lib (s.run lib actions) := by
  induction actions generalizing s with
  | nil => exact h
  | cons a actions ih =>
    cases a with
    | log call ok =>
      refine ih (h.log hsucc ?_) fun e he => hjson e (List.mem_append_right _ he)
      rintro rfl
      exact hjson _ (List.mem_append_left _ (List.mem_singleton_self _))
    | restart nodeId => exact ih (h.restart nodeId) hjson

/-- The first entry has the greater sequence number. -/
def Newer (e e' : AuditEntry ν) : Prop := ∃ m n : ν, e.sequence = .num m ∧ e'.sequence = .num n ∧ n < m

private theorem newer_of_numbered (h : Numbered bound es) : es.Pairwise fun e e' => Newer e' e := by
  obtain ⟨ns, hes, hlt, -⟩ := h
  have hnums : (ns.map Json.num).Pairwise fun v w => ∃ m n : ν, w = .num m ∧ v = .num n ∧ n < m :=
    List.pairwise_map.2 (hlt.imp fun {n m} hnm => ⟨m, n, rfl, rfl, hnm⟩)
  rw [← hes] at hnums
  exact List.pairwise_map.1 hnums

/-- In every run of calls, whose appends may fail, and restarts, the sequence numbers increase along the log, and a
query lists the newest entries that match, the newest first: all of them, or as many as the limit says, but one at
least. -/
theorem query_of_run (hsucc : ∀ n : ν, n < n + 1) {nodeId : String} {actions : List (AuditAction ν)}
    (hjson : ∀ e ∈ (start lib nodeId).written lib actions, RoundTrips lib e) {l : AuditLogger ν}
    (hl : ((start lib nodeId).run lib actions).logger = l) (user action : Option String) (limit : Int) :
    (l.entries.Pairwise fun e e' => Newer e' e) ∧
      l.query lib user action limit = (newest l user action limit).map AuditEntry.toDict ∧
      (newest l user action limit).Pairwise Newer ∧
      (newest l user action limit).length =
        min (max limit 1).toNat (l.entries.countP fun e => Matches user action e) := by
  have hnewer : l.entries.Pairwise fun e e' => Newer e' e := by
    rw [← hl]
    exact newer_of_numbered ((Counted.start nodeId).run hsucc hjson).memory
  refine ⟨hnewer, query_eq lib l user action limit, ?_, ?_⟩
  · exact (List.pairwise_reverse.2 (hnewer.sublist List.filter_sublist)).sublist (List.take_sublist _ _)
  · rw [newest, List.length_take, List.length_reverse, List.countP_eq_length_filter]

end AuditRun

end

open AuditSample

namespace AuditRun

/-- A query with the limit 0 after two calls, of which the second one is not appended to the file. -/
theorem query_of_run_limit_zero :
    AuditLogger.query sampleLib ((start sampleLib "n1").run sampleLib [.log call₁ true, .log call₂ false]).logger none
      none 0 = [entry₂.toDict] := by
  have hjson : ∀ e ∈ (start sampleLib "n1").written sampleLib [.log call₁ true, .log call₂ false],
      RoundTrips sampleLib e := by
    intro e he
    rw [List.mem_singleton.1 he]
    exact roundTrips_entry₁
  exact (query_of_run Int.lt_succ hjson rfl none none 0).2.1

end AuditRun

end DistributedSync
