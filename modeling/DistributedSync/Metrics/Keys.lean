import DistributedSync.Library.ExpositionFamily
import DistributedSync.Metrics.Collector

/-!
# The keys of the metrics collector

A key is the text of a series (`toList_makeKey`): it determines the name (`keyName_makeKey`) and the labels
(`makeKey_inj`) of the calls that made it.  The keys of a collector are those of the calls (`mem_keysOf_after`).
-/

namespace DistributedSync

open Exposition MetricsCollector

/-! ### Labels -/

/-- The labels of a call in the order of the key. -/
def labelPairs (labels : Dict String String) : List (Text × Text) :=
  (labels.entries.insertionSort fun a b => toLex a ≤ toLex b).map fun e => (e.1.toList, e.2.toList)

/-- The characters that the values of labels are without. -/
def reserved : List Char := ['"', '\\', '\n', ',', '{', '}']

/-- Labels under names of labels, with values that need no escapes. -/
def PlainLabels (labels : Dict String String) : Prop :=
  ∀ e ∈ labels.entries, LabelName e.1.toList ∧ ∀ c ∈ e.2.toList, c ∉ reserved

theorem plain_of_all {s : Text} (h : s.all (fun c => decide (c ∉ reserved)) = true) : ∀ c ∈ s, c ∉ reserved :=
  fun c hc => of_decide_eq_true (List.all_eq_true.1 h c hc)

theorem labelPairs_eq_nil {labels : Dict String String} : labelPairs labels = [] ↔ labels.entries = [] := by
  rw [labelPairs, List.map_eq_nil_iff, ← List.length_eq_zero_iff, List.length_insertionSort, List.length_eq_zero_iff]

theorem escaped_of_plain {s : Text} (h : ∀ c ∈ s, c ∉ reserved) : Escaped s := by
  induction s with
  | nil => exact Escaped.nil
  | cons c s ih =>
    have hc := h c List.mem_cons_self
    simp only [reserved, List.mem_cons, List.not_mem_nil, or_false, not_or] at hc
    exact Escaped.char hc.2.1 hc.1 hc.2.2.1 (ih fun d hd => h d (List.mem_cons_of_mem c hd))

theorem PlainLabels.labels {labels : Dict String String} (h : PlainLabels labels) : Labels (labelPairs labels) := by
  intro p hp
  obtain ⟨e, he, rfl⟩ := List.mem_map.1 hp
  have hplain := h e ((List.mem_insertionSort _).1 he)
  exact ⟨hplain.1, escaped_of_plain hplain.2⟩

private theorem perm_entries {d d' : Dict String String} : d.entries.Perm d'.entries ↔ ∀ k, d.get? k = d'.get? k := by
  rw [List.perm_ext_iff_of_nodup (List.Nodup.of_map _ d.nodup) (List.Nodup.of_map _ d'.nodup)]
  constructor
  · intro h k
    refine Option.ext fun v => ⟨fun hv => ?_, fun hv => ?_⟩
    · exact Dict.get?_of_mem ((h (k, v)).1 (Dict.mem_of_get? hv))
    · exact Dict.get?_of_mem ((h (k, v)).2 (Dict.mem_of_get? hv))
  · rintro h ⟨k, v⟩
    refine ⟨fun hkv => ?_, fun hkv => ?_⟩
    · exact Dict.mem_of_get? ((h k).symm.trans (Dict.get?_of_mem hkv))
    · exact Dict.mem_of_get? ((h k).trans (Dict.get?_of_mem hkv))

/-- Labels are in one order only. -/
theorem labelPairs_inj {d d' : Dict String String} : labelPairs d = labelPairs d' ↔ ∀ k, d.get? k = d'.get? k := by
  let r : String × String → String × String → Prop := fun a b => toLex a ≤ toLex b
  have : Std.Total r := ⟨fun a b => le_total (toLex a) (toLex b)⟩
  have : IsTrans (String × String) r := ⟨fun _ _ _ hab hbc => le_trans hab hbc⟩
  have htexts : Function.Injective fun e : String × String => (e.1.toList, e.2.toList) := by
    rintro ⟨a, b⟩ ⟨a', b'⟩ h
    have hpair := Prod.mk.inj h
    exact Prod.ext (String.toList_injective hpair.1) (String.toList_injective hpair.2)
  rw [← perm_entries, labelPairs, labelPairs, htexts.list_map.eq_iff]
  constructor
  · intro h
    have hd := (List.perm_insertionSort r d.entries).symm
    exact hd.trans (h ▸ List.perm_insertionSort r d'.entries)
  · intro h
    have hperm := (List.perm_insertionSort r d.entries).trans (h.trans (List.perm_insertionSort r d'.entries).symm)
    have hantisymm : ∀ a b, r a b → r b a → a = b := fun a b hab hba => toLex_inj.1 (le_antisymm hab hba)
    exact hperm.eq_of_pairwise (fun a b _ _ => hantisymm a b) (List.pairwise_insertionSort r _)
      (List.pairwise_insertionSort r _)

/-! ### Keys -/

theorem toList_makeKey (name : String) (labels : Dict String String) :
    (makeKey name labels).toList = series name.toList (labelPairs labels) := by
  by_cases h : labels.entries = []
  · have hnil := labelPairs_eq_nil.2 h
    simp [makeKey, series, h, hnil]
  · have hne : labelPairs labels ≠ [] := fun hnil => h (labelPairs_eq_nil.1 hnil)
    have hempty : labels.entries.isEmpty = false := by simpa using h
    rw [makeKey, hempty, series, if_neg hne, block, body_eq_intercalate hne, labelPairs]
    simp [String.toList_intercalate, label, Function.comp_def]

section Keys

variable {name name' : String} {labels labels' : Dict String String}

theorem keyName_makeKey (h : MetricName name.toList) : keyName (makeKey name labels) = name := by
  rw [keyName, toList_makeKey, takeWhile_series _ h, String.ofList_toList]

theorem makeKey_inj (h : MetricName name.toList) (h' : MetricName name'.toList) (hl : PlainLabels labels)
    (hl' : PlainLabels labels') :
    makeKey name labels = makeKey name' labels' ↔ name = name' ∧ ∀ k, labels.get? k = labels'.get? k := by
  rw [← String.toList_inj, toList_makeKey, toList_makeKey, ← labelPairs_inj, ← String.toList_inj]
  constructor
  · exact fun heq => series_unique h h' hl.labels hl'.labels heq
  · rintro ⟨hname, hpairs⟩
    rw [hname, hpairs]

theorem makeKey_of_nil (h : labels.entries = []) : makeKey name labels = name := by simp [makeKey, h]

end Keys

/-! ### The keys of a collector -/

namespace MetricsCollector

variable {ν : Type}

/-- The keys of the metrics of a kind. -/
def keysOf (s : MetricsCollector ν) : Kind → List String
  | .counter => s.counters.keys
  | .gauge => s.gauges.keys
  | .histogram => s.histograms.keys

/-- No histogram is without observations. -/
def Observed (s : MetricsCollector ν) : Prop := ∀ key xs, s.histograms.get? key = some xs → xs ≠ []

variable [Measure ν]

private theorem mem_keysOf_record (s : MetricsCollector ν) (c : Call ν) (kind : Kind) (key : String) :
    key ∈ (s.record c).keysOf kind ↔ c.kind = kind ∧ key = c.key ∨ key ∈ s.keysOf kind := by
  cases hop : c.operation
  all_goals
    cases kind
    all_goals simp [record, hop, Call.kind, keysOf, counterInc, gaugeSet, gaugeInc, gaugeDec, histogramObserve,
      Dict.mem_keys_set, Call.key]

theorem Observed.record {s : MetricsCollector ν} (h : Observed s) (c : Call ν) : Observed (s.record c) := by
  intro key xs hxs
  cases hop : c.operation with
  | histogramObserve =>
    simp only [MetricsCollector.record, hop, histogramObserve, Dict.get?_set] at hxs
    split at hxs
    · rw [← Option.some.inj hxs]
      exact List.append_ne_nil_of_right_ne_nil _ (List.cons_ne_nil _ _)
    · exact h key xs hxs
  | counterInc | gaugeSet | gaugeInc | gaugeDec =>
    simp only [MetricsCollector.record, hop] at hxs
    exact h key xs hxs

private theorem nodeId_record (s : MetricsCollector ν) (c : Call ν) : (s.record c).nodeId = s.nodeId := by
  cases hop : c.operation
  all_goals simp [record, hop, counterInc, gaugeSet, gaugeInc, gaugeDec, histogramObserve]

section Run

variable (nodeId : String) (calls : List (Call ν))

theorem nodeId_after : (after nodeId calls).nodeId = nodeId := by
  have hfold : ∀ s : MetricsCollector ν, (calls.foldl record s).nodeId = s.nodeId := by
    induction calls with
    | nil => exact fun s => rfl
    | cons c calls ih => exact fun s => (ih _).trans (nodeId_record s c)
  exact hfold { nodeId }

theorem mem_keysOf_after (kind : Kind) (key : String) :
    key ∈ (after nodeId calls).keysOf kind ↔ ∃ c ∈ calls, c.kind = kind ∧ key = c.key := by
  have hfold : ∀ s : MetricsCollector ν, key ∈ (calls.foldl record s).keysOf kind ↔
      (∃ c ∈ calls, c.kind = kind ∧ key = c.key) ∨ key ∈ s.keysOf kind := by
    induction calls with
    | nil => simp
    | cons c calls ih =>
      intro s
      rw [List.foldl_cons, ih, mem_keysOf_record]
      simp only [List.mem_cons, exists_eq_or_imp]
      exact or_assoc.symm.trans (or_congr_left or_comm)
  have hempty : key ∉ ({ nodeId } : MetricsCollector ν).keysOf kind := by
    cases kind
    all_goals exact List.not_mem_nil
  rw [after, hfold]
  simp [hempty]

theorem observed_after : Observed (after nodeId calls) := by
  have hfold : ∀ s : MetricsCollector ν, Observed s → Observed (calls.foldl record s) := by
    induction calls with
    | nil => exact fun s hs => hs
    | cons c calls ih => exact fun s hs => ih _ (hs.record c)
  refine hfold { nodeId } ?_
  intro key xs hxs
  cases hxs

end Run

end MetricsCollector

end DistributedSync
