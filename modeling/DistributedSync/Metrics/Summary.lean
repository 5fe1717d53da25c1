import Mathlib.Data.List.DropRight
import DistributedSync.Library.Selection
import DistributedSync.Metrics.Export

/-!
# The summary of the metrics

`get_summary` of `metrics.py`.  It takes the 95th percentile of the observations without a bound on the index, so it
returns as long as `int(n * 0.95)` is below `n` for the numbers `n` of observations that there are.  Then it says of
each metric what the calls under its key amount to (`summary_of_history`), and the text output is made of the numbers
of the summary (`output_of_summary`).
-/

namespace DistributedSync

/-- What `get_summary` says of a histogram. -/
structure HistogramSummary (ν : Type) where
  count : Nat
  sum : ν
  p50 : ν
  p95 : ν
  p99 : ν

/-- What `get_summary` returns. -/
structure MetricsSummary (ν : Type) where
  nodeId : String
  counters : Dict String ν
  gauges : Dict String ν
  histograms : Dict String (HistogramSummary ν)

namespace MetricsCollector

variable {ν : Type}

/-- The calls of a kind that record under a key. -/
def callsOf (kind : Kind) (key : String) (calls : List (Call ν)) : List (Call ν) :=
  calls.filter fun c => c.kind = kind ∧ c.key = key

def observations (key : String) (calls : List (Call ν)) : List ν := (callsOf .histogram key calls).map Call.value

section

variable (calls : List (Call ν))

/-- The calls of a kind with their keys. -/
def keyed (kind : Kind) : List (String × Call ν) :=
  (calls.filter fun c => c.kind = kind).map fun c => (c.key, c)

private theorem keyed_concat (kind : Kind) (c : Call ν) :
    keyed (calls ++ [c]) kind = if c.kind = kind then keyed calls kind ++ [(c.key, c)] else keyed calls kind := by
  rw [keyed, List.filter_append, List.map_append]
  by_cases hkind : c.kind = kind
  · rw [if_pos hkind, List.filter_cons_of_pos (by simpa using hkind)]
    rfl
  · rw [if_neg hkind, List.filter_cons_of_neg (by simpa using hkind), List.filter_nil, List.map_nil, List.append_nil]
    rfl

private theorem get?_accumulate_keyed {α : Type} (g : α → Call ν → α) (a : α) (kind : Kind) (key : String) :
    (Dict.accumulate g a .empty (keyed calls kind)).get? key =
      if callsOf kind key calls = [] then none else some ((callsOf kind key calls).foldl g a) := by
  have hvalues : ((keyed calls kind).filter fun e => e.1 = key).map Prod.snd = callsOf kind key calls := by
    simp [keyed, callsOf, List.filter_map, List.filter_filter, Function.comp_def, and_comm]
  have hkeys : key ∈ (keyed calls kind).map Prod.fst ↔ callsOf kind key calls ≠ [] := by
    rw [← hvalues, ne_eq, List.map_eq_nil_iff, List.filter_eq_nil_iff, List.mem_map]
    simp
  rw [Dict.get?_accumulate, hvalues]
  by_cases hnil : callsOf kind key calls = []
  · rw [if_pos hnil, if_neg (fun hmem => hkeys.1 hmem hnil)]
  · rw [if_neg hnil, if_pos (hkeys.2 hnil)]

end

variable [Measure ν]

/-- `sorted(obs)`. -/
def sortedObs (obs : List ν) : List ν := obs.insertionSort fun a b => ¬b < a

/-- The summary of a histogram, or `none` where an index is out of range. -/
def summarize (obs : List ν) : Option (HistogramSummary ν) := do
  let sorted := sortedObs obs
  let p50 ← sorted[sorted.length / 2]?
  let p95 ← sorted[Measure.position ν sorted.length .p95]?
  let p99 ← sorted[min (Measure.position ν sorted.length .p99) (sorted.length - 1)]?
  return { count := obs.length, sum := obs.foldl (· + ·) 0, p50, p95, p99 }

/-- `get_summary`; histograms without observations are left out. -/
def getSummary (s : MetricsCollector ν) : Option (MetricsSummary ν) := do
  let histograms ← s.histograms.entries.foldlM
    (fun d e => if e.2.isEmpty then some d else (summarize e.2).map fun h => d.set e.1 h) Dict.empty
  return ⟨s.nodeId, s.counters, s.gauges, histograms⟩

/-! ### What the summary says -/

/-- What the calls of a gauge amount to: the changes since it has been set last. -/
def gaugeValue (cs : List (Call ν)) : ν :=
  (cs.rtakeWhile fun c => c.operation ≠ .gaugeSet).foldl
    (fun x c => if c.operation = .gaugeDec then x - c.value else x + c.value)
    (((cs.filter fun c => c.operation = .gaugeSet).getLast?.map Call.value).getD 0)

/-- The observations are counted and added up, and the percentiles are the elements with the ranks of their indices. -/
structure Describes (h : HistogramSummary ν) (obs : List ν) : Prop where
  count : h.count = obs.length
  sum : h.sum = obs.foldl (· + ·) 0
  p50 : Selection.IsRank (fun a b : ν => a < b) obs (obs.length / 2) h.p50
  p95 : Selection.IsRank (fun a b : ν => a < b) obs (Measure.position ν obs.length .p95) h.p95
  p99 : Selection.IsRank (fun a b : ν => a < b) obs (min (Measure.position ν obs.length .p99) (obs.length - 1)) h.p99

/-! ### The histories of the tables -/

section Run

variable (nodeId : String) (calls : List (Call ν))

theorem after_concat (c : Call ν) : after nodeId (calls ++ [c]) = (after nodeId calls).record c := by
  rw [after, List.foldl_append, List.foldl_cons, List.foldl_nil, after]

private theorem counters_after : (after nodeId calls).counters =
    Dict.accumulate (fun x c => x + c.value) 0 .empty (keyed calls .counter) := by
  induction calls using List.reverseRecOn with
  | nil => rfl
  | append_singleton calls c ih =>
    rw [after_concat, keyed_concat]
    cases hop : c.operation with
    | counterInc =>
      rw [if_pos (by rw [Call.kind, hop]), Dict.accumulate_concat, ← ih]
      simp [record, hop, counterInc, Call.key]
    | gaugeSet | gaugeInc | gaugeDec | histogramObserve =>
      rw [if_neg (by simp [Call.kind, hop]), ← ih]
      simp [record, hop, gaugeSet, gaugeInc, gaugeDec, histogramObserve]

/-- A call of a gauge. -/
def changeGauge (x : ν) (c : Call ν) : ν :=
  match c.operation with
  | .gaugeSet => c.value
  | .gaugeDec => x - c.value
  | .counterInc | .gaugeInc | .histogramObserve => x + c.value

private theorem gauges_after : (after nodeId calls).gauges =
    Dict.accumulate changeGauge 0 .empty (keyed calls .gauge) := by
  induction calls using List.reverseRecOn with
  | nil => rfl
  | append_singleton calls c ih =>
    rw [after_concat, keyed_concat]
    cases hop : c.operation with
    | gaugeSet | gaugeInc | gaugeDec =>
      rw [if_pos (by rw [Call.kind, hop]), Dict.accumulate_concat, ← ih]
      simp [record, hop, gaugeSet, gaugeInc, gaugeDec, Call.key, changeGauge]
    | counterInc | histogramObserve =>
      rw [if_neg (by simp [Call.kind, hop]), ← ih]
      simp [record, hop, counterInc, histogramObserve]

private theorem histograms_after : (after nodeId calls).histograms =
    Dict.accumulate (fun obs c => obs ++ [c.value]) [] .empty (keyed calls .histogram) := by
  induction calls using List.reverseRecOn with
  | nil => rfl
  | append_singleton calls c ih =>
    rw [after_concat, keyed_concat]
    cases hop : c.operation with
    | histogramObserve =>
      rw [if_pos (by rw [Call.kind, hop]), Dict.accumulate_concat, ← ih]
      simp [record, hop, histogramObserve, Call.key]
    | counterInc | gaugeSet | gaugeInc | gaugeDec =>
      rw [if_neg (by simp [Call.kind, hop]), ← ih]
      simp [record, hop, counterInc, gaugeSet, gaugeInc, gaugeDec]

end Run

/-- Only the calls since the last `gauge_set` count. -/
theorem foldl_changeGauge {cs : List (Call ν)} (hkind : ∀ c ∈ cs, c.kind = .gauge) :
    cs.foldl changeGauge 0 = gaugeValue cs := by
  induction cs using List.reverseRecOn with
  | nil => rfl
  | append_singleton cs c ih =>
    have hrest : cs.foldl changeGauge 0 = gaugeValue cs := ih fun c hc => hkind c (List.mem_append_left _ hc)
    have hc : c.kind = .gauge := hkind c (List.mem_append_right _ (List.mem_singleton_self c))
    rw [List.foldl_append, hrest, List.foldl_cons, List.foldl_nil, gaugeValue, gaugeValue]
    cases hop : c.operation with
    | gaugeSet => simp [changeGauge, hop]
    | gaugeInc | gaugeDec => simp [changeGauge, hop]
    | counterInc | histogramObserve => simp [Call.kind, hop] at hc

/-! ### The summary of a collector -/

/-- What `summarize` returns where no index is out of range. -/
def summaryOf (obs : List ν) : HistogramSummary ν where
  count := obs.length
  sum := obs.foldl (· + ·) 0
  p50 := (sortedObs obs).getD (obs.length / 2) 0
  p95 := (sortedObs obs).getD (Measure.position ν obs.length .p95) 0
  p99 := (sortedObs obs).getD (min (Measure.position ν obs.length .p99) (obs.length - 1)) 0

private theorem getElem?_sortedObs {obs : List ν} {i : Nat} (h : i < obs.length) :
    (sortedObs obs)[i]? = some ((sortedObs obs).getD i 0) := by
  have hlength : i < (sortedObs obs).length := by rwa [sortedObs, List.length_insertionSort]
  rw [List.getD_eq_getElem?_getD, List.getElem?_eq_getElem hlength, Option.getD_some]

private theorem summarize_eq {obs : List ν} (hpos : 0 < obs.length)
    (hp95 : Measure.position ν obs.length .p95 < obs.length) : summarize obs = some (summaryOf obs) := by
  have hlength : (sortedObs obs).length = obs.length := List.length_insertionSort _ obs
  have hp50 : obs.length / 2 < obs.length := Nat.div_lt_self hpos (by decide)
  have hp99 : min (Measure.position ν obs.length .p99) (obs.length - 1) < obs.length := by omega
  simp only [summarize, hlength, getElem?_sortedObs hp50, getElem?_sortedObs hp95, getElem?_sortedObs hp99]
  rfl

private theorem describes_summaryOf [Std.Asymm fun a b : ν => a < b] [IsOrderConnected ν fun a b => a < b]
    {obs : List ν} (hpos : 0 < obs.length) (hp95 : Measure.position ν obs.length .p95 < obs.length) :
    Describes (summaryOf obs) obs where
  count := rfl
  sum := rfl
  p50 := Selection.isRank_of_insertionSort (getElem?_sortedObs (Nat.div_lt_self hpos (by decide)))
  p95 := Selection.isRank_of_insertionSort (getElem?_sortedObs hp95)
  p99 := Selection.isRank_of_insertionSort (getElem?_sortedObs (by omega))

/-- The loop of `get_summary` over the histograms. -/
theorem getSummary_eq {s : MetricsCollector ν}
    (h : ∀ e ∈ s.histograms.entries, 0 < e.2.length ∧ Measure.position ν e.2.length .p95 < e.2.length) :
    s.getSummary = some ⟨s.nodeId, s.counters, s.gauges, s.histograms.mapValues summaryOf⟩ := by
  have hloop (l : List (String × List ν)) (d : Dict String (HistogramSummary ν))
      (hl : ∀ e ∈ l, 0 < e.2.length ∧ Measure.position ν e.2.length .p95 < e.2.length) :
      l.foldlM (fun d e => if e.2.isEmpty then some d else (summarize e.2).map fun h => d.set e.1 h) d =
        some (d.fill (l.map fun e => (e.1, summaryOf e.2))) := by
    induction l generalizing d with
    | nil => rfl
    | cons e l ih =>
      obtain ⟨hpos, hp95⟩ := hl e List.mem_cons_self
      have hempty : ¬e.2.isEmpty := by simpa using List.length_pos_iff.1 hpos
      rw [List.foldlM_cons, if_neg hempty, summarize_eq hpos hp95]
      exact ih _ fun e he => hl e (List.mem_cons_of_mem _ he)
  have hfill : Dict.empty.fill (s.histograms.entries.map fun e => (e.1, summaryOf e.2)) =
      s.histograms.mapValues summaryOf := by
    refine Dict.congr_entries ?_
    rw [Dict.entries_fill, Dict.entries_mapValues]
    · rfl
    · rw [List.map_map]
      exact s.histograms.nodup
  rw [getSummary, hloop _ _ h, hfill]
  rfl

section Run

variable {nodeId : String} {calls : List (Call ν)}

private theorem get?_histograms_after (key : String) : (after nodeId calls).histograms.get? key =
    if observations key calls = [] then none else some (observations key calls) := by
  have hvalues (cs : List (Call ν)) : cs.foldl (fun obs c => obs ++ [c.value]) [] = cs.map Call.value := by
    rw [List.foldl_append_eq_append, List.nil_append, ← List.flatMap_def, ← List.map_eq_flatMap]
  rw [histograms_after, get?_accumulate_keyed, hvalues, observations]
  simp only [List.map_eq_nil_iff]

/-- The histograms are the keys that have been observed. -/
theorem entries_histograms_after {e : String × List ν} (he : e ∈ (after nodeId calls).histograms.entries) :
    observations e.1 calls = e.2 ∧ e.2 ≠ [] := by
  have hvalue := Dict.get?_of_mem he
  rw [get?_histograms_after] at hvalue
  by_cases hnil : observations e.1 calls = []
  · rw [if_pos hnil] at hvalue
    cases hvalue
  · rw [if_neg hnil, Option.some.injEq] at hvalue
    exact ⟨hvalue, hvalue ▸ hnil⟩

private theorem getSummary_after (hposition : ∀ key, observations key calls ≠ [] →
      Measure.position ν (observations key calls).length .p95 < (observations key calls).length) :
    (after nodeId calls).getSummary = some ⟨(after nodeId calls).nodeId, (after nodeId calls).counters,
      (after nodeId calls).gauges, (after nodeId calls).histograms.mapValues summaryOf⟩ := by
  refine getSummary_eq fun e he => ?_
  obtain ⟨hobs, hne⟩ := entries_histograms_after he
  have hp95 := hposition e.1 (hobs ▸ hne)
  rw [hobs] at hp95
  exact ⟨List.length_pos_iff.2 hne, hp95⟩

/-- After any calls, if the numbers are ordered and no index of a 95th percentile is out of range: a counter is the sum
of the increments under its key, a gauge what its calls amount to, and each histogram is described. -/
theorem summary_of_history [Std.Asymm fun a b : ν => a < b] [IsOrderConnected ν fun a b => a < b]
    (nodeId : String) (calls : List (Call ν))
    (hposition : ∀ key, observations key calls ≠ [] →
      Measure.position ν (observations key calls).length .p95 < (observations key calls).length) :
    ∃ summary, (after nodeId calls).getSummary = some summary ∧ summary.nodeId = nodeId ∧
      ∀ key,
        summary.counters.get? key = (if callsOf .counter key calls = [] then none
          else some ((callsOf .counter key calls).foldl (fun x c => x + c.value) 0)) ∧
        summary.gauges.get? key = (if callsOf .gauge key calls = [] then none
          else some (gaugeValue (callsOf .gauge key calls))) ∧
        (observations key calls = [] → summary.histograms.get? key = none) ∧
        (observations key calls ≠ [] → ∃ h, summary.histograms.get? key = some h ∧
          Describes h (observations key calls)) := by
  refine ⟨_, getSummary_after hposition, nodeId_after nodeId calls, fun key => ⟨?_, ?_, ?_, ?_⟩⟩
  · rw [counters_after, get?_accumulate_keyed]
  · have hkind : ∀ c ∈ callsOf .gauge key calls, c.kind = .gauge := fun c hc =>
      (of_decide_eq_true (List.mem_filter.1 hc).2).1
    rw [gauges_after, get?_accumulate_keyed, foldl_changeGauge hkind]
  · intro hnil
    rw [Dict.get?_mapValues, get?_histograms_after, if_pos hnil]
    rfl
  · intro hne
    have hvalue : (after nodeId calls).histograms.get? key = some (observations key calls) := by
      rw [get?_histograms_after, if_neg hne]
    rw [Dict.get?_mapValues, hvalue]
    exact ⟨_, rfl, describes_summaryOf (List.length_pos_iff.2 hne) (hposition key hne)⟩

end Run

instance : Std.Asymm fun a b : WholeFloat => a < b := ⟨fun a b => @lt_asymm Int _ a b⟩

instance : IsOrderConnected WholeFloat fun a b => a < b :=
  ⟨fun a b c hac => (@lt_or_ge Int _ a b).imp_right fun hba => @lt_of_le_of_lt Int _ b a c hba hac⟩

/-- Three locks are acquired, and the third one takes longer than the others. -/
def latencyRun : List (Call WholeFloat) :=
  [⟨.histogramObserve, "lock_acquire_latency", (2 : Int), .empty⟩, ⟨.gaugeSet, "node_up", (1 : Int), .empty⟩,
    ⟨.histogramObserve, "lock_acquire_latency", (1 : Int), .empty⟩,
    ⟨.histogramObserve, "lock_acquire_latency", (7 : Int), .empty⟩]

theorem summary_of_history_latency : ∃ summary h, (after "node-1" latencyRun).getSummary = some summary ∧
    summary.histograms.get? "lock_acquire_latency" = some h ∧ h.count = 3 ∧ h.sum = (10 : Int) := by
  have hobs : observations "lock_acquire_latency" latencyRun = [(2 : Int), (1 : Int), (7 : Int)] := rfl
  have hne : observations "lock_acquire_latency" latencyRun ≠ [] := by
    rw [hobs]
    exact List.cons_ne_nil _ _
  obtain ⟨summary, hsummary, -, hkeys⟩ := summary_of_history "node-1" latencyRun fun key hobserved => by
    have hpos := List.length_pos_iff.2 hobserved
    show (observations key latencyRun).length * 95 / 100 < (observations key latencyRun).length
    omega
  obtain ⟨h, hh, hdescribes⟩ := (hkeys "lock_acquire_latency").2.2.2 hne
  refine ⟨summary, h, hsummary, hh, ?_, ?_⟩
  · rw [hdescribes.count, hobs]
    rfl
  · rw [hdescribes.sum, hobs]
    rfl

/-! ### The text and the summary -/

/-- The lines of a histogram in the text output, from its summary. -/
def summaryLines (e : String × HistogramSummary ν) : List String :=
  ["# TYPE " ++ keyName e.1 ++ " summary", e.1 ++ "_count " ++ toString e.2.count,
    e.1 ++ "_sum " ++ Measure.fixed e.2.sum] ++
  [(Quantile.median, e.2.p50), (.p95, e.2.p95), (.p99, e.2.p99)].map fun q =>
    e.1 ++ "\x7bquantile=\"" ++ q.1.text ++ "\"\x7d " ++ Measure.fixed q.2

/-- The text output from the summary. -/
def summaryText (summary : MetricsSummary ν) : String :=
  "\n".intercalate (["# Node: " ++ summary.nodeId, ""] ++
    (sortedItems summary.counters).flatMap (valueLines "counter") ++
    (sortedItems summary.gauges).flatMap (valueLines "gauge") ++
    (sortedItems summary.histograms).flatMap summaryLines) ++ "\n"

private theorem summaryLines_eq (key : String) {obs : List ν} (hpos : 0 < obs.length)
    (hmedian : Measure.position ν obs.length .median = obs.length / 2)
    (hp95 : Measure.position ν obs.length .p95 < obs.length) :
    summaryLines (key, summaryOf obs) = histogramLines (key, obs) := by
  have hempty : ¬obs.isEmpty := by simpa using List.length_pos_iff.1 hpos
  have hlength : (obs.insertionSort fun a b => ¬b < a).length = obs.length := List.length_insertionSort _ obs
  have hmin50 : min (obs.length / 2) (obs.length - 1) = obs.length / 2 := by omega
  have hmin95 : min (Measure.position ν obs.length .p95) (obs.length - 1) = Measure.position ν obs.length .p95 := by
    omega
  simp only [histogramLines, if_neg hempty, hlength, List.map_cons, List.map_nil, hmedian, hmin50, hmin95]
  rfl

/-- The items of the summary are in the same order. -/
theorem sortedItems_mapValues {α β : Type} (d : Dict String α) (f : α → β) :
    sortedItems (d.mapValues f) = (sortedItems d).map fun e => (e.1, f e.2) := by
  rw [sortedItems, sortedItems, Dict.entries_mapValues]
  let r : String × α → String × α → Prop := fun a b => a.1 ≤ b.1
  let r' : String × β → String × β → Prop := fun a b => a.1 ≤ b.1
  exact (List.map_insertionSort r r' (fun e => (e.1, f e.2)) d.entries fun _ _ _ _ => Iff.rfl).symm

/-- After any calls the text output is what the summary says. -/
theorem output_of_summary (nodeId : String) {calls : List (Call ν)}
    (hmedian : ∀ key, observations key calls ≠ [] →
      Measure.position ν (observations key calls).length .median = (observations key calls).length / 2)
    (hposition : ∀ key, observations key calls ≠ [] →
      Measure.position ν (observations key calls).length .p95 < (observations key calls).length) :
    (after nodeId calls).getSummary.map summaryText = some (after nodeId calls).getPrometheusOutput := by
  have hlines : (sortedItems ((after nodeId calls).histograms.mapValues summaryOf)).flatMap summaryLines =
      (sortedItems (after nodeId calls).histograms).flatMap histogramLines := by
    rw [sortedItems_mapValues, List.flatMap_map]
    refine List.flatMap_congr fun e he => ?_
    have hmem : e ∈ (after nodeId calls).histograms.entries := (List.mem_insertionSort _).1 he
    obtain ⟨hobs, hne⟩ := entries_histograms_after hmem
    have hmedian' := hmedian e.1 (hobs ▸ hne)
    have hp95 := hposition e.1 (hobs ▸ hne)
    rw [hobs] at hmedian' hp95
    exact summaryLines_eq e.1 (List.length_pos_iff.2 hne) hmedian' hp95
  rw [getSummary_after hposition, Option.map_some, summaryText, hlines]
  rfl

theorem output_of_summary_latency : (after "node-1" latencyRun).getSummary.map summaryText =
    some (after "node-1" latencyRun).getPrometheusOutput := by
  refine output_of_summary "node-1" (fun key _ => ?_) fun key hobserved => ?_
  · show (observations key latencyRun).length * 50 / 100 = (observations key latencyRun).length / 2
    omega
  · have hpos := List.length_pos_iff.2 hobserved
    show (observations key latencyRun).length * 95 / 100 < (observations key latencyRun).length
    omega

end MetricsCollector

end DistributedSync
