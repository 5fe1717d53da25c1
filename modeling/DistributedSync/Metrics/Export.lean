import Mathlib.Algebra.Order.Ring.Int
import Mathlib.Data.List.Pairwise
import DistributedSync.Metrics.Keys

/-!
# The text that the metrics collector exports

`get_prometheus_output` writes a group of lines for every key: a `# TYPE` line and the samples (`Group`).  A group is
well formed unless it is of a histogram with labels, where the suffixes and the quantiles are behind the block of labels
(`Group.Of.family`, `Group.Of.not_valid`).  Two groups do not go together if they are of one metric, or if a histogram
is named as the count or the sum of another one (`separate_of_valid`, `valid_of_separate`).
-/

namespace DistributedSync

open Exposition

namespace MetricsCollector

variable {ν : Type} [Measure ν]

/-! ### Groups -/

/-- The lines of a metric under one of its keys. -/
structure Group where
  kind : Kind
  key : String
  lines : List String

def Group.texts (g : Group) : List Text := g.lines.map String.toList

def groups (s : MetricsCollector ν) : List Group :=
  (sortedItems s.counters).map (fun e => ⟨.counter, e.1, valueLines "counter" e⟩) ++
  (sortedItems s.gauges).map (fun e => ⟨.gauge, e.1, valueLines "gauge" e⟩) ++
  (sortedItems s.histograms).map fun e => ⟨.histogram, e.1, histogramLines e⟩

private theorem outputLines_eq (s : MetricsCollector ν) :
    s.outputLines = ("# Node: " ++ s.nodeId) :: "" :: s.groups.flatMap Group.lines := by
  simp [outputLines, groups, List.flatMap_map]

/-- A group is of one of the tables. -/
theorem mem_groups {s : MetricsCollector ν} {g : Group} (hg : g ∈ s.groups) :
    (∃ e ∈ s.counters.entries, g = ⟨.counter, e.1, valueLines "counter" e⟩) ∨
    (∃ e ∈ s.gauges.entries, g = ⟨.gauge, e.1, valueLines "gauge" e⟩) ∨
    ∃ e ∈ s.histograms.entries, g = ⟨.histogram, e.1, histogramLines e⟩ := by
  simp only [groups, List.mem_append, List.mem_map, sortedItems, List.mem_insertionSort] at hg
  rcases hg with (⟨e, he, rfl⟩ | ⟨e, he, rfl⟩) | ⟨e, he, rfl⟩
  · exact Or.inl ⟨e, he, rfl⟩
  · exact Or.inr (Or.inl ⟨e, he, rfl⟩)
  · exact Or.inr (Or.inr ⟨e, he, rfl⟩)

private theorem key_mem_keysOf {s : MetricsCollector ν} {g : Group} (hg : g ∈ s.groups) : g.key ∈ s.keysOf g.kind := by
  rcases mem_groups hg with ⟨e, he, rfl⟩ | ⟨e, he, rfl⟩ | ⟨e, he, rfl⟩
  all_goals exact List.mem_map_of_mem he

private theorem exists_group {s : MetricsCollector ν} {kind : Kind} {key : String} (h : key ∈ s.keysOf kind) :
    ∃ g ∈ s.groups, g.kind = kind ∧ g.key = key := by
  simp only [groups, sortedItems]
  cases kind
  all_goals
    obtain ⟨e, he, rfl⟩ := List.mem_map.1 h
    have hsorted := (List.mem_insertionSort (fun a b => a.1 ≤ b.1)).2 he
  · exact ⟨_, List.mem_append_left _ (List.mem_append_left _ (List.mem_map_of_mem hsorted)), rfl, rfl⟩
  · exact ⟨_, List.mem_append_left _ (List.mem_append_right _ (List.mem_map_of_mem hsorted)), rfl, rfl⟩
  · exact ⟨_, List.mem_append_right _ (List.mem_map_of_mem hsorted), rfl, rfl⟩

private theorem sortedItems_pairwise {β : Type} (d : Dict String β) :
    (sortedItems d).Pairwise fun a b => a.1 < b.1 := by
  let r : String × β → String × β → Prop := fun a b => a.1 ≤ b.1
  have : Std.Total r := ⟨fun a b => le_total a.1 b.1⟩
  have : IsTrans (String × β) r := ⟨fun _ _ _ hab hbc => le_trans hab hbc⟩
  have hperm := (List.perm_insertionSort r d.entries).map Prod.fst
  have hnodup : (sortedItems d).Pairwise fun a b => a.1 ≠ b.1 := List.pairwise_map.1 (hperm.nodup_iff.2 d.nodup)
  exact (List.pairwise_insertionSort r d.entries).imp₂ (fun _ _ hle hne => lt_of_le_of_ne hle hne) hnodup

/-- The groups of a kind are in the order of their keys, and those of the histograms are the last ones. -/
theorem groups_pairwise (s : MetricsCollector ν) :
    s.groups.Pairwise fun g g' =>
      (g.kind = g'.kind → g.key < g'.key) ∧ (g.kind = .histogram → g'.kind = .histogram) := by
  simp only [groups, List.pairwise_append, List.pairwise_map, List.mem_append, List.mem_map]
  refine ⟨⟨?_, ?_, ?_⟩, ?_, ?_⟩
  · exact (sortedItems_pairwise s.counters).imp fun h => ⟨fun _ => h, fun hkind => hkind⟩
  · exact (sortedItems_pairwise s.gauges).imp fun h => ⟨fun _ => h, fun hkind => hkind⟩
  · rintro _ ⟨e, -, rfl⟩ _ ⟨e', -, rfl⟩
    exact ⟨fun hkind => Kind.noConfusion hkind, fun hkind => Kind.noConfusion hkind⟩
  · exact (sortedItems_pairwise s.histograms).imp fun h => ⟨fun _ => h, fun hkind => hkind⟩
  · rintro _ (⟨e, -, rfl⟩ | ⟨e, -, rfl⟩) _ ⟨e', -, rfl⟩
    · exact ⟨fun hkind => Kind.noConfusion hkind, fun hkind => Kind.noConfusion hkind⟩
    · exact ⟨fun hkind => Kind.noConfusion hkind, fun hkind => Kind.noConfusion hkind⟩

/-! ### The lines of a group -/

section Lines

variable {name : String} {labels : Dict String String}

private theorem valueLines_texts (kind : String) (x : ν) (h : MetricName name.toList) :
    (valueLines kind (makeKey name labels, x)).map String.toList =
      typeLine name.toList kind.toList ::
        [Sample.mk name.toList (labelPairs labels) (Measure.text x).toList].map Sample.text := by
  simp [valueLines, keyName_makeKey h, typeLine, typePrefix, Sample.text, toList_makeKey]

/-- The quantiles of a histogram in the order of the output. -/
def quantiles : List Quantile := [.median, .p95, .p99]

private theorem histogramLines_texts (labels : Dict String String) {xs : List ν} (hxs : xs ≠ [])
    (h : MetricName name.toList) :
    ∃ (total : ν) (quantile : Quantile → ν), (histogramLines (makeKey name labels, xs)).map String.toList =
      typeLine name.toList "summary".toList ::
        (series name.toList (labelPairs labels) ++ "_count ".toList ++ (toString xs.length).toList) ::
        (series name.toList (labelPairs labels) ++ "_sum ".toList ++ (Measure.fixed total).toList) ::
        quantiles.map fun q => series name.toList (labelPairs labels) ++
          block [("quantile".toList, q.text.toList)] ++ ' ' :: (Measure.fixed (quantile q)).toList := by
  let sortedObs := xs.insertionSort fun a b => ¬b < a
  have hempty : xs.isEmpty = false := by simpa using hxs
  refine ⟨xs.foldl (· + ·) 0, fun q => sortedObs.getD
    (min (Measure.position ν sortedObs.length q) (sortedObs.length - 1)) 0, ?_⟩
  simp [histogramLines, hempty, keyName_makeKey h, typeLine, typePrefix, quantiles, block, body, label,
    toList_makeKey, sortedObs]

end Lines

/-! ### Calls -/

namespace Call

/-- The names of the samples of a metric, which has no labels if it is a histogram. -/
def sampleNames (c : Call ν) : List Text :=
  match c.kind with
  | .counter | .gauge => [c.name.toList]
  | .histogram => [c.name.toList ++ "_count".toList, c.name.toList ++ "_sum".toList, c.name.toList]

end Call

/-- Calls of the recording methods: names of metrics and of labels, plain values of labels, and one kind of metric
under each name. -/
structure Proper (calls : List (Call ν)) : Prop where
  name : ∀ c ∈ calls, MetricName c.name.toList
  labels : ∀ c ∈ calls, PlainLabels c.labels
  kind : ∀ c ∈ calls, ∀ c' ∈ calls, c.name = c'.name → c.kind = c'.kind

/-- A group is that of a call: it is under the key of the call. -/
def Group.Of (g : Group) (c : Call ν) : Prop := c.kind = g.kind ∧ g.key = c.key

section Run

variable {nodeId : String} {calls : List (Call ν)}

private theorem exists_call {g : Group} (hg : g ∈ (after nodeId calls).groups) : ∃ c ∈ calls, g.Of c := by
  obtain ⟨c, hc, hkind, hkey⟩ := (mem_keysOf_after nodeId calls g.kind g.key).1 (key_mem_keysOf hg)
  exact ⟨c, hc, hkind, hkey⟩

private theorem exists_group_of (nodeId : String) {c : Call ν} (hc : c ∈ calls) :
    ∃ g ∈ (after nodeId calls).groups, g.Of c := by
  obtain ⟨g, hg, hkind, hkey⟩ := exists_group ((mem_keysOf_after nodeId calls c.kind c.key).2 ⟨c, hc, rfl, rfl⟩)
  exact ⟨g, hg, hkind.symm, hkey⟩

/-- The lines of a group by the call that made its key. -/
theorem Group.Of.cases {g : Group} {c : Call ν} (hg : g ∈ (after nodeId calls).groups) (h : g.Of c) :
    (∃ (kind : String) (x : ν), (kind = "counter" ∨ kind = "gauge") ∧ c.kind ≠ .histogram ∧
      g.lines = valueLines kind (c.key, x)) ∨
    ∃ xs : List ν, xs ≠ [] ∧ c.kind = .histogram ∧ g.lines = histogramLines (c.key, xs) := by
  rcases mem_groups hg with ⟨e, he, rfl⟩ | ⟨e, he, rfl⟩ | ⟨e, he, rfl⟩
  · refine Or.inl ⟨"counter", e.2, Or.inl rfl, ?_, by rw [← h.2]⟩
    rw [h.1]
    exact Kind.noConfusion
  · refine Or.inl ⟨"gauge", e.2, Or.inr rfl, ?_, by rw [← h.2]⟩
    rw [h.1]
    exact Kind.noConfusion
  · refine Or.inr ⟨e.2, ?_, h.1, by rw [← h.2]⟩
    exact observed_after nodeId calls e.1 e.2 (Dict.get?_of_mem he)

/-- No line of a group is broken. -/
theorem Group.Of.notMem {g : Group} {c : Call ν} (hg : g ∈ (after nodeId calls).groups) (h : g.Of c)
    (hname : MetricName c.name.toList) (hplain : PlainLabels c.labels) : ∀ l ∈ g.texts, '\n' ∉ l := by
  have hseries : '\n' ∉ series c.name.toList (labelPairs c.labels) := notMem_series hname hplain.labels
  have htype : ∀ kind, '\n' ∉ kind → '\n' ∉ typeLine c.name.toList kind := by
    intro kind hkind
    have hprefix : '\n' ∉ typePrefix := by decide
    have hword : '\n' ∉ c.name.toList := Word.notMem hname (by decide) (by decide)
    simp [typeLine, hprefix, hword, hkind]
  rcases h.cases hg with ⟨kind, x, hkind, -, hlines⟩ | ⟨xs, hxs, -, hlines⟩
  · have hkind' : '\n' ∉ kind.toList := by
      rcases hkind with rfl | rfl
      all_goals decide
    have hvalue := (Measure.numeral_text x).notMem
    rw [Group.texts, hlines, Call.key, valueLines_texts kind x hname]
    simp [htype _ hkind', Sample.text, hseries, hvalue]
  · obtain ⟨total, quantile, htexts⟩ := histogramLines_texts c.labels hxs hname
    rw [Group.texts, hlines, Call.key, htexts]
    intro l hl
    simp only [List.mem_cons, List.mem_map] at hl
    rcases hl with rfl | rfl | rfl | ⟨q, -, rfl⟩
    · exact htype _ (by decide)
    · have hcount := (digits_toString xs.length).numeral.notMem
      have hsuffix : '\n' ∉ "_count ".toList := by decide
      simp only [List.mem_append, not_or]
      exact ⟨⟨hseries, hsuffix⟩, hcount⟩
    · have hsum := (Measure.numeral_fixed total).notMem
      have hsuffix : '\n' ∉ "_sum ".toList := by decide
      simp only [List.mem_append, not_or]
      exact ⟨⟨hseries, hsuffix⟩, hsum⟩
    · have hquantile := (Measure.numeral_fixed (quantile q)).notMem
      have hblock : '\n' ∉ block [("quantile".toList, q.text.toList)] := by
        cases q
        all_goals decide
      simp only [List.mem_append, List.mem_cons, not_or]
      exact ⟨⟨hseries, hblock⟩, by decide, hquantile⟩

/-- A group is the `# TYPE` line of its metric and samples, if it is not of a histogram with labels. -/
theorem Group.Of.family {g : Group} {c : Call ν} (hg : g ∈ (after nodeId calls).groups) (h : g.Of c)
    (hname : MetricName c.name.toList) (hplain : PlainLabels c.labels)
    (hlabels : c.kind = .histogram → c.labels.entries = []) : Family c.name.toList c.sampleNames g.texts := by
  rcases h.cases hg with ⟨kind, x, hkind, hcall, hlines⟩ | ⟨xs, hxs, hcall, hlines⟩
  · have hkinds : kind.toList ∈ kinds := by
      rcases hkind with rfl | rfl
      all_goals decide
    have hnames : c.sampleNames = [c.name.toList] := by
      rw [Call.sampleNames]
      cases hc : c.kind with
      | counter | gauge => rfl
      | histogram => exact absurd hc hcall
    rw [Group.texts, hlines, Call.key, valueLines_texts kind x hname, hnames]
    refine family_of_samples hname hkinds fun y hy => ?_
    rw [List.mem_singleton.1 hy]
    exact ⟨hname, hplain.labels, Measure.numeral_text x⟩
  · obtain ⟨total, quantile, htexts⟩ := histogramLines_texts c.labels hxs hname
    have hnil : labelPairs c.labels = [] := labelPairs_eq_nil.2 (hlabels hcall)
    let count := Sample.mk (c.name.toList ++ "_count".toList) [] (toString xs.length).toList
    let sum := Sample.mk (c.name.toList ++ "_sum".toList) [] (Measure.fixed total).toList
    let samples := count :: sum :: quantiles.map fun q =>
      Sample.mk c.name.toList [("quantile".toList, q.text.toList)] (Measure.fixed (quantile q)).toList
    have heq : g.texts = typeLine c.name.toList "summary".toList :: samples.map Sample.text := by
      rw [Group.texts, hlines, Call.key, htexts, hnil]
      simp [samples, count, sum, Sample.text, series]
    have hsamples : ∀ y ∈ samples, y.WellFormed := by
      intro y hy
      simp only [samples, List.mem_cons, List.mem_map] at hy
      rcases hy with rfl | rfl | ⟨q, -, rfl⟩
      · exact ⟨hname.append (by decide), fun p hp => absurd hp List.not_mem_nil, (digits_toString xs.length).numeral⟩
      · exact ⟨hname.append (by decide), fun p hp => absurd hp List.not_mem_nil, Measure.numeral_fixed total⟩
      · refine ⟨hname, fun p hp => ?_, Measure.numeral_fixed (quantile q)⟩
        rw [List.mem_singleton.1 hp]
        have hplain : ∀ d ∈ q.text.toList, d ∉ reserved := by
          cases q
          all_goals exact plain_of_all (by decide)
        exact ⟨show LabelName "quantile".toList by decide, escaped_of_plain hplain⟩
    rw [heq]
    refine (family_of_samples hname (by decide) hsamples).congr fun m => ?_
    simp [samples, count, sum, quantiles, Call.sampleNames, hcall]

/-- The suffix of the count is behind the labels. -/
theorem Group.Of.not_valid {g : Group} {c : Call ν} (hg : g ∈ (after nodeId calls).groups) (h : g.Of c)
    (hname : MetricName c.name.toList) (hplain : PlainLabels c.labels) (hkind : c.kind = .histogram)
    (hlabels : c.labels.entries ≠ []) : ¬Valid g.texts := by
  intro hvalid
  rcases h.cases hg with ⟨_, _, _, hcall, _⟩ | ⟨xs, hxs, -, hlines⟩
  · exact hcall hkind
  · obtain ⟨total, quantile, htexts⟩ := histogramLines_texts c.labels hxs hname
    have hne : labelPairs c.labels ≠ [] := fun hnil => hlabels (labelPairs_eq_nil.1 hnil)
    have hmem : c.name.toList ++ block (labelPairs c.labels) ++ '_' :: ("count ".toList ++
        (toString xs.length).toList) ∈ g.texts := by
      rw [Group.texts, hlines, Call.key, htexts, series, if_neg hne]
      exact List.mem_cons_of_mem _ (by simp)
    exact not_line_of_block hname hplain.labels (by decide) (hvalid.lines _ hmem)

end Run

/-! ### The output -/

section Output

variable {nodeId : String} {calls : List (Call ν)}

/-- The lines of a node id behind its first one. -/
def laterLines (nodeId : String) : List Text := (nodeId.toList.splitOn '\n').tail

/-- The calls of a metric have the same labels, those of a histogram none, and no histogram is named as the count or
the sum of another one. -/
structure Separate (calls : List (Call ν)) : Prop where
  labels : ∀ c ∈ calls, ∀ c' ∈ calls, c.name = c'.name → ∀ k, c.labels.get? k = c'.labels.get? k
  histogram : ∀ c ∈ calls, c.kind = .histogram → c.labels.entries = []
  suffix : ∀ c ∈ calls, ∀ c' ∈ calls, c.kind = .histogram → c'.kind = .histogram →
    c'.name ≠ c.name ++ "_count" ∧ c'.name ≠ c.name ++ "_sum"

/-- The lines of the node id go with the metrics. -/
structure Exportable (nodeId : String) (calls : List (Call ν)) : Prop extends Separate calls where
  later : Valid (laterLines nodeId)
  apart : ∀ c ∈ calls, ¬Types (laterLines nodeId) c.name.toList ∧ ¬Samples (laterLines nodeId) c.name.toList

/-- The output is that of the node id and that of the groups. -/
theorem validText_iff (h : Proper calls) : ValidText (getPrometheusOutput (after nodeId calls)).toList ↔
    Valid (laterLines nodeId) ∧ Valid ((after nodeId calls).groups.flatMap Group.texts) ∧
      Apart (laterLines nodeId) ((after nodeId calls).groups.flatMap Group.texts) := by
  let groups := (after nodeId calls).groups
  obtain ⟨first, hfirst⟩ := splitOn_append ("# Node: ".toList) nodeId.toList (by decide)
  have hsplit : ∀ g ∈ groups, g.texts.flatMap (fun l => l.splitOn '\n') = g.texts := by
    intro g hg
    obtain ⟨c, hc, hof⟩ := exists_call hg
    have hfeed := hof.notMem hg (h.name c hc) (h.labels c hc)
    calc g.texts.flatMap (fun l => l.splitOn '\n')
      _ = g.texts.flatMap (fun l => [l]) := List.flatMap_congr fun l hl => List.splitOn_eq_singleton (hfeed l hl)
      _ = g.texts := List.flatMap_singleton' g.texts
  have hlines : ((after nodeId calls).outputLines.map String.toList).flatMap (fun l => l.splitOn '\n') =
      ("# Node: ".toList ++ first) :: (laterLines nodeId ++ [] :: groups.flatMap Group.texts) := by
    have hgroups : ((groups.flatMap Group.lines).map String.toList).flatMap (fun l => l.splitOn '\n') =
        groups.flatMap Group.texts := by
      rw [List.map_flatMap, List.flatMap_assoc]
      exact List.flatMap_congr hsplit
    rw [outputLines_eq, nodeId_after, List.map_cons, List.map_cons, List.flatMap_cons, List.flatMap_cons, hgroups,
      String.toList_append, hfirst]
    rfl
  have hcomment : Comment ("# Node: ".toList ++ first) := by
    refine ⟨⟨" Node: ".toList ++ first, rfl⟩, fun hprefix => ?_⟩
    simp [typePrefix] at hprefix
  have hempty : Idle [] := Or.inl rfl
  have hne : (after nodeId calls).outputLines.map String.toList ≠ [] := by simp [outputLines_eq]
  have htext : (getPrometheusOutput (after nodeId calls)).toList =
      List.intercalate ['\n'] ((after nodeId calls).outputLines.map String.toList) ++ ['\n'] := by
    rw [getPrometheusOutput, String.toList_append, String.toList_intercalate]
    rfl
  have hapart : Apart (laterLines nodeId) ([] :: groups.flatMap Group.texts) ↔
      Apart (laterLines nodeId) (groups.flatMap Group.texts) :=
    forall_congr' fun m => imp_congr_left (types_cons_idle hempty m)
  rw [htext, validText_intercalate hne, hlines, valid_cons_idle (Or.inr hcomment), valid_append,
    valid_cons_idle hempty, hapart]

/-- Two groups are in one of the two orders. -/
theorem groups_related {R : Group → Group → Prop} {g g' : Group} {s : MetricsCollector ν} (h : s.groups.Pairwise R)
    (hg : g ∈ s.groups) (hg' : g' ∈ s.groups) (hne : g ≠ g') : R g g' ∨ R g' g := by
  let S : Group → Group → Prop := fun a b => R a b ∨ R b a
  have : Std.Symm S := ⟨fun _ _ hab => hab.symm⟩
  have hS : s.groups.Pairwise S := h.imp fun hab => Or.inl hab
  exact hS.forall hg hg' hne

theorem le_append (s t : String) : s ≤ s ++ t := by
  rw [String.le_iff_toList_le, String.toList_append]
  exact not_lt.1 (List.not_lt.2 (List.IsPrefix.le (List.prefix_append s.toList t.toList)))

private theorem family_of_mem (h : Proper calls) (hhistogram : ∀ c ∈ calls, c.kind = .histogram → c.labels.entries = [])
    {g : Group} {c : Call ν} (hg : g ∈ (after nodeId calls).groups) (hc : c ∈ calls) (hof : g.Of c) :
    Family c.name.toList c.sampleNames g.texts :=
  hof.family hg (h.name c hc) (h.labels c hc) (hhistogram c hc)

theorem separate_of_valid (h : Proper calls) (hvalid : Valid ((after nodeId calls).groups.flatMap Group.texts)) :
    Separate calls := by
  obtain ⟨hgroups, hapart⟩ := valid_flatMap.1 hvalid
  have hhistogram : ∀ c ∈ calls, c.kind = .histogram → c.labels.entries = [] := by
    intro c hc hkind
    by_contra hlabels
    obtain ⟨g, hg, hof⟩ := exists_group_of nodeId hc
    exact hof.not_valid hg (h.name c hc) (h.labels c hc) hkind hlabels (hgroups g hg)
  have hnot : ∀ {g g' : Group} {c c' : Call ν}, g ∈ (after nodeId calls).groups → g' ∈ (after nodeId calls).groups →
      c ∈ calls → c' ∈ calls → g.Of c → g'.Of c' → Apart g.texts g'.texts →
      c'.name.toList ≠ c.name.toList ∧ c'.name.toList ∉ c.sampleNames := by
    intro g g' c c' hg hg' hc hc' hof hof' hgg'
    exact ((family_of_mem h hhistogram hg hc hof).apart (family_of_mem h hhistogram hg' hc' hof')).1 hgg'
  refine ⟨?_, hhistogram, ?_⟩
  · intro c hc c' hc' hname
    obtain ⟨g, hg, hof⟩ := exists_group_of nodeId hc
    obtain ⟨g', hg', hof'⟩ := exists_group_of nodeId hc'
    by_cases heq : g = g'
    · have hkey : makeKey c.name c.labels = makeKey c'.name c'.labels := by
        rw [heq] at hof
        exact hof.2.symm.trans hof'.2
      exact ((makeKey_inj (h.name c hc) (h.name c' hc') (h.labels c hc) (h.labels c' hc')).1 hkey).2
    · rcases groups_related hapart hg hg' heq with hgg' | hg'g
      · exact absurd (congrArg String.toList hname.symm) (hnot hg hg' hc hc' hof hof' hgg').1
      · exact absurd (congrArg String.toList hname) (hnot hg' hg hc' hc hof' hof hg'g).1
  · intro c hc c' hc' hkind hkind'
    have hsuffix : ∀ suffix : String, suffix ≠ "" → c.name.toList ++ suffix.toList ∈ c.sampleNames →
        c'.name ≠ c.name ++ suffix := by
      intro suffix hsuffix hmem hname
      obtain ⟨g, hg, hof⟩ := exists_group_of nodeId hc
      obtain ⟨g', hg', hof'⟩ := exists_group_of nodeId hc'
      have hkey : g.key = c.name := hof.2.trans (makeKey_of_nil (hhistogram c hc hkind))
      have hkey' : g'.key = c.name ++ suffix :=
        (hof'.2.trans (makeKey_of_nil (hhistogram c' hc' hkind'))).trans hname
      have hne : g ≠ g' := by
        rintro rfl
        rw [hkey] at hkey'
        exact hsuffix (by simpa using hkey'.symm)
      have hboth := hapart.and (groups_pairwise (after nodeId calls))
      rcases groups_related hboth hg hg' hne with ⟨hgg', -⟩ | ⟨-, horder, -⟩
      · have hout := (hnot hg hg' hc hc' hof hof' hgg').2
        rw [hname, String.toList_append] at hout
        exact hout hmem
      · -- the histogram without the suffix has the smaller key, so it is in front
        have hlt := horder (by rw [← hof'.1, ← hof.1, hkind, hkind'])
        rw [hkey, hkey'] at hlt
        exact absurd hlt (not_lt_of_ge (le_append c.name suffix))
    exact ⟨hsuffix "_count" (by decide) (by simp [Call.sampleNames, hkind]),
      hsuffix "_sum" (by decide) (by simp [Call.sampleNames, hkind])⟩

theorem valid_of_separate (h : Proper calls) (hseparate : Separate calls) :
    Valid ((after nodeId calls).groups.flatMap Group.texts) := by
  refine valid_flatMap.2 ⟨fun g hg => ?_, ?_⟩
  · obtain ⟨c, hc, hof⟩ := exists_call hg
    exact (family_of_mem h hseparate.histogram hg hc hof).valid
  · refine (groups_pairwise (after nodeId calls)).imp_of_mem fun {g g'} hg hg' horder => ?_
    obtain ⟨c, hc, hof⟩ := exists_call hg
    obtain ⟨c', hc', hof'⟩ := exists_call hg'
    rw [(family_of_mem h hseparate.histogram hg hc hof).apart (family_of_mem h hseparate.histogram hg' hc' hof')]
    have hname : c'.name ≠ c.name := by
      intro hname
      have hkind : g.kind = g'.kind := by rw [← hof.1, ← hof'.1, h.kind c' hc' c hc hname]
      have hkey : c.key = c'.key := (makeKey_inj (h.name c hc) (h.name c' hc') (h.labels c hc) (h.labels c' hc')).2
        ⟨hname.symm, hseparate.labels c hc c' hc' hname.symm⟩
      have hlt := horder.1 hkind
      rw [hof.2, hof'.2, hkey] at hlt
      exact lt_irrefl _ hlt
    have hname' : c'.name.toList ≠ c.name.toList := fun heq => hname (String.toList_injective heq)
    refine ⟨hname', ?_⟩
    rw [Call.sampleNames]
    cases hkind : c.kind with
    | counter | gauge => simpa using hname'
    | histogram =>
      have hkind' : c'.kind = .histogram := hof'.1.trans (horder.2 (hof.1.symm.trans hkind))
      have hsuffix := hseparate.suffix c hc c' hc' hkind hkind'
      have hne : ∀ suffix : String, c'.name ≠ c.name ++ suffix → c'.name.toList ≠ c.name.toList ++ suffix.toList := by
        intro suffix hne heq
        rw [← String.toList_append] at heq
        exact hne (String.toList_injective heq)
      simp only [List.mem_cons, List.not_mem_nil, or_false, not_or]
      exact ⟨hne "_count" hsuffix.1, hne "_sum" hsuffix.2, hname'⟩

/-- The metrics that are exported are those of the calls. -/
theorem types_groups (h : Proper calls) (hseparate : Separate calls) (m : Text) :
    Types ((after nodeId calls).groups.flatMap Group.texts) m ↔ ∃ c ∈ calls, m = c.name.toList := by
  constructor
  · rintro ⟨l, hl, htype⟩
    obtain ⟨g, hg, hl⟩ := List.mem_flatMap.1 hl
    obtain ⟨c, hc, hof⟩ := exists_call hg
    exact ⟨c, hc, ((family_of_mem h hseparate.histogram hg hc hof).types m).1 ⟨l, hl, htype⟩⟩
  · rintro ⟨c, hc, rfl⟩
    obtain ⟨g, hg, hof⟩ := exists_group_of nodeId hc
    obtain ⟨l, hl, htype⟩ := ((family_of_mem h hseparate.histogram hg hc hof).types _).2 rfl
    exact ⟨l, List.mem_flatMap.2 ⟨g, hg, hl⟩, htype⟩

/-- The output is a valid text if and only if the metrics are separate and the node id goes with them. -/
theorem validText_iff_exportable (h : Proper calls) :
    ValidText (getPrometheusOutput (after nodeId calls)).toList ↔ Exportable nodeId calls := by
  rw [validText_iff h]
  constructor
  · rintro ⟨hlater, hgroups, hapart⟩
    have hseparate := separate_of_valid h hgroups
    exact ⟨hseparate, hlater, fun c hc => hapart c.name.toList ((types_groups h hseparate _).2 ⟨c, hc, rfl⟩)⟩
  · rintro ⟨hseparate, hlater, hcalls⟩
    refine ⟨hlater, valid_of_separate h hseparate, fun m hm => ?_⟩
    obtain ⟨c, hc, rfl⟩ := (types_groups h hseparate m).1 hm
    exact hcalls c hc

end Output

/-- Floats that are whole numbers. -/
def WholeFloat : Type := Int

instance : Measure WholeFloat where
  toNumber := (Number.ofLinearOrder : Number Int)
  toSub := (inferInstance : Sub Int)
  text := fun x : Int => toString x ++ ".0"
  fixed := fun x : Int => toString x ++ ".000000"
  position n q := n * q.percent / 100
  numeral_text x := by
    have hpoint : ".0".toList = ['.', '0'] := by decide
    rw [String.toList_append, hpoint]
    exact numeral_point x (by decide)
  numeral_fixed x := by
    have hpoint : ".000000".toList = ['.', '0', '0', '0', '0', '0', '0'] := by decide
    rw [String.toList_append, hpoint]
    exact numeral_point x (by decide)

/-- The label of a lock that is acquired. -/
def lockLabels (lockType : String) : Dict String String := Dict.empty.set "type" lockType

/-- Locks of one type are acquired, and the node is up. -/
def lockRun : List (Call WholeFloat) :=
  [⟨.counterInc, "lock_acquired_total", (1 : Int), lockLabels "exclusive"⟩, ⟨.gaugeSet, "node_up", (1 : Int), .empty⟩,
    ⟨.counterInc, "lock_acquired_total", (1 : Int), lockLabels "exclusive"⟩,
    ⟨.histogramObserve, "lock_acquire_latency", (2 : Int), .empty⟩]

/-- Locks of both types are acquired. -/
def bothTypes : List (Call WholeFloat) :=
  [⟨.counterInc, "lock_acquired_total", (1 : Int), lockLabels "exclusive"⟩,
    ⟨.counterInc, "lock_acquired_total", (1 : Int), lockLabels "shared"⟩]

private theorem plainLabels_lock {lockType : String} (h : ∀ c ∈ lockType.toList, c ∉ reserved) :
    PlainLabels (lockLabels lockType) := by
  intro e he
  rw [show (lockLabels lockType).entries = [("type", lockType)] from rfl, List.mem_singleton] at he
  rw [he]
  exact ⟨show LabelName "type".toList by decide, h⟩

private theorem plainLabels_empty : PlainLabels Dict.empty := fun _ he => absurd he List.not_mem_nil

private theorem proper_lockRun : Proper lockRun where
  name := by decide
  labels c hc := by
    simp only [lockRun, List.mem_cons, List.not_mem_nil, or_false] at hc
    rcases hc with rfl | rfl | rfl | rfl
    · exact plainLabels_lock (plain_of_all (by decide))
    · exact plainLabels_empty
    · exact plainLabels_lock (plain_of_all (by decide))
    · exact plainLabels_empty
  kind := by decide

theorem exported_lockRun : ValidText (getPrometheusOutput (after "node-1" lockRun)).toList := by
  refine (validText_iff_exportable proper_lockRun).2 ⟨⟨?_, by decide, by decide⟩, ?_, ?_⟩
  · have hlabels : ∀ c ∈ lockRun, ∀ c' ∈ lockRun, c.name = c'.name → c.labels = c'.labels := by decide
    intro c hc c' hc' hname k
    rw [hlabels c hc c' hc' hname]
  · rw [show laterLines "node-1" = [] by decide]
    exact ⟨fun l hl => absurd hl List.not_mem_nil, List.Pairwise.nil⟩
  · rw [show laterLines "node-1" = [] by decide]
    refine fun c _ => ⟨?_, ?_⟩
    · rintro ⟨l, hl, -⟩
      exact absurd hl List.not_mem_nil
    · rintro ⟨l, hl, -⟩
      exact absurd hl List.not_mem_nil

private theorem proper_bothTypes : Proper bothTypes where
  name := by decide
  labels c hc := by
    simp only [bothTypes, List.mem_cons, List.not_mem_nil, or_false] at hc
    rcases hc with rfl | rfl
    all_goals exact plainLabels_lock (plain_of_all (by decide))
  kind := by decide

/-- Two `# TYPE` lines of a metric. -/
theorem type_line_for_every_key :
    Proper bothTypes ∧ ¬ValidText (getPrometheusOutput (after "node-1" bothTypes)).toList := by
  refine ⟨proper_bothTypes, fun hvalid => ?_⟩
  have hseparate := separate_of_valid proper_bothTypes ((validText_iff proper_bothTypes).1 hvalid).2.1
  have hlabels := hseparate.labels _ List.mem_cons_self _ (List.mem_cons_of_mem _ List.mem_cons_self) rfl "type"
  exact absurd hlabels (by decide)

end MetricsCollector

end DistributedSync
