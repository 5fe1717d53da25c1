import DistributedSync.Library.Exposition

/-!
# Metrics in the text format

How the lines of a metric are made: the `# TYPE` line and the samples (`Family`), the name of a series and its labels
(`series_unique`), and lines that are about no metric (`Idle`).
-/

namespace Exposition

variable {name name' line : Text}

/-! ### A metric and its samples -/

def typeLine (name kind : Text) : Text := typePrefix ++ name ++ ' ' :: kind

/-- The name of a series: that of the metric, with its labels. -/
def series (name : Text) (ps : List (Text × Text)) : Text := name ++ if ps = [] then [] else block ps

private theorem sampleLine_series {ps : List (Text × Text)} {value : Text} (hname : MetricName name) (hps : Labels ps)
    (hvalue : Numeral value) : SampleLine name (series name ps ++ ' ' :: value) := by
  refine ⟨hname, if ps = [] then [] else block ps, value, ?_, hvalue, rfl⟩
  split
  · exact Or.inl rfl
  · exact Or.inr ⟨ps, hps, rfl⟩

/-- A series determines its name and its labels. -/
theorem series_unique {ps qs : List (Text × Text)} (hname : MetricName name) (hname' : MetricName name')
    (hps : Labels ps) (hqs : Labels qs) (h : series name ps = series name' qs) : name = name' ∧ ps = qs := by
  have hend : ∀ (n : Text) (rs : List (Text × Text)), ∃ c rest, series n rs ++ [' '] = n ++ c :: rest ∧
      (c = ' ' ∧ rs = [] ∨ c = '{' ∧ rest = body rs ++ [' '] ∧ rs ≠ []) := by
    intro n rs
    by_cases hrs : rs = []
    · exact ⟨' ', [], by simp [series, hrs], Or.inl ⟨rfl, hrs⟩⟩
    · exact ⟨'{', body rs ++ [' '], by simp [series, hrs, block], Or.inr ⟨rfl, rfl, hrs⟩⟩
  obtain ⟨c, rest, hl, hc⟩ := hend name ps
  obtain ⟨c', rest', hr, hc'⟩ := hend name' qs
  have hout : ∀ {c : Char} {p q : Prop}, c = ' ' ∧ p ∨ c = '{' ∧ q → ¬(wordChar c ∨ c = ':') := by
    rintro c p q (⟨rfl, -⟩ | ⟨rfl, -⟩)
    · decide
    · decide
  rw [← h, hl] at hr
  obtain ⟨heq, hcc, hrest⟩ := split_unique (MetricName.char hname) (MetricName.char hname') (hout hc) (hout hc') hr
  refine ⟨heq, ?_⟩
  rcases hc with ⟨rfl, hnil⟩ | ⟨rfl, hbody, -⟩
  · rcases hc' with ⟨-, hnil'⟩ | ⟨hbrace, -⟩
    · rw [hnil, hnil']
    · exact absurd (hcc.trans hbrace) (by decide)
  · rcases hc' with ⟨hblank, -⟩ | ⟨-, hbody', -⟩
    · exact absurd (hcc.trans hblank) (by decide)
    · rw [hbody, hbody'] at hrest
      exact (body_unique hps hqs hrest).1

/-- The name of a series is in front of the first brace. -/
theorem takeWhile_series (ps : List (Text × Text)) (hname : MetricName name) :
    (series name ps).takeWhile (fun c => c ≠ '{') = name := by
  have hword : ∀ c ∈ name, decide (c ≠ '{') = true := by
    intro c hc
    rw [decide_eq_true_eq]
    rintro rfl
    exact absurd (MetricName.char hname '{' hc) (by decide)
  rw [series, List.takeWhile_append_of_pos hword]
  split
  · simp
  · simp [block]

theorem body_eq_intercalate {ps : List (Text × Text)} (h : ps ≠ []) :
    body ps = [','].intercalate (ps.map fun p => label p []) ++ ['}'] := by
  induction ps with
  | nil => exact absurd rfl h
  | cons p ps ih =>
    cases ps with
    | nil => simp [body, label]
    | cons q ps =>
      rw [body, ih (List.cons_ne_nil q ps), List.map_cons, List.map_cons, List.map_cons,
        List.intercalate_cons_cons]
      simp [label]

/-! ### Line feeds -/

theorem Word.notMem {extra s : Text} (h : Word extra s) {c : Char} (hc : wordChar c = false) (hextra : c ∉ extra) :
    c ∉ s := by
  intro hmem
  rcases h.2 c hmem with hword | hword
  · rw [hc] at hword
    cases hword
  · exact hextra hword

theorem Escaped.notMem {s : Text} (h : Escaped s) : '\n' ∉ s := by
  induction h with
  | nil => exact List.not_mem_nil
  | pair hc _ ih =>
    rcases hc with rfl | rfl | rfl
    all_goals simpa using ih
  | char _ _ hfeed _ ih => simpa [hfeed.symm] using ih

private theorem notMem_body {ps : List (Text × Text)} (h : Labels ps) : '\n' ∉ body ps := by
  induction ps with
  | nil => decide
  | cons p ps ih =>
    have hp := h p List.mem_cons_self
    have hname : '\n' ∉ p.1 := Word.notMem hp.1 (by decide) List.not_mem_nil
    have hvalue : '\n' ∉ p.2 := hp.2.notMem
    have hlabel : ∀ rest, '\n' ∉ rest → '\n' ∉ label p rest := by
      intro rest hrest
      simp [label, hname, hvalue, hrest]
    cases ps with
    | nil => exact hlabel ['}'] (by decide)
    | cons q ps =>
      have hrest := ih fun r hr => h r (List.mem_cons_of_mem p hr)
      exact hlabel (',' :: body (q :: ps)) (by simpa using hrest)

theorem notMem_series {ps : List (Text × Text)} (hname : MetricName name) (hps : Labels ps) :
    '\n' ∉ series name ps := by
  have hword : '\n' ∉ name := Word.notMem hname (by decide) (by decide)
  have hbody := notMem_body hps
  rw [series]
  split
  · simpa using hword
  · simp [block, hword, hbody]

theorem Digits.notMem {s : Text} (h : Digits s) {c : Char} (hc : c.isDigit = false) : c ∉ s := by
  intro hmem
  have hdigit := h.2 c hmem
  rw [hc] at hdigit
  cases hdigit

theorem Sign.notMem {s : Text} (h : Sign s) : '\n' ∉ s := by
  rcases h with rfl | rfl | rfl
  all_goals decide

theorem Numeral.notMem {s : Text} (h : Numeral s) : '\n' ∉ s := by
  obtain ⟨sign, rest, rfl, hsign, hrest⟩ := h
  have hbody : '\n' ∉ rest := by
    rcases hrest with rfl | rfl | ⟨whole, fraction, exponent, rfl, hwhole, hfraction, hexponent⟩
    · decide
    · decide
    · have hwhole' := hwhole.notMem (c := '\n') (by decide)
      have hfraction' : '\n' ∉ fraction := by
        rcases hfraction with rfl | ⟨ds, rfl, hds⟩
        · exact List.not_mem_nil
        · simpa using hds.notMem (c := '\n') (by decide)
      have hexponent' : '\n' ∉ exponent := by
        rcases hexponent with rfl | ⟨sign, ds, rfl, hsign, hds⟩
        · exact List.not_mem_nil
        · simpa [hsign.notMem] using hds.notMem (c := '\n') (by decide)
      simp [hwhole', hfraction', hexponent']
  simp [hsign.notMem, hbody]

/-! ### Whole numbers -/

theorem Digits.numeral {s : Text} (h : Digits s) : Numeral s :=
  ⟨[], s, rfl, Or.inl rfl, Or.inr (Or.inr ⟨s, [], [], by simp, h, Or.inl rfl, Or.inl rfl⟩)⟩

theorem digits_toString (n : Nat) : Digits (toString n).toList := by
  rw [Nat.toString_eq_ofList_toDigits, String.toList_ofList]
  exact ⟨Nat.toDigits_ne_nil, fun c hc => Nat.isDigit_of_mem_toDigits (by decide) (by decide) hc⟩

/-- A whole number in front of a decimal point. -/
theorem numeral_point (x : Int) {ds : Text} (h : Digits ds) : Numeral ((toString x).toList ++ '.' :: ds) := by
  have hfraction : ∃ ds', '.' :: ds = '.' :: ds' ∧ Digits ds' := ⟨ds, rfl, h⟩
  have hnat : ∀ (n : Nat) {sign : Text}, Sign sign → Numeral (sign ++ ((toString n).toList ++ '.' :: ds)) := by
    intro n sign hsign
    refine ⟨sign, _, rfl, hsign, Or.inr (Or.inr ⟨(toString n).toList, '.' :: ds, [], ?_, ?_⟩)⟩
    · rw [List.append_nil]
    · exact ⟨digits_toString n, Or.inr hfraction, Or.inl rfl⟩
  show Numeral (x.repr.toList ++ '.' :: ds)
  rw [Int.repr_eq_if]
  split
  · exact hnat x.toNat (Or.inl rfl)
  · rw [String.toList_append, List.append_assoc]
    exact hnat (-x).toNat (Or.inr (Or.inl rfl))

section Family

variable {kind : Text} {samples : List Text} (hname : MetricName name) (hkind : kind ∈ kinds)
  (hsamples : ∀ l ∈ samples, ∃ m, SampleLine m l)

include hname hkind in
private theorem typeLine_typeLine : TypeLine name (typeLine name kind) := ⟨hname, kind, hkind, rfl⟩

include hname hkind hsamples in
private theorem valid_family : Valid (typeLine name kind :: samples) where
  lines l hl := by
    rcases List.mem_cons.1 hl with rfl | hl
    · exact Or.inr (Or.inr (Or.inl ⟨name, typeLine_typeLine hname hkind⟩))
    · exact Or.inr (Or.inr (Or.inr (hsamples l hl)))
  compatible := by
    have hno : ∀ l, ∀ l' ∈ samples, Compatible l l' := by
      intro l l' hl' m htype
      obtain ⟨m', hsample⟩ := hsamples l' hl'
      exact absurd hsample htype.not_sample
    refine List.pairwise_cons.2 ⟨hno _, ?_⟩
    exact List.pairwise_of_forall_mem_list fun l _ l' hl' => hno l l' hl'

include hname hkind hsamples in
private theorem types_family (m : Text) : Types (typeLine name kind :: samples) m ↔ m = name := by
  constructor
  · rintro ⟨l, hl, htype⟩
    rcases List.mem_cons.1 hl with rfl | hl
    · exact htype.name_unique (typeLine_typeLine hname hkind)
    · obtain ⟨m', hsample⟩ := hsamples l hl
      exact absurd hsample htype.not_sample
  · rintro rfl
    exact ⟨_, List.mem_cons_self, typeLine_typeLine hname hkind⟩

include hname hkind in
private theorem samples_family (m : Text) : Samples (typeLine name kind :: samples) m ↔ Samples samples m := by
  constructor
  · rintro ⟨l, hl, hsample⟩
    rcases List.mem_cons.1 hl with rfl | hl
    · exact absurd hsample (typeLine_typeLine hname hkind).not_sample
    · exact ⟨l, hl, hsample⟩
  · rintro ⟨l, hl, hsample⟩
    exact ⟨l, List.mem_cons_of_mem _ hl, hsample⟩

end Family

/-- The `# TYPE` line of a metric in front of samples, which are under `names`. -/
def Family (name : Text) (names : List Text) (lines : List Text) : Prop :=
  MetricName name ∧ ∃ kind ∈ kinds, ∃ samples, lines = typeLine name kind :: samples ∧
    (∀ l ∈ samples, ∃ m, SampleLine m l) ∧ ∀ m, Samples samples m ↔ m ∈ names

/-- What is in the line of a sample. -/
structure Sample where
  name : Text
  labels : List (Text × Text)
  value : Text

namespace Sample

def text (x : Sample) : Text := series x.name x.labels ++ ' ' :: x.value

structure WellFormed (x : Sample) : Prop where
  name : MetricName x.name
  labels : Labels x.labels
  value : Numeral x.value

private theorem WellFormed.sampleLine {x : Sample} (h : x.WellFormed) : SampleLine x.name x.text :=
  sampleLine_series h.name h.labels h.value

end Sample

theorem family_of_samples {kind : Text} {xs : List Sample} (hname : MetricName name) (hkind : kind ∈ kinds)
    (hxs : ∀ x ∈ xs, x.WellFormed) :
    Family name (xs.map Sample.name) (typeLine name kind :: xs.map Sample.text) := by
  refine ⟨hname, kind, hkind, xs.map Sample.text, rfl, ?_, fun m => ⟨?_, ?_⟩⟩
  · intro l hl
    obtain ⟨x, hx, rfl⟩ := List.mem_map.1 hl
    exact ⟨x.name, (hxs x hx).sampleLine⟩
  · rintro ⟨l, hl, hsample⟩
    obtain ⟨x, hx, rfl⟩ := List.mem_map.1 hl
    rw [hsample.name_unique (hxs x hx).sampleLine]
    exact List.mem_map_of_mem hx
  · intro hm
    obtain ⟨x, hx, rfl⟩ := List.mem_map.1 hm
    exact ⟨x.text, List.mem_map_of_mem hx, (hxs x hx).sampleLine⟩

namespace Family

variable {names names' lines lines' : List Text}

theorem valid (h : Family name names lines) : Valid lines := by
  obtain ⟨hname, kind, hkind, samples, rfl, hsamples, -⟩ := h
  exact valid_family hname hkind hsamples

theorem types (h : Family name names lines) (m : Text) : Types lines m ↔ m = name := by
  obtain ⟨hname, kind, hkind, samples, rfl, hsamples, -⟩ := h
  exact types_family hname hkind hsamples m

theorem samples (h : Family name names lines) (m : Text) : Samples lines m ↔ m ∈ names := by
  obtain ⟨hname, kind, hkind, samples, rfl, -, hnames⟩ := h
  rw [samples_family hname hkind, hnames]

theorem congr (h : Family name names lines) (hnames : ∀ m, m ∈ names ↔ m ∈ names') : Family name names' lines := by
  obtain ⟨hname, kind, hkind, samples, hlines, hsamples, hmem⟩ := h
  exact ⟨hname, kind, hkind, samples, hlines, hsamples, fun m => (hmem m).trans (hnames m)⟩

theorem apart (h : Family name names lines) (h' : Family name' names' lines') :
    Apart lines lines' ↔ name' ≠ name ∧ name' ∉ names := by
  have hat : Apart lines lines' ↔ ¬Types lines name' ∧ ¬Samples lines name' := by
    constructor
    · exact fun hapart => hapart name' ((h'.types name').2 rfl)
    · intro hapart m hm
      rw [(h'.types m).1 hm]
      exact hapart
  rw [hat, h.types, h.samples]

end Family

/-! ### Lines that are about no metric -/

/-- A blank line or a comment. -/
def Idle (line : Text) : Prop := line = [] ∨ Comment line

theorem Idle.not_type (h : Idle line) : ¬TypeLine name line := by
  rcases h with rfl | h
  · intro htype
    obtain ⟨rest, hrest⟩ := htype.hash
    cases hrest
  · exact h.not_type

theorem Idle.not_sample (h : Idle line) : ¬SampleLine name line := by
  rcases h with rfl | h
  · intro hsample
    obtain ⟨c, rest, hrest, -⟩ := hsample.split
    simp at hrest
  · exact h.not_sample

theorem valid_cons_idle {ls : List Text} (h : Idle line) : Valid (line :: ls) ↔ Valid ls := by
  constructor
  · rintro ⟨hlines, hcompatible⟩
    exact ⟨fun l hl => hlines l (List.mem_cons_of_mem _ hl), (List.pairwise_cons.1 hcompatible).2⟩
  · rintro ⟨hlines, hcompatible⟩
    refine ⟨fun l hl => ?_, List.pairwise_cons.2 ⟨fun l _ m _ => ⟨h.not_type, h.not_sample⟩, hcompatible⟩⟩
    rcases List.mem_cons.1 hl with rfl | hl
    · exact h.imp id Or.inl
    · exact hlines l hl

theorem types_cons_idle {ls : List Text} (h : Idle line) (m : Text) : Types (line :: ls) m ↔ Types ls m := by
  constructor
  · rintro ⟨l, hl, htype⟩
    rcases List.mem_cons.1 hl with rfl | hl
    · exact absurd htype h.not_type
    · exact ⟨l, hl, htype⟩
  · rintro ⟨l, hl, htype⟩
    exact ⟨l, List.mem_cons_of_mem _ hl, htype⟩

/-- A line in front of a text is continued by the first line of the text. -/
theorem splitOn_append (front rest : Text) (h : '\n' ∉ front) :
    ∃ first, (front ++ rest).splitOn '\n' = (front ++ first) :: (rest.splitOn '\n').tail := by
  by_cases hfeed : '\n' ∈ rest
  · obtain ⟨first, later, rfl, hfirst⟩ := List.eq_append_cons_of_mem hfeed
    have hfront : '\n' ∉ front ++ first := by simp [h, hfirst]
    refine ⟨first, ?_⟩
    rw [← List.append_assoc, List.splitOn_append_cons_self_of_not_mem hfront,
      List.splitOn_append_cons_self_of_not_mem hfirst, List.tail_cons]
  · have hall : '\n' ∉ front ++ rest := by simp [h, hfeed]
    exact ⟨rest, by rw [List.splitOn_eq_singleton hall, List.splitOn_eq_singleton hfeed, List.tail_cons]⟩

end Exposition
