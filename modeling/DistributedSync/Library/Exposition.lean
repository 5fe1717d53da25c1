import Mathlib.Data.List.Basic

/-!
# The text format for metrics

A text is a list of lines: blank lines, comments, one `# TYPE` line at most for each metric, and samples.  A sample is
a name, at most one block of labels directly behind it, a blank and a number.  The samples of a metric are behind its
`# TYPE` line.

The parts of a line are determined by the line (`SampleLine.name_unique`, `body_unique`), so what the lines of a text
are about can be read off how they are made.  The conditions on two lines of a text go through its pieces
(`valid_append`, `valid_flatMap`).
-/

namespace Exposition

abbrev Text := List Char

/-! ### Words and numbers -/

def wordChar (c : Char) : Bool := c.isAlphanum || c = '_'

/-- Letters, digits, underscores and the characters of `extra`, without a digit in front. -/
def Word (extra : Text) (s : Text) : Prop :=
  (∃ c cs, s = c :: cs ∧ c.isDigit = false) ∧ ∀ c ∈ s, wordChar c ∨ c ∈ extra

/-- The name of a label. -/
abbrev LabelName : Text → Prop := Word []

abbrev MetricName : Text → Prop := Word [':']

def Digits (s : Text) : Prop := s ≠ [] ∧ ∀ c ∈ s, c.isDigit

private theorem digits_iff {s : Text} :
    Digits s ↔ s ≠ [] ∧ s.all Char.isDigit = true := by rw [Digits, List.all_eq_true]

private theorem word_cons_iff {extra : Text} {c : Char} {cs : Text} : Word extra (c :: cs) ↔
    c.isDigit = false ∧ (c :: cs).all (fun d => wordChar d || decide (d ∈ extra)) = true := by
  rw [Word, List.all_eq_true]
  simp only [Bool.or_eq_true, decide_eq_true_eq]
  refine and_congr_left fun _ => ⟨?_, fun h => ⟨c, cs, rfl, h⟩⟩
  rintro ⟨c', cs', heq, hdigit⟩
  rw [(List.cons.inj heq).1]
  exact hdigit

instance (s : Text) : Decidable (Digits s) := decidable_of_iff _ digits_iff.symm

instance (extra s : Text) : Decidable (Word extra s) :=
  match s with
  | [] => isFalse fun h => by
    obtain ⟨⟨c, cs, hnil, -⟩, -⟩ := h
    cases hnil
  | _ :: _ => decidable_of_iff _ word_cons_iff.symm

/-- What may be in front of the digits of a number or of its exponent. -/
def Sign (s : Text) : Prop := s = [] ∨ s = ['-'] ∨ s = ['+']

def Numeral (s : Text) : Prop :=
  ∃ sign body, s = sign ++ body ∧ Sign sign ∧ (body = "inf".toList ∨ body = "nan".toList ∨
    ∃ whole fraction exponent, body = whole ++ fraction ++ exponent ∧ Digits whole ∧
      (fraction = [] ∨ ∃ ds, fraction = '.' :: ds ∧ Digits ds) ∧
      (exponent = [] ∨ ∃ sign ds, exponent = 'e' :: (sign ++ ds) ∧ Sign sign ∧ Digits ds))

/-! ### Labels -/

/-- The text of a label value: backslashes, quotes and line feeds are escaped. -/
inductive Escaped : Text → Prop where
  | nil : Escaped []
  | pair {c : Char} {cs : Text} : (c = '\\' ∨ c = '"' ∨ c = 'n') → Escaped cs → Escaped ('\\' :: c :: cs)
  | char {c : Char} {cs : Text} : c ≠ '\\' → c ≠ '"' → c ≠ '\n' → Escaped cs → Escaped (c :: cs)

/-- A label in front of what follows it. -/
def label (p : Text × Text) (rest : Text) : Text := p.1 ++ '=' :: '"' :: (p.2 ++ '"' :: rest)

/-- The labels of a block, with the closing brace. -/
def body : List (Text × Text) → Text
  | [] => ['}']
  | [p] => label p ['}']
  | p :: q :: ps => label p (',' :: body (q :: ps))

def block (ps : List (Text × Text)) : Text := '{' :: body ps

def Labels (ps : List (Text × Text)) : Prop := ∀ p ∈ ps, LabelName p.1 ∧ Escaped p.2

/-! ### Lines -/

def SampleLine (name line : Text) : Prop :=
  MetricName name ∧ ∃ labels value, (labels = [] ∨ ∃ ps, Labels ps ∧ labels = block ps) ∧ Numeral value ∧
    line = name ++ labels ++ ' ' :: value

def typePrefix : Text := ['#', ' ', 'T', 'Y', 'P', 'E', ' ']

def kinds : List Text := ["counter".toList, "gauge".toList, "histogram".toList, "summary".toList, "untyped".toList]

def TypeLine (name line : Text) : Prop :=
  MetricName name ∧ ∃ kind ∈ kinds, line = typePrefix ++ name ++ ' ' :: kind

def Comment (line : Text) : Prop := (∃ rest, line = '#' :: rest) ∧ ¬typePrefix <+: line

def Line (line : Text) : Prop :=
  line = [] ∨ Comment line ∨ (∃ name, TypeLine name line) ∨ ∃ name, SampleLine name line

/-- No `# TYPE` line of a metric is behind another one of the metric, or behind a sample of it. -/
def Compatible (l l' : Text) : Prop := ∀ name, TypeLine name l' → ¬TypeLine name l ∧ ¬SampleLine name l

structure Valid (text : List Text) : Prop where
  lines : ∀ l ∈ text, Line l
  compatible : text.Pairwise Compatible

/-- A text whose lines, each ended by a line feed, are valid. -/
def ValidText (text : Text) : Prop := ∃ lines, text.splitOn '\n' = lines ++ [[]] ∧ Valid lines

/-! ### The parts of a line -/

/-- Two texts that are equal have the same first part without `p` in it and the same rest. -/
theorem split_unique {p : Char → Prop} {a b x y : Text} {c d : Char} (ha : ∀ e ∈ a, p e) (hb : ∀ e ∈ b, p e)
    (hc : ¬p c) (hd : ¬p d) (h : a ++ c :: x = b ++ d :: y) : a = b ∧ c = d ∧ x = y := by
  induction a generalizing b with
  | nil =>
    cases b with
    | nil => simpa using h
    | cons e b =>
      simp only [List.nil_append, List.cons_append, List.cons.injEq] at h
      rw [h.1] at hc
      exact absurd (hb e List.mem_cons_self) hc
  | cons e a ih =>
    cases b with
    | nil =>
      simp only [List.nil_append, List.cons_append, List.cons.injEq] at h
      rw [← h.1] at hd
      exact absurd (ha e List.mem_cons_self) hd
    | cons e' b =>
      simp only [List.cons_append, List.cons.injEq] at h
      have hrest := ih (fun f hf => ha f (List.mem_cons_of_mem e hf))
        (fun f hf => hb f (List.mem_cons_of_mem e' hf)) h.2
      exact ⟨by rw [h.1, hrest.1], hrest.2⟩

theorem Escaped.unique {a b x y : Text} (ha : Escaped a) (hb : Escaped b) (h : a ++ '"' :: x = b ++ '"' :: y) :
    a = b ∧ x = y := by
  induction ha generalizing b with
  | nil =>
    cases hb with
    | nil => simpa using h
    | pair => simp at h
    | char _ hq => exact absurd (List.cons.inj h).1.symm hq
  | @pair c cs _ _ ih =>
    cases hb with
    | nil => simp at h
    | pair _ hb =>
      simp only [List.cons_append, List.cons.injEq, true_and] at h
      have hrest := ih hb h.2
      exact ⟨by rw [h.1, hrest.1], hrest.2⟩
    | char hne => exact absurd (List.cons.inj h).1.symm hne
  | @char c cs hne hq _ _ ih =>
    cases hb with
    | nil => exact absurd (List.cons.inj h).1 hq
    | pair => exact absurd (List.cons.inj h).1 hne
    | char _ _ _ hb =>
      simp only [List.cons_append, List.cons.injEq] at h
      have hrest := ih hb h.2
      exact ⟨by rw [h.1, hrest.1], hrest.2⟩

theorem Word.append {extra s t : Text} (h : Word extra s) (ht : t.all wordChar = true) : Word extra (s ++ t) := by
  obtain ⟨⟨c, cs, rfl, hdigit⟩, hword⟩ := h
  refine ⟨⟨c, cs ++ t, rfl, hdigit⟩, fun d hd => ?_⟩
  rcases List.mem_append.1 hd with hd | hd
  · exact hword d hd
  · exact Or.inl (List.all_eq_true.1 ht d hd)

/-- The label in front determines what follows it. -/
theorem label_unique {p q : Text × Text} {x y : Text} (hp : LabelName p.1 ∧ Escaped p.2)
    (hq : LabelName q.1 ∧ Escaped q.2) (h : label p x = label q y) : p = q ∧ x = y := by
  have hword : ∀ {s : Text}, LabelName s → ∀ c ∈ s, wordChar c := by
    intro s hs c hc
    simpa using hs.2 c hc
  obtain ⟨hname, -, hrest⟩ := split_unique (hword hp.1) (hword hq.1) (by decide) (by decide) h
  obtain ⟨hvalue, hxy⟩ := hp.2.unique hq.2 (List.cons.inj hrest).2
  exact ⟨Prod.ext hname hvalue, hxy⟩

private theorem label_ne_brace {p : Text × Text} (hp : LabelName p.1) {x y : Text} : label p x ≠ '}' :: y := by
  intro h
  obtain ⟨⟨c, cs, hc, -⟩, hword⟩ := hp
  rw [label, hc, List.cons_append, List.cons.injEq] at h
  have hbrace := hword c (by rw [hc]; exact List.mem_cons_self)
  rw [h.1] at hbrace
  simp [wordChar] at hbrace

private theorem label_append (p : Text × Text) (x y : Text) : label p x ++ y = label p (x ++ y) := by simp [label]

private theorem body_cons (p : Text × Text) (ps : List (Text × Text)) (x : Text) :
    body (p :: ps) ++ x = label p (if ps = [] then '}' :: x else ',' :: (body ps ++ x)) := by
  cases ps with
  | nil => exact label_append p ['}'] x
  | cons q ps => exact label_append p (',' :: body (q :: ps)) x

/-- A block of labels determines its labels and what follows it. -/
theorem body_unique {ps qs : List (Text × Text)} {x y : Text} (hps : Labels ps) (hqs : Labels qs)
    (h : body ps ++ x = body qs ++ y) : ps = qs ∧ x = y := by
  induction ps generalizing qs with
  | nil =>
    cases qs with
    | nil => simpa [body] using h
    | cons q qs =>
      rw [body_cons] at h
      exact absurd h.symm (label_ne_brace (hqs q List.mem_cons_self).1)
  | cons p ps ih =>
    cases qs with
    | nil =>
      rw [body_cons] at h
      exact absurd h (label_ne_brace (hps p List.mem_cons_self).1)
    | cons q qs =>
      rw [body_cons, body_cons] at h
      obtain ⟨hpq, hrest⟩ := label_unique (hps p List.mem_cons_self) (hqs q List.mem_cons_self) h
      have hps' : Labels ps := fun r hr => hps r (List.mem_cons_of_mem p hr)
      have hqs' : Labels qs := fun r hr => hqs r (List.mem_cons_of_mem q hr)
      by_cases hp : ps = []
      · by_cases hq : qs = []
        · rw [if_pos hp, if_pos hq] at hrest
          exact ⟨by rw [hpq, hp, hq], (List.cons.inj hrest).2⟩
        · rw [if_pos hp, if_neg hq] at hrest
          exact absurd (List.cons.inj hrest).1 (by decide)
      · by_cases hq : qs = []
        · rw [if_neg hp, if_pos hq] at hrest
          exact absurd (List.cons.inj hrest).1 (by decide)
        · rw [if_neg hp, if_neg hq] at hrest
          obtain ⟨hlater, hxy⟩ := ih hps' hqs' (List.cons.inj hrest).2
          exact ⟨by rw [hpq, hlater], hxy⟩

/-! ### What a line is about -/

variable {name name' line : Text}

theorem MetricName.char (h : MetricName name) : ∀ c ∈ name, wordChar c ∨ c = ':' := by
  intro c hc
  simpa using h.2 c hc

/-- What is in a sample behind its name. -/
theorem SampleLine.split (h : SampleLine name line) : ∃ c rest, line = name ++ c :: rest ∧ (c = ' ' ∨ c = '{') := by
  obtain ⟨-, labels, value, hlabels, -, rfl⟩ := h
  rcases hlabels with rfl | ⟨ps, -, rfl⟩
  · exact ⟨' ', value, by simp, Or.inl rfl⟩
  · exact ⟨'{', body ps ++ ' ' :: value, by simp [block], Or.inr rfl⟩

theorem SampleLine.name_unique (h : SampleLine name line) (h' : SampleLine name' line) : name = name' := by
  obtain ⟨c, rest, hline, hc⟩ := h.split
  obtain ⟨c', rest', hline', hc'⟩ := h'.split
  have hout : ∀ {c : Char}, c = ' ' ∨ c = '{' → ¬(wordChar c ∨ c = ':') := by
    rintro c (rfl | rfl)
    · decide
    · decide
  exact (split_unique (MetricName.char h.1) (MetricName.char h'.1) (hout hc) (hout hc') (hline.symm.trans hline')).1

theorem TypeLine.name_unique (h : TypeLine name line) (h' : TypeLine name' line) : name = name' := by
  obtain ⟨hname, kind, -, rfl⟩ := h
  obtain ⟨hname', kind', -, heq⟩ := h'
  rw [List.append_assoc, List.append_assoc, List.append_cancel_left_eq] at heq
  exact (split_unique (MetricName.char hname) (MetricName.char hname') (by decide) (by decide) heq).1

/-- A sample does not begin with a number sign. -/
theorem SampleLine.ne_hash (h : SampleLine name line) {rest : Text} : line ≠ '#' :: rest := by
  intro heq
  obtain ⟨c, rest', hline, -⟩ := h.split
  obtain ⟨⟨c', cs, hname, -⟩, hword⟩ := h.1
  rw [hline, hname, List.cons_append, List.cons.injEq] at heq
  have hhash := hword c' (by rw [hname]; exact List.mem_cons_self)
  rw [heq.1] at hhash
  simp [wordChar] at hhash

theorem TypeLine.hash (h : TypeLine name line) : ∃ rest, line = '#' :: rest := by
  obtain ⟨-, kind, -, rfl⟩ := h
  exact ⟨_, rfl⟩

theorem TypeLine.not_sample (h : TypeLine name line) : ¬SampleLine name' line := by
  intro hsample
  obtain ⟨rest, hrest⟩ := h.hash
  exact hsample.ne_hash hrest

theorem Comment.not_type (h : Comment line) : ¬TypeLine name line := by
  rintro ⟨-, kind, -, rfl⟩
  exact h.2 (by rw [List.append_assoc]; exact List.prefix_append _ _)

theorem Comment.not_sample (h : Comment line) : ¬SampleLine name line := by
  intro hsample
  obtain ⟨rest, hrest⟩ := h.1
  exact hsample.ne_hash hrest

/-- A second block behind the labels, or text, does not make a sample. -/
theorem not_line_of_block {ps : List (Text × Text)} (hname : MetricName name) (hps : Labels ps) {c : Char} {rest : Text}
    (hc : c ≠ ' ') : ¬Line (name ++ block ps ++ c :: rest) := by
  obtain ⟨⟨c', cs, hcons, -⟩, hword⟩ := id hname
  have hhash : c' ≠ '#' := by
    rintro rfl
    have hhash := hword '#' (by rw [hcons]; exact List.mem_cons_self)
    simp [wordChar] at hhash
  have hstart : name ++ block ps ++ c :: rest = c' :: (cs ++ block ps ++ c :: rest) := by simp [hcons]
  rintro (hnil | hcomment | ⟨m, htype⟩ | ⟨m, hsample⟩)
  · rw [hstart] at hnil
    cases hnil
  · obtain ⟨rest', hrest'⟩ := hcomment.1
    rw [hstart] at hrest'
    exact hhash (List.cons.inj hrest').1
  · obtain ⟨rest', hrest'⟩ := htype.hash
    rw [hstart] at hrest'
    exact hhash (List.cons.inj hrest').1
  · obtain ⟨hm, labels, value, hlabels, -, hline⟩ := hsample
    have hbrace : ¬(wordChar '{' ∨ '{' = ':') := by decide
    rw [List.append_assoc, block, List.cons_append] at hline
    rcases hlabels with rfl | ⟨qs, hqs, rfl⟩
    · rw [List.append_nil] at hline
      have hsplit := split_unique (MetricName.char hname) (MetricName.char hm) hbrace (by decide) hline
      exact absurd hsplit.2.1 (by decide)
    · rw [List.append_assoc, block, List.cons_append] at hline
      have hsplit := split_unique (MetricName.char hname) (MetricName.char hm) hbrace hbrace hline
      have hrest := (body_unique hps hqs hsplit.2.2).2
      exact hc (List.cons.inj hrest).1

/-! ### Texts in pieces -/

/-- The names of the `# TYPE` lines. -/
def Types (lines : List Text) (name : Text) : Prop := ∃ l ∈ lines, TypeLine name l

/-- The names of the samples. -/
def Samples (lines : List Text) (name : Text) : Prop := ∃ l ∈ lines, SampleLine name l

/-- No `# TYPE` line of the second text is of a metric that the first one is about. -/
def Apart (ls ls' : List Text) : Prop := ∀ name, Types ls' name → ¬Types ls name ∧ ¬Samples ls name

private theorem forall_compatible {ls ls' : List Text} : (∀ a ∈ ls, ∀ b ∈ ls', Compatible a b) ↔ Apart ls ls' := by
  constructor
  · rintro h name ⟨b, hb, htype⟩
    refine ⟨?_, ?_⟩
    · rintro ⟨a, ha, htype'⟩
      exact (h a ha b hb name htype).1 htype'
    · rintro ⟨a, ha, hsample⟩
      exact (h a ha b hb name htype).2 hsample
  · intro h a ha b hb name htype
    have hname := h name ⟨b, hb, htype⟩
    exact ⟨fun htype' => hname.1 ⟨a, ha, htype'⟩, fun hsample => hname.2 ⟨a, ha, hsample⟩⟩

theorem valid_append {ls ls' : List Text} : Valid (ls ++ ls') ↔ Valid ls ∧ Valid ls' ∧ Apart ls ls' := by
  rw [← forall_compatible]
  constructor
  · rintro ⟨hlines, hcompatible⟩
    obtain ⟨h, h', hacross⟩ := List.pairwise_append.1 hcompatible
    exact ⟨⟨fun l hl => hlines l (List.mem_append_left _ hl), h⟩,
      ⟨fun l hl => hlines l (List.mem_append_right _ hl), h'⟩, hacross⟩
  · rintro ⟨h, h', hacross⟩
    refine ⟨fun l hl => ?_, List.pairwise_append.2 ⟨h.compatible, h'.compatible, hacross⟩⟩
    rcases List.mem_append.1 hl with hl | hl
    · exact h.lines l hl
    · exact h'.lines l hl

theorem valid_flatMap {γ : Type} {G : List γ} {f : γ → List Text} :
    Valid (G.flatMap f) ↔ (∀ g ∈ G, Valid (f g)) ∧ G.Pairwise fun g g' => Apart (f g) (f g') := by
  have hpairs : (G.Pairwise fun g g' => Apart (f g) (f g')) ↔
      G.Pairwise fun g g' => ∀ a ∈ f g, ∀ b ∈ f g', Compatible a b :=
    ⟨fun h => h.imp forall_compatible.2, fun h => h.imp forall_compatible.1⟩
  rw [hpairs]
  constructor
  · rintro ⟨hlines, hcompatible⟩
    rw [List.pairwise_flatMap] at hcompatible
    exact ⟨fun g hg => ⟨fun l hl => hlines l (List.mem_flatMap.2 ⟨g, hg, hl⟩), hcompatible.1 g hg⟩, hcompatible.2⟩
  · rintro ⟨hvalid, hacross⟩
    refine ⟨fun l hl => ?_, List.pairwise_flatMap.2 ⟨fun g hg => (hvalid g hg).compatible, hacross⟩⟩
    obtain ⟨g, hg, hl⟩ := List.mem_flatMap.1 hl
    exact (hvalid g hg).lines l hl

/-- The pieces are joined by line feeds, and the last one is ended by one. -/
theorem validText_intercalate {ls : List Text} (h : ls ≠ []) :
    ValidText (List.intercalate ['\n'] ls ++ ['\n']) ↔ Valid (ls.flatMap fun l => l.splitOn '\n') := by
  have hjoin : ∀ ls : List Text, ls ≠ [] →
      (List.intercalate ['\n'] ls).splitOn '\n' = ls.flatMap fun l => l.splitOn '\n' := by
    intro ls
    induction ls with
    | nil => exact fun h => absurd rfl h
    | cons l ls ih =>
      intro _
      cases ls with
      | nil => simp
      | cons l' ls =>
        rw [List.intercalate_cons_cons, List.append_assoc, List.singleton_append, List.splitOn_append_cons_self,
          ih (List.cons_ne_nil l' ls)]
        rfl
  have hend : (List.intercalate ['\n'] ls ++ ['\n']).splitOn '\n' =
      (ls.flatMap fun l => l.splitOn '\n') ++ [[]] := by
    rw [List.splitOn_append_cons_self, hjoin ls h, List.splitOn_nil]
  constructor
  · rintro ⟨lines, hsplit, hvalid⟩
    rw [hend, List.append_left_inj] at hsplit
    rw [hsplit]
    exact hvalid
  · exact fun hvalid => ⟨_, hend, hvalid⟩

end Exposition
