import DistributedSync.Security.Tampering

/-!
# The file of the audit log

The file is a list of lines.  The loader appends the entry of each non-blank line and ends at the first one that
raises, where the exception is caught: so it has read the whole file unless `StopsAfter` holds
(`read_completely_iff`).  An append that fails is caught too, and the chain in memory goes on from an entry that the
file does not hold; as long as no append succeeds after one that failed, the file holds a prefix of the chain
(`restart_valid`).
-/

namespace DistributedSync

/-- The characters that `strip` removes. -/
def isSpace (c : Char) : Bool :=
  c.toNat ∈ [9, 10, 11, 12, 13, 28, 29, 30, 31, 32, 133, 160, 5760, 8232, 8233, 8239, 8287, 12288] ∨
    (8192 ≤ c.toNat ∧ c.toNat ≤ 8202)

/-- `line.strip()`. -/
def strip (line : String) : String :=
  String.ofList (((line.toList.dropWhile isSpace).reverse.dropWhile isSpace).reverse)

/-- The text of a dictionary has no blanks at its ends. -/
theorem strip_braces (s : String) : strip ("\x7b" ++ s ++ "\x7d") = "\x7b" ++ s ++ "\x7d" := by
  have hopen : isSpace '\x7b' = false := by decide
  have hclose : isSpace '\x7d' = false := by decide
  have hlist : ("\x7b" ++ s ++ "\x7d").toList = '\x7b' :: (s.toList ++ ['\x7d']) := by
    simp [String.toList_append]
  rw [strip, hlist, List.dropWhile_cons_of_neg (by simp [hopen]), ← List.cons_append, List.reverse_append,
    List.reverse_singleton, List.singleton_append, List.dropWhile_cons_of_neg (by simp [hclose]), List.reverse_cons,
    List.reverse_reverse, List.cons_append, ← hlist, String.ofList_toList]

variable {ν : Type} [Number ν] (lib : AuditLib ν)

/-! ### The loader -/

/-- The entry of a text; `none` where the decoder or the constructor raises. -/
def readEntry (text : String) : Option (AuditEntry ν) := (lib.loads text).bind (AuditEntry.fromDict lib)

/-- The loop of `_load_from_file`.  An entry with a sequence number that cannot be compared is appended before the
exception. -/
def AuditLogger.load (l : AuditLogger ν) : List String → AuditLogger ν
  | [] => l
  | line :: lines =>
    if strip line = "" then AuditLogger.load l lines
    else match readEntry lib (strip line) with
      | none => l
      | some entry =>
        let l := { l with entries := l.entries ++ [entry] }
        match entry.sequence.number? with
        | none => l
        | some n => AuditLogger.load { l with sequence := pyMax l.sequence n } lines

/-- `AuditLogger(node_id, log_file)` on a file with the given lines; a file that does not exist has none. -/
def AuditLogger.new (nodeId : String) (lines : List String) : AuditLogger ν :=
  AuditLogger.load lib { nodeId, sequence := 0 } lines

/-- The non-blank lines, stripped. -/
def texts (lines : List String) : List String := (lines.map strip).filter (· ≠ "")

/-- The loader ends before the last of the texts, and `es` are the entries of the texts up to there. -/
inductive StopsAfter : List String → List (AuditEntry ν) → Prop where
  | unreadable {t : String} {ts : List String} (h : readEntry lib t = none) : StopsAfter (t :: ts) []
  | noNumber {t t' : String} {ts : List String} {e : AuditEntry ν} (h : readEntry lib t = some e)
      (hsequence : e.sequence.number? = none) : StopsAfter (t :: t' :: ts) [e]
  | later {t : String} {ts : List String} {e : AuditEntry ν} {es : List (AuditEntry ν)} (h : readEntry lib t = some e)
      (hsequence : e.sequence.number? ≠ none) (hrest : StopsAfter ts es) : StopsAfter (t :: ts) (e :: es)

variable {lib}

private theorem texts_cons (line : String) (lines : List String) :
    texts (line :: lines) = if strip line = "" then texts lines else strip line :: texts lines := by
  unfold texts
  by_cases h : strip line = "" <;> simp [h]

private theorem StopsAfter.length_lt {ts : List String} {es : List (AuditEntry ν)} (h : StopsAfter lib ts es) :
    es.length < ts.length := by
  induction h with
  | unreadable h => simp
  | noNumber h hsequence => simp
  | later h hsequence hrest ih => simpa using ih

/-- The three ways to stop, at a text or after it. -/
theorem StopsAfter.cases {t : String} {ts : List String} {es : List (AuditEntry ν)} (h : StopsAfter lib (t :: ts) es) :
    (readEntry lib t = none ∧ es = []) ∨
      (∃ e, readEntry lib t = some e ∧ e.sequence.number? = none ∧ es = [e]) ∨
      ∃ e n es', readEntry lib t = some e ∧ e.sequence.number? = some n ∧ StopsAfter lib ts es' ∧ es = e :: es' := by
  cases h with
  | unreadable h => exact Or.inl ⟨h, rfl⟩
  | @noNumber t t' ts e h hsequence => exact Or.inr (Or.inl ⟨e, h, hsequence, rfl⟩)
  | @later t ts e es h hsequence hrest =>
    obtain ⟨n, hn⟩ := Option.ne_none_iff_exists'.1 hsequence
    exact Or.inr (Or.inr ⟨e, n, es, h, hn, hrest, rfl⟩)

private theorem length_of_mapM {ts : List String} {es : List (AuditEntry ν)} (h : ts.mapM (readEntry lib) = some es) :
    es.length = ts.length := by
  induction ts generalizing es with
  | nil =>
    cases h
    rfl
  | cons t ts ih =>
    simp only [List.mapM_cons, Option.bind_eq_bind, Option.bind_eq_some_iff, Option.pure_def] at h
    obtain ⟨e, -, es', hes', hcons⟩ := h
    rw [← Option.some.inj hcons, List.length_cons, List.length_cons, ih hes']

/-- Where the loader ends early it has appended the entries up to there. -/
theorem AuditLogger.load_of_stops {lines : List String} {es : List (AuditEntry ν)}
    (h : StopsAfter lib (texts lines) es) (l : AuditLogger ν) : (l.load lib lines).entries = l.entries ++ es := by
  induction lines generalizing l es with
  | nil => cases h
  | cons line lines ih =>
    rw [texts_cons] at h
    rw [load]
    by_cases hblank : strip line = ""
    · rw [if_pos hblank] at h ⊢
      exact ih h l
    · rw [if_neg hblank] at h ⊢
      rcases h.cases with ⟨hread, rfl⟩ | ⟨e, hread, hnumber, rfl⟩ | ⟨e, n, es, hread, hn, hrest, rfl⟩
      · simp [hread]
      · simp [hread, hnumber]
      · simp only [hread, hn, ih hrest, List.append_assoc, List.singleton_append]

/-- The loader appends the entries of all texts, or else those up to the place where it ends. -/
theorem AuditLogger.load_entries (lib : AuditLib ν) (l : AuditLogger ν) (lines : List String) :
    ∃ es, (l.load lib lines).entries = l.entries ++ es ∧
      ((texts lines).mapM (readEntry lib) = some es ∨ StopsAfter lib (texts lines) es) := by
  induction lines generalizing l with
  | nil => exact ⟨[], by simp [load], Or.inl rfl⟩
  | cons line lines ih =>
    rw [texts_cons, load]
    by_cases hblank : strip line = ""
    · rw [if_pos hblank, if_pos hblank]
      exact ih l
    · rw [if_neg hblank, if_neg hblank]
      cases hread : readEntry lib (strip line) with
      | none => exact ⟨[], by simp, Or.inr (.unreadable hread)⟩
      | some e =>
        cases hnumber : e.sequence.number? with
        | none =>
          refine ⟨[e], by simp [hnumber], ?_⟩
          cases hrest : texts lines with
          | nil => exact Or.inl (by simp [hread])
          | cons t ts => exact Or.inr (.noNumber hread hnumber)
        | some n =>
          obtain ⟨es, hentries, hes⟩ := ih { l with entries := l.entries ++ [e], sequence := pyMax l.sequence n }
          refine ⟨e :: es, ?_, hes.imp ?_ ?_⟩
          · simp only [hnumber, hentries, List.append_assoc, List.singleton_append]
          · intro hall
            simp [hread, hall]
          · exact fun hstops => .later hread (by simp [hnumber]) hstops

/-- What the verifier accepts right after the start is the whole file exactly if the entries before the place where
the loader ends, if it does, are not an intact chain. -/
theorem read_completely_iff (lib : AuditLib ν) (nodeId : String) (lines : List String) :
    ((verifyChain lib (AuditLogger.new lib nodeId lines).entries).valid = true →
        (texts lines).mapM (readEntry lib) = some (AuditLogger.new lib nodeId lines).entries) ↔
      ∀ es, StopsAfter lib (texts lines) es → ¬(auditChain lib).Intact es := by
  rw [verifyChain_valid]
  constructor
  · intro hread es hstops hintact
    have hnew : (AuditLogger.new lib nodeId lines).entries = es := AuditLogger.load_of_stops hstops _
    rw [hnew] at hread
    have hlength : es.length = (texts lines).length := length_of_mapM (hread hintact)
    have hlt : es.length < (texts lines).length := hstops.length_lt
    omega
  · intro hcut hintact
    obtain ⟨es, hentries, hes⟩ := AuditLogger.load_entries lib { nodeId, sequence := 0 } lines
    have hnew : (AuditLogger.new lib nodeId lines).entries = es := hentries
    rw [hnew] at hintact ⊢
    rcases hes with hall | hstops
    · exact hall
    · exact absurd hintact (hcut es hstops)

namespace AuditSample

/-- The second line, torn by a crash. -/
def tornLine : String := "\x7b\"sequence\": 2, \"timestamp\": 2.0, \"node_id\": \"n1\", \"user"

private theorem strip_line₁ : strip line₁ = line₁ := strip_braces _

private theorem strip_line₂ : strip line₂ = line₂ := strip_braces _

private theorem strip_tornLine : strip tornLine = tornLine := by decide +kernel

private theorem loads_line₁ : sampleLib.loads line₁ = some entry₁.toDict := by simp [sampleLib]

private theorem loads_line₂ : sampleLib.loads line₂ = some entry₂.toDict := by
  have hne : line₂ ≠ line₁ := by decide +kernel
  simp [sampleLib, hne]

private theorem loads_tornLine : sampleLib.loads tornLine = none := by
  have hne₁ : tornLine ≠ line₁ := by decide +kernel
  have hne₂ : tornLine ≠ line₂ := by decide +kernel
  simp [sampleLib, hne₁, hne₂]

private theorem readEntry_line₁ : strip line₁ ≠ "" ∧ readEntry sampleLib (strip line₁) = some entry₁ := by
  have hne : line₁ ≠ "" := by decide +kernel
  have htruthy : entry₁.entryHash.truthy = true := by decide
  rw [strip_line₁, readEntry, loads_line₁, Option.bind_some, AuditEntry.fromDict_toDict sampleLib htruthy]
  exact ⟨hne, rfl⟩

/-- The line after the torn one is not read. -/
theorem stopsAfter_torn : StopsAfter sampleLib (texts [line₁, tornLine, line₂]) [entry₁] := by
  have hne : tornLine ≠ "" := by decide +kernel
  have htorn : readEntry sampleLib tornLine = none := by rw [readEntry, loads_tornLine, Option.bind_none]
  rw [texts_cons, if_neg readEntry_line₁.1, texts_cons, strip_tornLine, if_neg hne]
  exact .later readEntry_line₁.2 (by decide) (.unreadable htorn)

end AuditSample

open AuditSample

/-- A file whose second line is torn passes the verifier, although the third line is not read. -/
theorem torn_line_undetected : ¬∀ (lib : AuditLib Int) (nodeId : String) (lines : List String),
    (verifyChain lib (AuditLogger.new lib nodeId lines).entries).valid = true →
      (texts lines).mapM (readEntry lib) = some (AuditLogger.new lib nodeId lines).entries := by
  intro hall
  have hnew : (AuditLogger.new sampleLib "n1" [line₁, tornLine, line₂]).entries = [entry₁] :=
    AuditLogger.load_of_stops stopsAfter_torn _
  have hvalid : (verifyChain sampleLib [entry₁]).valid = true := logged_valid "n1" [call₁]
  have hread := hall sampleLib "n1" [line₁, tornLine, line₂]
  rw [hnew] at hread
  have hlength : [entry₁].length = (texts [line₁, tornLine, line₂]).length := length_of_mapM (hread hvalid)
  have hlt : [entry₁].length < (texts [line₁, tornLine, line₂]).length := stopsAfter_torn.length_lt
  omega

/-! ### Appends and restarts -/

/-- A call of `log`, of which the append may fail, or a new logger on the same file. -/
inductive AuditAction (ν : Type) where
  | log (call : LogCall ν) (ok : Bool)
  | restart (nodeId : String)

/-- The logger and the lines of its file. -/
structure AuditRun (ν : Type) where
  logger : AuditLogger ν
  file : List String

/-- `_persist_entry`, where an append that fails writes nothing. -/
def persistEntry (lib : AuditLib ν) (file : List String) (entry : AuditEntry ν) (ok : Bool) : List String :=
  if ok then file ++ [lib.dumps entry.toDict] else file

namespace AuditRun

variable (lib)

/-- A new logger on a file that does not exist. -/
def start (nodeId : String) : AuditRun ν where
  logger := AuditLogger.new lib nodeId []
  file := []

def nextEntry (s : AuditRun ν) (call : LogCall ν) : AuditEntry ν :=
  s.logger.nextEntry lib call.now call.user call.action call.resource call.result

def step (s : AuditRun ν) : AuditAction ν → AuditRun ν
  | .log call ok =>
    { logger := s.logger.log lib call.now call.user call.action call.resource call.result
      file := persistEntry lib s.file (s.nextEntry lib call) ok }
  | .restart nodeId => { s with logger := AuditLogger.new lib nodeId s.file }

def run (s : AuditRun ν) (actions : List (AuditAction ν)) : AuditRun ν := actions.foldl (step lib) s

/-- The entries whose appends succeed. -/
def written (s : AuditRun ν) : List (AuditAction ν) → List (AuditEntry ν)
  | [] => []
  | .log call ok :: actions =>
    (if ok then [s.nextEntry lib call] else []) ++ written (s.step lib (.log call ok)) actions
  | .restart nodeId :: actions => written (s.step lib (.restart nodeId)) actions

end AuditRun

/-- The line of the entry is read back as the dictionary that was written. -/
def RoundTrips (lib : AuditLib ν) (e : AuditEntry ν) : Prop :=
  strip (lib.dumps e.toDict) ≠ "" ∧ lib.loads (strip (lib.dumps e.toDict)) = some e.toDict

/-- No append succeeds after one that failed, up to the next restart; `failed` says that one has failed already. -/
def Orderly (failed : Bool) : List (AuditAction ν) → Prop
  | [] => True
  | .log _ ok :: actions => (failed = true → ok = false) ∧ Orderly (failed || !ok) actions
  | .restart _ :: actions => Orderly false actions

/-- The lines are read as the entries. -/
def Stored (lib : AuditLib ν) (lines : List String) (es : List (AuditEntry ν)) : Prop :=
  List.Forall₂ (fun line e => strip line ≠ "" ∧ readEntry lib (strip line) = some e ∧
    ∃ n, e.sequence.number? = some n) lines es

theorem AuditLogger.load_of_stored {lines : List String} {es : List (AuditEntry ν)} (h : Stored lib lines es)
    (l : AuditLogger ν) : (l.load lib lines).entries = l.entries ++ es := by
  induction h generalizing l with
  | nil => simp [load]
  | @cons line e lines es hline _ ih =>
    obtain ⟨hblank, hread, n, hn⟩ := hline
    rw [load, if_neg hblank]
    simp only [hread, hn, ih, List.append_assoc, List.singleton_append]

namespace AuditRun

/-- The file holds a prefix of the chain in memory, and all of it unless an append has failed. -/
structure Consistent (lib : AuditLib ν) (failed : Bool) (s : AuditRun ν) : Prop where
  intact : (auditChain lib).Intact s.logger.entries
  stored : ∃ saved, Stored lib s.file saved ∧ saved <+: s.logger.entries ∧
    (failed = false → saved = s.logger.entries)

private theorem start_consistent (nodeId : String) : Consistent lib false (start lib nodeId) where
  intact := HashChain.intact_nil
  stored := ⟨[], .nil, List.nil_prefix, fun _ => rfl⟩

/-- The appended line is read back as the entry. -/
theorem stored_nextEntry {s : AuditRun ν} {call : LogCall ν} (h : RoundTrips lib (s.nextEntry lib call)) :
    Stored lib [lib.dumps (s.nextEntry lib call).toDict] [s.nextEntry lib call] := by
  refine .cons ⟨h.1, ?_, s.logger.sequence + 1, rfl⟩ .nil
  have htruthy : (s.nextEntry lib call).entryHash.truthy = true := by
    have hlength := lib.length_sha256 (s.nextEntry lib call).canonical
    have hhash : (s.nextEntry lib call).entryHash = .str (lib.sha256 (s.nextEntry lib call).canonical) := rfl
    rw [hhash]
    refine decide_eq_true fun hempty => ?_
    rw [hempty] at hlength
    cases hlength
  rw [readEntry, h.2, Option.bind_some, AuditEntry.fromDict_toDict lib htruthy]

theorem Consistent.log {failed : Bool} {s : AuditRun ν} (h : Consistent lib failed s) {call : LogCall ν} {ok : Bool}
    (horder : failed = true → ok = false) (hjson : ok = true → RoundTrips lib (s.nextEntry lib call)) :
    Consistent lib (failed || !ok) (s.step lib (.log call ok)) := by
  refine ⟨AuditLogger.log_intact h.intact call.now call.user call.action call.resource call.result, ?_⟩
  obtain ⟨saved, hstored, hpre, hall⟩ := h.stored
  have hentries : (s.step lib (.log call ok)).logger.entries = s.logger.entries ++ [s.nextEntry lib call] := rfl
  rw [hentries]
  cases ok with
  | false =>
    -- the file stays behind the chain in memory
    refine ⟨saved, hstored, hpre.trans (List.prefix_append _ _), ?_⟩
    simp
  | true =>
    have hfailed : failed = false := by
      cases failed with
      | false => rfl
      | true => exact absurd (horder rfl) (by simp)
    rw [hall hfailed] at hstored
    exact ⟨_, List.rel_append hstored (stored_nextEntry (hjson rfl)), List.prefix_rfl, fun _ => rfl⟩

/-- A restart takes the chain back to what the file holds. -/
theorem Consistent.restart {failed : Bool} {s : AuditRun ν} (h : Consistent lib failed s) (nodeId : String) :
    Consistent lib false (s.step lib (.restart nodeId)) := by
  obtain ⟨saved, hstored, hpre, -⟩ := h.stored
  have hentries : (s.step lib (.restart nodeId)).logger.entries = saved := AuditLogger.load_of_stored hstored _
  refine ⟨?_, saved, hstored, ?_, fun _ => hentries.symm⟩
  · rw [hentries]
    exact h.intact.of_prefix hpre
  · exact ⟨[], by rw [List.append_nil, hentries]⟩

theorem Consistent.run {failed : Bool} {s : AuditRun ν} (h : Consistent lib failed s)
    {actions : List (AuditAction ν)} (horder : Orderly failed actions)
    (hjson : ∀ e ∈ s.written lib actions, RoundTrips lib e) :
    ∃ failed', Consistent lib failed' (s.run lib actions) := by
  induction actions generalizing failed s with
  | nil => exact ⟨failed, h⟩
  | cons a actions ih =>
    cases a with
    | log call ok =>
      refine ih (h.log horder.1 ?_) horder.2 fun e he => hjson e (List.mem_append_right _ he)
      rintro rfl
      exact hjson _ (List.mem_append_left _ (List.mem_singleton_self _))
    | restart nodeId => exact ih (h.restart nodeId) horder hjson

/-- In every run in which no append succeeds after one that failed, up to the next restart, the chain that a restart
reads passes the verifier. -/
theorem restart_valid (lib : AuditLib ν) (nodeId nodeId' : String) (actions : List (AuditAction ν))
    (hjson : ∀ e ∈ (start lib nodeId).written lib actions, RoundTrips lib e) (horder : Orderly false actions) :
    (verifyChain lib
      (((start lib nodeId).run lib actions).step lib (.restart nodeId')).logger.entries).valid = true := by
  obtain ⟨failed, h⟩ := (start_consistent nodeId).run horder hjson
  exact (verifyChain_valid _).2 (h.restart nodeId').intact

theorem roundTrips_entry₁ : RoundTrips sampleLib entry₁ := by
  have hdumps : sampleLib.dumps entry₁.toDict = line₁ := rfl
  rw [RoundTrips, hdumps, strip_line₁]
  exact ⟨by decide +kernel, loads_line₁⟩

private theorem roundTrips_entry₂ : RoundTrips sampleLib entry₂ := by
  have hdumps : sampleLib.dumps entry₂.toDict = line₂ := rfl
  rw [RoundTrips, hdumps, strip_line₂]
  exact ⟨by decide +kernel, loads_line₂⟩

/-- Two calls, of which the first append succeeds and the second one fails. -/
theorem restart_valid_failed :
    (verifyChain sampleLib (((start sampleLib "n1").run sampleLib [.log call₁ true, .log call₂ false]).step sampleLib
      (.restart "n1")).logger.entries).valid = true := by
  refine restart_valid sampleLib "n1" "n1" _ ?_ (by simp [Orderly])
  intro e he
  rw [List.mem_singleton.1 he]
  exact roundTrips_entry₁

/-- The first append fails and the second one succeeds. -/
theorem restart_invalid : ¬∀ (lib : AuditLib Int) (nodeId nodeId' : String) (actions : List (AuditAction Int)),
    (∀ e ∈ (start lib nodeId).written lib actions, RoundTrips lib e) →
      (verifyChain lib (((start lib nodeId).run lib actions).step lib (.restart nodeId')).logger.entries).valid =
        true := by
  intro hall
  have hvalid := hall sampleLib "n1" "n1" [.log call₁ false, .log call₂ true] ?_
  · have hstored : Stored sampleLib [line₂] [entry₂] :=
      @stored_nextEntry Int _ sampleLib ((start sampleLib "n1").run sampleLib [.log call₁ false]) call₂
        roundTrips_entry₂
    have hentries : (AuditLogger.new sampleLib "n1" [line₂]).entries = [entry₂] :=
      AuditLogger.load_of_stored hstored _
    have hinvalid : (verifyChain sampleLib [entry₂]).valid = false := by decide
    have hnew : (verifyChain sampleLib (AuditLogger.new sampleLib "n1" [line₂]).entries).valid = true := hvalid
    rw [hentries, hinvalid] at hnew
    cases hnew
  · intro e he
    rw [List.mem_singleton.1 he]
    exact roundTrips_entry₂

end AuditRun

end DistributedSync
