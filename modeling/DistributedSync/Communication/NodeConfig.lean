import Mathlib.Data.List.DropRight
import DistributedSync.Message
import DistributedSync.Security.AuditFile

/-!
# The nodes of the configuration

`get_all_nodes` and `get_peer_nodes` of `config.py`, which read the text `cluster_nodes`.  Entries without a colon are
passed over, blanks around an entry do not matter, and the port is what comes after the last colon, read as `int` of
Python 3.11 reads it (`pyInt?`).  A list of nodes that is written in this way is read back, and the peers of a node are
the others in the same order (`cluster_nodes_round_trip`).
-/

namespace DistributedSync

/-- A dictionary of the lists; the host is the id. -/
structure NodeAddress where
  nodeId : String
  host : String
  port : Int
  deriving DecidableEq, Repr

/-- The attributes that the two functions read. -/
structure NodeConfig where
  nodeId : String
  clusterNodes : String

/-- The blanks that `int` skips at the ends of a text; `strip` removes four more. -/
def isIntSpace (c : Char) : Bool := isSpace c && !decide (28 ≤ c.toNat ∧ c.toNat ≤ 31)

/-- The digits zero of Unicode 14.0, which is that of Python 3.11; the other nine digits of a script follow its zero. -/
def decimalZeros : List Nat :=
  [48, 1632, 1776, 1984, 2406, 2534, 2662, 2790, 2918, 3046, 3174, 3302, 3430, 3558, 3664, 3792, 3872, 4160, 4240,
    6112, 6160, 6470, 6608, 6784, 6800, 6992, 7088, 7232, 7248, 42528, 43216, 43264, 43472, 43504, 43600, 44016,
    65296, 66720, 68912, 69734, 69872, 69942, 70096, 70384, 70736, 70864, 71248, 71360, 71472, 71904, 72016, 72784,
    73040, 73120, 92768, 92864, 93008, 120782, 120792, 120802, 120812, 120822, 123200, 123632, 125264, 130032]

def decimal? (c : Char) : Option Nat :=
  (decimalZeros.find? fun z => z ≤ c.toNat ∧ c.toNat ≤ z + 9).map fun z => c.toNat - z

/-- `sys.get_int_max_str_digits()`, unless it is changed. -/
def maxStrDigits : Nat := 4300

/-- Digits with single underscores between them, and not too many of them. -/
def readDigits? (text : List Char) : Option Nat :=
  if (text.splitOn '_').any List.isEmpty then none
  else
    match (text.filter (· ≠ '_')).mapM decimal? with
    | none => none
    | some digits => if digits.length ≤ maxStrDigits then some (digits.foldl (fun n d => 10 * n + d) 0) else none

/-- `int(text)`; `none` is the `ValueError`. -/
def pyInt? (text : List Char) : Option Int :=
  match (text.dropWhile isIntSpace).rdropWhile isIntSpace with
  | '-' :: digits => (readDigits? digits).map fun n => -Int.ofNat n
  | '+' :: digits => (readDigits? digits).map Int.ofNat
  | digits => (readDigits? digits).map Int.ofNat

/-- `entry.rsplit(":", 1)`, if there is a colon. -/
def rsplitColon (entry : List Char) : Option (List Char × List Char) :=
  if ':' ∈ entry then some ((entry.rdropWhile (· ≠ ':')).dropLast, entry.rtakeWhile (· ≠ ':')) else none

/-- The loop of both functions. -/
def parseNodes (keep : String → Bool) : List (List Char) → Except PyError (List NodeAddress)
  | [] => .ok []
  | entry :: entries =>
    match rsplitColon (strip (String.ofList entry)).toList with
    | none => parseNodes keep entries
    | some (nodeId, port) =>
      if keep (String.ofList nodeId) then
        match pyInt? port with
        | none => .error .valueError
        | some n => (parseNodes keep entries).map fun nodes => ⟨String.ofList nodeId, String.ofList nodeId, n⟩ :: nodes
      else parseNodes keep entries

namespace NodeConfig

def getAllNodes (config : NodeConfig) : Except PyError (List NodeAddress) :=
  parseNodes (fun _ => true) (config.clusterNodes.toList.splitOn ',')

def getPeerNodes (config : NodeConfig) : Except PyError (List NodeAddress) :=
  parseNodes (fun nodeId => nodeId ≠ config.nodeId) (config.clusterNodes.toList.splitOn ',')

end NodeConfig

example : (NodeConfig.mk "node-1" "node-1:8001, node-2:８００２,,a:b:+80_03").getPeerNodes =
    .ok [⟨"node-2", "node-2", 8002⟩, ⟨"a:b", "a:b", 8003⟩] := by decide

/-! ### Numbers -/

private theorem decimal?_of_isDigit {c : Char} (h : c.isDigit) : decimal? c = some (c.toNat - 48) := by
  have hrange : 48 ≤ c.toNat ∧ c.toNat ≤ 57 := by simpa [Char.isDigit, UInt32.le_iff_toNat_le] using h
  rw [decimal?, decimalZeros, List.find?_cons_of_pos (by simpa using hrange), Option.map_some]

private theorem mapM_decimal? {text : List Char} (h : ∀ c ∈ text, c.isDigit) :
    text.mapM decimal? = some (text.map fun c => c.toNat - 48) := by
  induction text with
  | nil => rfl
  | cons c text ih =>
    rw [List.mapM_cons, decimal?_of_isDigit (h c List.mem_cons_self), ih fun d hd => h d (List.mem_cons_of_mem c hd)]
    rfl

private theorem toDigits_isDigit {n : Nat} : ∀ c ∈ Nat.toDigits 10 n, c.isDigit := fun _ hc =>
  Nat.isDigit_of_mem_toDigits (by decide) (by decide) hc

private theorem readDigits?_toDigits {n : Nat} (hlen : (Nat.toDigits 10 n).length ≤ maxStrDigits) :
    readDigits? (Nat.toDigits 10 n) = some n := by
  have hno : '_' ∉ Nat.toDigits 10 n := Nat.underscore_not_in_toDigits
  have hgroups : ((Nat.toDigits 10 n).splitOn '_').any List.isEmpty = false := by
    rw [List.splitOn_eq_singleton hno, List.any_cons, List.any_nil, Bool.or_false, List.isEmpty_eq_false_iff]
    exact Nat.toDigits_ne_nil
  have hfilter : (Nat.toDigits 10 n).filter (· ≠ '_') = Nat.toDigits 10 n := by
    refine List.filter_eq_self.2 fun c hc => ?_
    have hne : c ≠ '_' := fun heq => hno (heq ▸ hc)
    simpa using hne
  have hvalue : ((Nat.toDigits 10 n).map fun c => c.toNat - 48).foldl (fun n d => 10 * n + d) 0 = n := by
    rw [List.foldl_map]
    exact Nat.ofDigitChars_ten_toDigits
  rw [readDigits?, hgroups, hfilter, mapM_decimal? toDigits_isDigit]
  simp only [Bool.false_eq_true, if_false, List.length_map, if_pos hlen, hvalue]

private theorem isSpace_of_isDigit {c : Char} (h : c.isDigit) : isSpace c = false := by
  have hrange : 48 ≤ c.toNat ∧ c.toNat ≤ 57 := by simpa [Char.isDigit, UInt32.le_iff_toNat_le] using h
  simp only [isSpace, decide_eq_false_iff_not, List.mem_cons, List.not_mem_nil, or_false]
  omega

private theorem pyInt?_toDigits {n : Nat} (hlen : (Nat.toDigits 10 n).length ≤ maxStrDigits) :
    pyInt? (Nat.toDigits 10 n) = some (n : Int) := by
  have hspace : ∀ c ∈ Nat.toDigits 10 n, ¬isIntSpace c := by
    intro c hc
    simp [isIntSpace, isSpace_of_isDigit (toDigits_isDigit c hc)]
  obtain ⟨c, front, hfront⟩ : ∃ c front, Nat.toDigits 10 n = c :: front :=
    List.exists_cons_of_ne_nil Nat.toDigits_ne_nil
  have hdrop : (Nat.toDigits 10 n).dropWhile isIntSpace = Nat.toDigits 10 n := by
    rw [hfront]
    exact List.dropWhile_cons_of_neg (hspace c (by rw [hfront]; exact List.mem_cons_self))
  have hrdrop : (Nat.toDigits 10 n).rdropWhile isIntSpace = Nat.toDigits 10 n :=
    List.rdropWhile_eq_self_iff.2 fun hne => hspace _ (List.getLast_mem hne)
  have hc : c.isDigit := toDigits_isDigit c (by rw [hfront]; exact List.mem_cons_self)
  have hminus : c ≠ '-' := by
    rintro rfl
    cases hc
  have hplus : c ≠ '+' := by
    rintro rfl
    cases hc
  rw [pyInt?, hdrop, hrdrop, hfront]
  split
  · rename_i heq
    exact absurd (List.cons.inj heq).1 hminus
  · rename_i heq
    exact absurd (List.cons.inj heq).1 hplus
  · rw [← hfront, readDigits?_toDigits hlen, Option.map_some]
    rfl

/-! ### Blanks -/

private theorem toList_strip (text : List Char) :
    (strip (String.ofList text)).toList = (text.dropWhile isSpace).rdropWhile isSpace := by
  rw [strip, String.toList_ofList, String.toList_ofList]
  rfl

/-- Blanks around a text that has none at its ends are taken away. -/
theorem strip_blanks {left right : List Char} (hleft : ∀ c ∈ left, isSpace c) (hright : ∀ c ∈ right, isSpace c)
    {front back : List Char} {c d : Char} (hc : isSpace c = false) (hd : isSpace d = false)
    (h : c :: front = back ++ [d]) :
    (strip (String.ofList (left ++ (c :: front ++ right)))).toList = c :: front := by
  have hfront : (left ++ (c :: front ++ right)).dropWhile isSpace = c :: front ++ right := by
    rw [List.dropWhile_append_of_pos hleft, List.cons_append, List.dropWhile_cons_of_neg (by simp [hc])]
  have hback : right.reverse.dropWhile isSpace = [] :=
    List.dropWhile_eq_nil_iff.2 fun c hc => hright c (List.mem_reverse.1 hc)
  have hlast : (c :: front ++ right).reverse = right.reverse ++ d :: back.reverse := by
    rw [List.reverse_append, h, List.reverse_append, List.reverse_singleton, List.singleton_append]
  rw [toList_strip, hfront, List.rdropWhile, hlast, List.dropWhile_append, hback, List.isEmpty_nil, if_pos rfl,
    List.dropWhile_cons_of_neg (by simp [hd]), ← List.reverse_concat, List.reverse_reverse, ← h]

/-- The last colon is found. -/
theorem rsplitColon_append (nodeId : List Char) {port : List Char} (h : ':' ∉ port) :
    rsplitColon (nodeId ++ ':' :: port) = some (nodeId, port) := by
  have hmem : ':' ∈ nodeId ++ ':' :: port := List.mem_append_right _ List.mem_cons_self
  have hpos : ∀ c ∈ port.reverse, decide (c ≠ ':') = true := by
    intro c hc
    have hne : c ≠ ':' := fun heq => h (heq ▸ List.mem_reverse.1 hc)
    simpa using hne
  have hreverse : (nodeId ++ ':' :: port).reverse = port.reverse ++ ':' :: nodeId.reverse := by simp
  have hdrop : (nodeId ++ ':' :: port).rdropWhile (· ≠ ':') = nodeId ++ [':'] := by
    rw [List.rdropWhile, hreverse, List.dropWhile_append_of_pos hpos, List.dropWhile_cons_of_neg (by simp)]
    simp
  have htake : (nodeId ++ ':' :: port).rtakeWhile (· ≠ ':') = port := by
    rw [List.rtakeWhile, hreverse, List.takeWhile_append_of_pos hpos, List.takeWhile_cons_of_neg (by simp),
      List.append_nil, List.reverse_reverse]
  rw [rsplitColon, if_pos hmem, hdrop, htake, List.dropLast_concat]

/-! ### Entries -/

/-- An entry of `cluster_nodes`: a node with blanks around it, or a text without a colon. -/
inductive ClusterEntry where
  | node (left : List Char) (nodeId : String) (port : Nat) (right : List Char)
  | other (text : List Char)

namespace ClusterEntry

def text : ClusterEntry → List Char
  | node left nodeId port right => left ++ (nodeId.toList ++ ':' :: Nat.toDigits 10 port ++ right)
  | other text => text

/-- An id has no comma, and no blank at its beginning; a port has no more digits than `int` reads. -/
def Valid : ClusterEntry → Prop
  | node left nodeId port right => (∀ c ∈ left, isSpace c) ∧ (∀ c ∈ right, isSpace c) ∧ ',' ∉ nodeId.toList ∧
      (∀ c ∈ nodeId.toList.head?, isSpace c = false) ∧ (Nat.toDigits 10 port).length ≤ maxStrDigits
  | other text => ',' ∉ text ∧ ':' ∉ text

instance : (e : ClusterEntry) → Decidable e.Valid
  | node _ _ _ _ => inferInstanceAs (Decidable (_ ∧ _))
  | other _ => inferInstanceAs (Decidable (_ ∧ _))

def address? : ClusterEntry → Option NodeAddress
  | node _ nodeId port _ => some ⟨nodeId, nodeId, port⟩
  | other _ => none

private theorem comma_not_mem {e : ClusterEntry} (h : e.Valid) : ',' ∉ e.text := by
  have hspace : isSpace ',' = false := by decide
  cases e with
  | other text => exact h.1
  | node left nodeId port right =>
    obtain ⟨hleft, hright, hid, -⟩ := h
    intro hmem
    simp only [text, List.mem_append, List.mem_cons] at hmem
    rcases hmem with hmem | (hmem | hmem | hmem) | hmem
    · rw [hleft _ hmem] at hspace
      cases hspace
    · exact hid hmem
    · cases hmem
    · exact absurd (toDigits_isDigit _ hmem) (by decide)
    · rw [hright _ hmem] at hspace
      cases hspace

/-- What the loop makes of an entry. -/
theorem rsplitColon_text {e : ClusterEntry} (h : e.Valid) :
    rsplitColon (strip (String.ofList e.text)).toList =
      match e with
      | node _ nodeId port _ => some (nodeId.toList, Nat.toDigits 10 port)
      | other _ => none := by
  cases e with
  | other text =>
    have hno : ':' ∉ (strip (String.ofList text)).toList := by
      intro hmem
      rw [toList_strip] at hmem
      exact h.2 ((List.dropWhile_sublist _).subset ((List.rdropWhile_prefix _ _).subset hmem))
    exact if_neg hno
  | node left nodeId port right =>
    obtain ⟨hleft, hright, -, hhead, -⟩ := h
    have hdigit : ∀ c ∈ Nat.toDigits 10 port, c.isDigit := toDigits_isDigit
    have hcolon : ':' ∉ Nat.toDigits 10 port := fun hmem => absurd (hdigit _ hmem) (by decide)
    obtain ⟨back, d, hback⟩ : ∃ back d, Nat.toDigits 10 port = back ++ [d] := by
      rcases List.eq_nil_or_concat (Nat.toDigits 10 port) with hnil | ⟨back, d, hcat⟩
      · exact absurd hnil Nat.toDigits_ne_nil
      · exact ⟨back, d, by rw [hcat, List.concat_eq_append]⟩
    have hd : isSpace d = false :=
      isSpace_of_isDigit (hdigit d (by rw [hback]; exact List.mem_append_right _ (List.mem_singleton_self _)))
    -- the first character is that of the id, or the colon
    obtain ⟨c, front, hfront, hc⟩ : ∃ c front, nodeId.toList ++ ':' :: Nat.toDigits 10 port = c :: front ∧
        isSpace c = false := by
      cases hid : nodeId.toList with
      | nil => exact ⟨':', _, rfl, by decide⟩
      | cons c front => exact ⟨c, _, rfl, hhead c (by rw [hid]; rfl)⟩
    have hlast : c :: front = nodeId.toList ++ ':' :: back ++ [d] := by
      rw [← hfront, hback]
      simp
    have hstrip := strip_blanks hleft hright hc hd hlast
    rw [← hfront] at hstrip
    rw [text, hstrip, rsplitColon_append _ hcolon]

end ClusterEntry

/-- The loop keeps the nodes it is asked to keep. -/
theorem parseNodes_text (keep : String → Bool) {es : List ClusterEntry} (h : ∀ e ∈ es, e.Valid) :
    parseNodes keep (es.map ClusterEntry.text) =
      .ok ((es.filterMap ClusterEntry.address?).filter fun node => keep node.nodeId) := by
  induction es with
  | nil => rfl
  | cons e es ih =>
    have hrest := ih fun e' he' => h e' (List.mem_cons_of_mem _ he')
    rw [List.map_cons, parseNodes, ClusterEntry.rsplitColon_text (h e List.mem_cons_self)]
    cases e with
    | other text => exact hrest
    | node left nodeId port right =>
      have hport := pyInt?_toDigits (h _ List.mem_cons_self).2.2.2.2
      simp only [String.ofList_toList, hport, hrest, List.filterMap_cons, ClusterEntry.address?,
        List.filter_cons]
      by_cases hkeep : keep nodeId
      · rw [if_pos hkeep, if_pos hkeep]
        rfl
      · rw [if_neg hkeep, if_neg hkeep]

/-- On any text: where all nodes can be read, the ones to keep are among them. -/
theorem parseNodes_filter (keep : String → Bool) (entries : List (List Char)) {nodes : List NodeAddress}
    (h : parseNodes (fun _ => true) entries = .ok nodes) :
    parseNodes keep entries = .ok (nodes.filter fun node => keep node.nodeId) := by
  induction entries generalizing nodes with
  | nil =>
    cases h
    rfl
  | cons entry entries ih =>
    rw [parseNodes] at h ⊢
    cases hsplit : rsplitColon (strip (String.ofList entry)).toList with
    | none =>
      rw [hsplit] at h
      exact ih h
    | some pair =>
      obtain ⟨nodeId, port⟩ := pair
      rw [hsplit] at h
      simp only [if_true] at h
      cases hport : pyInt? port with
      | none =>
        rw [hport] at h
        cases h
      | some n =>
        rw [hport] at h
        cases hrest : parseNodes (fun _ => true) entries with
        | error err =>
          rw [hrest] at h
          cases h
        | ok rest =>
          rw [hrest] at h
          cases h
          have hkept := ih hrest
          simp only [hport, hkept, List.filter_cons]
          by_cases hkeep : keep (String.ofList nodeId)
          · rw [if_pos hkeep, if_pos hkeep]
            rfl
          · rw [if_neg hkeep, if_neg hkeep]

/-- A list of nodes that is written as the configuration wants it is read back, whatever blanks and texts without a
colon stand between them, and the peers of a node are the other nodes.  On any text from which all nodes can be read the
peers of every node are the other ones in the same order. -/
theorem cluster_nodes_round_trip :
    (∀ (es : List ClusterEntry) (nodeId : String), (∀ e ∈ es, e.Valid) →
      (NodeConfig.mk nodeId (String.ofList ([','].intercalate (es.map ClusterEntry.text)))).getAllNodes =
          .ok (es.filterMap ClusterEntry.address?) ∧
        (NodeConfig.mk nodeId (String.ofList ([','].intercalate (es.map ClusterEntry.text)))).getPeerNodes =
          .ok ((es.filterMap ClusterEntry.address?).filter fun node => node.nodeId ≠ nodeId)) ∧
      ∀ (config : NodeConfig) nodes, config.getAllNodes = .ok nodes →
        config.getPeerNodes = .ok (nodes.filter fun node => node.nodeId ≠ config.nodeId) ∧
          (nodes.filter fun node => node.nodeId ≠ config.nodeId).map NodeAddress.nodeId =
            getPeerNodes (nodes.map NodeAddress.nodeId) config.nodeId := by
  refine ⟨fun es nodeId h => ?_, fun config nodes h => ⟨parseNodes_filter _ _ h, ?_⟩⟩
  · have hparse : ∀ keep, parseNodes keep ((String.ofList ([','].intercalate (es.map ClusterEntry.text))).toList.splitOn
        ',') = .ok ((es.filterMap ClusterEntry.address?).filter fun node => keep node.nodeId) := by
      intro keep
      by_cases hnil : es = []
      · rw [hnil]
        rfl
      · have hcomma : ∀ text ∈ es.map ClusterEntry.text, ',' ∉ text := by
          intro text htext
          obtain ⟨e, he, rfl⟩ := List.mem_map.1 htext
          exact ClusterEntry.comma_not_mem (h e he)
        rw [String.toList_ofList, List.splitOn_intercalate ',' hcomma (by simpa using hnil)]
        exact parseNodes_text keep h
    refine ⟨(hparse fun _ => true).trans ?_, hparse fun node => node ≠ nodeId⟩
    rw [List.filter_true]
  · rw [getPeerNodes, List.filter_map]
    rfl

end DistributedSync
