import Mathlib.Algebra.Order.Ring.Int
import DistributedSync.Security.AuditLogger

/-!
# What the verifier detects

Without collisions among the entries involved two intact chains with the same last hash agree entry by entry
(`agree_of_last`).  Of the edits of an honest chain that delete, permute or replace entries and leave the others as
they were, exactly two kinds pass the verifier: entries are deleted from the end only, or the last entry is replaced by
one with the same link and its own hash (`detected_iff`).
-/

namespace DistributedSync

variable {ν : Type}

/-- Two entries agree in all hashed fields, up to the order of the keys of dictionaries, and in the stored hash. -/
structure AuditEntry.Agree (e e' : AuditEntry ν) : Prop where
  sequence : e.sequence.sortKeys = e'.sequence.sortKeys
  timestamp : e.timestamp.sortKeys = e'.timestamp.sortKeys
  nodeId : e.nodeId.sortKeys = e'.nodeId.sortKeys
  user : e.user.sortKeys = e'.user.sortKeys
  action : e.action.sortKeys = e'.action.sortKeys
  resource : e.resource.sortKeys = e'.resource.sortKeys
  result : e.result.sortKeys = e'.result.sortKeys
  prevHash : e.prevHash.sortKeys = e'.prevHash.sortKeys
  entryHash : e.entryHash = e'.entryHash

/-- Among the entries different canonical contents have different hashes. -/
def CollisionFree (lib : AuditLib ν) (s : Set (AuditEntry ν)) : Prop :=
  ∀ e ∈ s, ∀ e' ∈ s, e.computeHash lib = e'.computeHash lib → e.canonical = e'.canonical

variable {lib : AuditLib ν}

private theorem same_iff_agree {e e' : AuditEntry ν} : (auditChain lib).Same e e' ↔ e.Agree e' := by
  constructor
  · intro h
    obtain ⟨hsequence, htimestamp, hnodeId, huser, haction, hresource, hresult, hprevHash⟩ :=
      AuditEntry.canonical_inj.1 h.content
    exact ⟨hsequence, htimestamp, hnodeId, huser, haction, hresource, hresult, hprevHash, h.stamp⟩
  · intro h
    exact ⟨AuditEntry.canonical_inj.2 ⟨h.sequence, h.timestamp, h.nodeId, h.user, h.action, h.resource, h.result,
      h.prevHash⟩, h.entryHash⟩

/-- The hash of an entry is never `"genesis"`, which is shorter. -/
theorem CollisionFree.chain {s : Set (AuditEntry ν)} (h : CollisionFree lib s) : (auditChain lib).CollisionFree s where
  content e he e' he' heq := h e he e' he' (Json.str.inj heq)
  genesis e _ heq := e.computeHash_ne_genesis lib (Json.str.inj heq)

/-! ### Edits of a chain -/

/-- Entries are deleted, the entries are permuted, or one of them is replaced. -/
inductive Tampered (l : List (AuditEntry ν)) : List (AuditEntry ν) → Prop where
  | delete {l' : List (AuditEntry ν)} (h : l'.Sublist l) : Tampered l l'
  | permute {l' : List (AuditEntry ν)} (h : l'.Perm l) : Tampered l l'
  | replace {i : Nat} (x : AuditEntry ν) (h : i < l.length) : Tampered l (l.set i x)

/-- The last entry is replaced by one that stores its own hash and links to the same entry. -/
def ReplacesLast (lib : AuditLib ν) (l l' : List (AuditEntry ν)) : Prop :=
  ∃ last x, l.getLast? = some last ∧ l' = l.dropLast ++ [x] ∧ x.entryHash = .str (x.computeHash lib) ∧
    x.prevHash = last.prevHash

/-- The links of two entries that end chains after the same entries are the same. -/
private theorem prevHash_eq {l : List (AuditEntry ν)} {e x : AuditEntry ν} (h : (auditChain lib).Intact (l ++ [e]))
    (h' : (auditChain lib).Intact (l ++ [x])) : x.prevHash = e.prevHash := by
  obtain ⟨hl, -, hprev⟩ := HashChain.intact_concat.1 h
  obtain ⟨-, -, hprev'⟩ := HashChain.intact_concat.1 h'
  obtain ⟨s, hs⟩ := AuditLogger.tip_eq_str hl
  rw [auditChain_prev, hs, Json.sortKeys_eq_str] at hprev hprev'
  rw [hprev, hprev']

theorem ReplacesLast.intact {l l' : List (AuditEntry ν)} (h : ReplacesLast lib l l') (hl : (auditChain lib).Intact l) :
    (auditChain lib).Intact l' := by
  obtain ⟨last, x, hlast, rfl, hhash, hprevHash⟩ := h
  have hsplit : l = l.dropLast ++ [last] := (List.dropLast_append_getLast? last hlast).symm
  rw [hsplit] at hl
  obtain ⟨hfront, -, hprev⟩ := HashChain.intact_concat.1 hl
  refine HashChain.intact_concat.2 ⟨hfront, hhash, ?_⟩
  rw [auditChain_prev, hprevHash, ← auditChain_prev lib, hprev]

/-- An intact chain that comes from an intact one by an edit, and differs from it. -/
theorem Tampered.prefix_or_replacesLast {l l' : List (AuditEntry ν)} (h : Tampered l l')
    (hdiff : ¬List.Forall₂ AuditEntry.Agree l' l) (hfree : CollisionFree lib {e | e ∈ l ∨ e ∈ l'})
    (hl : (auditChain lib).Intact l) (hl' : (auditChain lib).Intact l') : l' <+: l ∨ ReplacesLast lib l l' := by
  have hsub : {e | e ∈ l} ⊆ {e | e ∈ l ∨ e ∈ l'} := fun e he => Or.inl he
  cases h with
  | delete h => exact Or.inl (hl.prefix_of_subset (hfree.chain.mono hsub) hl' fun e he => h.subset he)
  | permute h => exact Or.inl (hl.prefix_of_subset (hfree.chain.mono hsub) hl' fun e he => h.subset he)
  | @replace i x h =>
    by_cases hi : i + 1 < l.length
    · -- the last entry is the old one, so that its hash determines all the others
      have hsame := hl.same_of_set hfree.chain hl' (fun e he => Or.inl he) (fun e he => Or.inr he) hi
      exact absurd (hsame.imp fun e e' => same_iff_agree.1) hdiff
    · rcases List.eq_nil_or_concat l with rfl | ⟨front, last, rfl⟩
      · exact absurd h (Nat.not_lt_zero i)
      · rw [List.concat_eq_append] at h hi hl hl' ⊢
        have hlength : i = front.length := by
          simp only [List.length_append, List.length_singleton] at h hi
          omega
        have hset : (front ++ [last]).set i x = front ++ [x] := by simp [hlength]
        rw [hset] at hl' ⊢
        refine Or.inr ⟨last, x, List.getLast?_concat, ?_, (HashChain.intact_concat.1 hl').2.1, prevHash_eq hl hl'⟩
        rw [List.dropLast_concat]

variable [Number ν]

/-! ### Honest chains -/

/-- A call of `log` and the time of it. -/
structure LogCall (ν : Type) where
  now : ν
  user : Json ν
  action : Json ν
  resource : Json ν
  result : Json ν

/-- The logger after the calls. -/
def AuditLogger.logAll (lib : AuditLib ν) (l : AuditLogger ν) (calls : List (LogCall ν)) : AuditLogger ν :=
  calls.foldl (fun l call => l.log lib call.now call.user call.action call.resource call.result) l

/-- The entries of a new logger after the calls. -/
def logged (lib : AuditLib ν) (nodeId : String) (calls : List (LogCall ν)) : List (AuditEntry ν) :=
  (AuditLogger.logAll lib { nodeId, sequence := 0 } calls).entries

private theorem AuditLogger.logAll_intact {l : AuditLogger ν} (h : (auditChain lib).Intact l.entries)
    (calls : List (LogCall ν)) : (auditChain lib).Intact (l.logAll lib calls).entries := by
  induction calls generalizing l with
  | nil => exact h
  | cons call calls ih => exact ih (log_intact h call.now call.user call.action call.resource call.result)

private theorem logged_intact (nodeId : String) (calls : List (LogCall ν)) :
    (auditChain lib).Intact (logged lib nodeId calls) :=
  AuditLogger.logAll_intact HashChain.intact_nil calls

/-- An honest chain passes the verifier. -/
theorem logged_valid (nodeId : String) (calls : List (LogCall ν)) :
    (verifyChain lib (logged lib nodeId calls)).valid = true :=
  (verifyChain_valid _).2 (logged_intact nodeId calls)

/-! ### Detection -/

/-- An edit of an honest chain that changes it is reported unless it only deletes entries from the end, or only
replaces the last entry by one with the same link and its own hash. -/
theorem detected_iff (lib : AuditLib ν) (nodeId : String) (calls : List (LogCall ν)) (l' : List (AuditEntry ν))
    (htampered : Tampered (logged lib nodeId calls) l')
    (hdiff : ¬List.Forall₂ AuditEntry.Agree l' (logged lib nodeId calls))
    (hfree : CollisionFree lib {e | e ∈ logged lib nodeId calls ∨ e ∈ l'}) :
    (verifyChain lib l').valid = false ↔
      ¬(l' <+: logged lib nodeId calls ∨ ReplacesLast lib (logged lib nodeId calls) l') := by
  have hintact : (auditChain lib).Intact (logged lib nodeId calls) := logged_intact nodeId calls
  rw [← Bool.not_eq_true, verifyChain_valid, not_iff_not]
  constructor
  · exact htampered.prefix_or_replacesLast hdiff hfree hintact
  · rintro (hpre | hreplaced)
    · exact hintact.of_prefix hpre
    · exact hreplaced.intact hintact

/-! ### A log of two entries -/

namespace AuditSample

def hash₁ : String := "cbe8ad261289efdc071d57485ef71e86ffafda6d05a845425b723b33fee98bbe"

def hash₂ : String := "186f869f2073d7d85f1ce3c5d8ff81ec75fdd3905af0cf03f03e92b85e08b5b6"

def call₁ : LogCall Int := ⟨1, .str "ann", .str "lock_acquire", .str "r", .str "success"⟩

def call₂ : LogCall Int := ⟨2, .str "ann", .str "lock_release", .str "r", .str "success"⟩

def entry₁ : AuditEntry Int :=
  ⟨.num 1, .num 1, .str "n1", .str "ann", .str "lock_acquire", .str "r", .str "success", .str "genesis", .str hash₁⟩

def entry₂ : AuditEntry Int :=
  ⟨.num 2, .num 2, .str "n1", .str "ann", .str "lock_release", .str "r", .str "success", .str hash₁, .str hash₂⟩

def line₁ : String := "\x7b" ++ ("\"sequence\": 1, \"timestamp\": 1.0, \"node_id\": \"n1\", \"user\": \"ann\", " ++
  "\"action\": \"lock_acquire\", \"resource\": \"r\", \"result\": \"success\", \"prev_hash\": \"genesis\", " ++
  "\"entry_hash\": \"" ++ hash₁ ++ "\"") ++ "\x7d"

def line₂ : String := "\x7b" ++ ("\"sequence\": 2, \"timestamp\": 2.0, \"node_id\": \"n1\", \"user\": \"ann\", " ++
  "\"action\": \"lock_release\", \"resource\": \"r\", \"result\": \"success\", \"prev_hash\": \"" ++ hash₁ ++
  "\", \"entry_hash\": \"" ++ hash₂ ++ "\"") ++ "\x7d"

def isFirst (v : Json Int) : Bool :=
  match v.member? "sequence" with
  | some (.num n) => n = 1
  | _ => false

/-- The library at the values that the two entries give rise to. -/
def sampleLib : AuditLib Int where
  numEq := fun x y => x = y
  dumps := fun v => if isFirst v then line₁ else line₂
  loads := fun text => if text = line₁ then some entry₁.toDict else if text = line₂ then some entry₂.toDict else none
  sha256 := fun v => if isFirst v then hash₁ else hash₂
  length_sha256 := by
    intro v
    split <;> decide

private theorem collisionFree : CollisionFree sampleLib {e | e = entry₁ ∨ e = entry₂} := by
  have hne : entry₁.computeHash sampleLib ≠ entry₂.computeHash sampleLib := by decide
  rintro e (rfl | rfl) e' (rfl | rfl) heq
  · rfl
  · exact absurd heq hne
  · exact absurd heq.symm hne
  · rfl

/-- Without one of the entries the list is another one. -/
theorem not_agree (e : AuditEntry Int) : ¬List.Forall₂ AuditEntry.Agree [e] [entry₁, entry₂] :=
  fun h => absurd h.length_eq (by simp)

private theorem collisionFree_deleted {e : AuditEntry Int} (he : e = entry₁ ∨ e = entry₂) :
    CollisionFree sampleLib {x | x ∈ [entry₁, entry₂] ∨ x ∈ [e]} := by
  have hsub : ∀ x, x ∈ [entry₁, entry₂] ∨ x ∈ [e] → x = entry₁ ∨ x = entry₂ := by
    rintro x (hx | hx)
    · simpa using hx
    · rw [List.mem_singleton.1 hx]
      exact he
  exact fun x hx x' hx' => collisionFree x (hsub x hx) x' (hsub x' hx')

end AuditSample

open AuditSample

/-- The first one of two entries is deleted. -/
theorem detected_iff_deleted :
    (verifyChain sampleLib [entry₂]).valid = false ↔
      ¬([entry₂] <+: logged sampleLib "n1" [call₁, call₂] ∨
        ReplacesLast sampleLib (logged sampleLib "n1" [call₁, call₂]) [entry₂]) :=
  detected_iff sampleLib "n1" [call₁, call₂] [entry₂] (.delete (List.sublist_cons_self entry₁ [entry₂]))
    (not_agree entry₂) (collisionFree_deleted (Or.inr rfl))

/-- The deletion of the last entry passes the verifier. -/
theorem truncation_undetected :
    ¬∀ (lib : AuditLib Int) (nodeId : String) (calls : List (LogCall Int)) (l' : List (AuditEntry Int)),
      calls ≠ [] → Tampered (logged lib nodeId calls) l' →
      ¬List.Forall₂ AuditEntry.Agree l' (logged lib nodeId calls) →
      CollisionFree lib {e | e ∈ logged lib nodeId calls ∨ e ∈ l'} → (verifyChain lib l').valid = false := by
  intro hall
  have hinvalid : (verifyChain sampleLib [entry₁]).valid = false :=
    hall sampleLib "n1" [call₁, call₂] [entry₁] (List.cons_ne_nil _ _)
      (.delete (List.Sublist.cons_cons entry₁ (List.nil_sublist [entry₂]))) (not_agree entry₁)
      (collisionFree_deleted (Or.inl rfl))
  have hvalid : (verifyChain sampleLib [entry₁]).valid = true := logged_valid "n1" [call₁]
  rw [hvalid] at hinvalid
  cases hinvalid

/-- Two entry lists that pass the verifier and end with the same hash agree entry by entry. -/
theorem agree_of_last (lib : AuditLib ν) (l l' : List (AuditEntry ν)) (hne : l ≠ []) (hne' : l' ≠ [])
    (hvalid : (verifyChain lib l).valid = true) (hvalid' : (verifyChain lib l').valid = true)
    (hfree : CollisionFree lib {e | e ∈ l ∨ e ∈ l'}) (hlast : (l.getLast hne).entryHash = (l'.getLast hne').entryHash) :
    l.length = l'.length ∧ List.Forall₂ AuditEntry.Agree l l' := by
  have htip : (auditChain lib).tip (auditChain lib).genesis l = (auditChain lib).tip (auditChain lib).genesis l' := by
    rw [HashChain.tip_of_ne_nil hne, HashChain.tip_of_ne_nil hne']
    exact hlast
  have hsame : List.Forall₂ (auditChain lib).Same l l' :=
    ((verifyChain_valid l).1 hvalid).same hfree.chain ((verifyChain_valid l').1 hvalid') (fun e he => Or.inl he)
      (fun e he => Or.inr he) htip
  exact ⟨hsame.length_eq, hsame.imp fun e e' => same_iff_agree.1⟩

theorem agree_of_last_sample : [entry₁, entry₂].length = [entry₁, entry₂].length ∧
    List.Forall₂ AuditEntry.Agree [entry₁, entry₂] [entry₁, entry₂] :=
  agree_of_last sampleLib [entry₁, entry₂] [entry₁, entry₂] (List.cons_ne_nil _ _) (List.cons_ne_nil _ _)
    (logged_valid "n1" [call₁, call₂]) (logged_valid "n1" [call₁, call₂])
    (fun e he e' he' => collisionFree e (by simpa using he) e' (by simpa using he')) rfl

end DistributedSync
