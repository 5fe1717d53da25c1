import DistributedSync.Library.HashChain
import DistributedSync.Security.AuditEntry

/-!
# The audit logger

`AuditLogger` of `audit_logger.py`: `log`, `verify_chain` and the loader.  A line of the file that cannot be read ends
the loading, and the exception is caught, so that the lines after it are skipped.  The verifier reports no error
exactly if the entries are an intact hash chain (`verifyChain_valid`), and `log` keeps the chain intact
(`AuditLogger.log_intact`).
-/

namespace DistributedSync

/-- The kinds of errors that the verifier reports. -/
inductive ChainFault where
  | hashMismatch
  | invalidGenesis
  | chainBroken
  deriving DecidableEq

def ChainFault.text : ChainFault → String
  | hashMismatch => "hash_mismatch"
  | invalidGenesis => "invalid_genesis"
  | chainBroken => "chain_broken"

structure ChainError (ν : Type) where
  sequence : Json ν
  error : ChainFault

/-- What `verify_chain` returns; an empty chain gets no list of errors. -/
structure ChainReport (ν : Type) where
  valid : Bool
  entries : Nat
  errors : Option (List (ChainError ν))
  message : String

structure AuditLogger (ν : Type) where
  nodeId : String
  entries : List (AuditEntry ν) := []
  sequence : ν

/-! ### The chain -/

variable {ν : Type} (lib : AuditLib ν)

/-- The hash chain that the entries are meant to form. -/
def auditChain : HashChain (AuditEntry ν) (Json ν) (Json ν) where
  content := AuditEntry.canonical
  prev := fun content => (content.member? "prev_hash").getD .null
  digest := fun content => .str (lib.sha256 content)
  stamp := AuditEntry.entryHash
  genesis := .str "genesis"

variable {lib}

theorem auditChain_prev (lib : AuditLib ν) (e : AuditEntry ν) :
    (auditChain lib).prev ((auditChain lib).content e) = e.prevHash.sortKeys := by
  simp [auditChain, AuditEntry.canonical_eq, Json.member?]

private theorem auditChain_stamped {e : AuditEntry ν} :
    (auditChain lib).Stamped e ↔ e.entryHash = .str (e.computeHash lib) := Iff.rfl

namespace AuditLogger

/-- The hash of the last entry, or else `"genesis"`. -/
def prevHash (l : AuditLogger ν) : Json ν :=
  match l.entries.getLast? with
  | some e => e.entryHash
  | none => .str "genesis"

private theorem prevHash_eq_tip (lib : AuditLib ν) (l : AuditLogger ν) :
    l.prevHash = (auditChain lib).tip (auditChain lib).genesis l.entries := by
  unfold prevHash
  rcases List.eq_nil_or_concat l.entries with h | ⟨es, e, h⟩
  · rw [h]
    rfl
  · rw [h, List.concat_eq_append, HashChain.tip_concat, List.getLast?_concat]
    rfl

/-- In an intact chain the end is a text. -/
theorem tip_eq_str {es : List (AuditEntry ν)} (h : (auditChain lib).Intact es) :
    ∃ s, (auditChain lib).tip (auditChain lib).genesis es = .str s := by
  rcases List.eq_nil_or_concat es with rfl | ⟨es, e, rfl⟩
  · exact ⟨"genesis", rfl⟩
  · rw [List.concat_eq_append] at h ⊢
    exact ⟨e.computeHash lib, by rw [HashChain.tip_concat]; exact (HashChain.intact_concat.1 h).2.1⟩

end AuditLogger

/-! ### The verifier -/

variable (lib) [Number ν]

/-- The check of the stored hash. -/
def hashErrors (e : AuditEntry ν) : List (ChainError ν) :=
  if e.entryHash.pyEq lib.numEq (.str (e.computeHash lib)) then [] else [⟨e.sequence, .hashMismatch⟩]

/-- The check of the link to the entry before. -/
def linkErrors (prev : Option (AuditEntry ν)) (e : AuditEntry ν) : List (ChainError ν) :=
  match prev with
  | none => if e.prevHash.pyEq lib.numEq (.str "genesis") then [] else [⟨e.sequence, .invalidGenesis⟩]
  | some p => if e.prevHash.pyEq lib.numEq p.entryHash then [] else [⟨e.sequence, .chainBroken⟩]

/-- The loop of `verify_chain`, from the entry after `prev` on. -/
def chainErrors (prev : Option (AuditEntry ν)) : List (AuditEntry ν) → List (ChainError ν)
  | [] => []
  | e :: es => hashErrors lib e ++ linkErrors lib prev e ++ chainErrors (some e) es

def verifyChain (entries : List (AuditEntry ν)) : ChainReport ν :=
  if entries = [] then
    { valid := true, entries := 0, errors := none, message := "Empty chain" }
  else
    let errors := chainErrors lib none entries
    { valid := errors.length = 0
      entries := entries.length
      errors := some errors
      message := if errors.isEmpty then "Chain intact" else "Tampering detected" }

variable {lib}

private theorem hashErrors_eq_nil {e : AuditEntry ν} : hashErrors lib e = [] ↔ (auditChain lib).Stamped e := by
  rw [hashErrors, auditChain_stamped, ← Json.pyEq_str lib.numEq]
  split <;> simp_all

private theorem linkErrors_none_eq_nil {e : AuditEntry ν} :
    linkErrors lib none e = [] ↔ e.prevHash = .str "genesis" := by
  rw [← Json.pyEq_str lib.numEq]
  simp only [linkErrors]
  split <;> simp_all

private theorem linkErrors_some_eq_nil {p e : AuditEntry ν} {s : String} (hp : p.entryHash = .str s) :
    linkErrors lib (some p) e = [] ↔ e.prevHash = .str s := by
  rw [← Json.pyEq_str lib.numEq]
  simp only [linkErrors, hp]
  split <;> simp_all

/-- After an entry whose hash is right the loop finds nothing exactly if the rest continues the chain. -/
theorem chainErrors_some_eq_nil {p : AuditEntry ν} (es : List (AuditEntry ν)) (hp : (auditChain lib).Stamped p) :
    chainErrors lib (some p) es = [] ↔ (auditChain lib).IntactFrom p.entryHash es := by
  induction es generalizing p with
  | nil => simp [chainErrors, HashChain.IntactFrom]
  | cons e es ih =>
    have hlink : linkErrors lib (some p) e = [] ↔
        (auditChain lib).prev ((auditChain lib).content e) = p.entryHash := by
      rw [auditChain_prev, auditChain_stamped.1 hp, Json.sortKeys_eq_str]
      exact linkErrors_some_eq_nil (auditChain_stamped.1 hp)
    simp only [chainErrors, HashChain.IntactFrom, List.append_eq_nil_iff, hashErrors_eq_nil, hlink, and_assoc]
    constructor
    · rintro ⟨hhash, hprev, hrest⟩
      exact ⟨hhash, hprev, (ih hhash).1 hrest⟩
    · rintro ⟨hhash, hprev, hrest⟩
      exact ⟨hhash, hprev, (ih hhash).2 hrest⟩

private theorem chainErrors_eq_nil (es : List (AuditEntry ν)) :
    chainErrors lib none es = [] ↔ (auditChain lib).Intact es := by
  cases es with
  | nil => simp [chainErrors]
  | cons e es =>
    have hlink : linkErrors lib none e = [] ↔
        (auditChain lib).prev ((auditChain lib).content e) = (auditChain lib).genesis := by
      have hgenesis : (auditChain lib).genesis = .str "genesis" := rfl
      rw [auditChain_prev, hgenesis, Json.sortKeys_eq_str]
      exact linkErrors_none_eq_nil
    simp only [chainErrors, HashChain.Intact, HashChain.IntactFrom, List.append_eq_nil_iff, hashErrors_eq_nil, hlink,
      and_assoc]
    constructor
    · rintro ⟨hhash, hprev, hrest⟩
      exact ⟨hhash, hprev, (chainErrors_some_eq_nil es hhash).1 hrest⟩
    · rintro ⟨hhash, hprev, hrest⟩
      exact ⟨hhash, hprev, (chainErrors_some_eq_nil es hhash).2 hrest⟩

/-- The verifier accepts exactly the intact chains, the empty one too. -/
theorem verifyChain_valid (entries : List (AuditEntry ν)) :
    (verifyChain lib entries).valid = true ↔ (auditChain lib).Intact entries := by
  unfold verifyChain
  by_cases hnil : entries = []
  · simp [hnil]
  · rw [if_neg hnil, ← chainErrors_eq_nil]
    simp

/-! ### Logging -/

namespace AuditLogger

variable (lib)

/-- The entry that `log` makes. -/
def nextEntry (l : AuditLogger ν) (now : ν) (user action resource result : Json ν) : AuditEntry ν :=
  AuditEntry.new lib (.num (l.sequence + 1)) (.num now) (.str l.nodeId) user action resource result l.prevHash

/-- `log`, up to the append to the file. -/
def log (l : AuditLogger ν) (now : ν) (user action resource result : Json ν) : AuditLogger ν where
  nodeId := l.nodeId
  sequence := l.sequence + 1
  entries := l.entries ++ [l.nextEntry lib now user action resource result]

variable {lib}

private theorem nextEntry_prevHash (l : AuditLogger ν) (now : ν) (user action resource result : Json ν) :
    (l.nextEntry lib now user action resource result).prevHash = l.prevHash := rfl

private theorem nextEntry_stamped (l : AuditLogger ν) (now : ν) (user action resource result : Json ν) :
    (auditChain lib).Stamped (l.nextEntry lib now user action resource result) := rfl

/-- A logged entry continues the chain in memory. -/
theorem log_intact {l : AuditLogger ν} (h : (auditChain lib).Intact l.entries) (now : ν)
    (user action resource result : Json ν) :
    (auditChain lib).Intact (l.log lib now user action resource result).entries := by
  refine HashChain.intact_concat.2 ⟨h, nextEntry_stamped l now user action resource result, ?_⟩
  obtain ⟨s, hs⟩ := tip_eq_str h
  rw [auditChain_prev, nextEntry_prevHash, prevHash_eq_tip lib, hs]
  rfl

end AuditLogger

end DistributedSync
