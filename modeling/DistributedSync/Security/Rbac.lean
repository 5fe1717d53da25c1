import Mathlib.Algebra.Order.Ring.Int
import DistributedSync.Library.Dict
import DistributedSync.Library.Hex
import DistributedSync.Security.AuditLogger

/-!
# Role-based access control

`rbac.py`: the users and their roles, the tokens, the permissions of the roles, and the middleware that lets a request
through or answers it with an error.  A token is the hexadecimal text of its payload and a signature, with a dot
between them; the payload says until when it is valid.  Some paths are open to everybody; of the others, the token of
a login opens what the role of the user permits until it expires, and nothing else (`login_token_opens`).
-/

namespace DistributedSync

inductive Role where
  | admin | operator | viewer
  deriving DecidableEq, Repr

/-- `role.value`. -/
def Role.value : Role → String
  | .admin => "admin"
  | .operator => "operator"
  | .viewer => "viewer"

/-- `Role(value)`; `none` is the `ValueError`. -/
def Role.ofValue? {ν : Type} : Json ν → Option Role
  | .str s =>
    if s = "admin" then some .admin
    else if s = "operator" then some .operator
    else if s = "viewer" then some .viewer
    else none
  | _ => none

@[simp] theorem Role.ofValue?_value {ν : Type} (role : Role) :
    Role.ofValue? (.str role.value : Json ν) = some role := by
  cases role <;> rfl

/-- `PERMISSIONS`. -/
def permissions : Role → List String
  | .admin => ["lock:*", "queue:*", "cache:*", "admin:*", "auth:*", "audit:*", "security:*", "geo:*"]
  | .operator => ["lock:acquire", "lock:release", "lock:status", "queue:enqueue", "queue:dequeue", "queue:ack",
      "queue:status", "cache:get", "cache:put", "cache:stats", "geo:regions", "geo:latency"]
  | .viewer => ["lock:status", "lock:deadlocks", "queue:status", "queue:ring", "cache:get", "cache:stats",
      "cache:state", "geo:regions", "geo:latency", "geo:replication-status"]

/-- What the manager uses of the standard library: the SHA-256 hex digest of a text, the HMAC-SHA-256 hex digest of a
text under a key, and `json.dumps` and `json.loads`, which may raise. -/
structure RbacLib (ν : Type) where
  sha256 : String → String
  hmac : String → String → String
  dumps : Json ν → String
  loads : String → Option (Json ν)
  hmac_hex : ∀ key text, ∀ c ∈ (hmac key text).toList, c ∈ Hex.alphabet

/-- An entry of `_users`. -/
structure User where
  role : Role
  passwordHash : String
  deriving DecidableEq

structure RBACManager where
  secretKey : String
  users : Dict String User

/-- `s.replace(pat, "")`, where `skip` characters of an occurrence are still to be left out. -/
def removeAll (pat : List Char) : Nat → List Char → List Char
  | _, [] => []
  | skip + 1, _ :: cs => removeAll pat skip cs
  | 0, c :: cs => if pat.isPrefixOf (c :: cs) then removeAll pat (pat.length - 1) cs else c :: removeAll pat 0 cs

/-- `path.strip("/")`. -/
def stripSlashes (path : List Char) : List Char :=
  ((path.dropWhile (· = '/')).reverse.dropWhile (· = '/')).reverse

/-- The action of a path: its first two parts, or the only one. -/
def actionOf (path : String) : String :=
  match (stripSlashes path.toList).splitOn '/' with
  | [] => ""
  | [part] => String.ofList part
  | part :: part' :: _ => String.ofList (part ++ ':' :: part')

/-- The answers of the middleware: the request goes on, with the payload of its token unless none is asked for; one of
the two answers 401; the answer 403; or `payload["role"]` raises. -/
inductive Admission (ν : Type) where
  | passed (user : Option (Json ν))
  | tokenRequired
  | invalidToken
  | forbidden (role : Json ν) (action : String)
  | keyError

namespace RBACManager

variable {ν : Type} (lib : RbacLib ν)

/-- `_hash_password`. -/
def hashPassword (password : String) : String := lib.sha256 password

/-- `RBACManager(secret_key)`. -/
def new (secretKey : String) : RBACManager where
  secretKey := secretKey
  users := ((Dict.empty.set "admin" ⟨.admin, hashPassword lib "admin123"⟩).set "operator"
    ⟨.operator, hashPassword lib "oper123"⟩).set "viewer" ⟨.viewer, hashPassword lib "view123"⟩

/-- The payload of a token. -/
def payload (username role : String) (issuedAt expiresAt : ν) : Json ν :=
  .obj [("username", .str username), ("role", .str role), ("issued_at", .num issuedAt), ("expires_at", .num expiresAt)]

/-- The text of a token. -/
def tokenText (payload sig : String) : String :=
  String.ofList (Hex.encode payload.toUTF8.data.toList ++ '.' :: sig.toList)

/-- The text that the first part of a token stands for. -/
def payloadText (payloadHex : List Char) : Option String :=
  (Hex.decode payloadHex).bind fun bytes => String.fromUTF8? ⟨bytes.toArray⟩

/-- `skip_paths`. -/
def skipPaths : List String := ["/health", "/metrics", "/rpc", "/auth/token"]

/-- The token of the header `Authorization`; `none` is also the empty one. -/
def bearerToken (header : Option String) : Option String :=
  let header := (header.getD "").toList
  if "Bearer ".toList.isPrefixOf header then
    let token := String.ofList (removeAll "Bearer ".toList 0 header)
    if token = "" then none else some token
  else none

/-- The middleware asks nothing of a request to the path. -/
def Unchecked (enabled : Bool) (path : String) : Prop := path ∈ skipPaths ∨ enabled = false

instance (enabled : Bool) (path : String) : Decidable (Unchecked enabled path) :=
  inferInstanceAs (Decidable (_ ∨ _))

variable [Number ν] (m : RBACManager)

/-- `_generate_token`; the clock is read twice. -/
def generateToken [OfNat ν 3600] (now now' : ν) (username role : String) : String :=
  let text := lib.dumps (payload username role now (now' + 3600))
  tokenText text (lib.hmac m.secretKey text)

/-- `authenticate`. -/
def authenticate [OfNat ν 3600] (now now' : ν) (username password : String) : Option String :=
  match m.users.get? username with
  | none => none
  | some user =>
    if user.passwordHash ≠ hashPassword lib password then none
    else some (m.generateToken lib now now' username user.role.value)

/-- The check of `expires_at`; what is not a dictionary, and an entry that is not a number, raise. -/
def unexpired (now : ν) (data : Json ν) : Option (Json ν) :=
  match data with
  | .obj _ => (((data.member? "expires_at").getD (.num 0)).number?).bind fun expiresAt =>
      if expiresAt < now then none else some data
  | _ => none

/-- `verify_token`; every exception is caught. -/
def verifyToken (now : ν) (token : String) : Option (Json ν) :=
  match token.toList.splitOn '.' with
  | [payloadHex, sig] => (payloadText payloadHex).bind fun text =>
      if String.ofList sig = lib.hmac m.secretKey text then (lib.loads text).bind (unexpired now) else none
  | _ => none

/-- `check_permission`. -/
def checkPermission (roleStr : Json ν) (action : String) : Bool :=
  match Role.ofValue? roleStr with
  | none => false
  | some role => action ∈ permissions role ∨
      String.ofList ((action.toList.splitOn ':').headD [] ++ [':', '*']) ∈ permissions role

/-- `rbac_middleware`. -/
def middleware (enabled : Bool) (path : String) (header : Option String) (now : ν) : Admission ν :=
  if path ∈ skipPaths ∨ !enabled then .passed none
  else
    match bearerToken header with
    | none => .tokenRequired
    | some token =>
      match m.verifyToken lib now token with
      | none => .invalidToken
      | some data =>
        if !data.truthy then .invalidToken
        else
          match data.member? "role" with
          | none => .keyError
          | some role =>
            if checkPermission role (actionOf path) then .passed (some data) else .forbidden role (actionOf path)

end RBACManager

/-! ### The header -/

/-- Nothing is left out where the first character of the pattern does not occur. -/
theorem removeAll_of_not_mem {p : Char} {pat cs : List Char} (h : p ∉ cs) : removeAll (p :: pat) 0 cs = cs := by
  induction cs with
  | nil => rfl
  | cons c cs ih =>
    have hne : ¬p = c := fun heq => h (heq ▸ List.mem_cons_self)
    have hno : (p :: pat).isPrefixOf (c :: cs) = false := by
      rw [List.isPrefixOf, beq_eq_false_iff_ne.2 hne, Bool.false_and]
    rw [removeAll, hno, ih fun hmem => h (List.mem_cons_of_mem _ hmem)]
    rfl

private theorem removeAll_skip (pat front cs : List Char) :
    removeAll pat front.length (front ++ cs) = removeAll pat 0 cs := by
  induction front with
  | nil => rfl
  | cons c front ih => exact ih

/-- The occurrence at the beginning is left out. -/
theorem removeAll_append (p : Char) (pat cs : List Char) :
    removeAll (p :: pat) 0 (p :: pat ++ cs) = removeAll (p :: pat) 0 cs := by
  have hpre : (p :: pat).isPrefixOf (p :: (pat ++ cs)) = true := by
    rw [← List.cons_append, List.isPrefixOf_iff_prefix]
    exact List.prefix_append _ _
  rw [List.cons_append, removeAll, hpre]
  exact removeAll_skip _ pat cs

namespace RBACManager

/-- The token of a header that is made as clients make it. -/
theorem bearerToken_append {token : String} (hne : token ≠ "") (h : 'B' ∉ token.toList) :
    bearerToken (some ("Bearer " ++ token)) = some token := by
  have hlist : ("Bearer " ++ token).toList = 'B' :: "earer ".toList ++ token.toList := by
    rw [String.toList_append]
    rfl
  have hpre : ("Bearer ".toList.isPrefixOf ('B' :: "earer ".toList ++ token.toList)) = true := by
    rw [List.isPrefixOf_iff_prefix]
    exact List.prefix_append _ _
  have hremove : removeAll "Bearer ".toList 0 ('B' :: "earer ".toList ++ token.toList) = token.toList := by
    show removeAll ('B' :: "earer ".toList) 0 _ = _
    rw [removeAll_append, removeAll_of_not_mem h]
  rw [bearerToken, Option.getD_some, hlist]
  simp only [hpre, if_true, hremove, String.ofList_toList, if_neg hne]

/-! ### Tokens -/

variable {ν : Type} {lib : RbacLib ν} {m : RBACManager}

theorem payloadText_encode (text : String) : payloadText (Hex.encode text.toUTF8.data.toList) = some text := by
  have hbytes : (⟨text.toUTF8.data.toList.toArray⟩ : ByteArray) = text.toUTF8 := by rw [Array.toArray_toList]
  rw [payloadText, Hex.decode_encode, Option.bind_some, hbytes, String.toUTF8_eq_toByteArray, String.fromUTF8?,
    dif_pos text.isValidUTF8]
  rfl

/-- A token has two parts. -/
theorem splitOn_tokenText (lib : RbacLib ν) (key text : String) :
    (tokenText text (lib.hmac key text)).toList.splitOn '.' =
      [Hex.encode text.toUTF8.data.toList, (lib.hmac key text).toList] := by
  have hdot : ('.' : Char) ∉ Hex.alphabet := by decide
  rw [tokenText, String.toList_ofList,
    List.splitOn_append_cons_self_of_not_mem fun hmem => hdot (Hex.mem_encode hmem),
    List.splitOn_eq_singleton fun hmem => hdot (lib.hmac_hex key text '.' hmem)]

/-- The characters of a token. -/
theorem mem_tokenText {key text : String} {c : Char} (h : c ∈ (tokenText text (lib.hmac key text)).toList) :
    c ∈ Hex.alphabet ∨ c = '.' := by
  rw [tokenText, String.toList_ofList, List.mem_append, List.mem_cons] at h
  rcases h with h | h | h
  · exact Or.inl (Hex.mem_encode h)
  · exact Or.inr h
  · exact Or.inl (lib.hmac_hex key text c h)

theorem bearerToken_tokenText (lib : RbacLib ν) (key text : String) :
    bearerToken (some ("Bearer " ++ tokenText text (lib.hmac key text))) =
      some (tokenText text (lib.hmac key text)) := by
  have hB : 'B' ∉ Hex.alphabet := by decide
  refine bearerToken_append (fun hempty => ?_) fun hmem => ?_
  · have hlist := congrArg String.toList hempty
    rw [tokenText, String.toList_ofList] at hlist
    simp at hlist
  · rcases mem_tokenText hmem with h | h
    · exact hB h
    · cases h

/-! ### Requests -/

/-- Elsewhere access is controlled. -/
theorem of_not_unchecked {enabled : Bool} {path : String} (h : ¬Unchecked enabled path) :
    path ∉ skipPaths ∧ enabled = true := by
  rw [Unchecked, not_or] at h
  exact ⟨h.1, Bool.eq_true_of_not_eq_false h.2⟩

variable [Number ν]

/-- A signed payload is read back unless it has expired. -/
theorem verifyToken_tokenText (now : ν) (text : String) :
    m.verifyToken lib now (tokenText text (lib.hmac m.secretKey text)) = (lib.loads text).bind (unexpired now) := by
  rw [verifyToken, splitOn_tokenText]
  simp only [payloadText_encode, Option.bind_some, String.ofList_toList, if_true]

theorem unexpired_payload (now issuedAt expiresAt : ν) (username role : String) :
    unexpired now (payload username role issuedAt expiresAt) =
      if expiresAt < now then none else some (payload username role issuedAt expiresAt) := by
  have hmember : (payload username role issuedAt expiresAt).member? "expires_at" = some (.num expiresAt) := by
    simp [payload, Json.member?]
  rw [payload] at hmember ⊢
  simp only [unexpired, hmember, Option.getD_some, Json.number?, Option.bind_some]

theorem verifyToken_eq_some {now : ν} {token : String} {data : Json ν} :
    m.verifyToken lib now token = some data ↔ ∃ payloadHex sig text, token.toList.splitOn '.' = [payloadHex, sig] ∧
      payloadText payloadHex = some text ∧ String.ofList sig = lib.hmac m.secretKey text ∧
      (lib.loads text).bind (unexpired now) = some data := by
  constructor
  · intro h
    unfold verifyToken at h
    split at h
    · rename_i payloadHex sig hsplit
      obtain ⟨text, htext, hdata⟩ := Option.bind_eq_some_iff.1 h
      rw [Option.ite_none_right_eq_some] at hdata
      exact ⟨payloadHex, sig, text, hsplit, htext, hdata.1, hdata.2⟩
    · cases h
  · rintro ⟨payloadHex, sig, text, hsplit, htext, hsig, hdata⟩
    rw [verifyToken, hsplit]
    simp only [htext, Option.bind_some, if_pos hsig, hdata]

theorem middleware_of_unchecked {enabled : Bool} {path : String} (h : Unchecked enabled path)
    (header : Option String) (now : ν) : m.middleware lib enabled path header now = .passed none := by
  rw [middleware, if_pos (by simpa [Unchecked] using h)]

/-- A request with a token that is valid is judged by the role. -/
theorem middleware_of_verified {path : String} (hpath : path ∉ skipPaths) {header : Option String} {token : String}
    (htoken : bearerToken header = some token) {now : ν} {username role : String} {issuedAt expiresAt : ν}
    (hverify : m.verifyToken lib now token = some (payload username role issuedAt expiresAt)) :
    m.middleware lib true path header now =
      if checkPermission (.str role : Json ν) (actionOf path) then
        .passed (some (payload username role issuedAt expiresAt))
      else .forbidden (.str role) (actionOf path) := by
  have hrole : (payload username role issuedAt expiresAt : Json ν).member? "role" = some (.str role) := by
    simp [payload, Json.member?]
  have htruthy : (payload username role issuedAt expiresAt : Json ν).truthy = true := rfl
  rw [middleware, if_neg (by simp [hpath]), htoken]
  simp only [hverify, htruthy, hrole, Bool.not_true, Bool.false_eq_true, if_false]

/-- Without a valid token a request does not go on. -/
theorem middleware_of_rejected {path : String} (hpath : path ∉ skipPaths) {header : Option String} {token : String}
    (htoken : bearerToken header = some token) {now : ν} (hverify : m.verifyToken lib now token = none) :
    m.middleware lib true path header now = .invalidToken := by
  rw [middleware, if_neg (by simp [hpath]), htoken]
  simp only [hverify]

variable [OfNat ν 3600]

/-- The token of a login opens, until 3600 seconds after it, what the role of the user permits, and nothing else but
the paths of which nothing is asked. -/
theorem login_token_opens {username password : String} {user : User} (huser : m.users.get? username = some user)
    (hpassword : user.passwordHash = hashPassword lib password) (now now' : ν)
    (hjson : lib.loads (lib.dumps (payload username user.role.value now (now' + 3600))) =
      some (payload username user.role.value now (now' + 3600))) :
    ∃ token, m.authenticate lib now now' username password = some token ∧
      ∀ (enabled : Bool) (path : String) (later : ν),
        m.middleware lib enabled path (some ("Bearer " ++ token)) later =
          if Unchecked enabled path then .passed none
          else if now' + 3600 < later then .invalidToken
          else if checkPermission (.str user.role.value : Json ν) (actionOf path) then
            .passed (some (payload username user.role.value now (now' + 3600)))
          else .forbidden (.str user.role.value) (actionOf path) := by
  have hauth : m.authenticate lib now now' username password =
      some (m.generateToken lib now now' username user.role.value) := by
    simp only [authenticate, huser, hpassword, ne_eq, not_true_eq_false, if_false]
  refine ⟨_, hauth, fun enabled path later => ?_⟩
  by_cases hopen : Unchecked enabled path
  · rw [if_pos hopen]
    exact middleware_of_unchecked hopen _ later
  · rw [if_neg hopen]
    obtain ⟨hpath, rfl⟩ := of_not_unchecked hopen
    have hbearer :=
      bearerToken_tokenText lib m.secretKey (lib.dumps (payload username user.role.value now (now' + 3600)))
    have hverify : m.verifyToken lib later (m.generateToken lib now now' username user.role.value) =
        if now' + 3600 < later then none else some (payload username user.role.value now (now' + 3600)) := by
      rw [generateToken, verifyToken_tokenText, hjson, Option.bind_some, unexpired_payload]
    by_cases hexpired : now' + 3600 < later
    · rw [if_pos hexpired] at hverify ⊢
      exact middleware_of_rejected hpath hbearer hverify
    · rw [if_neg hexpired] at hverify ⊢
      exact middleware_of_verified hpath hbearer hverify

end RBACManager

namespace RbacSample

/-- The payload of the token that the viewer gets at the time 100. -/
def viewerPayload : Json Int := RBACManager.payload "viewer" "viewer" 100 3700

def viewerText : String :=
  "\x7b\"username\": \"viewer\", \"role\": \"viewer\", \"issued_at\": 100.0, \"expires_at\": 3700.0\x7d"

def viewerHash : String := "656d604dfdba41a262963cce53699bbc56cd7a2c0da1ad5ead45fc49214159d6"

def viewerSig : String := "de4410ed1c52c96c80468bc9418e45b2bafd1d43b7ed755ff1245f598d623759"

/-- Hex digests and texts as they are for the passwords and this payload, with the key `"k"`. -/
def sampleLib : RbacLib Int where
  sha256 := fun password =>
    if password = "view123" then viewerHash
    else if password = "oper123" then "13a93f9a5502e71eed80a806f87bc4424e03e6b0d90acd513ea9d561c853b738"
    else "240be518fabd2724ddb6f04eeb1da5967448d7e831c08c8fa822809f74c720a9"
  hmac := fun _ _ => viewerSig
  dumps := fun _ => viewerText
  loads := fun text => if text = viewerText then some viewerPayload else none
  hmac_hex := by
    intro _ _
    have hall : viewerSig.toList.all (fun c => Hex.alphabet.contains c) = true := by decide
    intro c hc
    exact List.contains_iff_mem.1 (List.all_eq_true.1 hall c hc)

def manager : RBACManager := .new sampleLib "k"

theorem loads_dumps : sampleLib.loads (sampleLib.dumps viewerPayload) = some viewerPayload := by
  simp only [sampleLib, if_true]

end RbacSample

open RbacSample

/-- The viewer reads the cache until the token expires, and never writes to it; the health check is always open. -/
theorem login_token_opens_viewer : ∃ token,
    manager.authenticate sampleLib 100 100 "viewer" "view123" = some token ∧
      manager.middleware sampleLib true "/cache/get/k" (some ("Bearer " ++ token)) 3700 = .passed (some viewerPayload) ∧
      manager.middleware sampleLib true "/cache/get/k" (some ("Bearer " ++ token)) 3701 = .invalidToken ∧
      manager.middleware sampleLib true "/cache/put" (some ("Bearer " ++ token)) 200 =
        .forbidden (.str "viewer") "cache:put" ∧
      manager.middleware sampleLib true "/health" (some ("Bearer " ++ token)) 3701 = .passed none := by
  have huser : manager.users.get? "viewer" = some ⟨.viewer, viewerHash⟩ := rfl
  have hhash : viewerHash = RBACManager.hashPassword sampleLib "view123" := by decide
  have hlogin := RBACManager.login_token_opens (m := manager) huser hhash (100 : Int) 100
  obtain ⟨token, hauth, hopens⟩ := hlogin loads_dumps
  have hget := hopens true "/cache/get/k" 3700
  have hlate := hopens true "/cache/get/k" 3701
  have hput := hopens true "/cache/put" 200
  have hhealth := hopens true "/health" 3701
  have hperm : RBACManager.checkPermission (.str Role.viewer.value : Json Int) (actionOf "/cache/get/k") = true := by
    decide
  have hno : RBACManager.checkPermission (.str Role.viewer.value : Json Int) (actionOf "/cache/put") = false := by
    decide
  have haction : actionOf "/cache/put" = "cache:put" := by decide
  rw [if_neg (by decide)] at hget hput hlate
  rw [if_neg (by decide)] at hget hput
  rw [if_pos (by decide)] at hlate hhealth
  refine ⟨token, hauth, hget.trans (if_pos hperm), hlate, ?_, hhealth⟩
  rw [← haction]
  exact hput.trans (if_neg (Bool.not_eq_true _ ▸ hno))

end DistributedSync
