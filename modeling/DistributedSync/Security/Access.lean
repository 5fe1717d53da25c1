import Mathlib.Algebra.Order.Ring.Int
import Mathlib.Data.List.DropRight
import DistributedSync.Security.Rbac

/-!
# Who gets through

The logins and the requests of a node over time: `_handle_auth_token` of `main.py`, which logs every attempt, and the
middleware in front of the handlers.  As long as nobody can sign a text that the node has not signed, a request to a
path that is not open to everybody gets through exactly if it brings the token of a login that has succeeded, has not
expired and has a role with the permission; and the log names the user of that login (`passed_iff_login`).

What the roles may do is compared over all routes of the node, with any arguments (`route_permissions`).
-/

namespace DistributedSync

variable {ν : Type}

/-- The part of a node that logins and requests meet first. -/
structure Gate (ν : Type) where
  rbac : RBACManager
  audit : AuditLogger ν

/-- The answers to a login: a token, the answer 401, or an exception. -/
inductive AuthAnswer where
  | token (text : String)
  | invalidCredentials
  | raised
  deriving DecidableEq

/-- What comes in: a login with the values of its two fields, if given, and the readings of the clock, or a request. -/
inductive GateEvent (ν : Type) where
  | login (username password : Option (Json ν)) (now now' logged : ν)
  | request (path : String) (header : Option String) (now : ν)

/-- A login that has succeeded. -/
structure Login (ν : Type) where
  username : String
  password : String
  role : Role
  issuedAt : ν
  expiresAt : ν

/-- The payload of the token that the login gets. -/
def Login.payload (l : Login ν) : Json ν := RBACManager.payload l.username l.role.value l.issuedAt l.expiresAt

namespace Gate

variable (alib : AuditLib ν) (lib : RbacLib ν)

/-- The header brings a text with the signature that belongs to it. -/
def Presents (m : RBACManager) (header : Option String) (text : String) : Prop :=
  ∃ token ∈ RBACManager.bearerToken header, ∃ payloadHex sig, token.toList.splitOn '.' = [payloadHex, sig] ∧
    RBACManager.payloadText payloadHex = some text ∧ String.ofList sig = lib.hmac m.secretKey text

variable {lib} {m : RBACManager}

/-- A header with a token that the node has made presents its text only. -/
theorem presents_iff (text text' : String) :
    Presents lib m (some ("Bearer " ++ RBACManager.tokenText text (lib.hmac m.secretKey text))) text' ↔
      text' = text := by
  have hbearer := RBACManager.bearerToken_tokenText lib m.secretKey text
  have hsplit := RBACManager.splitOn_tokenText lib m.secretKey text
  constructor
  · rintro ⟨token, htoken, payloadHex, sig, hsplit', htext, -⟩
    rw [hbearer] at htoken
    obtain rfl := Option.some.inj htoken
    rw [hsplit] at hsplit'
    obtain ⟨rfl, -⟩ := List.cons.inj hsplit'
    rw [RBACManager.payloadText_encode] at htext
    exact (Option.some.inj htext).symm
  · rintro rfl
    exact ⟨_, hbearer, _, _, hsplit, RBACManager.payloadText_encode _, String.ofList_toList⟩

/-! ### Logins and requests -/

variable [Number ν]

/-- What the verifier says of a token with the payload of a login. -/
theorem verifyToken_of_payload {l : Login ν} (hjson : lib.loads (lib.dumps l.payload) = some l.payload)
    {token : String} {payloadHex sig : List Char} (hsplit : token.toList.splitOn '.' = [payloadHex, sig])
    (htext : RBACManager.payloadText payloadHex = some (lib.dumps l.payload))
    (hsig : String.ofList sig = lib.hmac m.secretKey (lib.dumps l.payload)) (now : ν) :
    m.verifyToken lib now token = if l.expiresAt < now then none else some l.payload := by
  rw [RBACManager.verifyToken, hsplit]
  simp only [htext, Option.bind_some, if_pos hsig, hjson]
  exact RBACManager.unexpired_payload now l.issuedAt l.expiresAt l.username l.role.value

variable (lib) [OfNat ν 3600]

/-- `self.rbac.authenticate(username, password)` on JSON values; `none` is an exception: a list or a dictionary cannot
be looked up, and only a string has an encoding. -/
def authenticateValues (m : RBACManager) (now now' : ν) : Json ν → Json ν → Option (Option String)
  | .str username, .str password => some (m.authenticate lib now now' username password)
  | .str username, _ => if username ∈ m.users.keys then none else some none
  | .arr _, _ => none
  | .obj _, _ => none
  | _, _ => some none

/-- The attempt is logged. -/
def record (g : Gate ν) (logged : ν) (user : Json ν) (result : String) : Gate ν where
  rbac := g.rbac
  audit := g.audit.log alib logged user (.str "auth_login") (.str "auth") (.str result)

/-- `_handle_auth_token`; a token is never empty. -/
def handleAuthToken (g : Gate ν) (username password : Option (Json ν)) (now now' logged : ν) : Gate ν × AuthAnswer :=
  match authenticateValues lib g.rbac now now' (username.getD (.str "")) (password.getD (.str "")) with
  | none => (g, .raised)
  | some (some token) =>
    match username with
    | none => (g, .raised)
    | some user => (g.record alib logged user "success", .token token)
  | some none => (g.record alib logged (username.getD (.str "unknown")) "failed", .invalidCredentials)

def step (g : Gate ν) : GateEvent ν → Gate ν
  | .login username password now now' logged => (handleAuthToken alib lib g username password now now' logged).1
  | .request _ _ _ => g

/-- The gate after what has come in so far. -/
def after (g : Gate ν) (h : List (GateEvent ν)) : Gate ν := h.foldl (step alib lib) g

/-- The login that succeeds with the event, if one does. -/
def loginOf? (m : RBACManager) : GateEvent ν → Option (Login ν)
  | .login (some (.str username)) password now now' _ =>
    match m.users.get? username, password.getD (.str "") with
    | some user, .str password =>
      if user.passwordHash = RBACManager.hashPassword lib password then
        some ⟨username, password, user.role, now, now' + 3600⟩
      else none
    | _, _ => none
  | _ => none

def logins (m : RBACManager) (h : List (GateEvent ν)) : List (Login ν) := h.filterMap (loginOf? lib m)

/-- The token of the login is the one in the header. -/
def Brings (m : RBACManager) (header : Option String) (l : Login ν) : Prop :=
  Presents lib m header (lib.dumps l.payload)

/-- Only the node signs texts: one that is presented is that of a login. -/
def Unforged (m : RBACManager) (h : List (GateEvent ν)) (header : Option String) : Prop :=
  ∀ text, Presents lib m header text → ∃ l ∈ logins lib m h, text = lib.dumps l.payload

/-- The texts of the payloads are read back. -/
def ReadBack (m : RBACManager) (h : List (GateEvent ν)) : Prop :=
  ∀ l ∈ logins lib m h, lib.loads (lib.dumps l.payload) = some l.payload

/-- The log has an entry for the login. -/
def Recorded (l : Login ν) (audit : AuditLogger ν) : Prop :=
  ∃ e ∈ audit.entries, e.user = .str l.username ∧ e.action = .str "auth_login" ∧ e.result = .str "success"

variable {alib lib} {g : Gate ν}

/-! ### Logins -/

/-- A login that succeeds is one of a user with the right password. -/
theorem user_of_loginOf {e : GateEvent ν} {l : Login ν} (h : loginOf? lib m e = some l) :
    (∃ password now now' logged, e = .login (some (.str l.username)) password now now' logged ∧
      password.getD (.str "") = .str l.password ∧ l.issuedAt = now ∧ l.expiresAt = now' + 3600) ∧
      ∃ user, m.users.get? l.username = some user ∧ user.role = l.role ∧
        user.passwordHash = RBACManager.hashPassword lib l.password := by
  unfold loginOf? at h
  split at h
  · rename_i username password now now' logged
    split at h
    · rename_i user password' huser hpassword
      split at h
      · rename_i hhash
        obtain rfl := Option.some.inj h
        exact ⟨⟨password, now, now', logged, rfl, hpassword, rfl, rfl⟩, user, huser, rfl, hhash⟩
      · cases h
    · cases h
  · cases h

/-- It is answered with its token, and logged. -/
theorem handleAuthToken_of_login {username password : Option (Json ν)} {now now' logged : ν} {l : Login ν}
    (h : loginOf? lib g.rbac (.login username password now now' logged) = some l) :
    g.handleAuthToken alib lib username password now now' logged =
      (g.record alib logged (.str l.username) "success",
        .token (RBACManager.tokenText (lib.dumps l.payload) (lib.hmac g.rbac.secretKey (lib.dumps l.payload)))) := by
  obtain ⟨⟨_, _, _, _, heq, hpassword, hissued, hexpires⟩, user, huser, hrole, hhash⟩ := user_of_loginOf h
  obtain ⟨rfl, rfl, rfl, rfl, rfl⟩ := GateEvent.login.inj heq
  have hauth : authenticateValues lib g.rbac now now' (.str l.username) (.str l.password) =
      some (some (g.rbac.generateToken lib now now' l.username l.role.value)) := by
    simp only [authenticateValues, RBACManager.authenticate, huser, hhash, hrole, ne_eq, not_true_eq_false, if_false]
  rw [handleAuthToken, hpassword, Option.getD_some, hauth, RBACManager.generateToken, Login.payload, hissued, hexpires]

private theorem rbac_step (g : Gate ν) (e : GateEvent ν) : (step alib lib g e).rbac = g.rbac := by
  cases e with
  | request path header now => rfl
  | login username password now now' logged =>
    simp only [step, handleAuthToken]
    split
    · rfl
    · split <;> rfl
    · rfl

private theorem rbac_after (g : Gate ν) (h : List (GateEvent ν)) : (after alib lib g h).rbac = g.rbac := by
  induction h using List.reverseRecOn with
  | nil => rfl
  | append_singleton h e ih =>
    rw [after, List.foldl_append, List.foldl_cons, List.foldl_nil, rbac_step]
    exact ih

/-- Entries stay in the log. -/
theorem entries_step (g : Gate ν) (e : GateEvent ν) {entry : AuditEntry ν} (h : entry ∈ g.audit.entries) :
    entry ∈ (step alib lib g e).audit.entries := by
  have hrecord : ∀ logged user result, entry ∈ (g.record alib logged user result).audit.entries := fun _ _ _ =>
    List.mem_append_left _ h
  cases e with
  | request path header now => exact h
  | login username password now now' logged =>
    simp only [step, handleAuthToken]
    split
    · exact h
    · split
      · exact h
      · exact hrecord _ _ _
    · exact hrecord _ _ _

/-- The log names the users of all logins so far. -/
theorem recorded_after (g : Gate ν) (h : List (GateEvent ν)) {l : Login ν} (hl : l ∈ logins lib g.rbac h) :
    Recorded l (after alib lib g h).audit := by
  induction h using List.reverseRecOn with
  | nil => cases hl
  | append_singleton h e ih =>
    have hafter : after alib lib g (h ++ [e]) = step alib lib (after alib lib g h) e := by
      rw [after, List.foldl_append, List.foldl_cons, List.foldl_nil, after]
    rw [logins, List.filterMap_append, List.mem_append] at hl
    rw [hafter]
    rcases hl with hl | hl
    · obtain ⟨entry, hentry, hfields⟩ := ih hl
      exact ⟨entry, entries_step _ _ hentry, hfields⟩
    · obtain ⟨e', he', hlogin⟩ := List.mem_filterMap.1 hl
      obtain rfl := List.mem_singleton.1 he'
      obtain ⟨⟨password, now, now', logged, rfl, -⟩, -⟩ := user_of_loginOf hlogin
      have hrbac : (after alib lib g h).rbac = g.rbac := rbac_after g h
      rw [← hrbac] at hlogin
      rw [step, handleAuthToken_of_login hlogin]
      exact ⟨_, List.mem_append_right _ (List.mem_singleton_self _), rfl, rfl, rfl⟩

/-! ### Requests -/

/-- What gets through where access is controlled has brought the token of a login. -/
theorem login_of_passed {h : List (GateEvent ν)} {header : Option String} (hback : ReadBack lib g.rbac h)
    (hunforged : Unforged lib g.rbac h header) {path : String} (hpath : path ∉ RBACManager.skipPaths) {now : ν}
    {user : Option (Json ν)} (hpassed : g.rbac.middleware lib true path header now = .passed user) :
    ∃ l ∈ logins lib g.rbac h, Brings lib g.rbac header l ∧ user = some l.payload ∧ ¬l.expiresAt < now ∧
      RBACManager.checkPermission (.str l.role.value : Json ν) (actionOf path) := by
  cases htoken : RBACManager.bearerToken header with
  | none =>
    rw [RBACManager.middleware, if_neg (by simp [hpath]), htoken] at hpassed
    cases hpassed
  | some token =>
    cases hverify : g.rbac.verifyToken lib now token with
    | none =>
      rw [RBACManager.middleware_of_rejected hpath htoken hverify] at hpassed
      cases hpassed
    | some found =>
      obtain ⟨payloadHex, sig, text, hsplit, htext, hsig, -⟩ := RBACManager.verifyToken_eq_some.1 hverify
      have hbrings : Presents lib g.rbac header text := ⟨token, htoken, payloadHex, sig, hsplit, htext, hsig⟩
      obtain ⟨l, hl, rfl⟩ := hunforged text hbrings
      have hcheck := verifyToken_of_payload (hback l hl) hsplit htext hsig now
      by_cases hexpired : l.expiresAt < now
      · rw [hverify, if_pos hexpired] at hcheck
        cases hcheck
      · rw [if_neg hexpired] at hcheck
        rw [RBACManager.middleware_of_verified hpath htoken hcheck] at hpassed
        by_cases hperm : RBACManager.checkPermission (.str l.role.value : Json ν) (actionOf path)
        · rw [if_pos hperm, Admission.passed.injEq] at hpassed
          exact ⟨l, hl, hbrings, hpassed.symm, hexpired, hperm⟩
        · rw [if_neg hperm] at hpassed
          cases hpassed

/-- A request to an open path gets through as it is.  Another one gets through exactly if it brings the token of a
login that has not expired and has a role with the permission, and then the log names the user. -/
theorem passed_iff_login {h : List (GateEvent ν)} {header : Option String} (hback : ReadBack lib g.rbac h)
    (hunforged : Unforged lib g.rbac h header) (enabled : Bool) (path : String) (now : ν) (user : Option (Json ν)) :
    (after alib lib g h).rbac.middleware lib enabled path header now = .passed user ↔
      RBACManager.Unchecked enabled path ∧ user = none ∨
      ¬RBACManager.Unchecked enabled path ∧
        ∃ l ∈ logins lib g.rbac h, Brings lib g.rbac header l ∧ user = some l.payload ∧ ¬l.expiresAt < now ∧
          RBACManager.checkPermission (.str l.role.value : Json ν) (actionOf path) ∧
          (∃ entry, g.rbac.users.get? l.username = some entry ∧ entry.role = l.role ∧
            entry.passwordHash = RBACManager.hashPassword lib l.password) ∧
          Recorded l (after alib lib g h).audit := by
  rw [rbac_after]
  by_cases hopen : RBACManager.Unchecked enabled path
  · rw [RBACManager.middleware_of_unchecked hopen, Admission.passed.injEq]
    constructor
    · intro hnone
      exact Or.inl ⟨hopen, hnone.symm⟩
    · rintro (⟨-, hnone⟩ | ⟨hclosed, -⟩)
      · exact hnone.symm
      · exact absurd hopen hclosed
  · obtain ⟨hpath, rfl⟩ := RBACManager.of_not_unchecked hopen
    constructor
    · intro hpassed
      obtain ⟨l, hl, hbrings, huser, hexpired, hperm⟩ := login_of_passed hback hunforged hpath hpassed
      obtain ⟨e, -, hlogin⟩ := List.mem_filterMap.1 hl
      exact Or.inr ⟨hopen, l, hl, hbrings, huser, hexpired, hperm, (user_of_loginOf hlogin).2, recorded_after g h hl⟩
    · rintro (⟨hopen', -⟩ | ⟨-, l, hl, ⟨token, htoken, payloadHex, sig, hsplit, htext, hsig⟩, rfl, hexpired, hperm, -⟩)
      · exact absurd hopen' hopen
      · have hcheck := verifyToken_of_payload (hback l hl) hsplit htext hsig now
        rw [if_neg hexpired] at hcheck
        rw [RBACManager.middleware_of_verified hpath htoken hcheck, if_pos hperm]
        rfl

end Gate

/-! ### Routes -/

inductive Method where
  | get | post | delete
  deriving DecidableEq, Repr

/-- A route of a node; one with an argument has it as the last part of its paths. -/
structure Route where
  method : Method
  path : String
  hasArg : Bool := false

def Route.Matches (r : Route) (path : String) : Prop :=
  if r.hasArg then ∃ arg : String, path = r.path ++ "/" ++ arg else path = r.path

/-- `_setup_routes` of `main.py`. -/
def routes : List Route := [⟨.post, "/rpc", false⟩, ⟨.get, "/health", false⟩, ⟨.get, "/metrics", false⟩,
  ⟨.get, "/status", false⟩, ⟨.post, "/lock/acquire", false⟩, ⟨.post, "/lock/release", false⟩,
  ⟨.get, "/lock/status", false⟩, ⟨.get, "/lock/deadlocks", false⟩, ⟨.post, "/queue/enqueue", false⟩,
  ⟨.post, "/queue/dequeue", false⟩, ⟨.post, "/queue/ack", true⟩, ⟨.get, "/queue/status", false⟩,
  ⟨.get, "/queue/ring", false⟩, ⟨.get, "/cache/get", true⟩, ⟨.post, "/cache/put", false⟩,
  ⟨.delete, "/cache/invalidate", true⟩, ⟨.get, "/cache/stats", false⟩, ⟨.get, "/cache/state", false⟩,
  ⟨.get, "/geo/regions", false⟩, ⟨.get, "/geo/latency", false⟩, ⟨.get, "/geo/replication-status", false⟩,
  ⟨.get, "/raft/status", false⟩, ⟨.post, "/auth/token", false⟩, ⟨.get, "/auth/verify", false⟩,
  ⟨.get, "/audit/logs", false⟩, ⟨.get, "/audit/verify", false⟩, ⟨.get, "/security/certs", false⟩,
  ⟨.get, "/docs", false⟩, ⟨.get, "/swagger.yaml", false⟩]

/-- The role may use the path. -/
def Permitted (role : Role) (path : String) : Prop :=
  RBACManager.checkPermission (.str role.value : Json Int) (actionOf path) = true

instance (role : Role) (path : String) : Decidable (Permitted role path) :=
  inferInstanceAs (Decidable (_ = true))

/-- A request to the path gets through with a valid token of the role. -/
def LetThrough (role : Role) (path : String) : Prop := path ∈ RBACManager.skipPaths ∨ Permitted role path

instance (role : Role) (path : String) : Decidable (LetThrough role path) :=
  inferInstanceAs (Decidable (_ ∨ _))

/-- The middleware lets through what it asks nothing of, and what the role permits. -/
theorem passed_iff_letThrough [Number ν] {lib : RbacLib ν} {m : RBACManager} {header : Option String} {token : String}
    (htoken : RBACManager.bearerToken header = some token) {now : ν} {username : String} {role : Role}
    {issuedAt expiresAt : ν}
    (hverify : m.verifyToken lib now token = some (RBACManager.payload username role.value issuedAt expiresAt))
    (path : String) : (∃ user, m.middleware lib true path header now = .passed user) ↔ LetThrough role path := by
  rw [LetThrough]
  by_cases hpath : path ∈ RBACManager.skipPaths
  · exact iff_of_true ⟨none, RBACManager.middleware_of_unchecked (Or.inl hpath) header now⟩ (Or.inl hpath)
  · rw [RBACManager.middleware_of_verified hpath htoken hverify, or_iff_right hpath, Permitted]
    by_cases hperm : RBACManager.checkPermission (.str role.value : Json ν) (actionOf path)
    · rw [if_pos hperm]
      exact iff_of_true ⟨_, rfl⟩ hperm
    · rw [if_neg hperm]
      exact iff_of_false (by rintro ⟨user, ⟨⟩⟩) hperm

private theorem rdropWhile_append {p : Char → Bool} {d : Char} (hd : ¬p d) (front arg : List Char) :
    (front ++ d :: arg).rdropWhile p = front ++ d :: arg.rdropWhile p := by
  induction arg using List.reverseRecOn with
  | nil => rw [List.rdropWhile_concat_neg _ _ _ hd, List.rdropWhile_nil]
  | append_singleton arg x ih =>
    rw [← List.cons_append, ← List.append_assoc]
    by_cases hx : p x
    · rw [List.rdropWhile_concat_pos _ _ _ hx, List.rdropWhile_concat_pos _ _ _ hx, ih]
    · rw [List.rdropWhile_concat_neg _ _ _ hx, List.rdropWhile_concat_neg _ _ _ hx, List.append_assoc, List.cons_append]

/-- Slashes at the ends of a path go, the others stay. -/
theorem stripSlashes_append {c d : Char} (hc : c ≠ '/') (hd : d ≠ '/') (front arg : List Char) :
    stripSlashes ('/' :: c :: front ++ d :: arg) = c :: front ++ d :: arg.rdropWhile (· = '/') := by
  have hfront : ('/' :: c :: front ++ d :: arg).dropWhile (· = '/') = c :: front ++ d :: arg := by
    simp [List.dropWhile, hc]
  rw [stripSlashes, hfront]
  exact rdropWhile_append (by simpa using hd) (c :: front) arg

/-- The first two parts of a path are its action, whatever comes after them. -/
theorem actionOf_append {path : String} {c d : Char} {part part' : List Char}
    (hpath : path.toList = '/' :: c :: part ++ '/' :: part' ++ [d]) (hpart : '/' ∉ c :: part)
    (hpart' : '/' ∉ part' ++ [d]) {arg : List Char} (harg : arg = [] ∨ ∃ rest, arg = '/' :: rest) :
    actionOf (String.ofList (path.toList ++ arg)) = String.ofList (c :: part ++ ':' :: (part' ++ [d])) := by
  have hc : c ≠ '/' := fun heq => hpart (heq ▸ List.mem_cons_self)
  have hd : d ≠ '/' := fun heq => hpart' (heq ▸ List.mem_append_right _ (List.mem_singleton_self _))
  have hlist : path.toList ++ arg = '/' :: c :: (part ++ '/' :: part') ++ d :: arg := by
    rw [hpath]
    simp
  have hsplit : stripSlashes (path.toList ++ arg) =
      c :: part ++ '/' :: (part' ++ [d] ++ arg.rdropWhile (· = '/')) := by
    rw [hlist, stripSlashes_append hc hd]
    simp
  -- what is left of the argument begins with a slash, if it is not empty
  have hrest : (part' ++ [d] ++ arg.rdropWhile (· = '/')).splitOn '/' = [part' ++ [d]] ∨
      ∃ parts, (part' ++ [d] ++ arg.rdropWhile (· = '/')).splitOn '/' = (part' ++ [d]) :: parts := by
    cases hleft : arg.rdropWhile (· = '/') with
    | nil =>
      rw [List.append_nil]
      exact Or.inl (List.splitOn_eq_singleton hpart')
    | cons x left =>
      have hpre : x :: left <+: arg := by
        rw [← hleft]
        exact List.rdropWhile_prefix _ _
      rcases harg with rfl | ⟨rest, rfl⟩
      · cases List.prefix_nil.1 hpre
      · obtain ⟨rfl, -⟩ := List.cons_prefix_cons.1 hpre
        exact Or.inr ⟨_, List.splitOn_append_cons_self_of_not_mem hpart' left⟩
  rw [actionOf, String.toList_ofList, hsplit, List.splitOn_append_cons_self_of_not_mem hpart]
  rcases hrest with hrest | ⟨parts, hrest⟩
  · simp only [hrest]
  · simp only [hrest]

/-- The argument of a path does not change its action. -/
theorem actionOf_arg {path : String} {c d : Char} {part part' : List Char}
    (hpath : path.toList = '/' :: c :: part ++ '/' :: part' ++ [d]) (hpart : '/' ∉ c :: part)
    (hpart' : '/' ∉ part' ++ [d]) (arg : String) : actionOf (path ++ "/" ++ arg) = actionOf path := by
  have hlong : path ++ "/" ++ arg = String.ofList (path.toList ++ '/' :: arg.toList) := by
    rw [← String.toList_inj, String.toList_ofList, String.toList_append, String.toList_append, List.append_assoc]
    rfl
  have hshort : path = String.ofList (path.toList ++ []) := by rw [List.append_nil, String.ofList_toList]
  calc actionOf (path ++ "/" ++ arg)
      = String.ofList (c :: part ++ ':' :: (part' ++ [d])) := by
        rw [hlong]
        exact actionOf_append hpath hpart hpart' (Or.inr ⟨_, rfl⟩)
    _ = actionOf (String.ofList (path.toList ++ [])) := (actionOf_append hpath hpart hpart' (Or.inl rfl)).symm
    _ = actionOf path := by rw [← hshort]

/-- All paths of a route have one action. -/
theorem actionOf_of_matches {r : Route} (hr : r ∈ routes) {path : String} (h : r.Matches path) :
    actionOf path = actionOf r.path := by
  have hargs : ∀ r ∈ routes, r.hasArg = true →
      r.path = "/queue/ack" ∨ r.path = "/cache/get" ∨ r.path = "/cache/invalidate" := by decide
  rw [Route.Matches] at h
  by_cases harg : r.hasArg = true
  · rw [if_pos harg] at h
    obtain ⟨arg, rfl⟩ := h
    rcases hargs r hr harg with hp | hp | hp
    · rw [hp]
      have hlist : "/queue/ack".toList = '/' :: 'q' :: "ueue".toList ++ '/' :: "ac".toList ++ ['k'] := rfl
      exact actionOf_arg hlist (by decide) (by decide) arg
    · rw [hp]
      have hlist : "/cache/get".toList = '/' :: 'c' :: "ache".toList ++ '/' :: "ge".toList ++ ['t'] := rfl
      exact actionOf_arg hlist (by decide) (by decide) arg
    · rw [hp]
      have hlist : "/cache/invalidate".toList = '/' :: 'c' :: "ache".toList ++ '/' :: "invalidat".toList ++ ['e'] := rfl
      exact actionOf_arg hlist (by decide) (by decide) arg
  · rw [if_neg harg] at h
    rw [h]

/-- Only the administrator has permissions for all actions of a kind. -/
theorem mem_permissions_of_check {role : Role} (hrole : role ≠ .admin) {action : String}
    (h : RBACManager.checkPermission (.str role.value : Json Int) action = true) : action ∈ permissions role := by
  have hlast : ∀ role : Role, role ≠ .admin → ∀ p ∈ permissions role, p.toList.getLast? ≠ some '*' := by
    intro role hrole
    cases role with
    | admin => exact absurd rfl hrole
    | operator => decide
    | viewer => decide
  simp only [RBACManager.checkPermission, Role.ofValue?_value, Bool.decide_or, Bool.or_eq_true, decide_eq_true_eq] at h
  rcases h with h | h
  · exact h
  · have hstar := hlast role hrole _ h
    rw [String.toList_ofList, List.getLast?_append] at hstar
    exact absurd rfl hstar

/-- The paths of a route are open to the same roles. -/
theorem letThrough_of_matches {r : Route} (hr : r ∈ routes) {path : String} (h : r.Matches path) (role : Role) :
    LetThrough role path ↔ LetThrough role r.path := by
  have haction := actionOf_of_matches hr h
  -- no action of a route with an argument is that of an open path
  have hargs : ∀ r ∈ routes, r.hasArg = true → actionOf r.path ∉ RBACManager.skipPaths.map actionOf := by decide
  have hskip : path ∈ RBACManager.skipPaths ↔ r.path ∈ RBACManager.skipPaths := by
    by_cases harg : r.hasArg = true
    · have hclosed := hargs r hr harg
      refine iff_of_false (fun hmem => hclosed ?_) fun hmem => hclosed (List.mem_map_of_mem hmem)
      rw [← haction]
      exact List.mem_map_of_mem hmem
    · rw [Route.Matches, if_neg harg] at h
      rw [h]
  rw [LetThrough, LetThrough, Permitted, Permitted, haction, hskip]

private theorem forall_role {p : Role → Prop} : (∀ role, p role) ↔ p .admin ∧ p .operator ∧ p .viewer := by
  constructor
  · intro h
    exact ⟨h _, h _, h _⟩
  · rintro ⟨hadmin, hoperator, hviewer⟩ role
    cases role with
    | admin => exact hadmin
    | operator => exact hoperator
    | viewer => exact hviewer

/-- Where access is controlled, a valid token opens what its role is let through to.  Whatever an operator or a viewer
may do, the administrator may do.  A viewer changes nothing and an operator deletes nothing, but both reach the two
routes that ask for no token; and exactly four routes are closed to everybody. -/
theorem route_permissions [Number ν] (lib : RbacLib ν) (m : RBACManager) :
    (∀ header token now username role issuedAt expiresAt path, RBACManager.bearerToken header = some token →
        m.verifyToken lib now token = some (RBACManager.payload username (Role.value role) issuedAt expiresAt) →
        ((∃ user, m.middleware lib true path header now = .passed user) ↔ LetThrough role path)) ∧
      (∀ (role : Role) (action : String), RBACManager.checkPermission (.str role.value : Json Int) action = true →
        RBACManager.checkPermission (.str Role.admin.value : Json Int) action = true) ∧
      (∀ r ∈ routes, ∀ path, r.Matches path →
        (r.method ≠ .get → (LetThrough .viewer path ↔ r.path ∈ ["/rpc", "/auth/token"])) ∧
        (r.method = .delete → ¬LetThrough .operator path) ∧
        ((∀ role, ¬LetThrough role path) ↔ r.path ∈ ["/status", "/raft/status", "/docs", "/swagger.yaml"])) := by
  refine ⟨fun _ _ _ _ _ _ _ path htoken hverify => passed_iff_letThrough htoken hverify path, ?_, ?_⟩
  · intro role action h
    have hall : ∀ role : Role, role ≠ .admin → ∀ p ∈ permissions role,
        RBACManager.checkPermission (.str Role.admin.value : Json Int) p = true := by
      intro role hrole
      cases role with
      | admin => exact absurd rfl hrole
      | operator => decide
      | viewer => decide
    by_cases hrole : role = .admin
    · rw [hrole] at h
      exact h
    · exact hall role hrole action (mem_permissions_of_check hrole h)
  · intro r hr path hmatches
    have htable : ∀ r ∈ routes,
        (r.method ≠ .get → (LetThrough .viewer r.path ↔ r.path ∈ ["/rpc", "/auth/token"])) ∧
        (r.method = .delete → ¬LetThrough .operator r.path) ∧
          ((¬LetThrough .admin r.path ∧ ¬LetThrough .operator r.path ∧ ¬LetThrough .viewer r.path) ↔
            r.path ∈ ["/status", "/raft/status", "/docs", "/swagger.yaml"]) := by decide
    simp only [forall_role, letThrough_of_matches hr hmatches]
    exact htable r hr

namespace GateSample

open RbacSample

/-- The digest is that of the one entry. -/
def sampleAudit : AuditLib Int where
  numEq := fun x y => x = y
  dumps := fun _ => ""
  loads := fun _ => none
  sha256 := fun _ => "27c7d72b2f9e9eb906e9c9127990a9364ea43624b819fbaa17c1392ea83f30b5"
  length_sha256 := fun _ => by decide

def gate : Gate Int := ⟨manager, { nodeId := "n1", sequence := 0 }⟩

/-- The viewer logs in. -/
def history : List (GateEvent Int) := [.login (some (.str "viewer")) (some (.str "view123")) 100 100 100]

def header : String := "Bearer " ++ RBACManager.tokenText viewerText viewerSig

def login : Login Int := ⟨"viewer", "view123", .viewer, 100, 3700⟩

private theorem logins_history : Gate.logins sampleLib manager history = [login] := rfl

private theorem presents_header {text : String} (h : Gate.Presents sampleLib manager (some header) text) :
    text = sampleLib.dumps login.payload := (Gate.presents_iff viewerText text).1 h

end GateSample

open RbacSample GateSample in
/-- The viewer logs in and reads the cache with the token, which may not be used to write to it. -/
theorem passed_iff_login_viewer :
    (Gate.after sampleAudit sampleLib gate history).rbac.middleware sampleLib true "/cache/get/k" (some header) 200 =
        .passed (some viewerPayload) ∧
      ∀ user, (Gate.after sampleAudit sampleLib gate history).rbac.middleware sampleLib true "/cache/put" (some header)
        200 ≠ .passed user := by
  have hmem : login ∈ Gate.logins sampleLib manager history := by
    rw [logins_history]
    exact List.mem_singleton_self _
  have hback : Gate.ReadBack sampleLib gate.rbac history := by
    intro l hl
    have hl' : l ∈ Gate.logins sampleLib manager history := hl
    rw [logins_history] at hl'
    rw [List.mem_singleton.1 hl']
    exact loads_dumps
  have hunforged : Gate.Unforged sampleLib gate.rbac history (some header) := fun text htext =>
    ⟨login, hmem, presents_header htext⟩
  have hbrings : Gate.Brings sampleLib gate.rbac (some header) login := (Gate.presents_iff viewerText _).2 rfl
  constructor
  · refine (Gate.passed_iff_login hback hunforged true _ _ _).2
      (Or.inr ⟨by decide, login, hmem, hbrings, rfl, ?_, ?_, ?_, ?_⟩)
    · decide
    · decide
    · exact ⟨⟨.viewer, viewerHash⟩, rfl, rfl, rfl⟩
    · exact Gate.recorded_after gate history hmem
  · intro user hput
    rcases (Gate.passed_iff_login hback hunforged true _ _ _).1 hput with ⟨hopen, -⟩ | ⟨-, l, hl, -, -, -, hperm, -⟩
    · exact absurd hopen (by decide)
    · have hl' : l ∈ Gate.logins sampleLib manager history := hl
      rw [logins_history] at hl'
      rw [List.mem_singleton.1 hl'] at hperm
      exact absurd hperm (by decide)

end DistributedSync
