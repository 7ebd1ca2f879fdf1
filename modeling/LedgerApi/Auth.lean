import LedgerApi.Library.DecimalReader
import LedgerApi.Library.JsonReader
import LedgerApi.Postgres

/-! # Users, tokens and roles

`app/auth.py`: the users, the tokens they log in for, and the dependencies that admit a request to
its handler. The two packages it relies on are parameters (`Cryptography`): bcrypt for passwords,
python-jose for tokens. `getCurrentUser_eq_ok_iff` and `requireRole_eq_ok_iff` say who is admitted;
`currentUser_createAccessToken` says what a token that has been issued is worth. -/

namespace LedgerApi

/-! ## Configuration -/

/-- `_LOCAL_DEV_SECRET` -/
def localDevSecret : String := "local-dev-only-not-for-deployment"

/-- `_resolve_secret`, over the variables of the environment: outside of production there is a
secret to fall back to, and in production the process does not start without one. -/
def resolveSecret (getenv : String → Option String) : Option String :=
  -- an empty string counts as none
  match (getenv "JWT_SECRET_KEY").filter (· ≠ "") with
  | some configured => some configured
  | none => if getenv "ENVIRONMENT" = some "production" then none else some localDevSecret

/-- `ACCESS_TOKEN_EXPIRE_MINUTES` -/
def accessTokenExpireMinutes : ℤ := 60

/-- The microseconds of a second. -/
def secondMicroseconds : ℤ := 10 ^ 6

/-! ## Roles -/

/-- `Role`. -/
inductive Role
  | customer
  | auditor
  | admin
  deriving DecidableEq, Repr

/-- `Role.value`. -/
def Role.value : Role → String
  | customer => "customer"
  | auditor => "auditor"
  | admin => "admin"

/-- `Role(value)`, of a value that a token carries; no role is a `ValueError`. -/
def Role.ofValue : Json.Data → Option Role
  | .str "customer" => some customer
  | .str "auditor" => some auditor
  | .str "admin" => some admin
  | _ => none

theorem Role.ofValue_eq_some_iff {value : Json.Data} {role : Role} :
    Role.ofValue value = some role ↔ value = .str role.value := by
  constructor
  · intro h
    unfold ofValue at h
    split at h
    case h_4 => cases h
    all_goals
      obtain rfl := Option.some.inj h
      rfl
  · rintro rfl
    cases role <;> rfl

/-- `TokenData`. -/
structure TokenData where
  username : String
  role : Role
  deriving DecidableEq, Repr

/-! ## Passwords and tokens -/

/-- What a token says. -/
structure Claims where
  sub : Option String
  role : Option Json.Data
  /-- In seconds since the epoch. -/
  exp : Option ℤ

/-- The functions of bcrypt and python-jose. -/
structure Cryptography where
  /-- `bcrypt.hashpw(password, bcrypt.gensalt())`, with the salts that the process has drawn. -/
  hashpw : String → String
  /-- `bcrypt.checkpw(password, hashed)` -/
  checkpw : String → String → Bool
  /-- `jwt.encode(payload, key, algorithm="HS256")` -/
  encode : Claims → String → String
  /-- `jwt.decode(token, key, algorithms=["HS256"])` at some time, unless it raises a `JWTError`:
  the signature is wrong, `sub` is no string, or the token has expired. -/
  decode : String → String → Timestamp → Option Claims

/-- The second of a moment, as python-jose takes it. -/
def second (now : Timestamp) : ℤ := now / secondMicroseconds

/-- The claims that `create_access_token` writes. -/
def TokenData.claims (data : TokenData) (exp : ℤ) : Claims :=
  ⟨some data.username, some (.str data.role.value), some exp⟩

/-- python-jose reads the tokens that `create_access_token` has had it write: they say what they
were written to say, to the end of the second in which they expire. -/
structure Cryptography.ReadsTokens (crypto : Cryptography) : Prop where
  decode_encode : ∀ (data : TokenData) (exp : ℤ) key now,
    crypto.decode (crypto.encode (data.claims exp) key) key now =
      if second now ≤ exp then some (data.claims exp) else none

/-- A stand-in for the two packages that hides nothing: passwords are kept as they are, and a token
is its claims with the key for a signature. -/
def plainCryptography : Cryptography where
  hashpw password := password
  checkpw password hashed := password = hashed
  encode claims key :=
    match claims.sub, claims.role, claims.exp with
    | some sub, some (.str role), some exp =>
        Json.dumps [("sub", .str sub), ("role", .str role), ("exp", .str (Decimal.str ⟨exp, 0⟩)),
          ("key", .str key)]
    | _, _, _ => ""
  decode token key now :=
    match Json.loads token with
    | some (.object [(_, .str sub), (_, .str role), (_, .str exp), (_, .str signature)]) =>
        match Decimal.parse exp with
        | some exp =>
            if signature = key ∧ second now ≤ exp.coef then
              some ⟨some sub, some (.str role), some exp.coef⟩
            else none
        | none => none
    | _ => none

theorem readsTokens_plainCryptography : plainCryptography.ReadsTokens where
  decode_encode data exp key now := by
    have hloads := Json.loads_dumps [("sub", .str data.username), ("role", .str data.role.value),
      ("exp", .str (Decimal.str ⟨exp, 0⟩)), ("key", .str key)]
    simp only [plainCryptography, TokenData.claims, hloads, List.map_cons, List.map_nil,
      Json.Value.data, Decimal.parse_str, true_and]

/-- An exception that a request ends with. -/
inductive WebExn
  /-- One that a handler or the store raises, `HTTPException` among them. -/
  | handler (e : Exn)
  /-- `ValueError` -/
  | valueError
  deriving DecidableEq, Repr

/-- `raise HTTPException`. -/
def WebExn.http (statusCode : ℕ) (detail : String) : WebExn := .handler (.http statusCode detail)

section Users

variable (crypto : Cryptography)

/-- An entry of `USERS_DB`. -/
structure User where
  passwordHash : String
  role : Role

/-- `USERS_DB`. -/
def usersDb : List (String × User) :=
  [("admin", ⟨crypto.hashpw "admin123", .admin⟩),
    ("auditor", ⟨crypto.hashpw "auditor123", .auditor⟩),
    ("customer", ⟨crypto.hashpw "customer123", .customer⟩)]

/-- `authenticate_user`. -/
def authenticateUser (username password : String) : Option TokenData :=
  match (usersDb crypto).lookup username with
  | none => none
  | some user =>
      if ¬ crypto.checkpw password user.passwordHash then none
      else some ⟨username, user.role⟩

/-- Who logs in gets the role of the user of that name. -/
theorem authenticateUser_eq_some_iff {username password : String} {data : TokenData} :
    authenticateUser crypto username password = some data ↔
      ∃ user, (usersDb crypto).lookup username = some user ∧
        crypto.checkpw password user.passwordHash = true ∧ data = ⟨username, user.role⟩ := by
  unfold authenticateUser
  cases (usersDb crypto).lookup username with
  | none => simp
  | some user =>
      by_cases hcheck : crypto.checkpw password user.passwordHash = true
      · simp [hcheck, eq_comm (b := data)]
      · simp [hcheck]

variable (secretKey : String)

/-- `create_access_token`, at some time. -/
def createAccessToken (data : TokenData) (now : Timestamp) : String :=
  let expire := now + accessTokenExpireMinutes * 60 * secondMicroseconds
  -- python-jose turns the time into whole seconds
  crypto.encode (data.claims (second expire)) secretKey

/-- `oauth2_scheme`: the bearer token of the `Authorization` header, if there is one. -/
def oauth2Scheme (token : Option String) : Except WebExn String :=
  match token with
  | none => .error (.http 401 "Not authenticated")
  | some token => .ok token

/-- `get_current_user`, at some time. -/
def getCurrentUser (token : String) (now : Timestamp) : Except WebExn TokenData :=
  let credentialsException := WebExn.http 401 "Invalid or expired token"
  match crypto.decode token secretKey now with
  | none => .error credentialsException
  | some payload =>
      match payload.sub, payload.role with
      | some username, some role =>
          -- `null` is `None` like a claim that is missing
          match role with
          | .null => .error credentialsException
          | role =>
              match Role.ofValue role with
              | some role => .ok ⟨username, role⟩
              -- not caught: only a `JWTError` is
              | none => .error .valueError
      | _, _ => .error credentialsException

/-- `require_role`. -/
def requireRole (allowed : List Role) (user : TokenData) : Except WebExn TokenData :=
  if user.role ∉ allowed then
    .error (.http 403 ("Role '" ++ user.role.value ++ "' cannot access this resource"))
  else .ok user

end Users

/-! ## Who is admitted -/

section Admission

variable {crypto : Cryptography} {secretKey token : String} {now : Timestamp} {user : TokenData}

/-- **A token admits the user it names**, when it is accepted and names a role. -/
theorem getCurrentUser_eq_ok_iff :
    getCurrentUser crypto secretKey token now = .ok user ↔
      ∃ exp, crypto.decode token secretKey now =
        some ⟨some user.username, some (.str user.role.value), exp⟩ := by
  unfold getCurrentUser
  cases hdecode : crypto.decode token secretKey now with
  | none => simp
  | some claims =>
      obtain ⟨sub, role, exp⟩ := claims
      cases sub with
      | none => simp
      | some username =>
          cases role with
          | none => simp
          | some role =>
              have hrole := @Role.ofValue_eq_some_iff role
              cases hof : Role.ofValue role with
              | none =>
                  have hne : role ≠ .str user.role.value := fun h => by
                    rw [hrole.mpr h] at hof
                    cases hof
                  cases role <;> simp_all
              | some r =>
                  obtain rfl := hrole.mp hof
                  obtain ⟨name, r'⟩ := user
                  simp only [hof, Except.ok.injEq, TokenData.mk.injEq, Option.some.injEq,
                    Claims.mk.injEq, Json.Data.str.injEq, exists_and_left, exists_eq', and_true]
                  refine and_congr_right fun _ => ⟨fun h => h ▸ rfl, fun h => ?_⟩
                  have heq : (Json.Data.str r.value) = .str r'.value := congrArg _ h
                  exact Option.some.inj (hof.symm.trans (Role.ofValue_eq_some_iff.mpr heq))

theorem requireRole_eq_ok_iff {allowed : List Role} {user' : TokenData} :
    requireRole allowed user = .ok user' ↔ user' = user ∧ user.role ∈ allowed := by
  unfold requireRole
  split
  case isTrue h => simp [h]
  case isFalse h =>
    rw [not_not] at h
    simp [h, eq_comm]

/-- **A token is worth an hour**: one that was issued admits its user until the second after its
expiry, and afterwards nobody. -/
theorem currentUser_createAccessToken (hcrypto : crypto.ReadsTokens) (data : TokenData)
    (issued : Timestamp) :
    getCurrentUser crypto secretKey (createAccessToken crypto secretKey data issued) now =
      if second now ≤ second (issued + accessTokenExpireMinutes * 60 * secondMicroseconds) then
        .ok data
      else .error (.http 401 "Invalid or expired token") := by
  have hdecode := hcrypto.decode_encode data
    (second (issued + accessTokenExpireMinutes * 60 * secondMicroseconds)) secretKey now
  by_cases hlate :
      second now ≤ second (issued + accessTokenExpireMinutes * 60 * secondMicroseconds)
  · rw [if_pos hlate, getCurrentUser_eq_ok_iff]
    rw [if_pos hlate] at hdecode
    exact ⟨_, hdecode⟩
  · rw [if_neg hlate]
    rw [if_neg hlate] at hdecode
    simp only [getCurrentUser, createAccessToken, hdecode]

end Admission

end LedgerApi
