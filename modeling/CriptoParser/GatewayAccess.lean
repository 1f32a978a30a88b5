import CriptoParser.GatewayPasswords
import CriptoParser.RateLimiter

/-!
Who gets through the gateway: the limiter, the login that gives out tokens, and the check of the
token in front of every other endpoint. Other programs may change the table of users between any
two requests, and each request brings its own readings of the clock.
-/

set_option autoImplicit false

namespace CriptoParser

structure TokenClaims where
  sub : String
  exp : ℤ
  iat : ℤ
  deriving DecidableEq, Repr

/-- The library for tokens. `decode` gives `none` where it raises a `PyJWTError`, else the `sub`
of the payload where it has one. -/
structure Jwt where
  encode : String → TokenClaims → String
  decode : String → ℚ → String → Option (Option String)
  /-- A token made with the secret is good from its `iat` until its `exp`. -/
  decode_encode : ∀ secret claims now, decode secret now (encode secret claims) =
    if claims.iat ≤ now ∧ now < claims.exp then some (some claims.sub) else none

structure GatewaySettings where
  jwtSecret : String
  jwtExpiryHours : ℤ
  deriving DecidableEq, Repr

/-- The readings of the clock during one request, in their order. -/
structure Readings where
  limiter : ℚ
  first : ℚ
  second : ℚ
  deriving DecidableEq, Repr

inductive GatewayRequest where
  | login (email password : String)
  | guarded (credentials : Option String)
  deriving DecidableEq, Repr

inductive GatewayResponse where
  | limited
  | failed
  | notAuthenticated
  | wrongCredentials
  | invalidToken
  | token (accessToken : String) (expiresIn : ℤ)
  | served (user : String)
  deriving DecidableEq, Repr

inductive GatewayEvent where
  /-- Another program writes the table of users. -/
  | usersWritten (users : Users)
  | request (ip : String) (clock : Readings) (database : Bool) (r : GatewayRequest)

structure Gateway where
  users : Users
  hits : Hits String ℚ

def restLimiter : RateLimiter ℚ := ⟨100, 60⟩

section
variable (lib : Pbkdf2) (jwt : Jwt) (cfg : GatewaySettings)

def createAccessToken (subject : String) (clock : Readings) : String × ℤ :=
  let expiresIn := cfg.jwtExpiryHours * 3600
  (jwt.encode cfg.jwtSecret ⟨subject, ⌊clock.first + expiresIn⌋, ⌊clock.second⌋⟩, expiresIn)

/-- `get_current_user`; a payload without `sub` is a `KeyError`. -/
def getCurrentUser (credentials : String) (clock : Readings) : GatewayResponse :=
  match jwt.decode cfg.jwtSecret clock.first credentials with
  | none => .invalidToken
  | some none => .failed
  | some (some user) => .served user

variable [PyText]

def login (users : Users) (clock : Readings) (email password : String) : GatewayResponse :=
  match users.active email with
  | none => .wrongCredentials
  | some row =>
    match verifyPassword lib password row.passwordHash with
    | .error _ => .failed
    | .ok false => .wrongCredentials
    | .ok true =>
      let (token, expiresIn) := createAccessToken jwt cfg row.email clock
      .token token expiresIn

def respond (users : Users) (clock : Readings) (database : Bool) :
    GatewayRequest → GatewayResponse
  | .login email password =>
    if database then login lib jwt cfg users clock email password else .failed
  | .guarded none => .notAuthenticated
  | .guarded (some credentials) => getCurrentUser jwt cfg credentials clock

def Gateway.step (g : Gateway) : GatewayEvent → Option GatewayResponse × Gateway
  | .usersWritten users => (none, { g with users := users })
  | .request ip clock database r =>
    let (allowed, hits) := restLimiter.check ip clock.limiter g.hits
    if allowed then (some (respond lib jwt cfg g.users clock database r), { g with hits := hits })
    else (some .limited, { g with hits := hits })

/-- An event with what was answered, and the users of that moment. -/
structure GatewayExchange where
  users : Users
  event : GatewayEvent
  response : Option GatewayResponse

def gatewayLog : Gateway → List GatewayEvent → List GatewayExchange
  | _, [] => []
  | g, e :: es =>
    let (response, g') := g.step lib jwt cfg e
    ⟨g.users, e, response⟩ :: gatewayLog g' es

end

/-- The exchange is a login that gave out the token: the user was active then and the password
was the user's. -/
def GatewayExchange.Issues [PyText] (lib : Pbkdf2) (jwt : Jwt) (cfg : GatewaySettings)
    (x : GatewayExchange) (user token : String) (since expires : ℤ) : Prop :=
  ∃ ip clock password row,
    x.event = .request ip clock true (.login user password) ∧
    x.users.active user = some row ∧
    verifyPassword lib password row.passwordHash = .ok true ∧
    x.response = some (.token token (cfg.jwtExpiryHours * 3600)) ∧
    token = jwt.encode cfg.jwtSecret ⟨user, expires, since⟩ ∧
    since = ⌊clock.second⌋ ∧ expires = ⌊clock.first⌋ + cfg.jwtExpiryHours * 3600

theorem active_email {users : Users} {email : String} {row : UserRow}
    (h : users.active email = some row) : row.email = email ∧ row.isActive = true := by
  have hfound := List.find?_some h
  simpa using hfound

section
variable [PyText] {lib : Pbkdf2} {jwt : Jwt} {cfg : GatewaySettings}

def GatewayExchange.given (x : GatewayExchange) : Option String :=
  match x.response with
  | some (.token token _) => some token
  | _ => none

/-- Nobody without the secret makes a token that the library takes: the tokens it takes have been
given out by a login before. -/
def Unforged (jwt : Jwt) (cfg : GatewaySettings) (log : List GatewayExchange) : Prop :=
  ∀ before x after, log = before ++ x :: after → ∀ ip clock database credentials payload,
    x.event = .request ip clock database (.guarded (some credentials)) →
    jwt.decode cfg.jwtSecret clock.first credentials = some payload →
    ∃ y ∈ before, y.given = some credentials

theorem step_given {g : Gateway} {e : GatewayEvent} {token : String} {expiresIn : ℤ}
    (h : (g.step lib jwt cfg e).1 = some (.token token expiresIn)) :
    ∃ user since expires, (⟨g.users, e, (g.step lib jwt cfg e).1⟩ : GatewayExchange).Issues
      lib jwt cfg user token since expires := by
  rw [h]
  cases e with
  | usersWritten users => cases h
  | request ip clock database r =>
    simp only [Gateway.step] at h
    split at h
    · simp only [Option.some.injEq] at h
      cases r with
      | guarded credentials =>
        cases credentials with
        | none => cases h
        | some credentials =>
          simp only [respond, getCurrentUser] at h
          split at h <;> cases h
      | login email password =>
        simp only [respond] at h
        cases database with
        | false => cases h
        | true =>
          simp only [if_true, login] at h
          split at h
          · cases h
          · rename_i row hrow
            split at h
            · cases h
            · cases h
            · rename_i hverify
              cases h
              refine ⟨email, ⌊clock.second⌋, ⌊clock.first⌋ + cfg.jwtExpiryHours * 3600, ip, clock,
                password, row, rfl, hrow, hverify, rfl, ?_, rfl, rfl⟩
              simp only [createAccessToken, (active_email hrow).1, Int.floor_add_intCast]
    · cases h

theorem gatewayLog_split {g : Gateway} {es : List GatewayEvent}
    {before after : List GatewayExchange} {x : GatewayExchange}
    (h : gatewayLog lib jwt cfg g es = before ++ x :: after) :
    ∃ g' : Gateway, x.users = g'.users ∧ x.response = (g'.step lib jwt cfg x.event).1 := by
  induction es generalizing g before with
  | nil => simp [gatewayLog] at h
  | cons e es ih =>
    simp only [gatewayLog] at h
    cases before with
    | nil =>
      obtain ⟨rfl, -⟩ := List.cons.inj h
      exact ⟨g, rfl, rfl⟩
    | cons y before => exact ih (List.cons.inj h).2

theorem mem_issues {g : Gateway} {es : List GatewayEvent} {x : GatewayExchange} {token : String}
    (hx : x ∈ gatewayLog lib jwt cfg g es) (h : x.given = some token) :
    ∃ user since expires, x.Issues lib jwt cfg user token since expires := by
  obtain ⟨before, after, hlog⟩ := List.append_of_mem hx
  obtain ⟨g', husers, hresponse⟩ := gatewayLog_split hlog
  unfold GatewayExchange.given at h
  split at h
  · rename_i t expiresIn htoken
    cases h
    rw [htoken] at hresponse
    have hissues := step_given hresponse.symm
    rw [← husers, ← hresponse, ← htoken] at hissues
    exact hissues
  · cases h

/-- In every run, whatever happens to the table of users: an endpoint runs for a user exactly if
the limiter lets the request through and its token was given out before, by a login of that user
with the right password while active, no longer ago than the tokens last. That the user has been
switched off since, or has another password, does not matter. -/
theorem access_by_login (g : Gateway) (es : List GatewayEvent)
    (hforge : Unforged jwt cfg (gatewayLog lib jwt cfg g es)) (before after : List GatewayExchange)
    (users : Users) (ip : String) (clock : Readings) (database : Bool) (credentials : String)
    (response : GatewayResponse)
    (hlog : gatewayLog lib jwt cfg g es = before ++
      ⟨users, .request ip clock database (.guarded (some credentials)), some response⟩ :: after)
    (user : String) :
    response = .served user ↔ response ≠ .limited ∧
      ∃ x ∈ before, ∃ since expires, x.Issues lib jwt cfg user credentials since expires ∧
        since ≤ clock.first ∧ clock.first < expires := by
  obtain ⟨g', -, hresponse⟩ := gatewayLog_split hlog
  have hcases : response = .limited ∨
      response = getCurrentUser jwt cfg credentials clock := by
    simp only [Gateway.step] at hresponse
    split at hresponse
    · exact .inr (Option.some.inj hresponse)
    · exact .inl (Option.some.inj hresponse)
  constructor
  · rintro rfl
    rcases hcases with h | h
    · cases h
    have hdecode : jwt.decode cfg.jwtSecret clock.first credentials = some (some user) := by
      unfold getCurrentUser at h
      split at h
      · cases h
      · cases h
      · rename_i hdecode
        cases h
        exact hdecode
    obtain ⟨y, hy, hgiven⟩ := hforge before _ after hlog ip clock database credentials _ rfl hdecode
    obtain ⟨user', since, expires, hissues⟩ := mem_issues
      (hlog ▸ List.mem_append_left _ hy) hgiven
    have htoken := hissues
    obtain ⟨ip', clock', password, row, -, -, -, -, htoken, -, -⟩ := htoken
    rw [htoken, jwt.decode_encode] at hdecode
    split at hdecode
    · rename_i hgood
      cases hdecode
      exact ⟨fun h => (by cases h), y, hy, since, expires, hissues, hgood⟩
    · cases hdecode
  · rintro ⟨hallowed, x, hx, since, expires, hissues, hgood⟩
    obtain ⟨ip', clock', password, row, -, -, -, -, htoken, -, -⟩ := hissues
    rw [hcases.resolve_left hallowed, getCurrentUser, htoken, jwt.decode_encode, if_pos hgood]

end

def cutAtPoint (cs : List Char) : List Char × List Char :=
  (cs.takeWhile (· ≠ '.'), (cs.dropWhile (· ≠ '.')).tail)

theorem cutAtPoint_append {field : List Char} (h : '.' ∉ field) (rest : List Char) :
    cutAtPoint (field ++ '.' :: rest) = (field, rest) := by
  have hall : ∀ c ∈ field, decide (c ≠ '.') = true := by
    intro c hc
    rw [decide_eq_true_iff]
    rintro rfl
    exact h hc
  rw [cutAtPoint, List.takeWhile_append_of_pos hall, List.dropWhile_append_of_pos hall]
  simp

def plainToken (secret : String) (claims : TokenClaims) : List Char :=
  (toString claims.exp).toList ++ '.' :: ((toString claims.iat).toList ++ '.' ::
    ((toString (secret.toList.length : ℤ)).toList ++ '.' ::
      (secret.toList ++ claims.sub.toList)))

def readPlainToken (secret : String) (now : ℚ) (token : List Char) : Option (Option String) :=
  let (exp, rest) := cutAtPoint token
  let (iat, rest) := cutAtPoint rest
  let (length, rest) := cutAtPoint rest
  match readInt (.ofList exp), readInt (.ofList iat), readInt (.ofList length) with
  | some exp, some iat, some length =>
    if rest.take length.toNat = secret.toList ∧ (iat : ℚ) ≤ now ∧ now < exp then
      some (some (.ofList (rest.drop length.toNat)))
    else none
  | _, _, _ => none

theorem point_not_mem (n : ℤ) : '.' ∉ (toString n).toList := by
  have hnat : ∀ k : ℕ, '.' ∉ k.repr.toList := by
    intro k hk
    rw [Nat.toList_repr] at hk
    exact absurd (Nat.isDigit_of_mem_toDigits (by decide) (by decide) hk) (by decide)
  cases n with
  | ofNat k => exact hnat k
  | negSucc k =>
    intro h
    rw [show toString (Int.negSucc k) = "-" ++ (k + 1).repr from rfl, String.toList_append] at h
    rcases List.mem_append.mp h with h | h
    · exact absurd h (by decide)
    · exact hnat (k + 1) h

theorem readPlainToken_plainToken (secret : String) (claims : TokenClaims) (now : ℚ) :
    readPlainToken secret now (plainToken secret claims) =
      if claims.iat ≤ now ∧ now < claims.exp then some (some claims.sub) else none := by
  simp only [readPlainToken, plainToken, cutAtPoint_append (point_not_mem _),
    String.ofList_toList, readInt_toString, Int.toNat_natCast, List.take_left', List.drop_left',
    true_and]

def plainJwt : Jwt where
  encode secret claims := .ofList (plainToken secret claims)
  decode secret now token := readPlainToken secret now token.toList
  decode_encode secret claims now := by
    rw [String.toList_ofList]
    exact readPlainToken_plainToken secret claims now

def oneUser (isActive : Bool) : Users :=
  ⟨[⟨"ann@example.com", "pbkdf2_sha256$1$$" ++ .ofList (Hex.encode (fillUp "pass" [] 1)), isActive,
    false⟩], List.nodup_singleton _⟩

def oneDay : GatewaySettings := ⟨"secret", 24⟩

def annToken : String := plainJwt.encode "secret" ⟨"ann@example.com", 86410, 10⟩

def annEvents : List GatewayEvent := [
  .request "10.0.0.1" ⟨10, 10, 10⟩ true (.login "ann@example.com" "pass"),
  .usersWritten (oneUser false),
  .request "10.0.0.1" ⟨3600, 3600, 3600⟩ true (.guarded (some annToken))]

def annLog : List GatewayExchange :=
  @gatewayLog paddedPbkdf2 plainJwt oneDay plainText ⟨oneUser true, fun _ => []⟩ annEvents

theorem annLog_responses : annLog.map (·.response) =
    [some (.token annToken 86400), none, some (.served "ann@example.com")] := by
  decide +kernel

theorem annLog_exchanges : annLog = [
    ⟨oneUser true, .request "10.0.0.1" ⟨10, 10, 10⟩ true (.login "ann@example.com" "pass"),
      some (.token annToken 86400)⟩,
    ⟨oneUser true, .usersWritten (oneUser false), none⟩,
    ⟨oneUser false, .request "10.0.0.1" ⟨3600, 3600, 3600⟩ true (.guarded (some annToken)),
      some (.served "ann@example.com")⟩] := by
  have hresponses := annLog_responses
  have husers : ∀ (g : Gateway) ip clock database r,
      (@Gateway.step paddedPbkdf2 plainJwt oneDay plainText g
        (.request ip clock database r)).2.users = g.users := by
    intro g ip clock database r
    simp only [Gateway.step]
    split <;> rfl
  unfold annLog annEvents at hresponses ⊢
  simp only [gatewayLog, List.map_cons, List.map_nil, List.cons.injEq] at hresponses ⊢
  obtain ⟨hfirst, hsecond, hthird, -⟩ := hresponses
  rw [hfirst, hsecond, hthird, husers]
  exact ⟨rfl, rfl, rfl, trivial⟩

theorem annLog_unforged : Unforged plainJwt oneDay annLog := by
  intro before x after hlog ip clock database credentials payload hx _
  rw [annLog_exchanges] at hlog
  match before, hlog with
  | [], hlog =>
    cases hlog
    cases hx
  | [_], hlog =>
    cases hlog
    cases hx
  | [y, _], hlog =>
    cases hlog
    cases hx
    exact ⟨_, List.mem_cons_self, rfl⟩
  | _ :: _ :: _ :: before, hlog => simp at hlog

/-- The token was given out at 10 s, while she was active. -/
theorem access_by_login_ann :
    ∃ x ∈ annLog.take 2, ∃ since expires,
      @GatewayExchange.Issues plainText paddedPbkdf2 plainJwt oneDay x "ann@example.com" annToken
        since expires := by
  have h := (@access_by_login plainText paddedPbkdf2 plainJwt oneDay ⟨oneUser true, fun _ => []⟩
    annEvents annLog_unforged (annLog.take 2) [] (oneUser false) "10.0.0.1" ⟨3600, 3600, 3600⟩ true
    annToken (.served "ann@example.com")
    (by
      have hlog := annLog_exchanges
      unfold annLog at hlog ⊢
      rw [hlog]
      rfl)
    "ann@example.com").mp rfl
  obtain ⟨-, x, hx, since, expires, hissues, -⟩ := h
  exact ⟨x, hx, since, expires, hissues⟩

end CriptoParser
