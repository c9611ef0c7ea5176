import IMoviesCA.Authentication

/-!
# Sessions of the web server

`AccountController.Login`, `CookieAuthenticationDBValidator` and the policies of `Startup`, as
programs over the tables `users` and `admins` and the tickets that were handed out in cookies.  The
framework around them follows its documented behaviour: the policy evaluator authenticates the
schemes that a policy names and merges their principals, the cookie handler renews a ticket that
was replaced or is past half of its time, and no cookie is accepted that was not issued.

An operation that throws ends its request.  A request that is never continued stands for that.
-/

namespace IMoviesCA

/-! ## Principals and tickets -/

/-- The user of a request, with the identities that its schemes found. -/
structure ClaimsPrincipal where
  identities : List ClaimsIdentity
  deriving DecidableEq, Repr

/-- `FindFirst` of a claim type: the first identity that has one. -/
def ClaimsPrincipal.findFirst (p : ClaimsPrincipal) (type : ClaimType) : Option String :=
  p.identities.findSome? fun identity => identity.findFirst type

/-- The content of a cookie. -/
structure AuthenticationTicket where
  principal : ClaimsPrincipal
  issuedUtc : Time
  expiresUtc : Time
  deriving DecidableEq, Repr

/-- The user that a ticket names. -/
def AuthenticationTicket.user? (t : AuthenticationTicket) : Option String :=
  t.principal.findFirst .nameIdentifier

/-- The schemes of `Startup.ConfigureServices`. -/
inductive AuthenticationScheme
  | certificate
  | cookie
  deriving DecidableEq, Repr

/-- `AuthenticationScheme` of the defaults of the two handlers. -/
def AuthenticationScheme.name : AuthenticationScheme → String
  | certificate => "Certificate"
  | cookie => "Cookies"

/-- `IsAuthenticated`. -/
def ClaimsIdentity.isAuthenticated (i : ClaimsIdentity) : Bool := i.authenticationType != ""

/-! ## Policies -/

/-- `RequireAuthenticatedUser` and `RequireClaim`. -/
inductive Requirement
  | denyAnonymous
  | claim (type : ClaimType)
  deriving DecidableEq, Repr

/-- `IAuthorizationHandler` of the two requirements. -/
def Requirement.isMet (p : ClaimsPrincipal) : Requirement → Bool
  | denyAnonymous => p.identities.any ClaimsIdentity.isAuthenticated
  | claim type => p.identities.any fun identity => identity.claims.any fun c => c.type = type

/-- A policy authenticates with its schemes and then looks at its requirements. -/
structure AuthorizationPolicy where
  schemes : List AuthenticationScheme
  requirements : List Requirement
  deriving DecidableEq, Repr

/-- A user is authorized when every requirement is met. -/
def AuthorizationPolicy.authorizes (policy : AuthorizationPolicy) (p : ClaimsPrincipal) : Bool :=
  policy.requirements.all (Requirement.isMet p)

namespace Startup

/-- `DefaultPolicy`: any user, with a certificate or a cookie. -/
def defaultPolicy : AuthorizationPolicy := ⟨[.certificate, .cookie], [.denyAnonymous]⟩

/-- Admins may only authenticate using certificates. -/
def adminPolicy : AuthorizationPolicy := ⟨[.certificate], [.denyAnonymous, .claim .admin]⟩

end Startup

/-- The actions that need a principal. -/
inductive Endpoint
  /-- An action with `[Authorize]` other than `Logout`. -/
  | authorized
  | logout
  | adminIndex
  deriving DecidableEq, Repr

/-- The policy of an endpoint, by its `[Authorize]` attribute. -/
def Endpoint.policy : Endpoint → AuthorizationPolicy
  | authorized => Startup.defaultPolicy
  | logout => Startup.defaultPolicy
  | adminIndex => Startup.adminPolicy

/-! ## The shared state -/

/-- What the framework does with a client certificate before it calls `CertificateValidated`. -/
structure Framework where
  trustStore : List X509Certificate2
  /-- The lists that are online at a time. -/
  crls : Time → List X509Crl
  chainElements : X509Certificate2 → List X509Certificate2
  validates : Time → X509Certificate2 → Bool
  validates_accepts : ∀ now cert, validates now cert = true →
    FrameworkAccepts trustStore (crls now) now (chainElements cert) cert
  /-- The claims that the handler takes from a certificate. -/
  certificateClaims : X509Certificate2 → List Claim
  certificateClaims_type : ∀ cert, ∀ claim ∈ certificateClaims cert,
    claim.type ≠ .admin ∧ claim.type ≠ .nameIdentifier

/-- A handler that takes no claims. -/
theorem noClaims : ∀ _ : X509Certificate2, ∀ claim ∈ ([] : List Claim),
    claim.type ≠ .admin ∧ claim.type ≠ .nameIdentifier := by
  intro _ claim h
  cases h

/-- What the history records. -/
inductive SessionEvent
  | userRead (i : ℕ) (uid : String) (user : Option User)
  | adminRead (i : ℕ) (uid : String) (admin : Option Admin)
  | certificateAccepted (i : ℕ) (cert : X509Certificate2)
  | ticketAccepted (i : ℕ) (ticket : AuthenticationTicket)
  deriving DecidableEq

/-- The process of an event. -/
def SessionEvent.pid : SessionEvent → ℕ
  | userRead i _ _ => i
  | adminRead i _ _ => i
  | certificateAccepted i _ => i
  | ticketAccepted i _ => i

/-- The database, the tickets that were handed out and the events, newest first. -/
structure SessionState where
  now : Time
  users : Table User
  admins : Table Admin
  /-- The tickets in the cookies that were handed out. -/
  tickets : List AuthenticationTicket
  history : List SessionEvent

/-- Note an event. -/
def SessionState.record (s : SessionState) (e : SessionEvent) : SessionState :=
  { s with history := e :: s.history }

/-- The events of process `i`, newest first. -/
def SessionState.own (s : SessionState) (i : ℕ) : List SessionEvent :=
  s.history.filter fun e => e.pid = i

/-- The accesses of the validators and of `Login`. -/
inductive SessionOp
  | clock
  | findUser (uid : String)
  | findAdmin (uid : String)
  /-- The checks of the framework on a client certificate. -/
  | validateCertificate (cert : X509Certificate2)
  /-- The ticket in a cookie is read, unless it is forged or has expired. -/
  | readTicket (ticket : AuthenticationTicket)
  /-- A cookie is handed out. -/
  | signIn (ticket : AuthenticationTicket)
  /-- An action starts with a principal. -/
  | enter (endpoint : Endpoint) (principal : ClaimsPrincipal)

/-- What an access returns. -/
def SessionOp.Res : SessionOp → Type
  | clock => Time
  | findUser _ => Option User
  | findAdmin _ => Option Admin
  | validateCertificate _ => Bool
  | readTicket _ => Option Time
  | signIn _ => Unit
  | enter _ _ => Unit

/-- Carry out an operation of process `i`. -/
def SessionOp.run (F : Framework) (i : ℕ) : (e : SessionOp) → SessionState → e.Res × SessionState
  | clock, s => (s.now, s)
  | findUser uid, s => (s.users.find? uid, s.record (.userRead i uid (s.users.find? uid)))
  | findAdmin uid, s => (s.admins.find? uid, s.record (.adminRead i uid (s.admins.find? uid)))
  | validateCertificate cert, s =>
      if F.validates s.now cert then (true, s.record (.certificateAccepted i cert)) else (false, s)
  | readTicket ticket, s =>
      if ticket ∈ s.tickets ∧ s.now ≤ ticket.expiresUtc then
        (some s.now, s.record (.ticketAccepted i ticket))
      else (none, s)
  | signIn ticket, s => ((), { s with tickets := ticket :: s.tickets })
  | enter _ _, s => ((), s)

/-- What happens outside of the web server's requests: time passes, the users change, and the
system administrator changes `admins`. -/
inductive SessionEnv
  | tick (d : ℕ)
  | setUsers (users : Table User)
  | insertAdmin (admin : Admin)
  | deleteAdmin (uid : String)

/-- Time passes, and the tables change. -/
def SessionEnv.run : SessionEnv → SessionState → SessionState
  | tick d, s => { s with now := s.now + d }
  | setUsers users, s => { s with users := users }
  | insertAdmin admin, s => { s with admins := (s.admins.commit [.insert admin]).getD s.admins }
  | deleteAdmin uid, s => { s with admins := s.admins.erase uid }

/-! ## The programs -/

/-- The programs of the sessions. -/
abbrev SessionProgram (α : Type) : Type := Program SessionOp SessionOp.Res α

namespace Session

/-- `DateTime.UtcNow`. -/
def clock : SessionProgram Time := Program.perform SessionOp.clock

/-- `Users.Find`. -/
def findUser (uid : String) : SessionProgram (Option User) :=
  Program.perform (SessionOp.findUser uid)

/-- `Admins.Find`. -/
def findAdmin (uid : String) : SessionProgram (Option Admin) :=
  Program.perform (SessionOp.findAdmin uid)

/-- The validation of the chain of a client certificate. -/
def validateCertificate (cert : X509Certificate2) : SessionProgram Bool :=
  Program.perform (SessionOp.validateCertificate cert)

/-- The time at which the ticket of a cookie is read; `none` when it is not accepted. -/
def readTicket (ticket : AuthenticationTicket) : SessionProgram (Option Time) :=
  Program.perform (SessionOp.readTicket ticket)

/-- `SignInAsync`, or the renewal of a cookie. -/
def signIn (ticket : AuthenticationTicket) : SessionProgram Unit :=
  Program.perform (SessionOp.signIn ticket)

/-- The action of an endpoint begins. -/
def enter (endpoint : Endpoint) (principal : ClaimsPrincipal) : SessionProgram Unit :=
  Program.perform (SessionOp.enter endpoint principal)

end Session

/-- What `ValidatePrincipal` makes of the principal of a cookie. -/
inductive CookieValidation
  | rejected
  | unchanged
  | replaced (identity : ClaimsIdentity)
  deriving DecidableEq, Repr

/-- `ValidatePrincipal` after the row of the user was read: a principal with an outdated claim is
replaced. -/
def CookieAuthenticationDBValidator.validatePrincipal (userPrincipal : ClaimsPrincipal) :
    Option User → CookieValidation
  | none => .rejected
  | some user =>
      let identity := user.toClaimsIdentity AuthenticationScheme.cookie.name
      if identity.claims.any fun claim => userPrincipal.findFirst claim.type != some claim.value then
        .replaced identity
      else .unchanged

/-- The ticket of a renewed cookie: it is good for as long as the old one was. -/
def AuthenticationTicket.renewed (t : AuthenticationTicket) (principal : ClaimsPrincipal)
    (now : Time) : AuthenticationTicket :=
  ⟨principal, now, now + (t.expiresUtc - t.issuedUtc)⟩

/-- What the cookie handler makes of a request. -/
inductive CookieResult
  /-- The principal names no user: `FindFirst(...).Value` throws. -/
  | threw
  | noPrincipal
  | success (principal : ClaimsPrincipal) (refresh : Option AuthenticationTicket)

/-- The cookie handler, which calls `ValidatePrincipal`. -/
def authenticateCookie : Option AuthenticationTicket → SessionProgram CookieResult
  | none => return .noPrincipal
  | some ticket => do
      match ← Session.readTicket ticket with
      | none => return .noPrincipal
      | some now =>
          let sliding := if ticket.expiresUtc - now < now - ticket.issuedUtc then
            some (ticket.renewed ticket.principal now) else none
          match ticket.user? with
          | none => return .threw
          | some uid =>
              let user ← Session.findUser uid
              match CookieAuthenticationDBValidator.validatePrincipal ticket.principal user with
              | .rejected => return .noPrincipal
              | .unchanged => return .success ticket.principal sliding
              | .replaced identity => do
                  let now ← Session.clock
                  return .success ⟨[identity]⟩ (some (ticket.renewed ⟨[identity]⟩ now))

section

variable (F : Framework) (P : Platform)

/-- The certificate handler, which calls `CertificateValidated`. -/
def authenticateCertificate : Option X509Certificate2 → SessionProgram (Option ClaimsPrincipal)
  | none => return none
  | some cert => do
      let valid ← Session.validateCertificate cert
      if !valid then
        return none
      else
        let key := CertificateAuthenticationDBValidator.getNameInfo P cert
        match ← Session.findUser key with
        | none => return none
        | some user =>
            let userClaims := user.toClaimsIdentity AuthenticationScheme.certificate.name
            let admin ← Session.findAdmin key
            return some ⟨[⟨F.certificateClaims cert, AuthenticationScheme.certificate.name⟩,
              if admin.isSome then userClaims.addClaim ⟨.admin, "True"⟩ else userClaims]⟩

/-- `SecurityHelper.MergeUserPrincipal`. -/
def mergeUserPrincipal (existing : Option ClaimsPrincipal) (additional : ClaimsPrincipal) :
    ClaimsPrincipal :=
  match existing with
  | none => additional
  | some existing => ⟨additional.identities ++ existing.identities.filter fun identity =>
      identity.isAuthenticated || !identity.claims.isEmpty⟩

/-- The certificate of the TLS connection and the cookie of a request. -/
structure Credentials where
  clientCertificate : Option X509Certificate2
  cookie : Option AuthenticationTicket
  deriving DecidableEq

/-- The merged principal, and the ticket of a renewed cookie. -/
structure Authentication where
  principal : Option ClaimsPrincipal
  refresh : Option AuthenticationTicket

/-- `PolicyEvaluator.AuthenticateAsync`: the schemes of the policy in their order; `none` when a
handler throws. -/
def authenticate (credentials : Credentials) :
    List AuthenticationScheme → Authentication → SessionProgram (Option Authentication)
  | [], result => return some result
  | .certificate :: schemes, result => do
      match ← authenticateCertificate F P credentials.clientCertificate with
      | none => authenticate credentials schemes result
      | some principal =>
          authenticate credentials schemes
            { result with principal := some (mergeUserPrincipal result.principal principal) }
  | .cookie :: schemes, result => do
      match ← authenticateCookie credentials.cookie with
      | .threw => return none
      | .noPrincipal => authenticate credentials schemes result
      | .success principal refresh =>
          authenticate credentials schemes
            ⟨some (mergeUserPrincipal result.principal principal), refresh⟩

/-- The answers of the login page and of the middleware. -/
inductive SessionReply
  | view (errorMessage : Option String)
  /-- `none` is the account page. -/
  | redirect (returnUrl : Option String)
  | challenge
  | forbid
  | served
  | serverError
  deriving DecidableEq, Repr

/-- The response, with a renewed cookie. -/
def finishResponse (refresh : Option AuthenticationTicket) (reply : SessionReply) :
    SessionProgram SessionReply :=
  match refresh with
  | none => return reply
  | some ticket => do
      Session.signIn ticket
      return reply

/-- A request to an action with a policy.  `Logout` signs out, and then no cookie is renewed. -/
def access (endpoint : Endpoint) (credentials : Credentials) : SessionProgram SessionReply := do
  match ← authenticate F P credentials endpoint.policy.schemes ⟨none, none⟩ with
  | none => return .serverError
  | some result =>
      match result.principal with
      | none => finishResponse result.refresh .challenge
      | some principal =>
          if endpoint.policy.authorizes principal then do
            Session.enter endpoint principal
            if endpoint = .logout then
              return .redirect none
            else
              finishResponse result.refresh .served
          else
            finishResponse result.refresh .forbid

/-- The form of `AccountController.Login`. -/
structure LoginDetails where
  id : String
  password : String
  deriving DecidableEq, Repr

/-- `ModelState.IsValid` of the login form. -/
def LoginDetails.isValid (d : LoginDetails) : Bool :=
  required d.id && stringLength 64 1 d.id && required d.password

namespace AccountController

/-- The hash that `Login` compares with the stored one. -/
def passwordHash (password : String) : String := appendFormatX2 (P.sha1 (utf8GetBytes password))

/-- `Login`: the form, the password, the admins, and the cookie. -/
def login (loginDetails : LoginDetails) (returnUrl : Option String) :
    SessionProgram SessionReply :=
  if !loginDetails.isValid then
    return .view none
  else do
    let user ← Session.findUser loginDetails.id
    match user.filter fun user => user.passwordHash == passwordHash P loginDetails.password with
    | none => return .view (some "User ID or password incorrect.")
    | some user =>
        let now ← Session.clock
        let issuedUtc ← Session.clock
        let ticket : AuthenticationTicket :=
          ⟨⟨[user.toClaimsIdentity AuthenticationScheme.cookie.name]⟩, issuedUtc, addMinutes now 60⟩
        match ← Session.findAdmin user.id with
        | some _ => return .view (some "CA admins may only use certificate authentication.")
        | none => do
            Session.signIn ticket
            return .redirect (returnUrl.filter required)

end AccountController

/-- A login, or a request to an endpoint with its credentials. -/
inductive SessionRequest
  | login (loginDetails : LoginDetails) (returnUrl : Option String)
  | access (endpoint : Endpoint) (credentials : Credentials)
  deriving DecidableEq

/-- The sessions of the web server: any number of requests, interleaved operation by operation. -/
def sessions : System SessionRequest SessionOp SessionOp.Res SessionState Unit SessionEnv
    SessionReply where
  exec i e _ s := e.run F i s
  env := SessionEnv.run
  handler
    | .login loginDetails returnUrl => AccountController.login P loginDetails returnUrl
    | .access endpoint credentials => access F P endpoint credentials

end

end IMoviesCA
