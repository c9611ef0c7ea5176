import IMoviesCA.AdminBan
import IMoviesCA.AdminPolicy

/-!
# What a cookie shows of its user

`ValidatePrincipal` compares the first claim of each type with the row of the user, and replaces the
principal at the first one that differs.  So whatever claims the cookie has, the principal that it
leaves shows the row that it read, and the cookie is renewed if and only if the old one did not.  An
action that starts with a cookie shows the row that was read within the same request
(`cookie_shows_row`); a change of the user after that read is only seen by the next request
(`cookie_shows_old_row`).
-/

namespace IMoviesCA

variable {F : Framework} {P : Platform} {i : ℕ} {req : SessionRequest} {evs : List SessionEvent}
  {principal : ClaimsPrincipal} {user : User} {uid : String}

/-! ## `ValidatePrincipal` -/

/-- The first claim of each type has the value of the row. -/
def Shows (principal : ClaimsPrincipal) (user : User) : Prop :=
  ∀ claim ∈ (user.toClaimsIdentity AuthenticationScheme.cookie.name).claims,
    principal.findFirst claim.type = some claim.value

instance (principal : ClaimsPrincipal) (user : User) : Decidable (Shows principal user) :=
  inferInstanceAs (Decidable (∀ claim ∈ (user.toClaimsIdentity _).claims, _ = _))

namespace CookieAuthenticationDBValidator

/-- `CookieValidatePrincipalContext`, and whether the request was signed out. -/
structure CookieValidatePrincipalContext where
  principal : Option ClaimsPrincipal
  shouldRenew : Bool
  signedOut : Bool
  deriving DecidableEq

/-- The loop over the claims of the row: it returns at the first one that differs. -/
def compareClaims (identity : ClaimsIdentity) (userPrincipal : ClaimsPrincipal) :
    List Claim → CookieValidatePrincipalContext → CookieValidatePrincipalContext
  | [], context => context
  | claim :: claims, context =>
      if userPrincipal.findFirst claim.type != some claim.value then
        { context with principal := some ⟨[identity]⟩, shouldRenew := true }
      else
        compareClaims identity userPrincipal claims context

/-- `ValidatePrincipal`: a principal without a name identifier makes it throw. -/
def validate (users : Table User) (schemeName : String) (userPrincipal : ClaimsPrincipal) :
    Except Fault CookieValidatePrincipalContext :=
  let context : CookieValidatePrincipalContext := ⟨some userPrincipal, false, false⟩
  match userPrincipal.findFirst .nameIdentifier with
  | none => .error .external
  | some uid =>
      match users.find? uid with
      | none => .ok { context with principal := none, signedOut := true }
      | some user =>
          let identity := user.toClaimsIdentity schemeName
          .ok (compareClaims identity userPrincipal identity.claims context)

/-- The loop replaces the principal if some claim differs. -/
theorem compareClaims_eq (identity : ClaimsIdentity) (userPrincipal : ClaimsPrincipal)
    (claims : List Claim) (context : CookieValidatePrincipalContext) :
    compareClaims identity userPrincipal claims context =
      if ∀ claim ∈ claims, userPrincipal.findFirst claim.type = some claim.value then context
      else { context with principal := some ⟨[identity]⟩, shouldRenew := true } := by
  induction claims with
  | nil => simp [compareClaims]
  | cons claim claims ih =>
    rw [compareClaims, ih]
    by_cases hclaim : userPrincipal.findFirst claim.type = some claim.value
    · simp [hclaim]
    · simp [hclaim]

/-- The types of the claims are different, so a new principal shows its row. -/
theorem shows_toClaimsIdentity (user : User) (schemeName : String) :
    Shows ⟨[user.toClaimsIdentity schemeName]⟩ user := by
  simp [Shows, User.toClaimsIdentity, ClaimsPrincipal.findFirst, ClaimsIdentity.findFirst]

/-- What `ValidatePrincipal` makes of the principal of a cookie for a user. -/
structure Validated (users : Table User) (uid : String) (userPrincipal : ClaimsPrincipal)
    (context : CookieValidatePrincipalContext) : Prop where
  rejected : context.principal = none ↔ users.find? uid = none
  signedOut : context.signedOut = true ↔ users.find? uid = none
  shows : ∀ user, users.find? uid = some user → ∃ principal, context.principal = some principal ∧
    Shows principal user ∧ principal.findFirst .nameIdentifier = some uid
  renewed : ∀ user, users.find? uid = some user →
    (context.shouldRenew = true ↔ ¬ Shows userPrincipal user)

theorem validated_of_validate (users : Table User) (schemeName : String)
    (h : principal.findFirst .nameIdentifier = some uid) :
    ∃ context, validate users schemeName principal = .ok context ∧
      Validated users uid principal context := by
  cases hfind : users.find? uid with
  | none =>
    refine ⟨⟨none, false, true⟩, ?_, ?_⟩
    · simp only [validate, h, hfind]
    · constructor <;> simp [hfind]
  | some user =>
    have hid : user.id = uid := (Table.find?_eq_some_iff.1 hfind).2
    have hnew : (⟨[user.toClaimsIdentity schemeName]⟩ : ClaimsPrincipal).findFirst .nameIdentifier =
        some uid := congrArg some hid
    refine ⟨_, by simp only [validate, h, hfind]; rfl, ?_⟩
    rw [compareClaims_eq]
    by_cases hshows : ∀ claim ∈ (user.toClaimsIdentity schemeName).claims,
        principal.findFirst claim.type = some claim.value
    · rw [if_pos hshows]
      have hshows : Shows principal user := hshows
      constructor <;> simp [hfind, hshows, h]
    · rw [if_neg hshows]
      have hshows : ¬ Shows principal user := hshows
      constructor <;> simp [hfind, hshows, hnew, shows_toClaimsIdentity]

/-- The request after `ValidatePrincipal`. -/
def context (userPrincipal : ClaimsPrincipal) : CookieValidation → CookieValidatePrincipalContext
  | .rejected => ⟨none, false, true⟩
  | .unchanged => ⟨some userPrincipal, false, false⟩
  | .replaced identity => ⟨some ⟨[identity]⟩, true, false⟩

/-- The cookie handler goes on with what the loop comes to. -/
theorem validate_eq (users : Table User) (h : principal.findFirst .nameIdentifier = some uid) :
    validate users AuthenticationScheme.cookie.name principal =
      .ok (context principal (validatePrincipal principal (users.find? uid))) := by
  cases hfind : users.find? uid with
  | none => simp only [validate, h, hfind, validatePrincipal, context]
  | some user =>
    simp only [validate, h, hfind, compareClaims_eq, validatePrincipal, List.any_eq_true,
      bne_iff_ne, ne_eq]
    by_cases hshows : ∀ claim ∈ (user.toClaimsIdentity AuthenticationScheme.cookie.name).claims,
        principal.findFirst claim.type = some claim.value
    · rw [if_pos hshows, if_neg (by simpa using hshows)]
      rfl
    · rw [if_neg hshows, if_pos (by simpa using hshows)]
      rfl

theorem shows_of_unchanged (h : validatePrincipal principal (some user) = .unchanged) :
    Shows principal user := by
  simp only [validatePrincipal] at h
  split at h
  · cases h
  · rename_i hany
    simpa [Shows] using hany

end CookieAuthenticationDBValidator

/-! ## The contract of an action -/

/-- The principal shows the row that this request has read for the user of its cookie. -/
structure ShowsRead (i : ℕ) (cookie : Option AuthenticationTicket) (evs : List SessionEvent)
    (principal : ClaimsPrincipal) (user : User) : Prop where
  cookie : ∃ ticket, cookie = some ticket ∧ ticket.user? = some user.id
  read : .userRead i user.id (some user) ∈ evs
  shows : Shows principal user

/-- The principal comes from the certificate alone, or shows the row of a user. -/
def EntersAsRead (F : Framework) (i : ℕ) (req : SessionRequest) (principal : ClaimsPrincipal)
    (evs : List SessionEvent) : Prop :=
  (∃ cert user admin, principal = certificatePrincipal F cert user admin) ∨
    ∃ endpoint credentials user, req = .access endpoint credentials ∧
      ShowsRead i credentials.cookie evs principal user

/-- An action begins with what the request has read. -/
def SessionOp.EntersAsRead (F : Framework) (i : ℕ) (req : SessionRequest) :
    SessionOp → SessionState → Prop
  | enter _ principal, s => IMoviesCA.EntersAsRead F i req principal (s.own i)
  | _, _ => True

/-- A program of process `i`, started with the events `evs`: each action starts as its contract says,
and the result meets `post`. -/
def CookieMeets {α : Type} (F : Framework) (P : Platform) (i : ℕ) (req : SessionRequest)
    (evs : List SessionEvent) (p : SessionProgram α) (post : α → List SessionEvent → Prop) : Prop :=
  ∀ s : SessionState, s.own i = evs → (sessions F P).Safe i (fun s s' => s'.own i = s.own i)
    (SessionOp.EntersAsRead F i req) (fun a s' => post a (s'.own i)) p s

section Rules

variable {α β : Type} {post : α → List SessionEvent → Prop}

theorem cookieMeets_pure {a : α} (h : post a evs) : CookieMeets F P i req evs (pure a) post := by
  rintro s rfl
  exact h

theorem cookieMeets_bind {post : β → List SessionEvent → Prop} {p : SessionProgram α}
    {f : α → SessionProgram β}
    (h : CookieMeets F P i req evs p fun a evs' => CookieMeets F P i req evs' (f a) post) :
    CookieMeets F P i req evs (p >>= f) post := by
  intro s hs
  apply Machine.safe_bind _ (h s hs)
  intro a s' ha
  exact ha s' rfl

theorem cookieMeets_mono {post' : α → List SessionEvent → Prop} {p : SessionProgram α}
    (h : CookieMeets F P i req evs p post') (hpost : ∀ a evs, post' a evs → post a evs) :
    CookieMeets F P i req evs p post := by
  intro s hs
  exact Machine.safe_mono (fun a s' ha => hpost a _ ha) (h s hs)

theorem cookieMeets_perform {e : SessionOp} {post : e.Res → List SessionEvent → Prop}
    (hcontract : ∀ s, s.own i = evs → e.EntersAsRead F i req s)
    (h : ∀ s, s.own i = evs → post (e.run F i s).1 ((e.run F i s).2.own i)) :
    CookieMeets F P i req evs (Program.perform e) post := by
  rintro s hs
  apply Machine.safe_perform
  intro s₁ hr
  have hs₁ : s₁.own i = evs := hr.trans hs
  exact ⟨hcontract s₁ hs₁, fun _ => h s₁ hs₁⟩

theorem cookieMeets_findUser {uid : String} {post : Option User → List SessionEvent → Prop}
    (h : ∀ user, (∀ u, user = some u → u.id = uid) → post user (.userRead i uid user :: evs)) :
    CookieMeets F P i req evs (Session.findUser uid) post := by
  apply cookieMeets_perform (e := .findUser uid) (fun _ _ => trivial)
  rintro s rfl
  show post (s.users.find? uid) ((s.record _).own i)
  rw [own_record_self (i := i) rfl]
  exact h _ fun u hu => (Table.find?_eq_some_iff.1 hu).2

/-- A program that starts no action, and of which nothing needs to be known. -/
theorem cookieMeets_finishResponse (refresh : Option AuthenticationTicket) (reply : SessionReply) :
    CookieMeets F P i req evs (finishResponse refresh reply) fun _ _ => True := by
  cases refresh with
  | none => exact cookieMeets_pure trivial
  | some ticket =>
    apply cookieMeets_bind
    apply cookieMeets_perform (e := .signIn ticket) (fun _ _ => trivial)
    exact fun _ _ => cookieMeets_pure trivial

end Rules

/-! ## The handlers -/

theorem cookieMeets_authenticateCertificate (certificate : Option X509Certificate2) :
    CookieMeets F P i req evs (authenticateCertificate F P certificate) fun result _ =>
      ∀ principal, result = some principal →
        ∃ cert user admin, principal = certificatePrincipal F cert user admin := by
  cases certificate with
  | none => exact cookieMeets_pure (fun principal h => by cases h)
  | some cert =>
    apply cookieMeets_bind
    apply cookieMeets_perform (e := .validateCertificate cert) (fun _ _ => trivial)
    intro s _
    dsimp only
    split
    · exact cookieMeets_pure (fun principal h => by cases h)
    · apply cookieMeets_bind
      apply cookieMeets_findUser
      intro user _
      cases user with
      | none => exact cookieMeets_pure (fun principal h => by cases h)
      | some user =>
        apply cookieMeets_bind
        apply cookieMeets_perform (e := .findAdmin _) (fun _ _ => trivial)
        intro s _
        apply cookieMeets_pure
        intro principal h
        obtain rfl := Option.some.inj h
        exact ⟨cert, user, _, rfl⟩

/-- A principal of the cookie handler shows the row that it has read. -/
theorem cookieMeets_authenticateCookie (cookie : Option AuthenticationTicket) :
    CookieMeets F P i req evs (authenticateCookie cookie) fun result evs' =>
      ∀ principal refresh, result = .success principal refresh →
        ∃ user, ShowsRead i cookie evs' principal user := by
  cases cookie with
  | none => exact cookieMeets_pure (fun principal refresh h => by cases h)
  | some ticket =>
    apply cookieMeets_bind
    apply cookieMeets_perform (e := .readTicket ticket) (fun _ _ => trivial)
    intro s _
    dsimp only
    split
    · exact cookieMeets_pure (fun principal refresh h => by cases h)
    · rename_i now hnow
      cases hticket : ticket.user? with
      | none => exact cookieMeets_pure (fun principal refresh h => by cases h)
      | some uid =>
        apply cookieMeets_bind
        apply cookieMeets_findUser
        intro user hrow
        have hshows : ∀ u principal evs', user = some u → Shows principal u →
            ShowsRead i (some ticket) (.userRead i uid user :: evs') principal u := by
          rintro u principal evs' rfl hshows
          have hid := hrow u rfl
          exact ⟨⟨ticket, rfl, by rw [hticket, hid]⟩, by rw [hid]; exact List.mem_cons_self, hshows⟩
        cases hvalidation : CookieAuthenticationDBValidator.validatePrincipal ticket.principal user with
        | rejected => exact cookieMeets_pure (fun principal refresh h => by cases h)
        | unchanged =>
          apply cookieMeets_pure
          intro principal refresh h
          obtain ⟨rfl, -⟩ := CookieResult.success.inj h
          cases user with
          | none => cases hvalidation
          | some u =>
            exact ⟨u, hshows u _ _ rfl
              (CookieAuthenticationDBValidator.shows_of_unchanged hvalidation)⟩
        | replaced identity =>
          obtain ⟨u, hu, rfl⟩ := replaced_of_validatePrincipal hvalidation
          apply cookieMeets_bind
          apply cookieMeets_perform (e := .clock) (fun _ _ => trivial)
          rintro s' hs'
          apply cookieMeets_pure
          intro principal refresh h
          obtain ⟨rfl, -⟩ := CookieResult.success.inj h
          refine ⟨u, ?_⟩
          show ShowsRead i _ (s'.own i) _ u
          rw [hs']
          exact hshows u _ _ hu (CookieAuthenticationDBValidator.shows_toClaimsIdentity u _)

/-- The identities of the cookie come first. -/
theorem shows_merge {existing : Option ClaimsPrincipal} (h : Shows principal user) :
    Shows (mergeUserPrincipal existing principal) user := by
  cases existing with
  | none => exact h
  | some existing =>
    intro claim hclaim
    have hfirst := h claim hclaim
    simp only [ClaimsPrincipal.findFirst] at hfirst
    simp only [mergeUserPrincipal, ClaimsPrincipal.findFirst, List.findSome?_append, hfirst,
      Option.some_or]

/-- What the cookie adds to the principal of the certificate. -/
theorem cookieMeets_authenticate_cookie (endpoint : Endpoint) (credentials : Credentials)
    (result : Authentication) (h : ∀ principal, result.principal = some principal →
      ∃ cert user admin, principal = certificatePrincipal F cert user admin) :
    CookieMeets F P i (.access endpoint credentials) evs
      (authenticate F P credentials [.cookie] result) fun result evs' =>
      ∀ r principal, result = some r → r.principal = some principal →
        EntersAsRead F i (.access endpoint credentials) principal evs' := by
  apply cookieMeets_bind
  apply cookieMeets_mono (cookieMeets_authenticateCookie credentials.cookie)
  intro answer evs' hanswer
  cases answer with
  | threw => exact cookieMeets_pure (fun r principal hr _ => by cases hr)
  | noPrincipal =>
    apply cookieMeets_pure
    intro r principal hr hp
    obtain rfl := Option.some.inj hr
    exact Or.inl (h principal hp)
  | success cookiePrincipal refresh =>
    apply cookieMeets_pure
    intro r principal hr hp
    obtain rfl := Option.some.inj hr
    obtain rfl := Option.some.inj hp
    obtain ⟨user, hread⟩ := hanswer _ _ rfl
    exact Or.inr ⟨endpoint, credentials, user, rfl, hread.cookie, hread.read,
      shows_merge hread.shows⟩

/-- What the schemes of a policy come to. -/
theorem cookieMeets_authenticate (endpoint : Endpoint) (credentials : Credentials) :
    CookieMeets F P i (.access endpoint credentials) evs
      (authenticate F P credentials endpoint.policy.schemes ⟨none, none⟩) fun result evs' =>
      ∀ r principal, result = some r → r.principal = some principal →
        EntersAsRead F i (.access endpoint credentials) principal evs' := by
  have hdefault : CookieMeets F P i (.access endpoint credentials) evs
      (authenticate F P credentials Startup.defaultPolicy.schemes ⟨none, none⟩) fun result evs' =>
      ∀ r principal, result = some r → r.principal = some principal →
        EntersAsRead F i (.access endpoint credentials) principal evs' := by
    apply cookieMeets_bind
    apply cookieMeets_mono (cookieMeets_authenticateCertificate credentials.clientCertificate)
    intro principal evs' hcertificate
    cases principal with
    | none => exact cookieMeets_authenticate_cookie _ _ _ (fun _ h => by cases h)
    | some principal =>
      apply cookieMeets_authenticate_cookie
      intro merged h
      obtain rfl := Option.some.inj h
      exact hcertificate principal rfl
  cases endpoint with
  | authorized => exact hdefault
  | logout => exact hdefault
  | adminIndex =>
    apply cookieMeets_bind
    apply cookieMeets_mono (cookieMeets_authenticateCertificate credentials.clientCertificate)
    intro principal evs' hcertificate
    cases principal with
    | none =>
      apply cookieMeets_pure
      intro r principal hr hp
      obtain rfl := Option.some.inj hr
      cases hp
    | some principal =>
      apply cookieMeets_pure
      intro r merged hr hp
      obtain rfl := Option.some.inj hr
      obtain rfl := Option.some.inj hp
      exact Or.inl (hcertificate principal rfl)

theorem cookieMeets_access (endpoint : Endpoint) (credentials : Credentials) :
    CookieMeets F P i (.access endpoint credentials) evs (access F P endpoint credentials)
      fun _ _ => True := by
  apply cookieMeets_bind
  apply cookieMeets_mono (cookieMeets_authenticate endpoint credentials)
  intro result evs' hresult
  cases result with
  | none => exact cookieMeets_pure trivial
  | some r =>
    cases hp : r.principal with
    | none =>
      simp only [hp]
      exact cookieMeets_finishResponse _ _
    | some principal =>
      simp only [hp]
      split_ifs with hauthorizes hlogout
      · apply cookieMeets_bind
        apply cookieMeets_perform (e := .enter endpoint principal)
        · rintro s rfl
          exact hresult r principal rfl hp
        · exact fun _ _ => cookieMeets_pure trivial
      · apply cookieMeets_bind
        apply cookieMeets_perform (e := .enter endpoint principal)
        · rintro s rfl
          exact hresult r principal rfl hp
        · exact fun _ _ => cookieMeets_finishResponse _ _
      · exact cookieMeets_finishResponse _ _

theorem cookieMeets_login (loginDetails : LoginDetails) (returnUrl : Option String) :
    CookieMeets F P i req evs (AccountController.login P loginDetails returnUrl)
      fun _ _ => True := by
  unfold AccountController.login
  split_ifs
  · exact cookieMeets_pure trivial
  · apply cookieMeets_bind
    apply cookieMeets_findUser
    intro user hrow
    split
    · exact cookieMeets_pure trivial
    · apply cookieMeets_bind
      apply cookieMeets_perform (e := .clock) (fun _ _ => trivial)
      intro _ _
      apply cookieMeets_bind
      apply cookieMeets_perform (e := .clock) (fun _ _ => trivial)
      intro _ _
      apply cookieMeets_bind
      apply cookieMeets_perform (e := .findAdmin _) (fun _ _ => trivial)
      intro _ _
      split
      · exact cookieMeets_pure trivial
      · apply cookieMeets_bind
        apply cookieMeets_perform (e := .signIn _) (fun _ _ => trivial)
        exact fun _ _ => cookieMeets_pure trivial

/-! ## Every interleaving -/

theorem own_run_of_ne {j : ℕ} (hij : i ≠ j) (e : SessionOp) (s : SessionState) :
    (e.run F j s).2.own i = s.own i := by
  have heffect := effect_run F j e s
  generalize (e.run F j s).2 = s' at heffect
  cases heffect with
  | none => rfl
  | event ev hev => exact own_record_of_ne (by rw [hev]; exact hij.symm)
  | signIn t => rfl

/-- Whatever tickets are out, and whatever the other requests do, an action starts as its contract
says. -/
def cookieContracts (F : Framework) (P : Platform) : Logic (sessions F P) where
  start i s := s.own i = []
  rely i s s' := s'.own i = s.own i
  contract := SessionOp.EntersAsRead F
  post _ _ _ _ := True
  rely_refl _ _ := rfl
  rely_trans h₁ h₂ := h₂.trans h₁
  start_rely h hr := hr.trans h
  env_rely i e s := by
    cases e <;> rfl
  exec_rely _ hij _ := own_run_of_ne hij _ _
  safe := by
    intro i req s hs
    cases req with
    | login loginDetails returnUrl =>
      exact Machine.safe_mono (fun _ _ _ => trivial) (cookieMeets_login loginDetails returnUrl s hs)
    | access endpoint credentials =>
      exact Machine.safe_mono (fun _ _ _ => trivial) (cookieMeets_access endpoint credentials s hs)

/-- The principal of an action comes from the certificate alone, or shows the row of the user of the
cookie as it was at a moment of the same request. -/
def SeesRow (F : Framework) (P : Platform) (s₀ : SessionState)
    (as : List (Act SessionRequest Unit SessionEnv)) (c : SessionConfiguration) (i : ℕ)
    (req : SessionRequest) (principal : ClaimsPrincipal) : Prop :=
  (∃ cert user admin, principal = certificatePrincipal F cert user admin) ∨
    ∃ endpoint credentials ticket user b, req = .access endpoint credentials ∧
      credentials.cookie = some ticket ∧ ticket.user? = some user.id ∧
      (sessions F P).Via as (.initial s₀) [b] c ∧ b.request i = some req ∧
      b.shared.users.find? user.id = some user ∧ Shows principal user

variable {s₀ : SessionState} {c : SessionConfiguration}

/-- What the events of a request say of its cookie was so at a moment of the request. -/
theorem seesRow_of_entersAsRead (h₀ : s₀.history = [])
    {as : List (Act SessionRequest Unit SessionEnv)}
    (hrun : (sessions F P).run as (.initial s₀) = some c) (hreq : c.request i = some req)
    (h : EntersAsRead F i req principal (c.shared.own i)) : SeesRow F P s₀ as c i req principal := by
  rcases h with hcertificate | ⟨endpoint, credentials, user, rfl, hshown⟩
  · exact Or.inl hcertificate
  · obtain ⟨ticket, hcookie, hticket⟩ := hshown.cookie
    have hold : SessionEvent.userRead i user.id (some user) ∉ s₀.history := by
      rw [h₀]
      exact List.not_mem_nil
    obtain ⟨b, hvia, hadds⟩ := System.exists_moment (c := .initial s₀) (logs_sessionHistory F P) hrun
      hold (List.mem_of_mem_filter hshown.read)
    obtain ⟨hmeans, req', hb⟩ := says_of_adds hadds
    obtain ⟨as₁, as₂, -, -, hrest⟩ := id hvia
    have hlater : c.request i = some req' :=
      System.request_of_reaches (System.reaches_of_run hrest) hb
    have hsame : req' = .access endpoint credentials := Option.some.inj (hlater.symm.trans hreq)
    have hmeans : some user = b.shared.users.find? user.id := hmeans
    refine Or.inr ⟨endpoint, credentials, ticket, user, b, rfl, hcookie, hticket, hvia, ?_,
      hmeans.symm, hshown.shows⟩
    rw [← hsame]
    exact hb

/-- A cookie is validated against the row of its user, and an action that starts with it shows the row
as it was at a moment of the same request. -/
theorem cookie_shows_row (F : Framework) (P : Platform) :
    (∀ (users : Table User) (schemeName : String) (principal : ClaimsPrincipal) (uid : String),
      principal.findFirst .nameIdentifier = some uid → ∃ context,
        CookieAuthenticationDBValidator.validate users schemeName principal = .ok context ∧
        CookieAuthenticationDBValidator.Validated users uid principal context) ∧
    ∀ (s₀ : SessionState) (as : List (Act SessionRequest Unit SessionEnv))
      (c : SessionConfiguration) (i : ℕ) (req : SessionRequest) (endpoint : Endpoint)
      (principal : ClaimsPrincipal) (k : Unit → SessionProgram SessionReply), s₀.history = [] →
      (sessions F P).run as (.initial s₀) = some c →
      c.procs i = some (req, .op (.enter endpoint principal) k) →
        SeesRow F P s₀ as c i req principal := by
  refine ⟨?_, ?_⟩
  · intro users schemeName principal uid h
    exact CookieAuthenticationDBValidator.validated_of_validate users schemeName h
  · intro s₀ as c i req endpoint principal k h₀ hrun hi
    have hstart : ∀ j, s₀.own j = [] := by
      intro j
      rw [SessionState.own, h₀]
      rfl
    have hcontract : EntersAsRead F i req principal (c.shared.own i) :=
      Logic.contract_of_reaches (L := cookieContracts F P) hstart (System.reaches_of_run hrun) hi
    exact seesRow_of_entersAsRead h₀ hrun (by simp [Config.request, hi]) hcontract

section

open Deployment

/-- `andres` after a change of the first name. -/
def renamed : User := { andres with firstName := "Andreas" }

/-- `a3` logs in and changes the first name, and comes back with the cookie. -/
def loginThenRename : List (Act SessionRequest Unit SessionEnv) :=
  .arrive 0 loginRequest :: (sessionSteps 0 5 ++
    .env (.setUsers ⟨[renamed], by decide⟩) :: .arrive 1 cookieRequest :: sessionSteps 1 3)

/-- `a3` comes back with the cookie, and the first name is changed between the validation of the cookie
and the action. -/
def renameDuringRequest : List (Act SessionRequest Unit SessionEnv) :=
  .arrive 0 loginRequest :: (sessionSteps 0 5 ++
    .arrive 1 cookieRequest :: (sessionSteps 1 2 ++ [.env (.setUsers ⟨[renamed], by decide⟩)]))

/-- The principal of the action that process `i` is about to start. -/
def entrant (c : SessionConfiguration) (i : ℕ) : Option ClaimsPrincipal :=
  match c.procs i with
  | some (_, .op (.enter _ principal) _) => some principal
  | _ => none

theorem exists_of_entrant {c : SessionConfiguration} (h : entrant c i = some principal) :
    ∃ req endpoint k, c.procs i = some (req, .op (.enter endpoint principal) k) := by
  unfold entrant at h
  split at h
  · rename_i req endpoint principal' k hi
    obtain rfl := Option.some.inj h
    exact ⟨req, endpoint, k, hi⟩
  · cases h

theorem cookie_shows_renamed : ∃ c req principal,
    principal.findFirst .givenName = some "Andreas" ∧
      SeesRow noCertificates platform (webState (installed users)) loginThenRename c 1 req principal ∧
      ∃ context, CookieAuthenticationDBValidator.validate c.shared.users "Cookies" principal =
        .ok context ∧ CookieAuthenticationDBValidator.Validated c.shared.users "a3" principal context := by
  have hrun : ((sessions noCertificates platform).run loginThenRename
      (.initial (webState (installed users)))).any (fun c => (entrant c 1).any fun principal =>
        decide (principal.findFirst .givenName = some "Andreas" ∧
          principal.findFirst .nameIdentifier = some "a3")) = true := by decide +kernel
  obtain ⟨c, hc, hcheck⟩ := (Option.any_eq_true _ _).1 hrun
  obtain ⟨principal, hprincipal, hclaims⟩ := (Option.any_eq_true _ _).1 hcheck
  obtain ⟨hname, hid⟩ := of_decide_eq_true hclaims
  obtain ⟨req, endpoint, k, hi⟩ := exists_of_entrant hprincipal
  have hspec := cookie_shows_row noCertificates platform
  exact ⟨c, req, principal, hname, hspec.2 _ _ _ _ _ _ _ _ rfl hc hi, hspec.1 _ _ _ _ hid⟩

/-- An action does not see a change that is made after its cookie was validated. -/
theorem cookie_shows_old_row : ¬ ∀ (F : Framework) (P : Platform) (s₀ : SessionState)
    (as : List (Act SessionRequest Unit SessionEnv)) (c : SessionConfiguration) (i : ℕ)
    (req : SessionRequest) (endpoint : Endpoint) (principal : ClaimsPrincipal)
    (k : Unit → SessionProgram SessionReply) (user : User), s₀.Fresh →
    (sessions F P).run as (.initial s₀) = some c →
    c.procs i = some (req, .op (.enter endpoint principal) k) → CookieAlone principal user.id →
    c.shared.users.find? user.id = some user → Shows principal user := by
  intro hclaim
  have hrun : ((sessions noCertificates platform).run renameDuringRequest
      (.initial (webState (installed users)))).any (fun c => (entrant c 1).any fun principal =>
        decide ((∀ identity ∈ principal.identities,
          identity.authenticationType ≠ AuthenticationScheme.certificate.name) ∧
          principal.findFirst .nameIdentifier = some renamed.id ∧
          c.shared.users.find? renamed.id = some renamed ∧ ¬ Shows principal renamed)) = true := by
    decide +kernel
  obtain ⟨c, hc, hcheck⟩ := (Option.any_eq_true _ _).1 hrun
  obtain ⟨principal, hprincipal, htest⟩ := (Option.any_eq_true _ _).1 hcheck
  obtain ⟨hcookie, hid, hrow, hold⟩ := of_decide_eq_true htest
  obtain ⟨req, endpoint, k, hi⟩ := exists_of_entrant hprincipal
  exact hold (hclaim _ _ _ _ c 1 req endpoint principal k renamed (fresh_webState _) hc hi
    ⟨hcookie, hid⟩ hrow)

end

end IMoviesCA
