import IMoviesCA.Sessions

/-!
# What a session tells of its request

A cookie is handed out to a user whom `Login` did not find among the admins, or who came with a
cookie (`SignsIn`).  An action starts with a principal that a policy authorizes: the one of the
cookie that was read, or one with the identities that `CertificateValidated` found (`Enters`).
Every ticket has one identity, the one of a user (`CookieTicket`).

`sessionContracts` proves this of the two programs, and so it holds in every interleaving.
-/

namespace IMoviesCA

variable {F : Framework} {P : Platform} {i : ℕ} {req : SessionRequest} {evs : List SessionEvent}

/-! ## The contracts -/

/-- The principal of a cookie: one identity, of a user. -/
def IsCookiePrincipal (principal : ClaimsPrincipal) (uid : String) : Prop :=
  ∃ user : User, user.id = uid ∧
    principal = ⟨[user.toClaimsIdentity AuthenticationScheme.cookie.name]⟩

/-- The ticket of a cookie, whose user has one identity. -/
def CookieTicket (t : AuthenticationTicket) : Prop := ∃ uid, IsCookiePrincipal t.principal uid

/-- Every ticket that was handed out is one of a cookie. -/
def SessionState.CookieTickets (s : SessionState) : Prop := ∀ t ∈ s.tickets, CookieTicket t

/-- The request came with a cookie of the user. -/
def CameWithCookie (i : ℕ) (uid : String) (evs : List SessionEvent) : Prop :=
  ∃ ticket, ticket.user? = some uid ∧ .ticketAccepted i ticket ∈ evs

/-- The request is a login that did not find the user among the admins. -/
def PassedLogin (i : ℕ) (uid : String) (req : SessionRequest) (evs : List SessionEvent) : Prop :=
  (∃ loginDetails returnUrl, req = .login loginDetails returnUrl) ∧ .adminRead i uid none ∈ evs

/-- What precedes the handing out of a cookie. -/
def SignsIn (i : ℕ) (req : SessionRequest) (t : AuthenticationTicket) (evs : List SessionEvent) :
    Prop :=
  ∃ uid, IsCookiePrincipal t.principal uid ∧ (PassedLogin i uid req evs ∨ CameWithCookie i uid evs)

/-- The identity does not come from a certificate. -/
def ClaimsIdentity.IsFromCookie (identity : ClaimsIdentity) : Prop :=
  identity.authenticationType ≠ AuthenticationScheme.certificate.name

/-- Each identity of the principal comes from a certificate, or is the one of a user with whose
cookie the request came. -/
def Supported (i : ℕ) (evs : List SessionEvent) (principal : ClaimsPrincipal) : Prop :=
  ∀ identity ∈ principal.identities, identity.IsFromCookie → ∃ user : User,
    identity = user.toClaimsIdentity AuthenticationScheme.cookie.name ∧ CameWithCookie i user.id evs

/-- `CertificateValidated` found the user of a certificate in both tables. -/
def FoundAdmin (P : Platform) (i : ℕ) (req : SessionRequest) (evs : List SessionEvent) : Prop :=
  ∃ credentials cert user admin, req = .access .adminIndex credentials ∧
    credentials.clientCertificate = some cert ∧
    evs = [.adminRead i (CertificateAuthenticationDBValidator.getNameInfo P cert) (some admin),
      .userRead i (CertificateAuthenticationDBValidator.getNameInfo P cert) (some user),
      .certificateAccepted i cert]

/-- What precedes the start of an action. -/
structure Enters (P : Platform) (i : ℕ) (req : SessionRequest) (endpoint : Endpoint)
    (principal : ClaimsPrincipal) (evs : List SessionEvent) : Prop where
  admin : endpoint = .adminIndex → FoundAdmin P i req evs
  supported : Supported i evs principal

/-- What an access of a request tells of its events. -/
def SessionOp.Contract (P : Platform) (i : ℕ) (req : SessionRequest) : SessionOp → SessionState → Prop
  | signIn t, s => SignsIn i req t (s.own i)
  | enter endpoint principal, s => Enters P i req endpoint principal (s.own i)
  | _, _ => True

/-- What happens between two operations of process `i`. -/
def SessionRely (i : ℕ) (s s' : SessionState) : Prop :=
  s'.own i = s.own i ∧ (s.CookieTickets → s'.CookieTickets)

theorem user?_of_isCookiePrincipal {t : AuthenticationTicket} {uid : String}
    (h : IsCookiePrincipal t.principal uid) : t.user? = some uid := by
  obtain ⟨user, rfl, hp⟩ := h
  rw [AuthenticationTicket.user?, hp]
  rfl

theorem own_record_self {s : SessionState} {e : SessionEvent} (h : e.pid = i) :
    (s.record e).own i = e :: s.own i := by
  show List.filter _ (e :: s.history) = _
  rw [List.filter_cons_of_pos (by simpa using h)]
  rfl

theorem own_record_of_ne {s : SessionState} {e : SessionEvent} (h : e.pid ≠ i) :
    (s.record e).own i = s.own i := by
  show List.filter _ (e :: s.history) = _
  rw [List.filter_cons_of_neg (by simpa using h)]
  rfl

/-- What an operation does to the state: nothing, one event of its process, or a new ticket. -/
inductive SessionOp.Effect (i : ℕ) (s : SessionState) : SessionOp → SessionState → Prop
  | none {e : SessionOp} : Effect i s e s
  | event {e : SessionOp} (ev : SessionEvent) (h : ev.pid = i) : Effect i s e (s.record ev)
  | signIn (t : AuthenticationTicket) : Effect i s (.signIn t) { s with tickets := t :: s.tickets }

theorem effect_run (F : Framework) (i : ℕ) (e : SessionOp) (s : SessionState) :
    e.Effect i s (e.run F i s).2 := by
  cases e with
  | clock => exact .none
  | findUser uid => exact .event _ rfl
  | findAdmin uid => exact .event _ rfl
  | validateCertificate cert =>
    simp only [SessionOp.run]
    split
    · exact .event _ rfl
    · exact .none
  | readTicket ticket =>
    simp only [SessionOp.run]
    split
    · exact .event _ rfl
    · exact .none
  | signIn t => exact .signIn t
  | enter endpoint principal => exact .none

theorem sessionRely_run {j : ℕ} (hij : i ≠ j) {e : SessionOp} {s : SessionState}
    (h : e.Contract P j req s) : SessionRely i s (e.run F j s).2 := by
  have heffect := effect_run F j e s
  generalize (e.run F j s).2 = s' at heffect
  cases heffect with
  | none => exact ⟨rfl, id⟩
  | event ev hev => exact ⟨own_record_of_ne (by rw [hev]; exact hij.symm), id⟩
  | signIn t =>
    refine ⟨rfl, fun htickets t' ht' => ?_⟩
    rcases List.mem_cons.1 ht' with rfl | ht'
    · obtain ⟨uid, hprincipal, -⟩ := h
      exact ⟨uid, hprincipal⟩
    · exact htickets t' ht'

/-! ## Rules -/

/-- A program of process `i`, started with the events `evs`: each operation meets its contract, and
the result meets `post`. -/
def SessionMeets {α : Type} (F : Framework) (P : Platform) (i : ℕ) (req : SessionRequest)
    (evs : List SessionEvent) (p : SessionProgram α) (post : α → List SessionEvent → Prop) : Prop :=
  ∀ s : SessionState, s.own i = evs → s.CookieTickets →
    (sessions F P).Safe i (SessionRely i) (SessionOp.Contract P i req)
      (fun a s' => s'.CookieTickets ∧ post a (s'.own i)) p s

section Rules

variable {α β : Type} {post : α → List SessionEvent → Prop}

theorem sessionMeets_pure {a : α} (h : post a evs) : SessionMeets F P i req evs (pure a) post := by
  rintro s rfl htickets
  exact ⟨htickets, h⟩

theorem sessionMeets_bind {post : β → List SessionEvent → Prop} {p : SessionProgram α}
    {f : α → SessionProgram β}
    (h : SessionMeets F P i req evs p fun a evs' => SessionMeets F P i req evs' (f a) post) :
    SessionMeets F P i req evs (p >>= f) post := by
  intro s hs htickets
  apply Machine.safe_bind _ (h s hs htickets)
  rintro a s' ⟨htickets', ha⟩
  exact ha s' rfl htickets'

theorem sessionMeets_mono {post' : α → List SessionEvent → Prop} {p : SessionProgram α}
    (h : SessionMeets F P i req evs p post') (hpost : ∀ a evs, post' a evs → post a evs) :
    SessionMeets F P i req evs p post := by
  intro s hs htickets
  exact Machine.safe_mono (fun a s' ha => ⟨ha.1, hpost a _ ha.2⟩) (h s hs htickets)

/-- The rule of an operation that hands out no cookie. -/
theorem sessionMeets_perform {e : SessionOp} {post : e.Res → List SessionEvent → Prop}
    (hsignIn : ∀ t, e ≠ .signIn t) (hcontract : ∀ s, s.own i = evs → e.Contract P i req s)
    (h : ∀ s, s.own i = evs → s.CookieTickets →
      post (e.run F i s).1 ((e.run F i s).2.own i)) :
    SessionMeets F P i req evs (Program.perform e) post := by
  intro s hs htickets
  apply Machine.safe_perform
  intro s₁ hr
  have hs₁ : s₁.own i = evs := hr.1.trans hs
  refine ⟨hcontract s₁ hs₁, fun _ => ⟨?_, h s₁ hs₁ (hr.2 htickets)⟩⟩
  have heffect := effect_run F i e s₁
  show (e.run F i s₁).2.CookieTickets
  generalize (e.run F i s₁).2 = s' at heffect
  cases heffect with
  | none => exact hr.2 htickets
  | event ev hev => exact hr.2 htickets
  | signIn t => exact absurd rfl (hsignIn t)

theorem sessionMeets_clock {post : Time → List SessionEvent → Prop} (h : ∀ now, post now evs) :
    SessionMeets F P i req evs Session.clock post := by
  apply sessionMeets_perform (e := .clock) (fun t => by simp) (fun _ _ => trivial)
  rintro s rfl -
  exact h s.now

theorem sessionMeets_findUser {uid : String} {post : Option User → List SessionEvent → Prop}
    (h : ∀ user, (∀ u, user = some u → u.id = uid) → post user (.userRead i uid user :: evs)) :
    SessionMeets F P i req evs (Session.findUser uid) post := by
  apply sessionMeets_perform (e := .findUser uid) (fun t => by simp) (fun _ _ => trivial)
  rintro s rfl -
  show post (s.users.find? uid) ((s.record _).own i)
  rw [own_record_self (i := i) rfl]
  apply h
  intro u hu
  exact (Table.find?_eq_some_iff.1 hu).2

theorem sessionMeets_findAdmin {uid : String} {post : Option Admin → List SessionEvent → Prop}
    (h : ∀ admin, post admin (.adminRead i uid admin :: evs)) :
    SessionMeets F P i req evs (Session.findAdmin uid) post := by
  apply sessionMeets_perform (e := .findAdmin uid) (fun t => by simp) (fun _ _ => trivial)
  rintro s rfl -
  show post (s.admins.find? uid) ((s.record _).own i)
  rw [own_record_self (i := i) rfl]
  exact h _

theorem sessionMeets_validateCertificate {cert : X509Certificate2}
    {post : Bool → List SessionEvent → Prop} (htrue : post true (.certificateAccepted i cert :: evs))
    (hfalse : post false evs) :
    SessionMeets F P i req evs (Session.validateCertificate cert) post := by
  apply sessionMeets_perform (e := .validateCertificate cert) (fun t => by simp) (fun _ _ => trivial)
  rintro s rfl -
  simp only [SessionOp.run]
  split
  · show post true ((s.record _).own i)
    rw [own_record_self (i := i) rfl]
    exact htrue
  · exact hfalse

/-- A ticket that is read was handed out. -/
theorem sessionMeets_readTicket {ticket : AuthenticationTicket}
    {post : Option Time → List SessionEvent → Prop} (hnone : post none evs)
    (hsome : ∀ now, CookieTicket ticket → post (some now) (.ticketAccepted i ticket :: evs)) :
    SessionMeets F P i req evs (Session.readTicket ticket) post := by
  apply sessionMeets_perform (e := .readTicket ticket) (fun t => by simp) (fun _ _ => trivial)
  rintro s rfl htickets
  simp only [SessionOp.run]
  split
  · rename_i h
    show post (some s.now) ((s.record _).own i)
    rw [own_record_self (i := i) rfl]
    exact hsome _ (htickets ticket h.1)
  · exact hnone

theorem sessionMeets_enter {endpoint : Endpoint} {principal : ClaimsPrincipal}
    {post : Unit → List SessionEvent → Prop} (hcontract : Enters P i req endpoint principal evs)
    (h : post () evs) : SessionMeets F P i req evs (Session.enter endpoint principal) post := by
  apply sessionMeets_perform (fun t => by simp)
  · rintro s rfl
    exact hcontract
  · rintro s rfl -
    exact h

theorem sessionMeets_signIn {ticket : AuthenticationTicket} {post : Unit → List SessionEvent → Prop}
    (hcontract : SignsIn i req ticket evs) (h : post () evs) :
    SessionMeets F P i req evs (Session.signIn ticket) post := by
  rintro s rfl htickets
  apply Machine.safe_perform
  rintro s₁ hr
  have hown : s₁.own i = s.own i := hr.1
  refine ⟨?_, fun _ => ⟨?_, ?_⟩⟩
  · show SignsIn i req ticket (s₁.own i)
    rw [hown]
    exact hcontract
  · intro t ht
    rcases List.mem_cons.1 ht with rfl | ht
    · obtain ⟨uid, hprincipal, -⟩ := hcontract
      exact ⟨uid, hprincipal⟩
    · exact hr.2 htickets t ht
  · show post () (s₁.own i)
    rw [hown]
    exact h

end Rules

/-! ## The handlers of the schemes -/

/-- A principal of the cookie handler names the user of the cookie that was read. -/
def CookieAnswer (i : ℕ) (evs : List SessionEvent) : CookieResult → Prop
  | .success principal refresh => ∃ uid, IsCookiePrincipal principal uid ∧ CameWithCookie i uid evs ∧
      ∀ t, refresh = some t → IsCookiePrincipal t.principal uid
  | _ => True

theorem replaced_of_validatePrincipal {principal : ClaimsPrincipal} {user : Option User}
    {identity : ClaimsIdentity}
    (h : CookieAuthenticationDBValidator.validatePrincipal principal user = .replaced identity) :
    ∃ u, user = some u ∧ identity = u.toClaimsIdentity AuthenticationScheme.cookie.name := by
  cases user with
  | none => cases h
  | some u =>
    simp only [CookieAuthenticationDBValidator.validatePrincipal] at h
    split at h
    · exact ⟨u, rfl, (CookieValidation.replaced.inj h).symm⟩
    · cases h

theorem sessionMeets_authenticateCookie (cookie : Option AuthenticationTicket) :
    SessionMeets F P i req evs (authenticateCookie cookie) fun result evs' =>
      evs ⊆ evs' ∧ CookieAnswer i evs' result := by
  cases cookie with
  | none => exact sessionMeets_pure ⟨List.Subset.refl _, trivial⟩
  | some ticket =>
    apply sessionMeets_bind
    apply sessionMeets_readTicket
    · exact sessionMeets_pure ⟨List.Subset.refl _, trivial⟩
    intro now hticket
    obtain ⟨uid, hprincipal⟩ := hticket
    have huser := user?_of_isCookiePrincipal hprincipal
    simp only [huser]
    apply sessionMeets_bind
    apply sessionMeets_findUser
    intro user hrow
    have hsub : evs ⊆ .userRead i uid user :: .ticketAccepted i ticket :: evs :=
      fun e he => List.mem_cons_of_mem _ (List.mem_cons_of_mem _ he)
    have hcame : CameWithCookie i uid (.userRead i uid user :: .ticketAccepted i ticket :: evs) :=
      ⟨ticket, huser, List.mem_cons_of_mem _ List.mem_cons_self⟩
    cases hvalidation : CookieAuthenticationDBValidator.validatePrincipal ticket.principal user with
    | rejected => exact sessionMeets_pure ⟨hsub, trivial⟩
    | unchanged =>
      apply sessionMeets_pure
      refine ⟨hsub, uid, hprincipal, hcame, ?_⟩
      intro t ht
      split_ifs at ht
      obtain rfl := Option.some.inj ht
      exact hprincipal
    | replaced identity =>
      obtain ⟨u, rfl, rfl⟩ := replaced_of_validatePrincipal hvalidation
      have hnew : IsCookiePrincipal ⟨[u.toClaimsIdentity AuthenticationScheme.cookie.name]⟩ uid :=
        ⟨u, hrow u rfl, rfl⟩
      apply sessionMeets_bind
      apply sessionMeets_clock
      intro now'
      apply sessionMeets_pure
      refine ⟨hsub, uid, hnew, hcame, ?_⟩
      intro t ht
      obtain rfl := Option.some.inj ht
      exact hnew

/-- The principal that the certificate handler makes of a certificate and of the rows that it
found. -/
def certificatePrincipal (F : Framework) (cert : X509Certificate2) (user : User)
    (admin : Option Admin) : ClaimsPrincipal :=
  ⟨[⟨F.certificateClaims cert, AuthenticationScheme.certificate.name⟩,
    if admin.isSome then
      (user.toClaimsIdentity AuthenticationScheme.certificate.name).addClaim ⟨.admin, "True"⟩
    else user.toClaimsIdentity AuthenticationScheme.certificate.name]⟩

/-- What the certificate handler did before it succeeded. -/
def CertificateAnswer (F : Framework) (P : Platform) (i : ℕ) (certificate : Option X509Certificate2)
    (evs evs' : List SessionEvent) (principal : ClaimsPrincipal) : Prop :=
  ∃ cert user admin, certificate = some cert ∧ principal = certificatePrincipal F cert user admin ∧
    evs' = .adminRead i (CertificateAuthenticationDBValidator.getNameInfo P cert) admin ::
      .userRead i (CertificateAuthenticationDBValidator.getNameInfo P cert) (some user) ::
      .certificateAccepted i cert :: evs

theorem sessionMeets_authenticateCertificate (certificate : Option X509Certificate2) :
    SessionMeets F P i req evs (authenticateCertificate F P certificate) fun result evs' =>
      evs ⊆ evs' ∧
        ∀ principal, result = some principal → CertificateAnswer F P i certificate evs evs' principal := by
  cases certificate with
  | none => exact sessionMeets_pure ⟨List.Subset.refl _, fun principal h => by cases h⟩
  | some cert =>
    apply sessionMeets_bind
    apply sessionMeets_validateCertificate
    · apply sessionMeets_bind
      apply sessionMeets_findUser
      intro user hrow
      cases user with
      | none =>
        apply sessionMeets_pure
        refine ⟨?_, fun principal h => by cases h⟩
        intro e he
        exact List.mem_cons_of_mem _ (List.mem_cons_of_mem _ he)
      | some user =>
        apply sessionMeets_bind
        apply sessionMeets_findAdmin
        intro admin
        apply sessionMeets_pure
        refine ⟨?_, ?_⟩
        · intro e he
          exact List.mem_cons_of_mem _ (List.mem_cons_of_mem _ (List.mem_cons_of_mem _ he))
        · intro principal h
          obtain rfl := Option.some.inj h
          exact ⟨cert, user, admin, rfl, rfl, rfl⟩
    · exact sessionMeets_pure ⟨List.Subset.refl _, fun principal h => by cases h⟩

/-- The admin claim comes from the table `admins`. -/
theorem isSome_of_authorizes {cert : X509Certificate2} {user : User} {admin : Option Admin}
    (h : Startup.adminPolicy.authorizes (certificatePrincipal F cert user admin) = true) :
    admin.isSome = true := by
  by_contra hnone
  simp only [AuthorizationPolicy.authorizes, Startup.adminPolicy, List.all_cons, List.all_nil,
    Requirement.isMet, Bool.and_true, Bool.and_eq_true, certificatePrincipal, List.any_cons,
    List.any_nil, Bool.or_false, Bool.or_eq_true, List.any_eq_true, decide_eq_true_eq] at h
  rcases h.2 with ⟨claim, hclaim, htype⟩ | hclaim
  · exact (F.certificateClaims_type cert claim hclaim).1 htype
  · rw [if_neg hnone] at hclaim
    simp [User.toClaimsIdentity] at hclaim

/-- A cookie has no admin claim. -/
theorem not_authorizes_of_isCookiePrincipal {principal : ClaimsPrincipal} {uid : String}
    (h : IsCookiePrincipal principal uid) : Startup.adminPolicy.authorizes principal = false := by
  obtain ⟨user, -, rfl⟩ := h
  simp [AuthorizationPolicy.authorizes, Startup.adminPolicy, Requirement.isMet,
    User.toClaimsIdentity]

/-! ## The requests -/

theorem CameWithCookie.mono {uid : String} {evs' : List SessionEvent} (h : CameWithCookie i uid evs)
    (hsub : evs ⊆ evs') : CameWithCookie i uid evs' := by
  obtain ⟨ticket, huser, hmem⟩ := h
  exact ⟨ticket, huser, hsub hmem⟩

/-- What the schemes of a policy tell. -/
structure SupportedResult (i : ℕ) (evs : List SessionEvent) (result : Authentication) : Prop where
  principal : ∀ principal, result.principal = some principal → Supported i evs principal
  refresh : ∀ t, result.refresh = some t →
    ∃ uid, IsCookiePrincipal t.principal uid ∧ CameWithCookie i uid evs

theorem SupportedResult.mono {evs' : List SessionEvent} {result : Authentication}
    (h : SupportedResult i evs result) (hsub : evs ⊆ evs') : SupportedResult i evs' result := by
  refine ⟨?_, ?_⟩
  · intro principal hp identity hidentity hcookie
    obtain ⟨user, huser, hcame⟩ := h.principal principal hp identity hidentity hcookie
    exact ⟨user, huser, hcame.mono hsub⟩
  · intro t ht
    obtain ⟨uid, hprincipal, hcame⟩ := h.refresh t ht
    exact ⟨uid, hprincipal, hcame.mono hsub⟩

theorem supported_certificatePrincipal {cert : X509Certificate2} {user : User}
    {admin : Option Admin} : Supported i evs (certificatePrincipal F cert user admin) := by
  intro identity hidentity hcookie
  exfalso
  apply hcookie
  rcases List.mem_cons.1 hidentity with rfl | hidentity
  · rfl
  · obtain rfl := List.mem_singleton.1 hidentity
    split_ifs <;> rfl

theorem supported_of_isCookiePrincipal {principal : ClaimsPrincipal} {uid : String}
    (h : IsCookiePrincipal principal uid) (hcame : CameWithCookie i uid evs) :
    Supported i evs principal := by
  obtain ⟨user, rfl, rfl⟩ := h
  intro identity hidentity _
  obtain rfl := List.mem_singleton.1 hidentity
  exact ⟨user, rfl, hcame⟩

theorem supported_merge {existing : Option ClaimsPrincipal} {additional : ClaimsPrincipal}
    (h : ∀ principal, existing = some principal → Supported i evs principal)
    (hadditional : Supported i evs additional) :
    Supported i evs (mergeUserPrincipal existing additional) := by
  cases existing with
  | none => exact hadditional
  | some existing =>
    intro identity hidentity
    rcases List.mem_append.1 hidentity with hmem | hmem
    · exact hadditional identity hmem
    · exact h existing rfl identity (List.mem_filter.1 hmem).1

/-- Whatever the schemes are, each identity of the merged principal is supported. -/
theorem sessionMeets_authenticate (credentials : Credentials) (schemes : List AuthenticationScheme)
    (result : Authentication) (h : SupportedResult i evs result) :
    SessionMeets F P i req evs (authenticate F P credentials schemes result) fun result evs' =>
      ∀ r, result = some r → SupportedResult i evs' r := by
  induction schemes generalizing evs result with
  | nil =>
    apply sessionMeets_pure
    intro r hr
    obtain rfl := Option.some.inj hr
    exact h
  | cons scheme schemes ih =>
    cases scheme with
    | certificate =>
      apply sessionMeets_bind
      apply sessionMeets_mono (sessionMeets_authenticateCertificate credentials.clientCertificate)
      rintro principal evs' ⟨hsub, hanswer⟩
      cases principal with
      | none => exact ih result (h.mono hsub)
      | some principal =>
        apply ih
        have h' := h.mono hsub
        obtain ⟨cert, user, admin, -, rfl, -⟩ := hanswer principal rfl
        refine ⟨?_, h'.refresh⟩
        intro principal hp
        obtain rfl := Option.some.inj hp
        exact supported_merge h'.principal supported_certificatePrincipal
    | cookie =>
      apply sessionMeets_bind
      apply sessionMeets_mono (sessionMeets_authenticateCookie credentials.cookie)
      rintro answer evs' ⟨hsub, hanswer⟩
      cases answer with
      | threw =>
        apply sessionMeets_pure
        intro r hr
        cases hr
      | noPrincipal => exact ih result (h.mono hsub)
      | success principal refresh =>
        apply ih
        have h' := h.mono hsub
        obtain ⟨uid, hprincipal, hcame, hrefresh⟩ := hanswer
        refine ⟨?_, ?_⟩
        · intro merged hp
          obtain rfl := Option.some.inj hp
          exact supported_merge h'.principal (supported_of_isCookiePrincipal hprincipal hcame)
        · intro t ht
          exact ⟨uid, hrefresh t ht, hcame⟩

/-- The admin policy authenticates nothing but the certificate. -/
theorem sessionMeets_authenticate_admin (credentials : Credentials) :
    SessionMeets F P i req evs
      (authenticate F P credentials Startup.adminPolicy.schemes ⟨none, none⟩) fun result evs' =>
      ∀ r, result = some r → r.refresh = none ∧ ∀ principal, r.principal = some principal →
        CertificateAnswer F P i credentials.clientCertificate evs evs' principal := by
  apply sessionMeets_bind
  apply sessionMeets_mono (sessionMeets_authenticateCertificate credentials.clientCertificate)
  rintro principal evs' ⟨-, hanswer⟩
  cases principal with
  | none =>
    apply sessionMeets_pure
    intro r hr
    obtain rfl := Option.some.inj hr
    exact ⟨rfl, fun principal h => by cases h⟩
  | some principal =>
    apply sessionMeets_pure
    intro r hr
    obtain rfl := Option.some.inj hr
    refine ⟨rfl, fun principal' h => ?_⟩
    obtain rfl := Option.some.inj h
    exact hanswer principal rfl

theorem sessionMeets_finishResponse {refresh : Option AuthenticationTicket} {reply : SessionReply}
    (h : ∀ t, refresh = some t → SignsIn i req t evs) :
    SessionMeets F P i req evs (finishResponse refresh reply) fun _ _ => True := by
  cases refresh with
  | none => exact sessionMeets_pure trivial
  | some ticket =>
    apply sessionMeets_bind
    apply sessionMeets_signIn (h ticket rfl)
    exact sessionMeets_pure trivial

/-- What the authentication has to tell before an action starts. -/
theorem sessionMeets_access {endpoint : Endpoint} {credentials : Credentials}
    (h : SessionMeets F P i req evs
      (authenticate F P credentials endpoint.policy.schemes ⟨none, none⟩) fun result evs' =>
      ∀ r, result = some r → (∀ t, r.refresh = some t → SignsIn i req t evs') ∧
        ∀ principal, r.principal = some principal → endpoint.policy.authorizes principal = true →
          Enters P i req endpoint principal evs') :
    SessionMeets F P i req evs (access F P endpoint credentials) fun _ _ => True := by
  apply sessionMeets_bind
  apply sessionMeets_mono h
  intro result evs' hresult
  cases result with
  | none => exact sessionMeets_pure trivial
  | some r =>
    obtain ⟨hrefresh, henters⟩ := hresult r rfl
    cases hp : r.principal with
    | none =>
      simp only [hp]
      exact sessionMeets_finishResponse hrefresh
    | some principal =>
      simp only [hp]
      split_ifs with hauthorizes hlogout
      · apply sessionMeets_bind
        apply sessionMeets_enter (henters principal hp hauthorizes)
        exact sessionMeets_pure trivial
      · apply sessionMeets_bind
        apply sessionMeets_enter (henters principal hp hauthorizes)
        exact sessionMeets_finishResponse hrefresh
      · exact sessionMeets_finishResponse hrefresh

theorem sessionMeets_request (endpoint : Endpoint) (credentials : Credentials) :
    SessionMeets F P i (.access endpoint credentials) [] (access F P endpoint credentials)
      fun _ _ => True := by
  have hnothing : SupportedResult i [] ⟨none, none⟩ :=
    ⟨fun principal h => (by cases h), fun t h => (by cases h)⟩
  have hdefault : endpoint ≠ .adminIndex → SessionMeets F P i (.access endpoint credentials) []
      (access F P endpoint credentials) fun _ _ => True := by
    intro hne
    apply sessionMeets_access
    apply sessionMeets_mono (sessionMeets_authenticate credentials _ _ hnothing)
    intro result evs' hresult r hr
    have hsupported := hresult r hr
    refine ⟨?_, ?_⟩
    · intro t ht
      obtain ⟨uid, hprincipal, hcame⟩ := hsupported.refresh t ht
      exact ⟨uid, hprincipal, Or.inr hcame⟩
    · intro principal hp _
      exact ⟨fun h => absurd h hne, hsupported.principal principal hp⟩
  cases endpoint with
  | authorized => exact hdefault (by decide)
  | logout => exact hdefault (by decide)
  | adminIndex =>
    apply sessionMeets_access
    apply sessionMeets_mono (sessionMeets_authenticate_admin credentials)
    intro result evs' hresult r hr
    obtain ⟨hrefresh, hanswer⟩ := hresult r hr
    refine ⟨?_, ?_⟩
    · intro t ht
      rw [hrefresh] at ht
      cases ht
    · intro principal hp hauthorizes
      obtain ⟨cert, user, admin, hcert, rfl, hevs⟩ := hanswer principal hp
      obtain ⟨a, rfl⟩ := Option.isSome_iff_exists.1 (isSome_of_authorizes hauthorizes)
      exact ⟨fun _ => ⟨credentials, cert, user, a, rfl, hcert, hevs⟩,
        supported_certificatePrincipal⟩

theorem sessionMeets_login (loginDetails : LoginDetails) (returnUrl : Option String) :
    SessionMeets F P i (.login loginDetails returnUrl) []
      (AccountController.login P loginDetails returnUrl) fun _ _ => True := by
  unfold AccountController.login
  split_ifs
  · exact sessionMeets_pure trivial
  · apply sessionMeets_bind
    apply sessionMeets_findUser
    intro user hrow
    split
    · exact sessionMeets_pure trivial
    · rename_i u hu
      apply sessionMeets_bind
      apply sessionMeets_clock
      intro now
      apply sessionMeets_bind
      apply sessionMeets_clock
      intro issuedUtc
      apply sessionMeets_bind
      apply sessionMeets_findAdmin
      intro admin
      cases admin with
      | some admin => exact sessionMeets_pure trivial
      | none =>
        apply sessionMeets_bind
        apply sessionMeets_signIn
        · exact ⟨u.id, ⟨u, rfl, rfl⟩, Or.inl ⟨⟨_, _, rfl⟩, List.mem_cons_self⟩⟩
        · exact sessionMeets_pure trivial

/-! ## Every interleaving -/

/-- A configuration of the sessions. -/
abbrev SessionConfiguration := Config SessionRequest SessionOp SessionOp.Res SessionState SessionReply

/-- The requests of the sessions respect each other. -/
def sessionContracts (F : Framework) (P : Platform) : Logic (sessions F P) where
  start i s := s.own i = [] ∧ s.CookieTickets
  rely := SessionRely
  contract := SessionOp.Contract P
  post _ _ _ _ := True
  rely_refl _ _ := ⟨rfl, id⟩
  rely_trans h₁ h₂ := ⟨h₂.1.trans h₁.1, h₂.2 ∘ h₁.2⟩
  start_rely h hr := ⟨hr.1.trans h.1, hr.2 h.2⟩
  env_rely i e s := by
    cases e <;> exact ⟨rfl, id⟩
  exec_rely _ hij h := sessionRely_run hij h
  safe := by
    rintro i req s ⟨hs, htickets⟩
    cases req with
    | login loginDetails returnUrl =>
      exact Machine.safe_mono (fun _ _ _ => trivial)
        (sessionMeets_login loginDetails returnUrl s hs htickets)
    | access endpoint credentials =>
      exact Machine.safe_mono (fun _ _ _ => trivial)
        (sessionMeets_request endpoint credentials s hs htickets)

/-- No request has come and no cookie was handed out. -/
structure SessionState.Fresh (s : SessionState) : Prop where
  tickets : s.tickets = []
  history : s.history = []

theorem sessionStart_of_fresh {s₀ : SessionState} (h₀ : s₀.Fresh) (i : ℕ) :
    (sessionContracts F P).start i s₀ := by
  refine ⟨?_, ?_⟩
  · rw [SessionState.own, h₀.history]
    rfl
  · intro t ht
    rw [h₀.tickets] at ht
    cases ht

/-- In every interleaving, each operation meets its contract. -/
theorem sessionContract_of_reaches {s₀ : SessionState} (h₀ : s₀.Fresh) {c : SessionConfiguration}
    (h : (sessions F P).Reaches (.initial s₀) c) {e : SessionOp}
    {k : e.Res → SessionProgram SessionReply} (hi : c.procs i = some (req, .op e k)) :
    e.Contract P i req c.shared :=
  Logic.contract_of_reaches (L := sessionContracts F P) (sessionStart_of_fresh h₀) h hi

/-- In every interleaving, each ticket is the one of a user. -/
theorem cookieTickets_of_reaches {s₀ : SessionState} (h₀ : s₀.Fresh) {c : SessionConfiguration}
    (h : (sessions F P).Reaches (.initial s₀) c) : c.shared.CookieTickets := by
  apply Logic.invariant (L := sessionContracts F P) (sessionStart_of_fresh h₀)
    (sessionStart_of_fresh (F := F) (P := P) h₀ 0).2 _ _ h
  · intro c i r e ch hreach htickets hcontract
    exact (sessionRely_run (Nat.lt_succ_self i).ne' hcontract).2 htickets
  · intro e s htickets
    cases e <;> exact htickets

end IMoviesCA
