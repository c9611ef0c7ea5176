import IMoviesCA.SessionContract
import IMoviesCA.CertificateLogin
import IMoviesCA.Lib.Moments

/-!
# Who reaches the dashboard

`CertificateValidated` reads the row of the user and then the one of the admin, each by itself, and
the action starts after both.  A request therefore reaches `AdminController.Index` only with a client
certificate that the framework has accepted, and whose common name was the id of a user at one
moment of the request and the id of an admin at a later one (`adminIndex_of_run`); it need not be
both at one time.  No principal that is made of cookies satisfies the admin policy.
-/

namespace IMoviesCA

open CertificateAuthenticationDBValidator

variable {F : Framework} {P : Platform} {s₀ : SessionState} {c : SessionConfiguration}

/-! ## Events -/

/-- What an event says of the state that it happened in. -/
def SessionEvent.Says (F : Framework) : SessionEvent → SessionState → Prop
  | userRead _ uid user, s => user = s.users.find? uid
  | adminRead _ uid admin, s => admin = s.admins.find? uid
  | certificateAccepted _ cert, s => F.validates s.now cert = true
  | ticketAccepted _ ticket, s => ticket ∈ s.tickets ∧ s.now ≤ ticket.expiresUtc

theorem history_env (e : SessionEnv) (s : SessionState) : (e.run s).history = s.history := by
  cases e <;> rfl

theorem logs_sessionHistory (F : Framework) (P : Platform) :
    (sessions F P).Logs SessionState.history := by
  refine ⟨fun e s => ?_, fun i e ch s => ?_⟩
  · exact history_env e s
  · have heffect := effect_run F i e s
    show (e.run F i s).2.history = _ ∨ ∃ ev, (e.run F i s).2.history = _
    generalize (e.run F i s).2 = s' at heffect
    cases heffect with
    | none => exact Or.inl rfl
    | event ev => exact Or.inr ⟨ev, rfl⟩
    | signIn t => exact Or.inl rfl

theorem says_of_run {i : ℕ} {e : SessionOp} {s : SessionState} {ev : SessionEvent}
    (h : (e.run F i s).2.history = ev :: s.history) : ev.Says F s ∧ ev.pid = i := by
  have hne : s.history ≠ ev :: s.history := fun heq => by simpa using congrArg List.length heq
  cases e with
  | clock | signIn | enter => exact absurd h hne
  | findUser uid =>
    obtain ⟨rfl, -⟩ := List.cons.inj h
    exact ⟨rfl, rfl⟩
  | findAdmin uid =>
    obtain ⟨rfl, -⟩ := List.cons.inj h
    exact ⟨rfl, rfl⟩
  | validateCertificate cert =>
    simp only [SessionOp.run] at h
    split at h
    · rename_i hvalid
      obtain ⟨rfl, -⟩ := List.cons.inj h
      exact ⟨hvalid, rfl⟩
    · exact absurd h hne
  | readTicket ticket =>
    simp only [SessionOp.run] at h
    split at h
    · rename_i hvalid
      obtain ⟨rfl, -⟩ := List.cons.inj h
      exact ⟨hvalid, rfl⟩
    · exact absurd h hne

/-- The moment before an event: what it says holds, and the request of its process has come. -/
theorem says_of_adds {b : SessionConfiguration} {ev : SessionEvent}
    (h : (sessions F P).Adds SessionState.history b ev) :
    ev.Says F b.shared ∧ ∃ req, b.request ev.pid = some req := by
  obtain ⟨i, req, e, ch, k, hi, hev⟩ := h.exec (logs_sessionHistory F P)
  obtain ⟨hmeans, rfl⟩ := says_of_run hev
  exact ⟨hmeans, req, by simp [Config.request, hi]⟩

/-! ## The dashboard -/

/-- The request carries a client certificate that the framework accepted during the request, and
whose common name was then found among the users, and after that among the admins. -/
def AdmittedAsAdmin (F : Framework) (P : Platform) (s₀ : SessionState)
    (as : List (Act SessionRequest Unit SessionEnv)) (c : SessionConfiguration) (i : ℕ)
    (req : SessionRequest) : Prop :=
  ∃ credentials cert b₁ b₂ b₃, req = .access .adminIndex credentials ∧
    credentials.clientCertificate = some cert ∧
    (sessions F P).Via as (.initial s₀) [b₁, b₂, b₃] c ∧ b₁.request i = some req ∧
    F.validates b₁.shared.now cert = true ∧
    (b₂.shared.users.find? (getNameInfo P cert)).isSome = true ∧
    (b₃.shared.admins.find? (getNameInfo P cert)).isSome = true

/-- The certificate was accepted, and at one moment of the request its common name is the id of a user
and of an admin. -/
def AdminAtOneMoment (F : Framework) (P : Platform) (s₀ : SessionState)
    (as : List (Act SessionRequest Unit SessionEnv)) (c : SessionConfiguration) (i : ℕ)
    (req : SessionRequest) : Prop :=
  ∃ credentials cert b, req = .access .adminIndex credentials ∧
    credentials.clientCertificate = some cert ∧
    (sessions F P).Via as (.initial s₀) [b] c ∧ b.request i = some req ∧
    (b.shared.users.find? (getNameInfo P cert)).isSome = true ∧
    (b.shared.admins.find? (getNameInfo P cert)).isSome = true

/-- No principal that is made of cookies satisfies the admin policy. -/
structure NoAdminCookie (c : SessionConfiguration) : Prop where
  tickets : ∀ t ∈ c.shared.tickets, Startup.adminPolicy.authorizes t.principal = false
  principals : ∀ i req endpoint principal k,
    c.procs i = some (req, .op (.enter endpoint principal) k) →
    (∀ identity ∈ principal.identities, identity.IsFromCookie) →
      Startup.adminPolicy.authorizes principal = false

theorem not_authorizes_of_supported {i : ℕ} {evs : List SessionEvent} {principal : ClaimsPrincipal}
    (hsupported : Supported i evs principal)
    (hcookie : ∀ identity ∈ principal.identities, identity.IsFromCookie) :
    Startup.adminPolicy.authorizes principal = false := by
  have hclaims : ∀ identity ∈ principal.identities, ∀ claim ∈ identity.claims, claim.type ≠ .admin := by
    intro identity hidentity
    obtain ⟨user, rfl, -⟩ := hsupported identity hidentity (hcookie identity hidentity)
    simp [User.toClaimsIdentity]
  have hnot : Requirement.isMet principal (.claim .admin) = false := by
    simp only [Requirement.isMet, List.any_eq_false, decide_eq_true_eq, List.any_eq_true, not_exists,
      not_and]
    exact hclaims
  simp [AuthorizationPolicy.authorizes, Startup.adminPolicy, hnot]

theorem noAdminCookie_of_reaches (h₀ : s₀.Fresh) (h : (sessions F P).Reaches (.initial s₀) c) :
    NoAdminCookie c := by
  refine ⟨?_, ?_⟩
  · intro t ht
    obtain ⟨uid, hprincipal⟩ := cookieTickets_of_reaches h₀ h t ht
    exact not_authorizes_of_isCookiePrincipal hprincipal
  · intro i req endpoint principal k hi
    have hcontract : Enters P i req endpoint principal (c.shared.own i) :=
      sessionContract_of_reaches h₀ h hi
    exact not_authorizes_of_supported hcontract.supported

/-- A request reaches `AdminController.Index` only with a certificate that was accepted, whose common
name was the id of a user and after that the id of an admin, and no cookie makes an admin. -/
theorem adminIndex_of_run (F : Framework) (P : Platform) {s₀ : SessionState} (h₀ : s₀.Fresh)
    {as : List (Act SessionRequest Unit SessionEnv)} {c : SessionConfiguration}
    (hrun : (sessions F P).run as (.initial s₀) = some c) :
    (∀ i req principal k, c.procs i = some (req, .op (.enter .adminIndex principal) k) →
      AdmittedAsAdmin F P s₀ as c i req) ∧ NoAdminCookie c := by
  have hreach := System.reaches_of_run hrun
  refine ⟨?_, noAdminCookie_of_reaches h₀ hreach⟩
  intro i req principal k hi
  have hcontract : Enters P i req .adminIndex principal (c.shared.own i) :=
    sessionContract_of_reaches h₀ hreach hi
  obtain ⟨credentials, cert, user, admin, hreq, hcert, hown⟩ := hcontract.admin rfl
  obtain ⟨bs, hvia, hadds⟩ := System.moments_of_log (logs_sessionHistory F P)
    (fun ev => ev.pid = i) h₀.history hrun
  have hown' : c.shared.history.filter (fun ev => ev.pid = i) = _ := hown
  rw [hown'] at hadds
  obtain ⟨b₁, b₂, b₃, rfl, h₁, h₂, h₃⟩ := System.exists_moments hadds
  obtain ⟨hvalid, req', hreq'⟩ := says_of_adds h₁
  obtain ⟨huser, -⟩ := says_of_adds h₂
  obtain ⟨hadmin, -⟩ := says_of_adds h₃
  have hb₁ : (sessions F P).Reaches b₁ c :=
    (List.pairwise_cons.1 (List.pairwise_cons.1 hvia.reaches).2).1 c (by simp)
  have hlater := System.request_of_reaches hb₁ hreq'
  have hsame : req' = req := by
    have hc : c.request i = some req := by simp [Config.request, hi]
    exact Option.some.inj (hlater.symm.trans hc)
  refine ⟨credentials, cert, b₁, b₂, b₃, hreq, hcert, hvia, ?_, hvalid, ?_, ?_⟩
  · rw [← hsame]
    exact hreq'
  · have huser : some user = _ := huser
    rw [← huser]
    rfl
  · have hadmin : some admin = _ := hadmin
    rw [← hadmin]
    rfl

section

open Deployment

/-- A framework that accepts the certificate of `a3`. -/
def andresFramework : Framework where
  trustStore := trustStore
  crls _ := []
  chainElements cert := [cert, caCertificate coreCA 2, caCertificate rootCA 0]
  validates now cert := decide (now = 0 ∧ cert = andresCertificate)
  validates_accepts now cert h := by
    obtain ⟨rfl, rfl⟩ := of_decide_eq_true h
    exact frameworkAccepts_intermediate coreCA 2 (by decide) ⟨rfl, rfl⟩ (by decide)
      [oidClientAuth, oidEmailProtection] (by decide) (by decide)
  certificateClaims _ := []
  certificateClaims_type := noClaims

/-- The web server with the user `a3` and these admins. -/
def dashboard (admins : Table Admin) : SessionState where
  now := 0
  users := users
  admins := admins
  tickets := []
  history := []

theorem fresh_dashboard (admins : Table Admin) : (dashboard admins).Fresh := ⟨rfl, rfl⟩

/-- The dashboard is requested with a certificate and without a cookie. -/
def indexRequest : SessionRequest := .access .adminIndex ⟨some andresCertificate, none⟩

/-- The dashboard is requested by an admin. -/
def visit : List (Act SessionRequest Unit SessionEnv) :=
  .arrive 0 indexRequest :: List.replicate 3 (.step 0 ())

/-- The user is deleted between the two reads, and then the id is made an admin. -/
def visitAcrossChange : List (Act SessionRequest Unit SessionEnv) :=
  .arrive 0 indexRequest :: (List.replicate 2 (.step 0 ()) ++
    [.env (.setUsers ∅), .env (.insertAdmin ⟨"a3"⟩), .step 0 ()])

/-- Process `i` is about to start `AdminController.Index`. -/
def entersIndex (c : SessionConfiguration) (i : ℕ) : Bool :=
  match c.procs i with
  | some (_, .op (.enter .adminIndex _) _) => true
  | _ => false

theorem exists_of_entersIndex {i : ℕ} (h : entersIndex c i = true) :
    ∃ req principal k, c.procs i = some (req, .op (.enter .adminIndex principal) k) := by
  unfold entersIndex at h
  split at h
  · rename_i req principal k hi
    exact ⟨req, principal, k, hi⟩
  · cases h

theorem adminIndex_visit : ∃ c req, c.request 0 = some req ∧
    AdmittedAsAdmin andresFramework platform (dashboard ⟨[⟨"a3"⟩], by decide⟩) visit c 0 req := by
  have hrun : ((sessions andresFramework platform).run visit
      (.initial (dashboard ⟨[⟨"a3"⟩], by decide⟩))).any (fun c => entersIndex c 0) = true := by
    decide +kernel
  obtain ⟨c, hc, henters⟩ := (Option.any_eq_true _ _).1 hrun
  obtain ⟨req, principal, k, hi⟩ := exists_of_entersIndex henters
  exact ⟨c, req, by simp [Config.request, hi],
    (adminIndex_of_run andresFramework platform (fresh_dashboard _) hc).1 0 req principal k hi⟩

/-- At no moment of the visit is the id both that of a user and that of an admin. -/
def neverBoth (as : List (Act SessionRequest Unit SessionEnv)) (s₀ : SessionState) : Bool :=
  (List.range (as.length + 1)).all fun n =>
    ((sessions andresFramework platform).run (as.take n) (.initial s₀)).all fun b =>
      !((b.request 0).isSome && (b.shared.users.find? "a3").isSome &&
        (b.shared.admins.find? "a3").isSome)

theorem adminIndex_never_admin : ¬ ∀ (F : Framework) (P : Platform) (s₀ : SessionState)
    (as : List (Act SessionRequest Unit SessionEnv)) (c : SessionConfiguration) (i : ℕ)
    (req : SessionRequest) (principal : ClaimsPrincipal)
    (k : Unit → SessionProgram SessionReply), s₀.Fresh →
    (sessions F P).run as (.initial s₀) = some c →
    c.procs i = some (req, .op (.enter .adminIndex principal) k) →
      AdminAtOneMoment F P s₀ as c i req := by
  intro hclaim
  have hrun : ((sessions andresFramework platform).run visitAcrossChange
      (.initial (dashboard ∅))).any (fun c => entersIndex c 0 &&
        decide (c.request 0 = some indexRequest)) = true := by decide +kernel
  have hnever : neverBoth visitAcrossChange (dashboard ∅) = true := by decide +kernel
  obtain ⟨c, hc, hcheck⟩ := (Option.any_eq_true _ _).1 hrun
  rw [Bool.and_eq_true] at hcheck
  obtain ⟨req, principal, k, hi⟩ := exists_of_entersIndex hcheck.1
  obtain rfl : req = indexRequest := by
    have hreq := of_decide_eq_true hcheck.2
    rw [Config.request, hi] at hreq
    exact Option.some.inj hreq
  obtain ⟨credentials, cert, b, hreq, hcert, hvia, harrived, huser, hadmin⟩ :=
    hclaim _ _ _ _ c 0 _ principal k (fresh_dashboard ∅) hc hi
  obtain ⟨-, rfl⟩ := SessionRequest.access.inj hreq
  obtain rfl := Option.some.inj hcert
  obtain ⟨as₁, as₂, has, hb, -⟩ := hvia
  -- The moment comes after the first `as₁.length` actions.
  have hlength : as₁.length ∈ List.range (visitAcrossChange.length + 1) := by
    rw [List.mem_range, has, List.length_append]
    omega
  have htest := List.all_eq_true.1 hnever _ hlength
  have htake : visitAcrossChange.take as₁.length = as₁ := by
    rw [has, List.take_left]
  rw [htake, hb] at htest
  have hname : getNameInfo platform andresCertificate = "a3" := by decide
  rw [hname] at huser hadmin
  rw [Option.all_some, harrived, huser, hadmin] at htest
  cases htest

end

end IMoviesCA
