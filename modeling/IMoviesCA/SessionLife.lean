import IMoviesCA.AdminBan
import IMoviesCA.CookieValidation

/-!
# The life of a session

A cookie is good for an hour.  The cookie handler renews one that is past half of its time, or whose
claims are outdated, and the new one is good for as long as the old one was; nothing limits how often,
and the password is never looked at again.  `Lineage` is the chain of tickets that goes back to a login
with the password of the user, each of them handed out by a request that came with the one before.

In every run, the tickets in the cookies have such a lineage, and so has the ticket of every request
that is accepted on the strength of a cookie alone; and a ticket that has not expired can be renewed any
number of times (`lineage_of_reaches`).
-/

namespace IMoviesCA

variable {F : Framework} {P : Platform} {i : ℕ} {req : SessionRequest} {evs : List SessionEvent}
  {T : Time}

/-! ## What precedes the handing out of a cookie -/

/-- How long the cookie of a login is good for. -/
def sessionTime : Time := addMinutes 0 60

/-- The ticket of a login: the request read the row of the user with the hash of the password, and did
not find the user among the admins. -/
structure HandedOutByLogin (P : Platform) (i : ℕ) (req : SessionRequest) (t : AuthenticationTicket)
    (evs : List SessionEvent) : Prop where
  login : ∃ loginDetails returnUrl user, req = .login loginDetails returnUrl ∧
    .userRead i loginDetails.id (some user) ∈ evs ∧ .adminRead i loginDetails.id none ∈ evs ∧
    user.passwordHash = AccountController.passwordHash P loginDetails.password ∧
    t.user? = some loginDetails.id
  expires : t.expiresUtc ≤ t.issuedUtc + sessionTime

/-- The ticket `t'` renews `t`, with which the request came. -/
structure Renews (i : ℕ) (t t' : AuthenticationTicket) (evs : List SessionEvent) : Prop where
  accepted : .ticketAccepted i t ∈ evs
  user : t'.user? = t.user?
  issued : t.issuedUtc ≤ t'.issuedUtc
  expires : t'.expiresUtc = t'.issuedUtc + (t.expiresUtc - t.issuedUtc)

/-- The request hands out a ticket: at a login, or in place of another one. -/
def HandsOut (P : Platform) (i : ℕ) (req : SessionRequest) (t : AuthenticationTicket)
    (evs : List SessionEvent) : Prop :=
  HandedOutByLogin P i req t evs ∨ ∃ t₀, Renews i t₀ t evs

/-- No ticket is of a later time. -/
def SessionState.Issued (s : SessionState) : Prop := ∀ t ∈ s.tickets, t.issuedUtc ≤ s.now

/-- What the access that hands out a ticket tells of its request. -/
def SessionOp.TicketContract (P : Platform) (i : ℕ) (req : SessionRequest) :
    SessionOp → SessionState → Prop
  | signIn t, s => HandsOut P i req t (s.own i) ∧ t.issuedUtc ≤ s.now
  | _, _ => True

/-- What happens between two operations of process `i`. -/
structure TicketRely (i : ℕ) (s s' : SessionState) : Prop where
  own : s'.own i = s.own i
  now : s.now ≤ s'.now
  issued : s.Issued → s'.Issued

theorem now_run (F : Framework) (i : ℕ) (e : SessionOp) (s : SessionState) :
    (e.run F i s).2.now = s.now := by
  have heffect := effect_run F i e s
  generalize (e.run F i s).2 = s' at heffect
  cases heffect <;> rfl

theorem issued_run {e : SessionOp} {s : SessionState} (h : e.TicketContract P i req s)
    (hissued : s.Issued) : (e.run F i s).2.Issued := by
  have heffect := effect_run F i e s
  generalize (e.run F i s).2 = s' at heffect
  cases heffect with
  | none => exact hissued
  | event ev hev => exact hissued
  | signIn t =>
    intro t' ht'
    rcases List.mem_cons.1 ht' with rfl | ht'
    · exact h.2
    · exact hissued t' ht'

theorem ticketRely_run {j : ℕ} (hij : i ≠ j) {e : SessionOp} {s : SessionState}
    (h : e.TicketContract P j req s) : TicketRely i s (e.run F j s).2 where
  own := own_run_of_ne hij e s
  now := (now_run F j e s).ge
  issued := issued_run h

/-! ## Rules -/

/-- A program of process `i`, started at a time from `T` on with the events `evs`: each operation meets
its contract, and the result meets `post`. -/
def TicketMeets {α : Type} (F : Framework) (P : Platform) (i : ℕ) (req : SessionRequest)
    (evs : List SessionEvent) (T : Time) (p : SessionProgram α)
    (post : α → List SessionEvent → Time → Prop) : Prop :=
  ∀ s : SessionState, s.own i = evs → T ≤ s.now → s.Issued →
    (sessions F P).Safe i (TicketRely i) (SessionOp.TicketContract P i req)
      (fun a s' => s'.Issued ∧ post a (s'.own i) s'.now) p s

section Rules

variable {α β : Type} {post : α → List SessionEvent → Time → Prop}

theorem ticketMeets_pure {a : α} (h : ∀ t, T ≤ t → post a evs t) :
    TicketMeets F P i req evs T (pure a) post := by
  rintro s rfl hT hissued
  exact ⟨hissued, h s.now hT⟩

theorem ticketMeets_bind {post : β → List SessionEvent → Time → Prop} {p : SessionProgram α}
    {f : α → SessionProgram β}
    (h : TicketMeets F P i req evs T p fun a evs' T' => TicketMeets F P i req evs' T' (f a) post) :
    TicketMeets F P i req evs T (p >>= f) post := by
  intro s hs hT hissued
  apply Machine.safe_bind _ (h s hs hT hissued)
  rintro a s' ⟨hissued', ha⟩
  exact ha s' rfl (le_refl _) hissued'

theorem ticketMeets_mono {post' : α → List SessionEvent → Time → Prop} {p : SessionProgram α}
    (h : TicketMeets F P i req evs T p post') (hpost : ∀ a evs t, post' a evs t → post a evs t) :
    TicketMeets F P i req evs T p post := by
  intro s hs hT hissued
  exact Machine.safe_mono (fun a s' ha => ⟨ha.1, hpost a _ _ ha.2⟩) (h s hs hT hissued)

/-- The rule of an operation that hands out no cookie. -/
theorem ticketMeets_perform {e : SessionOp} {post : e.Res → List SessionEvent → Time → Prop}
    (hsignIn : ∀ t, e ≠ .signIn t)
    (h : ∀ s, s.own i = evs → T ≤ s.now → s.Issued →
      post (e.run F i s).1 ((e.run F i s).2.own i) s.now) :
    TicketMeets F P i req evs T (Program.perform e) post := by
  intro s hs hT hissued
  apply Machine.safe_perform
  intro s₁ hr
  have hcontract : e.TicketContract P i req s₁ := by
    cases e with
    | signIn t => exact absurd rfl (hsignIn t)
    | _ => trivial
  refine ⟨hcontract, fun _ => ⟨issued_run hcontract (hr.issued hissued), ?_⟩⟩
  show post (e.run F i s₁).1 ((e.run F i s₁).2.own i) (e.run F i s₁).2.now
  rw [now_run]
  exact h s₁ (hr.own.trans hs) (hT.trans hr.now) (hr.issued hissued)

theorem ticketMeets_clock {post : Time → List SessionEvent → Time → Prop}
    (h : ∀ now, T ≤ now → post now evs now) : TicketMeets F P i req evs T Session.clock post := by
  apply ticketMeets_perform (e := .clock) (fun t => by simp)
  rintro s rfl hT -
  exact h s.now hT

theorem ticketMeets_findUser {uid : String} {post : Option User → List SessionEvent → Time → Prop}
    (h : ∀ user t, T ≤ t → (∀ u, user = some u → u.id = uid) →
      post user (.userRead i uid user :: evs) t) :
    TicketMeets F P i req evs T (Session.findUser uid) post := by
  apply ticketMeets_perform (e := .findUser uid) (fun t => by simp)
  rintro s rfl hT -
  show post (s.users.find? uid) ((s.record _).own i) s.now
  rw [own_record_self (i := i) rfl]
  exact h _ _ hT fun u hu => (Table.find?_eq_some_iff.1 hu).2

theorem ticketMeets_findAdmin {uid : String} {post : Option Admin → List SessionEvent → Time → Prop}
    (h : ∀ admin t, T ≤ t → post admin (.adminRead i uid admin :: evs) t) :
    TicketMeets F P i req evs T (Session.findAdmin uid) post := by
  apply ticketMeets_perform (e := .findAdmin uid) (fun t => by simp)
  rintro s rfl hT -
  show post (s.admins.find? uid) ((s.record _).own i) s.now
  rw [own_record_self (i := i) rfl]
  exact h _ _ hT

theorem ticketMeets_validateCertificate {cert : X509Certificate2}
    {post : Bool → List SessionEvent → Time → Prop}
    (htrue : ∀ t, T ≤ t → post true (.certificateAccepted i cert :: evs) t)
    (hfalse : ∀ t, T ≤ t → post false evs t) :
    TicketMeets F P i req evs T (Session.validateCertificate cert) post := by
  apply ticketMeets_perform (e := .validateCertificate cert) (fun t => by simp)
  rintro s rfl hT -
  simp only [SessionOp.run]
  split
  · show post true ((s.record _).own i) s.now
    rw [own_record_self (i := i) rfl]
    exact htrue _ hT
  · exact hfalse _ hT

/-- A ticket that is read was handed out before. -/
theorem ticketMeets_readTicket {ticket : AuthenticationTicket}
    {post : Option Time → List SessionEvent → Time → Prop} (hnone : ∀ t, T ≤ t → post none evs t)
    (hsome : ∀ now, T ≤ now → ticket.issuedUtc ≤ now →
      post (some now) (.ticketAccepted i ticket :: evs) now) :
    TicketMeets F P i req evs T (Session.readTicket ticket) post := by
  apply ticketMeets_perform (e := .readTicket ticket) (fun t => by simp)
  rintro s rfl hT hissued
  simp only [SessionOp.run]
  split
  · rename_i h
    show post (some s.now) ((s.record _).own i) s.now
    rw [own_record_self (i := i) rfl]
    exact hsome _ hT (hissued ticket h.1)
  · exact hnone _ hT

theorem ticketMeets_enter {endpoint : Endpoint} {principal : ClaimsPrincipal}
    {post : Unit → List SessionEvent → Time → Prop} (h : ∀ t, T ≤ t → post () evs t) :
    TicketMeets F P i req evs T (Session.enter endpoint principal) post := by
  apply ticketMeets_perform (e := .enter endpoint principal) (fun t => by simp)
  rintro s rfl hT -
  exact h _ hT

theorem ticketMeets_signIn {ticket : AuthenticationTicket}
    {post : Unit → List SessionEvent → Time → Prop} (hhandsOut : HandsOut P i req ticket evs)
    (hissued : ticket.issuedUtc ≤ T) (h : ∀ t, T ≤ t → post () evs t) :
    TicketMeets F P i req evs T (Session.signIn ticket) post := by
  rintro s rfl hT hs
  apply Machine.safe_perform
  intro s₁ hr
  have hcontract : (SessionOp.signIn ticket).TicketContract P i req s₁ := by
    refine ⟨?_, hissued.trans (hT.trans hr.now)⟩
    rw [hr.own]
    exact hhandsOut
  refine ⟨hcontract, fun _ => ⟨issued_run (F := F) hcontract (hr.issued hs), ?_⟩⟩
  show post () (s₁.own i) s₁.now
  rw [hr.own]
  exact h _ (hT.trans hr.now)

end Rules

/-! ## The handlers of the schemes -/

/-- The ticket of a renewed cookie renews one that was accepted. -/
def RenewsAccepted (i : ℕ) (evs : List SessionEvent) (T : Time) (refresh : Option AuthenticationTicket) :
    Prop :=
  ∀ t, refresh = some t → (∃ t₀, Renews i t₀ t evs) ∧ t.issuedUtc ≤ T

theorem renewsAccepted_none : RenewsAccepted i evs T none := fun t h => by cases h

theorem RenewsAccepted.mono {evs' : List SessionEvent} {T' : Time}
    {refresh : Option AuthenticationTicket} (h : RenewsAccepted i evs T refresh) (hsub : evs ⊆ evs')
    (hT : T ≤ T') : RenewsAccepted i evs' T' refresh := by
  intro t ht
  obtain ⟨⟨t₀, hrenews⟩, hissued⟩ := h t ht
  exact ⟨⟨t₀, hsub hrenews.accepted, hrenews.user, hrenews.issued, hrenews.expires⟩, hissued.trans hT⟩

/-- The ticket of a cookie that the handler renews. -/
def CookieResult.refresh : CookieResult → Option AuthenticationTicket
  | success _ refresh => refresh
  | _ => none

theorem renews_renewed {t : AuthenticationTicket} {principal : ClaimsPrincipal} {now : Time}
    (haccepted : .ticketAccepted i t ∈ evs)
    (huser : (t.renewed principal now).user? = t.user?) (hissued : t.issuedUtc ≤ now) :
    Renews i t (t.renewed principal now) evs := ⟨haccepted, huser, hissued, rfl⟩

theorem ticketMeets_authenticateCookie (cookie : Option AuthenticationTicket) :
    TicketMeets F P i req evs T (authenticateCookie cookie) fun result evs' T' =>
      evs ⊆ evs' ∧ T ≤ T' ∧ RenewsAccepted i evs' T' result.refresh := by
  cases cookie with
  | none => exact ticketMeets_pure fun t ht => ⟨List.Subset.refl _, ht, renewsAccepted_none⟩
  | some ticket =>
    apply ticketMeets_bind
    apply ticketMeets_readTicket
    · intro T₁ hT₁
      exact ticketMeets_pure fun t ht => ⟨List.Subset.refl _, hT₁.trans ht, renewsAccepted_none⟩
    intro now hT₁ hissued
    cases huser : ticket.user? with
    | none =>
      exact ticketMeets_pure fun t ht =>
        ⟨List.subset_cons_self _ _, hT₁.trans ht, renewsAccepted_none⟩
    | some uid =>
      apply ticketMeets_bind
      apply ticketMeets_findUser
      intro user T₂ hT₂ hrow
      have hsub : evs ⊆ .userRead i uid user :: .ticketAccepted i ticket :: evs :=
        fun e he => List.mem_cons_of_mem _ (List.mem_cons_of_mem _ he)
      have haccepted : .ticketAccepted i ticket ∈
          .userRead i uid user :: .ticketAccepted i ticket :: evs :=
        List.mem_cons_of_mem _ List.mem_cons_self
      cases hvalidation : CookieAuthenticationDBValidator.validatePrincipal ticket.principal user with
      | rejected =>
        exact ticketMeets_pure fun t ht => ⟨hsub, hT₁.trans (hT₂.trans ht), renewsAccepted_none⟩
      | unchanged =>
        refine ticketMeets_pure fun t ht => ⟨hsub, hT₁.trans (hT₂.trans ht), fun t' ht' => ?_⟩
        simp only [CookieResult.refresh] at ht'
        split_ifs at ht'
        obtain rfl := Option.some.inj ht'
        exact ⟨⟨ticket, renews_renewed haccepted rfl hissued⟩, hT₂.trans ht⟩
      | replaced identity =>
        obtain ⟨u, rfl, rfl⟩ := replaced_of_validatePrincipal hvalidation
        apply ticketMeets_bind
        apply ticketMeets_clock
        intro now' hT₃
        refine ticketMeets_pure fun t ht =>
          ⟨hsub, hT₁.trans (hT₂.trans (hT₃.trans ht)), fun t' ht' => ?_⟩
        obtain rfl := Option.some.inj ht'
        refine ⟨⟨ticket, renews_renewed haccepted ?_ (hissued.trans (hT₂.trans hT₃))⟩, ht⟩
        exact (user?_of_isCookiePrincipal ⟨u, hrow u rfl, rfl⟩).trans huser.symm

theorem ticketMeets_authenticateCertificate (certificate : Option X509Certificate2) :
    TicketMeets F P i req evs T (authenticateCertificate F P certificate) fun _ evs' T' =>
      evs ⊆ evs' ∧ T ≤ T' := by
  cases certificate with
  | none => exact ticketMeets_pure fun t ht => ⟨List.Subset.refl _, ht⟩
  | some cert =>
    apply ticketMeets_bind
    apply ticketMeets_validateCertificate
    · intro T₁ hT₁
      apply ticketMeets_bind
      apply ticketMeets_findUser
      intro user T₂ hT₂ _
      have hsub : evs ⊆ .userRead i (CertificateAuthenticationDBValidator.getNameInfo P cert) user ::
          .certificateAccepted i cert :: evs :=
        fun e he => List.mem_cons_of_mem _ (List.mem_cons_of_mem _ he)
      cases user with
      | none => exact ticketMeets_pure fun t ht => ⟨hsub, hT₁.trans (hT₂.trans ht)⟩
      | some user =>
        apply ticketMeets_bind
        apply ticketMeets_findAdmin
        intro admin T₃ hT₃
        exact ticketMeets_pure fun t ht =>
          ⟨fun e he => List.mem_cons_of_mem _ (hsub he), hT₁.trans (hT₂.trans (hT₃.trans ht))⟩
    · intro T₁ hT₁
      exact ticketMeets_pure fun t ht => ⟨List.Subset.refl _, hT₁.trans ht⟩

/-- Whatever the schemes are, the ticket of a renewed cookie renews one that was accepted. -/
theorem ticketMeets_authenticate (credentials : Credentials) (schemes : List AuthenticationScheme)
    (result : Authentication) (h : RenewsAccepted i evs T result.refresh) :
    TicketMeets F P i req evs T (authenticate F P credentials schemes result) fun result evs' T' =>
      ∀ r, result = some r → RenewsAccepted i evs' T' r.refresh := by
  induction schemes generalizing evs T result with
  | nil =>
    refine ticketMeets_pure fun t ht r hr => ?_
    obtain rfl := Option.some.inj hr
    exact h.mono (List.Subset.refl _) ht
  | cons scheme schemes ih =>
    cases scheme with
    | certificate =>
      apply ticketMeets_bind
      apply ticketMeets_mono (ticketMeets_authenticateCertificate credentials.clientCertificate)
      rintro principal evs' T' ⟨hsub, hT'⟩
      cases principal with
      | none => exact ih result (h.mono hsub hT')
      | some principal => exact ih _ (h.mono hsub hT')
    | cookie =>
      apply ticketMeets_bind
      apply ticketMeets_mono (ticketMeets_authenticateCookie credentials.cookie)
      rintro answer evs' T' ⟨hsub, hT', hrenews⟩
      cases answer with
      | threw => exact ticketMeets_pure fun t _ r hr => by cases hr
      | noPrincipal => exact ih result (h.mono hsub hT')
      | success principal refresh => exact ih _ hrenews

/-! ## The requests -/

theorem ticketMeets_finishResponse {refresh : Option AuthenticationTicket} {reply : SessionReply}
    (h : RenewsAccepted i evs T refresh) :
    TicketMeets F P i req evs T (finishResponse refresh reply) fun _ _ _ => True := by
  cases refresh with
  | none => exact ticketMeets_pure fun _ _ => trivial
  | some ticket =>
    obtain ⟨hrenews, hissued⟩ := h ticket rfl
    apply ticketMeets_bind
    apply ticketMeets_signIn (Or.inr hrenews) hissued
    exact fun _ _ => ticketMeets_pure fun _ _ => trivial

theorem ticketMeets_access (endpoint : Endpoint) (credentials : Credentials) :
    TicketMeets F P i req evs T (access F P endpoint credentials) fun _ _ _ => True := by
  apply ticketMeets_bind
  apply ticketMeets_mono (ticketMeets_authenticate credentials _ _ renewsAccepted_none)
  intro result evs' T' hresult
  cases result with
  | none => exact ticketMeets_pure fun _ _ => trivial
  | some r =>
    have hrenews := hresult r rfl
    cases hp : r.principal with
    | none =>
      simp only [hp]
      exact ticketMeets_finishResponse hrenews
    | some principal =>
      simp only [hp]
      split_ifs
      · exact ticketMeets_bind (ticketMeets_enter fun t ht => ticketMeets_pure fun _ _ => trivial)
      · exact ticketMeets_bind (ticketMeets_enter fun t ht =>
          ticketMeets_finishResponse (hrenews.mono (List.Subset.refl _) ht))
      · exact ticketMeets_finishResponse hrenews

theorem ticketMeets_login (loginDetails : LoginDetails) (returnUrl : Option String) :
    TicketMeets F P i (.login loginDetails returnUrl) evs T
      (AccountController.login P loginDetails returnUrl) fun _ _ _ => True := by
  unfold AccountController.login
  split_ifs
  · exact ticketMeets_pure fun _ _ => trivial
  · apply ticketMeets_bind
    apply ticketMeets_findUser
    intro user T₁ hT₁ hrow
    split
    · exact ticketMeets_pure fun _ _ => trivial
    · rename_i u hu
      obtain ⟨rfl, hpassword⟩ := Option.filter_eq_some_iff.1 hu
      have hid : u.id = loginDetails.id := hrow u rfl
      apply ticketMeets_bind
      apply ticketMeets_clock
      intro now hT₂
      apply ticketMeets_bind
      apply ticketMeets_clock
      intro issuedUtc hT₃
      apply ticketMeets_bind
      apply ticketMeets_findAdmin
      intro admin T₄ hT₄
      cases admin with
      | some admin => exact ticketMeets_pure fun _ _ => trivial
      | none =>
        apply ticketMeets_bind
        refine ticketMeets_signIn (Or.inl ⟨⟨loginDetails, returnUrl, u, rfl, ?_, ?_, ?_, ?_⟩, ?_⟩) hT₄
          fun _ _ => ticketMeets_pure fun _ _ => trivial
        · exact List.mem_cons_of_mem _ List.mem_cons_self
        · rw [hid]
          exact List.mem_cons_self
        · exact beq_iff_eq.1 hpassword
        · exact user?_of_isCookiePrincipal ⟨u, hid, rfl⟩
        · have htime : addMinutes now 60 = now + sessionTime := by
            rw [sessionTime, addMinutes, addMinutes, Nat.zero_add]
          rw [htime]
          exact Nat.add_le_add_right hT₃ _

/-! ## Every run -/

theorem ticketRely_env (i : ℕ) (e : SessionEnv) (s : SessionState) : TicketRely i s (e.run s) := by
  cases e with
  | tick d => exact ⟨rfl, Nat.le_add_right _ _, fun h t ht => (h t ht).trans (Nat.le_add_right _ _)⟩
  | _ => exact ⟨rfl, le_refl _, id⟩

theorem safe_tickets {s : SessionState} (hs : s.own i = []) (hissued : s.Issued) :
    (sessions F P).Safe i (TicketRely i) (SessionOp.TicketContract P i req) (fun _ _ => True)
      ((sessions F P).handler req) s := by
  cases req with
  | login loginDetails returnUrl =>
    exact Machine.safe_mono (fun _ _ _ => trivial)
      (ticketMeets_login loginDetails returnUrl s hs (le_refl _) hissued)
  | access endpoint credentials =>
    exact Machine.safe_mono (fun _ _ _ => trivial)
      (ticketMeets_access endpoint credentials s hs (le_refl _) hissued)

/-- The requests hand out tickets of logins, and tickets that renew others. -/
def ticketContracts (F : Framework) (P : Platform) : Logic (sessions F P) where
  start i s := s.own i = [] ∧ s.Issued
  rely := TicketRely
  contract := SessionOp.TicketContract P
  post _ _ _ _ := True
  rely_refl _ _ := ⟨rfl, le_refl _, id⟩
  rely_trans h₁ h₂ := ⟨h₂.own.trans h₁.own, h₁.now.trans h₂.now, h₂.issued ∘ h₁.issued⟩
  start_rely h hr := ⟨hr.own.trans h.1, hr.issued h.2⟩
  env_rely := ticketRely_env
  exec_rely _ hij h := ticketRely_run hij h
  safe h := safe_tickets h.1 h.2

variable {s₀ : SessionState} {c c' : SessionConfiguration}

theorem ticketStart_of_fresh (h₀ : s₀.Fresh) (i : ℕ) : (ticketContracts F P).start i s₀ := by
  refine ⟨(sessionStart_of_fresh (F := F) (P := P) h₀ i).1, fun t ht => ?_⟩
  rw [h₀.tickets] at ht
  cases ht

theorem issued_of_reaches (h₀ : s₀.Fresh) (h : (sessions F P).Reaches (.initial s₀) c) :
    c.shared.Issued := by
  apply Logic.invariant (L := ticketContracts F P) (ticketStart_of_fresh h₀)
    (ticketStart_of_fresh (F := F) (P := P) h₀ 0).2 _ _ h
  · intro c i r e ch _ hissued hcontract
    exact issued_run hcontract hissued
  · intro e s hissued
    exact (ticketRely_env 0 e s).issued hissued

/-- Process `i` handed the ticket out at `b`, by an operation of its request. -/
structure HandedOut (F : Framework) (P : Platform) (s₀ : SessionState) (b c : SessionConfiguration) (i : ℕ)
    (req : SessionRequest) (t : AuthenticationTicket) : Prop where
  reaches : (sessions F P).Reaches (.initial s₀) b
  signIn : ∃ k, b.procs i = some (req, .op (.signIn t) k)
  later : ∃ b', (sessions F P).step (.step i ()) b = some b' ∧ (sessions F P).Reaches b' c

/-- The ticket was handed out by a login, or by a request that came with a ticket of which that is true
and renewed it; the number of the renewals. -/
inductive Lineage (F : Framework) (P : Platform) (s₀ : SessionState) :
    ℕ → SessionConfiguration → AuthenticationTicket → Prop
  | login {b c : SessionConfiguration} {i : ℕ} {req : SessionRequest} {t : AuthenticationTicket}
      (out : HandedOut F P s₀ b c i req t) (h : HandedOutByLogin P i req t (b.shared.own i)) :
      Lineage F P s₀ 0 c t
  | renewal {n : ℕ} {b c : SessionConfiguration} {i : ℕ} {req : SessionRequest}
      {t t' : AuthenticationTicket} (before : Lineage F P s₀ n b t) (out : HandedOut F P s₀ b c i req t')
      (h : Renews i t t' (b.shared.own i)) : Lineage F P s₀ (n + 1) c t'

variable {n : ℕ}

theorem HandedOut.mono {b : SessionConfiguration} {t : AuthenticationTicket}
    (h : HandedOut F P s₀ b c i req t) (h' : (sessions F P).Reaches c c') :
    HandedOut F P s₀ b c' i req t := by
  obtain ⟨b', hstep, hlater⟩ := h.later
  exact ⟨h.reaches, h.signIn, b', hstep, hlater.trans h'⟩

theorem HandedOut.reaches_later {b : SessionConfiguration} {t : AuthenticationTicket}
    (h : HandedOut F P s₀ b c i req t) : (sessions F P).Reaches b c := by
  obtain ⟨b', hstep, hlater⟩ := h.later
  exact .head ⟨_, hstep⟩ hlater

theorem HandedOut.request {b : SessionConfiguration} {t : AuthenticationTicket}
    (h : HandedOut F P s₀ b c i req t) : b.request i = some req := by
  obtain ⟨k, hk⟩ := h.signIn
  rw [Config.request, hk]
  rfl

theorem Lineage.mono {t : AuthenticationTicket} (h : Lineage F P s₀ n c t)
    (h' : (sessions F P).Reaches c c') : Lineage F P s₀ n c' t := by
  cases h with
  | login out h => exact .login (out.mono h') h
  | renewal before out h => exact .renewal before (out.mono h') h

/-- A renewal does not make a ticket good for longer than a login does. -/
theorem Lineage.expires {t : AuthenticationTicket} (h : Lineage F P s₀ n c t) :
    t.expiresUtc ≤ t.issuedUtc + sessionTime := by
  induction h with
  | login _ h => exact h.expires
  | renewal _ _ h ih =>
    rw [h.expires]
    exact Nat.add_le_add_left (Nat.sub_le_iff_le_add'.2 ih) _

theorem history_run (e : SessionOp) (s : SessionState) : s.history ⊆ (e.run F i s).2.history := by
  have heffect := effect_run F i e s
  generalize (e.run F i s).2 = s' at heffect
  cases heffect with
  | none => exact List.Subset.refl _
  | event ev _ => exact List.subset_cons_self _ _
  | signIn t => exact List.Subset.refl _

theorem sessionHistory_of_step {a : Act SessionRequest Unit SessionEnv}
    (ha : (sessions F P).step a c = some c') : c.shared.history ⊆ c'.shared.history := by
  cases System.step_cases ha with
  | arrive => exact List.Subset.refl _
  | @env e => cases e <;> exact List.Subset.refl _
  | @step i _ _ e => exact history_run (F := F) (i := i) e c.shared

theorem sessionHistory_of_reaches (h : (sessions F P).Reaches c c') :
    c.shared.history ⊆ c'.shared.history := by
  induction h with
  | refl => exact List.Subset.refl _
  | tail _ hstep ih =>
    obtain ⟨a, ha⟩ := hstep
    exact fun e he => sessionHistory_of_step ha (ih he)

/-- Someone has logged in as the user. -/
theorem Lineage.exists_login {t : AuthenticationTicket} (h : Lineage F P s₀ n c t) :
    ∃ j loginDetails returnUrl user, c.request j = some (.login loginDetails returnUrl) ∧
      t.user? = some loginDetails.id ∧
      .userRead j loginDetails.id (some user) ∈ c.shared.history ∧
      user.passwordHash = AccountController.passwordHash P loginDetails.password := by
  induction h with
  | login out h =>
    obtain ⟨loginDetails, returnUrl, user, rfl, hread, -, hpassword, huser⟩ := h.login
    have hlater := out.reaches_later
    exact ⟨_, loginDetails, returnUrl, user, System.request_of_reaches hlater out.request, huser,
      sessionHistory_of_reaches hlater (List.mem_filter.1 hread).1, hpassword⟩
  | renewal _ out h ih =>
    obtain ⟨j, loginDetails, returnUrl, user, hreq, huser, hread, hpassword⟩ := ih
    have hlater := out.reaches_later
    exact ⟨j, loginDetails, returnUrl, user, System.request_of_reaches hlater hreq,
      h.user.trans huser, sessionHistory_of_reaches hlater hread, hpassword⟩

/-- A ticket that is in a cookie after an operation was there before, or is handed out. -/
theorem mem_tickets_run {e : SessionOp} {s : SessionState} {t : AuthenticationTicket}
    (h : t ∈ (e.run F i s).2.tickets) : t ∈ s.tickets ∨ e = .signIn t := by
  have heffect := effect_run F i e s
  generalize (e.run F i s).2 = s' at heffect h
  cases heffect with
  | none => exact Or.inl h
  | event ev _ => exact Or.inl h
  | signIn t' =>
    rcases List.mem_cons.1 h with rfl | h
    · exact Or.inr rfl
    · exact Or.inl h

/-- Only a ticket that was handed out is accepted. -/
theorem accepted_run {e : SessionOp} {s : SessionState} {j : ℕ} {t : AuthenticationTicket}
    (h : .ticketAccepted j t ∈ (e.run F i s).2.history) :
    .ticketAccepted j t ∈ s.history ∨ t ∈ s.tickets := by
  cases e with
  | readTicket ticket =>
    simp only [SessionOp.run] at h
    split at h
    · rename_i hticket
      rcases List.mem_cons.1 h with heq | h
      · obtain ⟨rfl, rfl⟩ := SessionEvent.ticketAccepted.inj heq
        exact Or.inr hticket.1
      · exact Or.inl h
    · exact Or.inl h
  | validateCertificate cert =>
    simp only [SessionOp.run] at h
    split at h
    · exact Or.inl (by simpa [SessionState.record] using h)
    · exact Or.inl h
  | findUser uid => exact Or.inl (by simpa [SessionOp.run, SessionState.record] using h)
  | findAdmin uid => exact Or.inl (by simpa [SessionOp.run, SessionState.record] using h)
  | _ => exact Or.inl h

/-- The tickets in the cookies, and those that were accepted, have a lineage. -/
structure HaveLineage (F : Framework) (P : Platform) (s₀ : SessionState) (c : SessionConfiguration) :
    Prop where
  tickets : ∀ t ∈ c.shared.tickets, ∃ n, Lineage F P s₀ n c t
  accepted : ∀ i t, .ticketAccepted i t ∈ c.shared.history → ∃ n, Lineage F P s₀ n c t

theorem haveLineage_step (h₀ : s₀.Fresh) (h : (sessions F P).Reaches (.initial s₀) c)
    {a : Act SessionRequest Unit SessionEnv} (ha : (sessions F P).step a c = some c')
    (hlineage : HaveLineage F P s₀ c) : HaveLineage F P s₀ c' := by
  have hlater : ∀ {t}, (∃ n, Lineage F P s₀ n c t) → ∃ n, Lineage F P s₀ n c' t := by
    rintro t ⟨n, ht⟩
    exact ⟨n, ht.mono (.single ⟨a, ha⟩)⟩
  cases System.step_cases ha with
  | arrive =>
    exact ⟨fun t ht => hlater (hlineage.tickets t ht), fun i t ht => hlater (hlineage.accepted i t ht)⟩
  | @env e =>
    cases e <;> exact ⟨fun t ht => hlater (hlineage.tickets t ht),
      fun i t ht => hlater (hlineage.accepted i t ht)⟩
  | @step i ch req e k hhere =>
    have hcontract : e.TicketContract P i req c.shared :=
      Logic.contract_of_reaches (L := ticketContracts F P) (ticketStart_of_fresh h₀) h hhere
    refine ⟨fun t ht => ?_, fun j t ht => ?_⟩
    · rcases mem_tickets_run ht with ht | rfl
      · exact hlater (hlineage.tickets t ht)
      · -- the operation hands it out
        have hout : HandedOut F P s₀ c _ i req t := ⟨h, ⟨k, hhere⟩, _, ha, .refl⟩
        rcases hcontract.1 with hlogin | ⟨t₀, hrenews⟩
        · exact ⟨0, .login hout hlogin⟩
        · obtain ⟨n, hn⟩ := hlineage.accepted i t₀ (List.mem_filter.1 hrenews.accepted).1
          exact ⟨n + 1, .renewal hn hout hrenews⟩
    · rcases accepted_run ht with ht | ht
      · exact hlater (hlineage.accepted j t ht)
      · exact hlater (hlineage.tickets t ht)

theorem haveLineage_of_reaches (h₀ : s₀.Fresh) (h : (sessions F P).Reaches (.initial s₀) c) :
    HaveLineage F P s₀ c := by
  induction h with
  | refl =>
    refine ⟨fun t ht => ?_, fun i t ht => ?_⟩
    · rw [Config.initial, h₀.tickets] at ht
      cases ht
    · rw [Config.initial, h₀.history] at ht
      cases ht
  | tail h hstep ih =>
    obtain ⟨a, ha⟩ := hstep
    exact haveLineage_step h₀ h ha ih

/-! ## One renewal after another -/

variable {user : User} {length : Time} {t : AuthenticationTicket}

/-- The ticket is in a cookie and has not expired, it is good for this long, and the row of the user is
as it says. -/
structure Renewable (c : SessionConfiguration) (t : AuthenticationTicket) (user : User) (length : Time) :
    Prop where
  ticket : t ∈ c.shared.tickets
  live : c.shared.now ≤ t.expiresUtc
  expires : t.expiresUtc = t.issuedUtc + length
  row : c.shared.users.find? user.id = some user
  principal : t.principal = ⟨[user.toClaimsIdentity AuthenticationScheme.cookie.name]⟩

theorem validatePrincipal_own (user : User) : CookieAuthenticationDBValidator.validatePrincipal
    ⟨[user.toClaimsIdentity AuthenticationScheme.cookie.name]⟩ (some user) = .unchanged := by
  simp [CookieAuthenticationDBValidator.validatePrincipal, User.toClaimsIdentity,
    ClaimsPrincipal.findFirst, ClaimsIdentity.findFirst]

/-- The request of the renewal. -/
def renewalRequest (t : AuthenticationTicket) : SessionRequest := .access .authorized ⟨none, some t⟩

/-- After a renewal in the cookie handler, the action starts and the new cookie is handed out. -/
theorem exists_afterCookie (t t' : AuthenticationTicket) {principal : ClaimsPrincipal}
    (hauthorizes : Startup.defaultPolicy.authorizes principal = true) :
    ∃ f : CookieResult → SessionProgram SessionReply,
      (sessions F P).handler (renewalRequest t) = authenticateCookie (some t) >>= f ∧
      f (.success principal (some t')) = .op (.enter .authorized principal) fun _ =>
        .op (.signIn t') fun _ => .done .served := by
  refine ⟨_, Program.bind_assoc (authenticateCookie (some t)) _ _, ?_⟩
  show (if Startup.defaultPolicy.authorizes principal = true then _ else _) = _
  rw [if_pos hauthorizes]
  rfl

/-- What the cookie handler makes of the answer of `ValidatePrincipal`. -/
def afterValidation (t : AuthenticationTicket) (sliding : Option AuthenticationTicket) :
    CookieValidation → SessionProgram CookieResult
  | .rejected => return .noPrincipal
  | .unchanged => return .success t.principal sliding
  | .replaced identity => do
      let now ← Session.clock
      return .success ⟨[identity]⟩ (some (t.renewed ⟨[identity]⟩ now))

/-- Every operation is performed at once. -/
def atOnce : ℕ → SessionEnv × Unit := fun _ => (.tick 0, ())

/-- The cookie handler, at the last moment of the ticket. -/
theorem alone_authenticateCookie {s : SessionState}
    (hticket : t ∈ s.tickets) (hnow : s.now = t.expiresUtc) (hlength : t.issuedUtc < t.expiresUtc)
    (hprincipal : t.principal = ⟨[user.toClaimsIdentity AuthenticationScheme.cookie.name]⟩)
    (hrow : s.users.find? user.id = some user) :
    (sessions F P).alone i (authenticateCookie (some t)) atOnce s =
      (.success t.principal (some (t.renewed t.principal s.now)),
        (s.record (.ticketAccepted i t)).record (.userRead i user.id (some user))) := by
  have hread : (sessions F P).exec i (.readTicket t) () s = (some s.now, s.record (.ticketAccepted i t)) :=
    if_pos ⟨hticket, hnow.le⟩
  have huser : t.user? = some user.id := by
    rw [AuthenticationTicket.user?, hprincipal]
    rfl
  have hfind : (sessions F P).exec i (.findUser user.id) () (s.record (.ticketAccepted i t)) =
      (some user, (s.record (.ticketAccepted i t)).record (.userRead i user.id (some user))) := by
    show (s.users.find? user.id, (s.record _).record (.userRead i user.id (s.users.find? user.id))) = _
    rw [hrow]
  have hsliding : t.expiresUtc - s.now < s.now - t.issuedUtc := by
    rw [hnow, Nat.sub_self]
    exact Nat.sub_pos_of_lt hlength
  have hvalid : CookieAuthenticationDBValidator.validatePrincipal t.principal (some user) = .unchanged := by
    rw [hprincipal]
    exact validatePrincipal_own user
  unfold authenticateCookie
  refine (Machine.alone_op hread).trans ?_
  simp only [huser]
  refine (Machine.alone_op hfind).trans ?_
  show (sessions F P).alone i (afterValidation t (if t.expiresUtc - s.now < s.now - t.issuedUtc then
    some (t.renewed t.principal s.now) else none)
    (CookieAuthenticationDBValidator.validatePrincipal t.principal (some user))) _ _ = _
  rw [if_pos hsliding, hvalid]
  rfl

theorem authorizes_own (user : User) : Startup.defaultPolicy.authorizes
    ⟨[user.toClaimsIdentity AuthenticationScheme.cookie.name]⟩ = true := rfl

/-- The request comes back with the cookie at the last moment of the ticket, and gets as far as handing
out the new one. -/
theorem exists_signIn_of_renewable (h : (sessions F P).Reaches (.initial s₀) c)
    (ht : Renewable c t user length) (hlength : 0 < length) : ∃ (m : ℕ) (b : SessionConfiguration),
      (sessions F P).Reaches c b ∧
      b.procs m = some (renewalRequest t, .op (.signIn (t.renewed t.principal t.expiresUtc)) fun _ =>
        .done .served) ∧
      b.shared.now = t.expiresUtc ∧ b.shared.users = c.shared.users ∧
      .ticketAccepted m t ∈ b.shared.own m := by
  obtain ⟨m, hidle⟩ := System.idle_of_reaches h
  let s₁ : SessionState := (SessionEnv.tick (t.expiresUtc - c.shared.now)).run c.shared
  have hnow : s₁.now = t.expiresUtc := Nat.add_sub_of_le ht.live
  have hissued : t.issuedUtc < t.expiresUtc := by
    rw [ht.expires]
    exact Nat.lt_add_of_pos_right hlength
  have hauthorizes : Startup.defaultPolicy.authorizes t.principal = true := by
    rw [ht.principal]
    exact authorizes_own user
  obtain ⟨f, hhandler, hafter⟩ := exists_afterCookie (F := F) (P := P) t
    (t.renewed t.principal t.expiresUtc) hauthorizes
  let c₁ : SessionConfiguration :=
    ⟨s₁, Function.update c.procs m (some (renewalRequest t, authenticateCookie (some t) >>= f))⟩
  have harrive : (sessions F P).step (.arrive m (renewalRequest t)) ⟨s₁, c.procs⟩ = some c₁ := by
    rw [System.step_arrive (c := ⟨s₁, c.procs⟩) (hidle m (le_refl _)), hhandler]
  have hc₁ : (sessions F P).Reaches c c₁ :=
    .head ⟨.env (.tick (t.expiresUtc - c.shared.now)), rfl⟩ (.single ⟨_, harrive⟩)
  obtain ⟨c₂, hc₂, hprocs, hshared⟩ :=
    System.reaches_of_alone atOnce (show c₁.procs m = _ from Function.update_self _ _ _)
  have halone := alone_authenticateCookie (F := F) (P := P) (i := m) (s := s₁) ht.ticket hnow hissued
    ht.principal ht.row
  rw [halone, hnow] at hprocs
  rw [halone] at hshared
  dsimp only at hprocs hshared
  rw [hafter] at hprocs
  have hstep : (sessions F P).step (.step m ()) c₂ = some _ := System.step_op hprocs
  refine ⟨m, _, hc₁.trans (hc₂.tail ⟨_, hstep⟩), Function.update_self _ _ _, ?_⟩
  show c₂.shared.now = _ ∧ c₂.shared.users = _ ∧ _ ∈ c₂.shared.own m
  rw [hshared, own_record_self (i := m) rfl, own_record_self (i := m) rfl]
  exact ⟨hnow, rfl, List.mem_cons_of_mem _ List.mem_cons_self⟩

/-- A ticket that has not expired can be renewed. -/
theorem renewal_of_renewable (h : (sessions F P).Reaches (.initial s₀) c) (ht : Renewable c t user length)
    (hlength : 0 < length) (hlineage : Lineage F P s₀ n c t) :
    ∃ c' t', (sessions F P).Reaches c c' ∧ Renewable c' t' user length ∧
      t'.expiresUtc = t.expiresUtc + length ∧ Lineage F P s₀ (n + 1) c' t' := by
  obtain ⟨m, b, hb, hprocs, hnow, husers, haccepted⟩ := exists_signIn_of_renewable h ht hlength
  have hstep : (sessions F P).step (.step m ()) b = some _ := System.step_op hprocs
  have hduration : t.expiresUtc - t.issuedUtc = length := by
    rw [ht.expires]
    exact Nat.add_sub_cancel_left _ _
  have hexpires : (t.renewed t.principal t.expiresUtc).expiresUtc = t.expiresUtc + length := by
    rw [AuthenticationTicket.renewed, hduration]
  refine ⟨_, t.renewed t.principal t.expiresUtc, hb.tail ⟨_, hstep⟩, ?_, hexpires, ?_⟩
  · refine ⟨List.mem_cons_self, ?_, hexpires, ?_, ht.principal⟩
    · show b.shared.now ≤ _
      rw [hnow, hexpires]
      exact Nat.le_add_right _ _
    · show b.shared.users.find? user.id = some user
      rw [husers]
      exact ht.row
  · refine .renewal (hlineage.mono hb) ⟨h.trans hb, ⟨_, hprocs⟩, _, hstep, .refl⟩ ?_
    refine renews_renewed haccepted rfl ?_
    rw [ht.expires]
    exact Nat.le_add_right _ _

/-- Nothing bounds the number of the renewals. -/
theorem renewals_of_renewable (h : (sessions F P).Reaches (.initial s₀) c)
    (ht : Renewable c t user length) (hlength : 0 < length) {m : ℕ} (hlineage : Lineage F P s₀ m c t)
    (n : ℕ) :
    ∃ c' t', (sessions F P).Reaches c c' ∧ Renewable c' t' user length ∧
      t'.expiresUtc = t.expiresUtc + n * length ∧ Lineage F P s₀ (m + n) c' t' := by
  induction n with
  | zero => exact ⟨c, t, .refl, ht, by simp, hlineage⟩
  | succ n ih =>
    obtain ⟨c₁, t₁, hc₁, ht₁, hexpires₁, hlineage₁⟩ := ih
    obtain ⟨c₂, t₂, hc₂, ht₂, hexpires₂, hlineage₂⟩ :=
      renewal_of_renewable (h.trans hc₁) ht₁ hlength hlineage₁
    refine ⟨c₂, t₂, hc₁.trans hc₂, ht₂, ?_, hlineage₂⟩
    rw [hexpires₂, hexpires₁, Nat.add_assoc, Nat.succ_mul]

/-- In every run, each ticket comes from a login, is not of a later time and is good for an hour at
most; a request that is accepted on the strength of a cookie alone came with such a ticket, of a user
as whom someone has logged in with the password that was stored then; and a ticket that has not
expired can be renewed any number of times. -/
theorem lineage_of_reaches (F : Framework) (P : Platform) {s₀ : SessionState} (h₀ : s₀.Fresh)
    {c : SessionConfiguration} (h : (sessions F P).Reaches (.initial s₀) c) :
    (∀ t ∈ c.shared.tickets, (∃ n, Lineage F P s₀ n c t) ∧ t.issuedUtc ≤ c.shared.now ∧
      t.expiresUtc ≤ t.issuedUtc + sessionTime) ∧
    (∀ i req endpoint principal k uid,
      c.procs i = some (req, .op (.enter endpoint principal) k) → CookieAlone principal uid →
        ∃ t n, t.user? = some uid ∧ .ticketAccepted i t ∈ c.shared.history ∧ Lineage F P s₀ n c t ∧
          ∃ j loginDetails returnUrl user, c.request j = some (.login loginDetails returnUrl) ∧
            loginDetails.id = uid ∧ .userRead j uid (some user) ∈ c.shared.history ∧
            user.passwordHash = AccountController.passwordHash P loginDetails.password) ∧
    ∀ t user length m, Renewable c t user length → 0 < length → Lineage F P s₀ m c t →
      ∀ n, ∃ c' t', (sessions F P).Reaches c c' ∧ Renewable c' t' user length ∧
        t'.expiresUtc = t.expiresUtc + n * length ∧ Lineage F P s₀ (m + n) c' t' := by
  have hlineage := haveLineage_of_reaches h₀ h
  refine ⟨fun t ht => ?_, fun i req endpoint principal k uid hi halone => ?_, ?_⟩
  · obtain ⟨n, ht'⟩ := hlineage.tickets t ht
    exact ⟨⟨n, ht'⟩, issued_of_reaches h₀ h t ht, ht'.expires⟩
  · have hcontract : Enters P i req endpoint principal (c.shared.own i) :=
      sessionContract_of_reaches h₀ h hi
    obtain ⟨t, huser, haccepted⟩ := cameWithCookie_of_cookieAlone hcontract.supported halone
    have haccepted : .ticketAccepted i t ∈ c.shared.history := (List.mem_filter.1 haccepted).1
    obtain ⟨n, ht⟩ := hlineage.accepted i t haccepted
    obtain ⟨j, loginDetails, returnUrl, user, hreq, hid, hread, hpassword⟩ := ht.exists_login
    obtain rfl : loginDetails.id = uid := Option.some.inj (hid.symm.trans huser)
    exact ⟨t, n, huser, haccepted, ht, j, loginDetails, returnUrl, user, hreq, rfl, hread, hpassword⟩
  · exact fun t user length m ht hlength hlineage n => renewals_of_renewable h ht hlength hlineage n

section

open Deployment

/-- The ticket of a request of `a3` that comes 40 minutes after the login. -/
def renewedTicket : AuthenticationTicket :=
  andresTicket.renewed andresTicket.principal (addMinutes 0 40)

/-- `a3` logs in, comes back after 40 minutes, and with the renewed cookie after another 50. -/
def loginThenRenew : List (Act SessionRequest Unit SessionEnv) :=
  .arrive 0 loginRequest :: (sessionSteps 0 5 ++
    .env (.tick (addMinutes 0 40)) :: .arrive 1 cookieRequest :: (sessionSteps 1 4 ++
      .env (.tick (addMinutes 0 50)) ::
        .arrive 2 (.access .authorized ⟨none, some renewedTicket⟩) :: sessionSteps 2 2))

/-- Process `i` has handed out the cookie of `a3`, and the row of `a3` is as it was. -/
def signedInAndres (c : SessionConfiguration) : Bool :=
  decide (andresTicket ∈ c.shared.tickets ∧ c.shared.now ≤ addMinutes 0 60 ∧
    c.shared.users.find? "a3" = some andres)

/-- The request is accepted an hour and a half after the login; and the cookie of the login can be renewed
until a day after it. -/
theorem lineage_loginThenRenew :
    (∃ c : SessionConfiguration, c.shared.now = addMinutes 0 90 ∧ AcceptsCookie c "a3" ∧
      ∃ i t n, t.user? = some "a3" ∧ .ticketAccepted i t ∈ c.shared.history ∧
        Lineage noCertificates platform (webState (installed users)) n c t) ∧
    ∃ c t n, Renewable c t andres sessionTime ∧ t.expiresUtc = addMinutes 0 (25 * 60) ∧
      Lineage noCertificates platform (webState (installed users)) n c t := by
  constructor
  · have hrun : ((sessions noCertificates platform).run loginThenRenew
        (.initial (webState (installed users)))).any (fun c => entersWithCookie c 2 "a3" &&
          decide (c.shared.now = addMinutes 0 90)) = true := by decide +kernel
    obtain ⟨c, hc, hcheck⟩ := (Option.any_eq_true _ _).1 hrun
    rw [Bool.and_eq_true] at hcheck
    have haccepts := acceptsCookie_of_enters hcheck.1
    obtain ⟨i, req, endpoint, principal, k, hi, halone⟩ := haccepts
    obtain ⟨t, n, huser, haccepted, ht, -⟩ := (lineage_of_reaches noCertificates platform
      (fresh_webState _) (System.reaches_of_run hc)).2.1 i req endpoint principal k "a3" hi halone
    exact ⟨c, of_decide_eq_true hcheck.2, ⟨i, req, endpoint, principal, k, hi, halone⟩, i, t, n, huser,
      haccepted, ht⟩
  · have hrun : ((sessions noCertificates platform).run (.arrive 0 loginRequest :: sessionSteps 0 5)
        (.initial (webState (installed users)))).any signedInAndres = true := by decide +kernel
    obtain ⟨c, hc, hcheck⟩ := (Option.any_eq_true _ _).1 hrun
    obtain ⟨hticket, hlive, hrow⟩ := of_decide_eq_true hcheck
    obtain ⟨htickets, -, hrenewals⟩ := lineage_of_reaches noCertificates platform (fresh_webState _)
      (System.reaches_of_run hc)
    obtain ⟨m, hm⟩ := (htickets andresTicket hticket).1
    obtain ⟨c', t', -, ht', hexpires, hlineage⟩ := hrenewals andresTicket andres sessionTime m
      ⟨hticket, hlive, rfl, hrow, rfl⟩ (by decide) hm 24
    exact ⟨c', t', m + 24, ht', hexpires, hlineage⟩

end

end IMoviesCA
