import IMoviesCA.WebLogin
import IMoviesCA.SessionContract

/-!
# CA admins and cookies

Only `Login` looks into the table `admins` before a cookie is handed out; `ValidatePrincipal` reads
the row of the user and nothing else.  A user who is made an admin while a cookie is out, or while a
request with one is running, goes on with it.  As long as only users without either are made admins,
no request is accepted on the strength of a cookie alone for a user who is an admin at that time
(`adminBan_of_run`).
-/

namespace IMoviesCA

variable {F : Framework} {P : Platform} {s₀ : SessionState} {c c' : SessionConfiguration}

/-! ## Who is signed in -/

/-- Process `i` has seen that the user is no admin, or has come with a cookie of the user. -/
def Admitted (c : SessionConfiguration) (i : ℕ) (req : SessionRequest) (uid : String) : Prop :=
  PassedLogin i uid req (c.shared.own i) ∨ CameWithCookie i uid (c.shared.own i)

/-- Every cookie of the user has expired, and no running request was admitted for the user. -/
structure SignedOut (c : SessionConfiguration) (uid : String) : Prop where
  expired : ∀ t ∈ c.shared.tickets, t.user? = some uid → t.expiresUtc < c.shared.now
  running : ∀ i req e k, c.procs i = some (req, .op e k) → ¬ Admitted c i req uid

/-- The system administrator only makes admins of users who are signed out. -/
def PromotesSignedOut (a : Act SessionRequest Unit SessionEnv) (c _ : SessionConfiguration) : Prop :=
  ∀ admin, a = .env (.insertAdmin admin) → SignedOut c admin.uid

/-- The admins are signed out. -/
def AdminsSignedOut (c : SessionConfiguration) : Prop :=
  ∀ uid ∈ c.shared.admins.keys, SignedOut c uid

/-- No identity comes from a certificate, and the principal names the user. -/
structure CookieAlone (principal : ClaimsPrincipal) (uid : String) : Prop where
  fromCookie : ∀ identity ∈ principal.identities, identity.IsFromCookie
  names : principal.findFirst .nameIdentifier = some uid

/-- A request is accepted on the strength of a cookie alone for the user: an action is about to
start. -/
def AcceptsCookie (c : SessionConfiguration) (uid : String) : Prop :=
  ∃ i req endpoint principal k, c.procs i = some (req, .op (.enter endpoint principal) k) ∧
    CookieAlone principal uid

theorem own_of_session_idle (h₀ : s₀.Fresh) (h : (sessions F P).Reaches (.initial s₀) c) {i : ℕ}
    (hi : c.procs i = none) : c.shared.own i = [] := by
  have hok := Logic.procOk_of_reaches (L := sessionContracts F P) (sessionStart_of_fresh h₀) h i
  rw [hi] at hok
  exact hok.1

/-! ## Steps -/

/-- An operation of process `i`, which was not admitted for the user, and does not admit it. -/
theorem signedOut_step {i : ℕ} {req : SessionRequest} {e : SessionOp}
    {k : e.Res → SessionProgram SessionReply} {uid : String} (h : SignedOut c uid)
    (hi : c.procs i = some (req, .op e k)) {s' : SessionState}
    (hnow : s'.now = c.shared.now)
    (htickets : ∀ t ∈ s'.tickets, t ∈ c.shared.tickets ∨ t.user? ≠ some uid)
    (hown : ∀ j, j ≠ i → s'.own j = c.shared.own j)
    (hself : PassedLogin i uid req (s'.own i) ∨ CameWithCookie i uid (s'.own i) →
      Admitted c i req uid) {p : SessionProgram SessionReply} :
    SignedOut ⟨s', Function.update c.procs i (some (req, p))⟩ uid := by
  refine ⟨?_, ?_⟩
  · intro t ht huser
    show t.expiresUtc < s'.now
    rw [hnow]
    rcases htickets t ht with hold | hne
    · exact h.expired t hold huser
    · exact absurd huser hne
  · intro j req' e' k' hj hadmitted
    by_cases hji : j = i
    · subst hji
      dsimp only at hj
      rw [Function.update_self] at hj
      obtain ⟨rfl, -⟩ := Prod.mk.inj (Option.some.inj hj)
      exact h.running j req e k hi (hself hadmitted)
    · dsimp only at hj
      rw [Function.update_of_ne hji] at hj
      unfold Admitted at hadmitted
      dsimp only at hadmitted
      rw [hown j hji] at hadmitted
      exact h.running j req' e' k' hj hadmitted

/-- An event that neither passes a login nor accepts a ticket. -/
theorem admitted_of_cons {i : ℕ} {req : SessionRequest} {uid : String} {ev : SessionEvent}
    {evs : List SessionEvent} (hadmin : ev ≠ .adminRead i uid none)
    (hticket : ∀ t, t.user? = some uid → ev ≠ .ticketAccepted i t)
    (h : PassedLogin i uid req (ev :: evs) ∨ CameWithCookie i uid (ev :: evs)) :
    PassedLogin i uid req evs ∨ CameWithCookie i uid evs := by
  rcases h with ⟨hlogin, hmem⟩ | ⟨t, huser, hmem⟩
  · rcases List.mem_cons.1 hmem with heq | hmem
    · exact absurd heq.symm hadmin
    · exact Or.inl ⟨hlogin, hmem⟩
  · rcases List.mem_cons.1 hmem with heq | hmem
    · exact absurd heq.symm (hticket t huser)
    · exact Or.inr ⟨t, huser, hmem⟩

/-- An operation that leaves one event. -/
theorem signedOut_record {i : ℕ} {req : SessionRequest} {e : SessionOp}
    {k : e.Res → SessionProgram SessionReply} {uid : String} (h : SignedOut c uid)
    (hi : c.procs i = some (req, .op e k)) {ev : SessionEvent} (hpid : ev.pid = i)
    (hadmin : ev ≠ .adminRead i uid none)
    (hticket : ∀ t, t.user? = some uid → ev ≠ .ticketAccepted i t)
    {p : SessionProgram SessionReply} :
    SignedOut ⟨c.shared.record ev, Function.update c.procs i (some (req, p))⟩ uid := by
  refine signedOut_step h hi ?_ ?_ ?_ ?_
  · rfl
  · exact fun t ht => Or.inl ht
  · intro j hj
    exact own_record_of_ne (by rw [hpid]; exact hj.symm)
  · intro hadmitted
    rw [own_record_self hpid] at hadmitted
    exact admitted_of_cons hadmin hticket hadmitted

/-- One operation leaves the admins signed out. -/
theorem signedOut_op (h₀ : s₀.Fresh) (hreach : (sessions F P).Reaches (.initial s₀) c) {i : ℕ}
    {req : SessionRequest} {e : SessionOp} {k : e.Res → SessionProgram SessionReply} {uid : String}
    (hadmin : uid ∈ c.shared.admins.keys) (h : SignedOut c uid)
    (hi : c.procs i = some (req, .op e k)) :
    SignedOut ⟨(e.run F i c.shared).2,
      Function.update c.procs i (some (req, k (e.run F i c.shared).1))⟩ uid := by
  have hsame : ∀ {p}, SignedOut ⟨c.shared, Function.update c.procs i (some (req, p))⟩ uid :=
    signedOut_step h hi rfl (fun t ht => Or.inl ht) (fun _ _ => rfl) id
  cases e with
  | clock => exact hsame
  | findUser uid' => exact signedOut_record h hi rfl (by simp) (by simp)
  | findAdmin uid' =>
    refine signedOut_record h hi rfl ?_ (by simp)
    intro heq
    obtain ⟨-, rfl, hnone⟩ := SessionEvent.adminRead.inj heq
    exact Table.find?_eq_none_iff.1 hnone hadmin
  | validateCertificate cert =>
    simp only [SessionOp.run]
    split
    · exact signedOut_record h hi rfl (by simp) (by simp)
    · exact hsame
  | readTicket ticket =>
    simp only [SessionOp.run]
    split
    · rename_i hvalid
      refine signedOut_record h hi rfl (by simp) ?_
      intro t huser heq
      obtain ⟨-, rfl⟩ := SessionEvent.ticketAccepted.inj heq
      exact absurd (h.expired ticket hvalid.1 huser) (Nat.not_lt.2 hvalid.2)
    · exact hsame
  | signIn t =>
    have hcontract : SignsIn i req t (c.shared.own i) := sessionContract_of_reaches h₀ hreach hi
    refine signedOut_step h hi ?_ ?_ ?_ ?_
    · rfl
    · intro t' ht'
      rcases List.mem_cons.1 ht' with rfl | hold
      · right
        intro huser
        obtain ⟨uid', hprincipal, hadmitted⟩ := hcontract
        rw [user?_of_isCookiePrincipal hprincipal] at huser
        obtain rfl := Option.some.inj huser
        exact h.running i req _ k hi hadmitted
      · exact Or.inl hold
    · exact fun _ _ => rfl
    · exact id
  | enter endpoint principal => exact hsame

/-- The environment leaves a user signed out. -/
theorem signedOut_env {uid : String} (h : SignedOut c uid) (e : SessionEnv) :
    SignedOut ⟨e.run c.shared, c.procs⟩ uid := by
  cases e with
  | tick d =>
    exact ⟨fun t ht huser => Nat.lt_add_right d (h.expired t ht huser), h.running⟩
  | setUsers users => exact ⟨h.expired, h.running⟩
  | insertAdmin admin => exact ⟨h.expired, h.running⟩
  | deleteAdmin uid' => exact ⟨h.expired, h.running⟩

theorem admins_run (F : Framework) (i : ℕ) (e : SessionOp) (s : SessionState) :
    (e.run F i s).2.admins = s.admins := by
  have heffect := effect_run F i e s
  generalize (e.run F i s).2 = s' at heffect
  cases heffect <;> rfl

/-- An admin after a change by the environment was one before, or is a new one. -/
theorem mem_admins_env {uid : String} {e : SessionEnv} {s : SessionState}
    (h : uid ∈ (e.run s).admins.keys) :
    uid ∈ s.admins.keys ∨ ∃ admin, e = .insertAdmin admin ∧ admin.uid = uid := by
  cases e with
  | tick d => exact Or.inl h
  | setUsers users => exact Or.inl h
  | insertAdmin admin =>
    simp only [SessionEnv.run] at h
    cases hc : s.admins.commit [.insert admin] with
    | none =>
      rw [hc] at h
      exact Or.inl h
    | some t =>
      rw [hc, Option.getD_some, Table.keys_of_commit hc] at h
      rcases List.mem_append.1 h with h | h
      · exact Or.inl h
      · exact Or.inr ⟨admin, rfl, (List.mem_singleton.1 h).symm⟩
  | deleteAdmin uid' =>
    left
    obtain ⟨admin, hadmin, rfl⟩ := Table.mem_keys.1 h
    exact Table.key_mem_keys (List.mem_filter.1 hadmin).1

/-- One action, if it only makes an admin of a user who is signed out. -/
theorem adminsSignedOut_step (h₀ : s₀.Fresh) (hreach : (sessions F P).Reaches (.initial s₀) c)
    {a : Act SessionRequest Unit SessionEnv} (ha : (sessions F P).step a c = some c')
    (hpromotes : PromotesSignedOut a c c') (h : AdminsSignedOut c) : AdminsSignedOut c' := by
  intro uid hadmin
  cases System.step_cases ha with
  | @arrive i req hidle =>
    have hout := h uid hadmin
    refine ⟨hout.expired, ?_⟩
    intro j req' e k hj hadmitted
    by_cases hji : j = i
    · subst hji
      have hnil := own_of_session_idle h₀ hreach hidle
      unfold Admitted at hadmitted
      dsimp only at hadmitted
      rw [hnil] at hadmitted
      rcases hadmitted with ⟨-, hmem⟩ | ⟨t, -, hmem⟩
      · cases hmem
      · cases hmem
    · dsimp only at hj
      rw [Function.update_of_ne hji] at hj
      exact hout.running j req' e k hj hadmitted
  | @step i ch req e k hi =>
    have hold : uid ∈ c.shared.admins.keys := by
      rw [← admins_run F i e c.shared]
      exact hadmin
    exact signedOut_op h₀ hreach hold (h uid hold) hi
  | @env e =>
    apply signedOut_env
    rcases mem_admins_env hadmin with hold | ⟨admin, rfl, rfl⟩
    · exact h uid hold
    · exact hpromotes admin rfl

/-! ## Runs -/

/-- In a fresh state everyone is signed out. -/
theorem signedOut_initial (h₀ : s₀.Fresh) (uid : String) : SignedOut (.initial s₀) uid := by
  refine ⟨fun t ht => ?_, fun i req e k hi => by cases hi⟩
  have ht' : t ∈ s₀.tickets := ht
  rw [h₀.tickets] at ht'
  cases ht'

theorem adminsSignedOut_of_run (h₀ : s₀.Fresh) {as : List (Act SessionRequest Unit SessionEnv)}
    (hrun : (sessions F P).run as (.initial s₀) = some c)
    (halong : (sessions F P).Along PromotesSignedOut as (.initial s₀)) : AdminsSignedOut c := by
  refine System.run_induction (I := AdminsSignedOut) ?_ ?_ hrun halong
  · exact fun uid _ => signedOut_initial h₀ uid
  · intro a b b' hreach hb ha hpromotes
    exact adminsSignedOut_step h₀ hreach ha hpromotes hb

/-- A request that is accepted on the strength of a cookie alone came with a cookie of the user. -/
theorem cameWithCookie_of_cookieAlone {i : ℕ} {evs : List SessionEvent} {principal : ClaimsPrincipal}
    {uid : String} (hsupported : Supported i evs principal) (h : CookieAlone principal uid) :
    CameWithCookie i uid evs := by
  obtain ⟨identity, hidentity, hname⟩ := List.exists_of_findSome?_eq_some h.names
  obtain ⟨user, rfl, hcame⟩ := hsupported identity hidentity (h.fromCookie identity hidentity)
  have hid : user.id = uid := Option.some.inj hname
  rw [← hid]
  exact hcame

/-- In a run in which only users who are signed out are made admins, no request is accepted on the
strength of a cookie alone for a user who is an admin at that time. -/
theorem adminBan_of_run (F : Framework) (P : Platform) {s₀ : SessionState} (h₀ : s₀.Fresh)
    {as : List (Act SessionRequest Unit SessionEnv)} {c : SessionConfiguration}
    (hrun : (sessions F P).run as (.initial s₀) = some c)
    (halong : (sessions F P).Along PromotesSignedOut as (.initial s₀)) {uid : String}
    (haccepts : AcceptsCookie c uid) : uid ∉ c.shared.admins.keys := by
  intro hadmin
  obtain ⟨i, req, endpoint, principal, k, hi, halone⟩ := haccepts
  have hcontract : Enters P i req endpoint principal (c.shared.own i) :=
    sessionContract_of_reaches h₀ (System.reaches_of_run hrun) hi
  have hcame := cameWithCookie_of_cookieAlone hcontract.supported halone
  exact (adminsSignedOut_of_run h₀ hrun halong uid hadmin).running i req _ k hi (Or.inr hcame)

section

open Deployment

/-- The login of `a3` with her password. -/
def loginRequest : SessionRequest := .login ⟨"a3", "Astrid"⟩ none

/-- The ticket in the cookie after a login of `a3`. -/
def andresTicket : AuthenticationTicket :=
  ⟨⟨[andres.toClaimsIdentity AuthenticationScheme.cookie.name]⟩, 0, addMinutes 0 60⟩

/-- A request with that cookie. -/
def cookieRequest : SessionRequest := .access .authorized ⟨none, some andresTicket⟩

/-- `n` operations of process `i`. -/
def sessionSteps (i n : ℕ) : List (Act SessionRequest Unit SessionEnv) :=
  List.replicate n (.step i ())

/-- Another user is made an admin, then `a3` logs in and comes back with the cookie. -/
def promoteThenLogin : List (Act SessionRequest Unit SessionEnv) :=
  .env (.insertAdmin ⟨"lb"⟩) :: .arrive 0 loginRequest :: (sessionSteps 0 5 ++
    .arrive 1 cookieRequest :: sessionSteps 1 2)

/-- `a3` logs in, is made an admin, and comes back with the cookie. -/
def loginThenPromote : List (Act SessionRequest Unit SessionEnv) :=
  .arrive 0 loginRequest :: (sessionSteps 0 5 ++
    .env (.insertAdmin ⟨"a3"⟩) :: .arrive 1 cookieRequest :: sessionSteps 1 2)

/-- Process `i` is about to start an action for the user, with nothing but the cookie. -/
def entersWithCookie (c : SessionConfiguration) (i : ℕ) (uid : String) : Bool :=
  match c.procs i with
  | some (_, .op (.enter _ principal) _) =>
      (principal.identities.all fun identity =>
        identity.authenticationType != AuthenticationScheme.certificate.name) &&
        decide (principal.findFirst .nameIdentifier = some uid)
  | _ => false

theorem acceptsCookie_of_enters {i : ℕ} {uid : String} (h : entersWithCookie c i uid = true) :
    AcceptsCookie c uid := by
  unfold entersWithCookie at h
  split at h
  · rename_i req endpoint principal k hi
    rw [Bool.and_eq_true, List.all_eq_true] at h
    refine ⟨i, req, endpoint, principal, k, hi, ?_, of_decide_eq_true h.2⟩
    intro identity hidentity
    exact bne_iff_ne.1 (h.1 identity hidentity)
  · cases h

/-- A user is made an admin. -/
def promotes (a : Act SessionRequest Unit SessionEnv) : Bool :=
  match a with
  | .env (.insertAdmin _) => true
  | _ => false

theorem promotesSignedOut_of_not (a : Act SessionRequest Unit SessionEnv) (c c' : SessionConfiguration)
    (h : (!promotes a) = true) : PromotesSignedOut a c c' := by
  rintro admin rfl
  cases h

theorem fresh_webState (s : State) : (webState s).Fresh := ⟨rfl, rfl⟩

theorem adminBan_promoteThenLogin : ∃ c : SessionConfiguration, AcceptsCookie c "a3" ∧
    "a3" ∉ c.shared.admins.keys ∧ "lb" ∈ c.shared.admins.keys := by
  have hrun : ((sessions noCertificates platform).run promoteThenLogin
      (.initial (webState (installed users)))).any (fun c => entersWithCookie c 1 "a3" &&
        decide ("lb" ∈ c.shared.admins.keys)) = true := by decide +kernel
  obtain ⟨c, hc, hcheck⟩ := (Option.any_eq_true _ _).1 hrun
  rw [Bool.and_eq_true] at hcheck
  have haccepts := acceptsCookie_of_enters hcheck.1
  have halong : (sessions noCertificates platform).Along PromotesSignedOut promoteThenLogin
      (.initial (webState (installed users))) := by
    intro c₁ hc₁
    obtain rfl := Option.some.inj hc₁
    refine ⟨fun admin _ => signedOut_initial (fresh_webState _) _, ?_⟩
    apply System.along_of_tests promotesSignedOut_of_not
    decide +kernel
  exact ⟨c, haccepts, adminBan_of_run noCertificates platform (fresh_webState _) hc halong haccepts,
    of_decide_eq_true hcheck.2⟩

/-- A user who was made an admin after the login goes on with the cookie. -/
theorem admin_with_cookie : ¬ ∀ (F : Framework) (P : Platform) (s₀ : SessionState)
    (c : SessionConfiguration) (uid : String), s₀.Fresh → (sessions F P).Reaches (.initial s₀) c →
      AcceptsCookie c uid → uid ∉ c.shared.admins.keys := by
  intro hclaim
  have hrun : ((sessions noCertificates platform).run loginThenPromote
      (.initial (webState (installed users)))).any (fun c => entersWithCookie c 1 "a3" &&
        decide ("a3" ∈ c.shared.admins.keys)) = true := by decide +kernel
  obtain ⟨c, hc, hcheck⟩ := (Option.any_eq_true _ _).1 hrun
  rw [Bool.and_eq_true] at hcheck
  exact hclaim _ _ _ c "a3" (fresh_webState _) (System.reaches_of_run hc)
    (acceptsCookie_of_enters hcheck.1) (of_decide_eq_true hcheck.2)

end

end IMoviesCA
