import IMoviesCA.ChangePassword

/-!
# Where the passwords come from

A password hash gets into `users` by the installation, by `ChangePassword`, which asks for the old
password, or by `AccountController.Update`, which writes back the hash that it had read.  `Attested`
is the chain of password changes that goes back to the installation: each of them met the policy and
presented a password whose hash has a chain of its own.

In every reachable state the stored hashes are attested, and so is the password of every request that
generated a key, issued a certificate, stored or read an archive or wrote a backup
(`attested_of_reaches`).
-/

namespace IMoviesCA

open CADBModifier IssueController AccountController UserDBAuthenticator ChangePasswordController

variable {P : Platform} {s₀ : State} {c c' : Configuration} {uid : String}

/-! ## The operations of a request -/

section Performs

variable {α β : Type} {Q : Op → Prop}

theorem performs_call {e : Op} (h : Q e) : (call e).run.Performs Q := ⟨h, fun _ => trivial⟩

theorem performs_bind {p : Action α} {f : α → Action β} (hp : p.run.Performs Q)
    (hf : ∀ a, (f a).run.Performs Q) : (p >>= f).run.Performs Q := by
  refine Program.performs_bind (fun x => ?_) hp
  cases x with
  | ok a => exact hf a
  | error e => trivial

theorem performs_lift {p : Program Op Op.Res α} (hp : p.Performs Q) :
    (ExceptT.lift p : Action α).run.Performs Q :=
  Program.performs_bind (f := fun a => .done (Except.ok a)) (fun _ => trivial) hp

theorem performs_answer {p : Action Reply} (hp : p.run.Performs Q) : (answer p).Performs Q := by
  refine Program.performs_bind (fun x => ?_) hp
  cases x <;> trivial

theorem performs_orServerError {e : Op} {k : e.Val → Program Op Op.Res Reply} (he : Q e)
    (hk : ∀ v, (k v).Performs Q) : (orServerError e k).Performs Q := by
  refine ⟨he, fun x => ?_⟩
  cases x with
  | ok v => exact hk v
  | error f => trivial

end Performs

/-- A commit to `users` changes nothing, or the new password meets the policy. -/
def FollowsPolicy (P : Platform) (r : PasswordChangeRequest) (e : Op) : Prop :=
  ∀ ws, e = .commitUsers ws → ws = [] ∨ meetsPasswordPolicy P r.newPassword = true

theorem performs_closing (r : PasswordChangeRequest) (reply : Reply) :
    (closing reply).Performs (FollowsPolicy P r) := by
  refine performs_orServerError ?_ fun _ => trivial
  rintro ws ⟨⟩
  exact Or.inl rfl

theorem performs_executing {r : PasswordChangeRequest} (user : User)
    (hpolicy : meetsPasswordPolicy P r.newPassword = true) :
    (executing P r user).Performs (FollowsPolicy P r) := by
  refine performs_orServerError (by rintro ws ⟨⟩) fun _ => performs_orServerError ?_ fun _ => trivial
  exact fun ws _ => Or.inr hpolicy

theorem performs_decided (r : PasswordChangeRequest) (user : Option User) :
    (decided P r user).Performs (FollowsPolicy P r) := by
  unfold decided
  split
  · split_ifs with hpolicy
    · exact performs_executing _ hpolicy
    · exact performs_closing r _
  · exact performs_closing r _

theorem performs_api_changePassword (machineName : String) (r : PasswordChangeRequest) :
    (answer (api P machineName (.changePassword r))).Performs (FollowsPolicy P r) := by
  rw [answer_api]
  split
  · exact performs_orServerError (by rintro ws ⟨⟩) fun _ =>
      performs_orServerError (by rintro ws ⟨⟩) fun user => performs_decided r user
  · trivial

/-- The commits of a request that changes a password follow the policy. -/
theorem performs_of_calls {req : Request} {machineName : String} {r : PasswordChangeRequest}
    (hcalls : Calls req machineName (.changePassword r)) :
    ((system P).handler req).Performs (FollowsPolicy P r) := by
  cases hcalls with
  | api => exact performs_api_changePassword machineName r
  | @updatePassword machineName uid d =>
    apply performs_answer
    show (AccountController.updatePassword P machineName uid d).run.Performs _
    unfold AccountController.updatePassword
    split
    · trivial
    · refine performs_bind (performs_bind ?_ fun _ => trivial) fun _ => trivial
      refine performs_bind (performs_call (by rintro ws ⟨⟩)) fun _ => ?_
      refine performs_bind (performs_lift (performs_api_changePassword _ _)) fun _ => ?_
      exact performs_call (by rintro ws ⟨⟩)

/-! ## The chain -/

/-- The hash is one of the installation, or that of the new password of a committed change: it met the
policy, and its request presented a password whose hash is attested. -/
inductive Attested (P : Platform) (s₀ : State) (c : Configuration) (uid : String) : String → Prop
  | installed {user : User} (h : s₀.users.find? uid = some user) :
      Attested P s₀ c uid user.passwordHash
  | changed {i : ℕ} {req : Request} {machineName : String} {r : PasswordChangeRequest}
      (hreq : c.request i = some req) (hcalls : Calls req machineName (.changePassword r))
      (huid : r.uid = uid) (hold : Attested P s₀ c uid (computePasswordHash P r.oldPassword))
      (hpolicy : meetsPasswordPolicy P r.newPassword = true)
      (hcommit : .usersCommitted i
        [.update uid (.passwordHash (computePasswordHash P r.newPassword))] ∈ c.shared.history) :
      Attested P s₀ c uid (computePasswordHash P r.newPassword)

theorem mem_history_of_reaches (h : (system P).Reaches c c') {e : Event}
    (he : e ∈ c.shared.history) : e ∈ c'.shared.history := by
  obtain ⟨evs, hevs⟩ := evolves_of_reaches h
  rw [hevs.history]
  exact List.mem_append_right _ he

theorem Attested.mono (h : (system P).Reaches c c') {pwd : String} (ha : Attested P s₀ c uid pwd) :
    Attested P s₀ c' uid pwd := by
  induction ha with
  | installed hfind => exact .installed hfind
  | changed hreq hcalls huid _ hpolicy hcommit ih =>
    exact .changed (System.request_of_reaches h hreq) hcalls huid ih hpolicy
      (mem_history_of_reaches h hcommit)

/-- The password hashes that are stored, or were read, are attested. -/
structure PasswordsAttested (P : Platform) (s₀ : State) (c : Configuration) : Prop where
  stored : ∀ uid user, c.shared.users.find? uid = some user → Attested P s₀ c uid user.passwordHash
  read : ∀ i uid user, .userRead i uid (some user) ∈ c.shared.history →
    Attested P s₀ c uid user.passwordHash

/-- What a commit of one update does to the stored hashes. -/
theorem attested_of_update {t t' : Table User} {patch : UserPatch} {uid : String}
    (hc : t.commit [.update uid patch] = some t') {pwd : String}
    (hpatch : ∀ u : User, (Record.patch patch u : User).passwordHash = pwd)
    (hold : ∀ uid user, t.find? uid = some user → Attested P s₀ c uid user.passwordHash)
    (hnew : Attested P s₀ c uid pwd) (uid' : String) (user' : User)
    (hfind : t'.find? uid' = some user') : Attested P s₀ c uid' user'.passwordHash := by
  by_cases huid : uid = uid'
  · subst huid
    obtain ⟨u, -, hu⟩ := mem_of_commit_update hc
    rw [hu] at hfind
    obtain rfl := Option.some.inj hfind
    rw [hpatch]
    exact hnew
  · rw [find?_of_update hc huid] at hfind
    exact hold uid' user' hfind

/-- A commit to `users` keeps the stored hashes attested: the new one is that of a change that met the
policy, or one that was read. -/
theorem attested_of_commit (h : (system P).Reaches (.initial s₀) c) {i : ℕ}
    {ch : Choice} (ha : (system P).step (.step i ch) c = some c') {req : Request}
    {ws : List UserWrite} (hm : Move P c c' req (.usersCommitted i ws)) {t : Table User}
    (hc : c.shared.users.commit ws = some t) (hinv : PasswordsAttested P s₀ c) (uid : String)
    (user : User) (hfind : t.find? uid = some user) : Attested P s₀ c' uid user.passwordHash := by
  have hreaches : (system P).Reaches c c' := .single ⟨_, ha⟩
  have hstored : ∀ uid user, c.shared.users.find? uid = some user →
      Attested P s₀ c' uid user.passwordHash :=
    fun uid user hfind => (hinv.stored uid user hfind).mono hreaches
  have hunchanged : ws = [] → Attested P s₀ c' uid user.passwordHash := by
    rintro rfl
    obtain rfl := Option.some.inj hc
    exact hstored uid user hfind
  have hreq' : c'.request i = some req := System.request_of_step ha hm.request
  have hcommitted : .usersCommitted i ws ∈ c'.shared.history := by
    rw [hm.occurs.history]
    exact List.mem_cons_self
  rcases mem_trace hm.trace List.mem_cons_self with ⟨m, r, evs, hcalls, htrace, hsub, he⟩ | hweb
  · obtain ⟨-, r', rfl, rfl | ⟨old, hauth, rfl, rfl⟩⟩ := usersCommitted_cases htrace he
    · exact hunchanged rfl
    · have hread : .userRead i r'.uid (some old) ∈ c.shared.history := by
        have hmem := hsub (show .userRead i r'.uid (some old) ∈ passwordChangeEvents P i r' old by
          simp [passwordChangeEvents])
        exact (State.mem_own.1 (List.mem_of_ne_of_mem (by simp) hmem)).1
      have hold := (hinv.read _ _ _ hread).mono hreaches
      rw [hauth.2] at hold
      obtain ⟨-, k, hhere⟩ := op_of_step ha hm.occurs rfl hm.request
      have hfollows := System.performs_of_reaches (performs_of_calls (P := P) hcalls) h hhere _ rfl
      rcases hfollows with hnil | hpolicy
      · exact hunchanged hnil
      · unfold passwordHashChange at hc hcommitted
        split_ifs at hc hcommitted
        · obtain rfl := Option.some.inj hc
          exact hstored uid user hfind
        · rw [hauth.1] at hc hcommitted
          exact attested_of_update hc (fun _ => rfl) hstored
            (.changed hreq' hcalls rfl hold hpolicy hcommitted) uid user hfind
  · cases hweb with
    | @saved m uid' d old hid hread =>
      have hne : Event.usersCommitted i (savedDetails old d) ≠ .userRead i uid' (some old) := by simp
      have hmem := List.mem_of_getLast? (getLast?_of_cons hne hread)
      have hold := (hinv.read _ _ _ (State.mem_own.1 hmem).1).mono hreaches
      rw [← hid] at hold
      exact attested_of_update hc (fun _ => rfl) hstored hold uid user hfind

theorem passwordsAttested_of_step (h₀ : s₀.history = []) (h : (system P).Reaches (.initial s₀) c)
    {a : Act Request Choice ℕ} (ha : (system P).step a c = some c')
    (hinv : PasswordsAttested P s₀ c) : PasswordsAttested P s₀ c' := by
  have hreaches : (system P).Reaches c c' := .single ⟨a, ha⟩
  have hkept : ∀ uid user, c.shared.users.find? uid = some user →
      Attested P s₀ c' uid user.passwordHash :=
    fun uid user hfind => (hinv.stored uid user hfind).mono hreaches
  rcases moves_of_step h₀ h ha with hs | ⟨d, hs⟩ | ⟨req, e, ch, rfl, hm⟩
  · refine ⟨fun uid user hfind => ?_, fun i uid user hread => ?_⟩
    · rw [hs] at hfind
      exact hkept uid user hfind
    · rw [hs] at hread
      exact (hinv.read i uid user hread).mono hreaches
  · refine ⟨fun uid user hfind => ?_, fun i uid user hread => ?_⟩
    · rw [hs] at hfind
      exact hkept uid user hfind
    · rw [hs] at hread
      exact (hinv.read i uid user hread).mono hreaches
  · have hocc := hm.occurs
    constructor
    · intro uid user hfind
      generalize hs : c.shared = s at hocc
      generalize hs' : c'.shared = s' at hocc hfind
      cases hocc with
      | usersCommitted hc =>
        subst hs
        exact attested_of_commit h ha hm hc hinv uid user hfind
      | _ =>
        subst hs
        exact hkept uid user hfind
    · intro i uid user hread
      rw [hocc.history] at hread
      rcases List.mem_cons.1 hread with rfl | hread
      · generalize hs : c.shared = s at hocc
        generalize hs' : c'.shared = s' at hocc
        generalize hrow : some user = row at hocc
        cases hocc with
        | userRead =>
          subst hs
          exact hkept uid user hrow.symm
      · exact (hinv.read i uid user hread).mono hreaches

theorem passwordsAttested_of_reaches (h₀ : s₀.history = [])
    (h : (system P).Reaches (.initial s₀) c) : PasswordsAttested P s₀ c := by
  induction h with
  | refl =>
    refine ⟨fun uid user hfind => .installed hfind, fun i uid user hread => ?_⟩
    rw [Config.initial, h₀] at hread
    cases hread
  | tail hreach hstep ih =>
    obtain ⟨a, ha⟩ := hstep
    exact passwordsAttested_of_step h₀ hreach ha ih

/-! ## The requests behind what is guarded -/

/-- The user and the password that a request to the CA server presents. -/
def ApiRequest.credentials? : ApiRequest → Option (String × String)
  | .issue r => some (r.uid, r.password)
  | .changePassword r => some (r.uid, r.oldPassword)
  | .downloadPrivateKey r => some (r.uid, r.password)
  | .revoke _ => none
  | .getCRL => none
  | .getCipherSuites => none

/-- A key is generated, a certificate is issued, an archive is stored or read, or a backup is
written. -/
def Event.Guarded : Event → Prop
  | keyGenerated _ _ => True
  | certificatesCommitted _ ws _ => insertedRow ws ≠ none
  | privateKeysCommitted _ _ => True
  | privateKeyRead _ _ _ => True
  | fileWritten _ _ _ => True
  | _ => False

theorem authenticated_of_guarded {i : ℕ} {machineName : String} {r : ApiRequest} {evs : List Event}
    (h : ApiTrace P i machineName r evs) {e : Event} (he : e ∈ evs) (hguarded : e.Guarded) :
    ∃ uid password user, r.credentials? = some (uid, password) ∧
      Authenticated P uid password user ∧ .userRead i uid (some user) ∈ evs := by
  cases r with
  | issue r =>
    cases h with
    | start => cases he
    | userRead =>
      obtain rfl := List.mem_singleton.1 he
      cases hguarded
    | keyGenerated h => exact ⟨_, _, _, rfl, h, by simp⟩
    | certificatesRead h => exact ⟨_, _, _, rfl, h, by simp⟩
    | committed I => exact ⟨_, _, _, rfl, I.authenticated, by simp [Issuance.committed]⟩
    | fileWritten I => exact ⟨_, _, _, rfl, I.authenticated, by simp [Issuance.committed]⟩
    | delivered I =>
      exact ⟨_, _, _, rfl, I.authenticated, by simp [Issuance.delivered, Issuance.committed]⟩
  | downloadPrivateKey r =>
    cases h with
    | start => cases he
    | userRead =>
      obtain rfl := List.mem_singleton.1 he
      cases hguarded
    | privateKeyRead h => exact ⟨_, _, _, rfl, h, by simp⟩
  | revoke r =>
    cases h with
    | start => cases he
    | userRead =>
      obtain rfl := List.mem_singleton.1 he
      cases hguarded
    | certificatesRead =>
      simp only [List.mem_cons, List.not_mem_nil, or_false] at he
      rcases he with rfl | rfl <;> cases hguarded
    | committed hid hws =>
      simp only [revocationEvents, List.mem_cons, List.not_mem_nil, or_false] at he
      rcases he with rfl | rfl | rfl
      · exact absurd (insertedRow_revocations hws.revocations) hguarded
      · cases hguarded
      · cases hguarded
  | changePassword r =>
    cases h with
    | start => cases he
    | userRead =>
      obtain rfl := List.mem_singleton.1 he
      cases hguarded
    | refused =>
      simp only [List.mem_cons, List.not_mem_nil, or_false] at he
      rcases he with rfl | rfl <;> cases hguarded
    | changed =>
      simp only [passwordChangeEvents, List.mem_cons, List.not_mem_nil, or_false] at he
      rcases he with rfl | rfl <;> cases hguarded
  | getCRL =>
    cases h with
    | start => cases he
    | certificatesRead =>
      obtain rfl := List.mem_singleton.1 he
      cases hguarded
  | getCipherSuites =>
    obtain rfl : evs = [] := h
    cases he

/-- In every interleaving: the stored password hash of every user is attested, and whatever is guarded
was done by a request that presented an attested password of its user. -/
theorem attested_of_reaches (P : Platform) {s₀ : State} (h₀ : s₀.history = []) {c : Configuration}
    (h : (system P).Reaches (.initial s₀) c) :
    (∀ uid user, c.shared.users.find? uid = some user → Attested P s₀ c uid user.passwordHash) ∧
    ∀ e ∈ c.shared.history, e.Guarded → ∃ req machineName r uid password,
      c.request e.pid = some req ∧ Calls req machineName r ∧
        r.credentials? = some (uid, password) ∧
          Attested P s₀ c uid (computePasswordHash P password) := by
  have hinv := passwordsAttested_of_reaches h₀ h
  refine ⟨hinv.stored, fun e he hguarded => ?_⟩
  obtain ⟨req, hreq, hown, htrace⟩ := trace_of_mem_history h₀ h he
  rcases mem_trace htrace hown with ⟨m, r, evs, hcalls, hapi, hsub, he'⟩ | hweb
  · obtain ⟨uid, password, user, hcredentials, hauth, hread⟩ :=
      authenticated_of_guarded hapi he' hguarded
    have hattested := hinv.read _ _ _ (State.mem_own.1 (hsub hread)).1
    rw [hauth.2] at hattested
    exact ⟨req, m, r, uid, password, hreq, hcalls, hcredentials, hattested⟩
  · generalize hpid : e.pid = i at hweb
    cases hweb <;> cases hguarded

section

open Deployment

/-- After a password change, a request for a certificate. -/
def changeThenIssue : List (Act Request Choice ℕ) :=
  .arrive 0 changeRequest :: (steps 0 4 ++ .arrive 1
    (.api "aslcert01" (.issue { certRequest with password := "sunny-harbour-42" })) :: steps 1 16)

/-- Process 1 has written a backup. -/
def backedUp (c : Configuration) : Bool :=
  c.shared.history.any fun e =>
    match e with
    | .fileWritten 1 _ _ => true
    | _ => false

theorem guarded_of_backedUp {c : Configuration} (h : backedUp c = true) :
    ∃ e ∈ c.shared.history, e.pid = 1 ∧ e.Guarded := by
  obtain ⟨e, he, hwritten⟩ := List.any_eq_true.1 h
  split at hwritten
  · exact ⟨_, he, rfl, trivial⟩
  · cases hwritten

theorem attested_changeThenIssue : ∃ (c : Configuration) (req : Request) (machineName : String)
    (r : ApiRequest) (uid password : String), (system platform).Reaches (.initial (installed users)) c ∧
      c.request 1 = some req ∧ Calls req machineName r ∧ r.credentials? = some (uid, password) ∧
        Attested platform (installed users) c uid (computePasswordHash platform password) := by
  have hrun : ((system platform).run changeThenIssue (.initial (installed users))).map backedUp =
      some true := by decide +kernel
  obtain ⟨c, hc, hbackedUp⟩ := Option.map_eq_some_iff.1 hrun
  obtain ⟨e, he, hpid, hguarded⟩ := guarded_of_backedUp hbackedUp
  have hreach := System.reaches_of_run hc
  obtain ⟨req, m, r, uid, password, hreq, hcalls, hcredentials, hattested⟩ :=
    (attested_of_reaches platform rfl hreach).2 e he hguarded
  rw [hpid] at hreq
  exact ⟨c, req, m, r, uid, password, hreach, hreq, hcalls, hcredentials, hattested⟩

end

end IMoviesCA
