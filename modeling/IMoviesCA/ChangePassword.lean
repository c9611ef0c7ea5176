import IMoviesCA.PasswordChange
import IMoviesCA.Encoding

/-!
# One password change

The program of `ChangePassword` in stages, and what it does when no other request is in between
(`outcome_of_alone`).

An accepted change stores the hash of the new password.  `AuthenticateAndGetUser` compares hashes of
ASCII bytes, and so the new password is the only one that it admits afterwards if and only if it is
plain (`admitsOnly_iff`).
-/

namespace IMoviesCA

open UserDBAuthenticator

/-! ## The stages of the program -/

namespace ChangePasswordController

variable (P : Platform) (r : PasswordChangeRequest)

/-- Nothing was changed: an empty transaction is committed. -/
def closing (reply : Reply) : Program Op Op.Res Reply :=
  orServerError (.commitUsers []) fun _ => .done reply

/-- The statements of the change were executed. -/
def committing (user : User) : Program Op Op.Res Reply :=
  orServerError (.commitUsers (passwordHashChange user (computePasswordHash P r.newPassword)))
    fun _ => .done .noContent

/-- The new password hash was set. -/
def executing (user : User) : Program Op Op.Res Reply :=
  orServerError (.executeUsers (passwordHashChange user (computePasswordHash P r.newPassword)))
    fun _ => committing P r user

/-- The row of the user was read. -/
def decided (user : Option User) : Program Op Op.Res Reply :=
  match user.filter fun user => user.passwordHash == computePasswordHash P r.oldPassword with
  | some user =>
      if meetsPasswordPolicy P r.newPassword then executing P r user else closing (.badRequest none)
  | none => closing .unauthorized

/-- The transaction was opened. -/
def reading : Program Op Op.Res Reply := orServerError (.findUser r.uid) (decided P r)

theorem answer_changePassword : answer (changePassword P r) =
    orServerError (.mayThrow .beginTransaction) fun _ => reading P r := by
  refine answer_call_eq fun _ => ?_
  refine answer_call_bind_eq fun user => ?_
  show answer _ = decided P r user
  unfold decided
  show answer (match user.filter _ with | some user => _ | none => _) = _
  split
  · unfold UserDBAuthenticator.changePassword
    split_ifs
    · refine answer_call_bind_eq fun _ => ?_
      exact answer_call _ _
    · exact answer_call _ _
  · exact answer_call _ _

/-- The answer to a request, by its field validation. -/
theorem answer_api (machineName : String) : answer (api P machineName (.changePassword r)) =
    if r.isValid then orServerError (.mayThrow .beginTransaction) fun _ => reading P r
    else .done (.badRequest none) := by
  show answer (apiController r.isValid (changePassword P r)) = _
  unfold apiController
  split_ifs
  · exact answer_changePassword P r
  · rfl

/-- A row whose password was the old one is changed or refused by the policy. -/
theorem decided_of_authenticated {user : User}
    (h : user.passwordHash = computePasswordHash P r.oldPassword) : decided P r (some user) =
      if meetsPasswordPolicy P r.newPassword then executing P r user
      else closing (.badRequest none) := by
  have hfilter : (some user).filter (fun user =>
      user.passwordHash == computePasswordHash P r.oldPassword) = some user := by simp [h]
  unfold decided
  rw [hfilter]

theorem decided_of_unauthenticated {user : Option User}
    (h : user.map User.passwordHash ≠ some (computePasswordHash P r.oldPassword)) :
    decided P r user = closing .unauthorized := by
  have hfilter : user.filter (fun user =>
      user.passwordHash == computePasswordHash P r.oldPassword) = none := by
    cases user with
    | none => rfl
    | some user =>
      have hne : user.passwordHash ≠ computePasswordHash P r.oldPassword := fun heq =>
        h (congrArg some heq)
      simp [hne]
  unfold decided
  rw [hfilter]

end ChangePasswordController

open ChangePasswordController

/-! ## Alone -/

theorem users_of_error {i : ℕ} {e : Op} {c : Choice} {s s' : State} {f : Fault}
    (h : exec i e c s = (.error f, s')) : s'.users = s.users := by
  cases c with
  | ok =>
    cases e with
    | commitUsers | commitCertificates | commitPrivateKeys =>
      simp only [exec, Op.run] at h
      split at h <;> cases h
      rfl
    | executeUsers ws =>
      obtain ⟨-, rfl⟩ := Prod.mk.inj h
      rfl
    | executeCertificates ws =>
      obtain ⟨-, rfl⟩ := Prod.mk.inj h
      rfl
    | executePrivateKeys ws =>
      obtain ⟨-, rfl⟩ := Prod.mk.inj h
      rfl
    | _ => cases h
  | throws written =>
    obtain ⟨-, rfl⟩ := Prod.mk.inj h
    cases e with
    | writeAllBytes | receive => cases written <;> rfl
    | _ => rfl

/-- The stored password hash of a user. -/
def passwordHashIn (t : Table User) (uid : String) : Option String :=
  (t.find? uid).map User.passwordHash

/-- What a password change answers, and the table that it leaves. -/
inductive ChangeOutcome (P : Platform) (r : PasswordChangeRequest) (t : Table User) :
    Reply → Table User → Prop
  | failed : ChangeOutcome P r t .serverError t
  | invalid (h : r.isValid = false) : ChangeOutcome P r t (.badRequest none) t
  | unauthorized (hvalid : r.isValid = true)
      (h : passwordHashIn t r.uid ≠ some (computePasswordHash P r.oldPassword)) :
      ChangeOutcome P r t .unauthorized t
  | refused (hvalid : r.isValid = true)
      (h : passwordHashIn t r.uid = some (computePasswordHash P r.oldPassword))
      (hpolicy : meetsPasswordPolicy P r.newPassword = false) :
      ChangeOutcome P r t (.badRequest none) t
  | changed {user : User} {t' : Table User} (hvalid : r.isValid = true)
      (hfind : t.find? r.uid = some user)
      (hpassword : user.passwordHash = computePasswordHash P r.oldPassword)
      (hpolicy : meetsPasswordPolicy P r.newPassword = true)
      (hcommit : t.commit (passwordHashChange user (computePasswordHash P r.newPassword)) = some t') :
      ChangeOutcome P r t .noContent t'

/-- An operation of a request that runs alone: it has a value, or it fails and leaves `users` as it
is. -/
theorem alone_orServerError (i : ℕ) {e : Op} (he : e.Throws) (k : e.Val → Program Op Op.Res Reply)
    (sched : ℕ → ℕ × Choice) (s : State) :
    (∃ v s', e.run i (tick (sched 0).1 s) = (.ok v, s') ∧
      machine.alone i (orServerError e k) sched s =
        machine.alone i (k v) (fun n => sched (n + 1)) s') ∨
    ∃ s', machine.alone i (orServerError e k) sched s = (.serverError, s') ∧ s'.users = s.users := by
  cases hx : exec i e (sched 0).2 (tick (sched 0).1 s) with
  | mk x s' =>
    cases x with
    | ok v =>
      left
      refine ⟨v, s', ?_, (Machine.alone_op hx).trans rfl⟩
      cases hc : (sched 0).2 with
      | ok =>
        rw [hc] at hx
        exact hx
      | throws written =>
        rw [hc, exec, he written] at hx
        cases hx
    | error f =>
      have hs' := users_of_error hx
      exact Or.inr ⟨s', (Machine.alone_op hx).trans rfl, hs'⟩

variable {P : Platform} {r : PasswordChangeRequest} {i : ℕ}

/-- One operation that keeps `users`, and then the rest of the request. -/
theorem outcome_of_op {t : Table User} {e : Op} {k : e.Val → Program Op Op.Res Reply} {s : State}
    (sched : ℕ → ℕ × Choice) (he : e.Throws) (hs : s.users = t)
    (h : ∀ v s' sched', e.run i (tick (sched 0).1 s) = (.ok v, s') →
      ChangeOutcome P r t (machine.alone i (k v) sched' s').1
        (machine.alone i (k v) sched' s').2.users) :
    ChangeOutcome P r t (machine.alone i (orServerError e k) sched s).1
      (machine.alone i (orServerError e k) sched s).2.users := by
  rcases alone_orServerError i he k sched s with ⟨v, s', hrun, halone⟩ | ⟨s', halone, hs'⟩
  · rw [halone]
    exact h v s' _ hrun
  · rw [halone]
    show ChangeOutcome P r t .serverError s'.users
    rw [hs', hs]
    exact .failed

theorem outcome_closing {t : Table User} {reply : Reply} {s : State} (sched : ℕ → ℕ × Choice)
    (hs : s.users = t) (h : ChangeOutcome P r t reply t) :
    ChangeOutcome P r t (machine.alone i (closing reply) sched s).1
      (machine.alone i (closing reply) sched s).2.users := by
  apply outcome_of_op sched (fun _ => rfl) hs
  intro v s' sched' hrun
  obtain ⟨-, rfl⟩ := Prod.mk.inj hrun
  show ChangeOutcome P r t reply s.users
  rw [hs]
  exact h

theorem outcome_executing {t : Table User} {user : User} {s : State} (sched : ℕ → ℕ × Choice)
    (hs : s.users = t) (hvalid : r.isValid = true) (hfind : t.find? r.uid = some user)
    (hpassword : user.passwordHash = computePasswordHash P r.oldPassword)
    (hpolicy : meetsPasswordPolicy P r.newPassword = true) :
    ChangeOutcome P r t (machine.alone i (executing P r user) sched s).1
      (machine.alone i (executing P r user) sched s).2.users := by
  apply outcome_of_op sched (fun _ => rfl) hs
  intro v s₁ sched₁ hrun₁
  have hs₁ : s₁.users = t := by
    obtain ⟨-, rfl⟩ := Prod.mk.inj hrun₁
    exact hs
  apply outcome_of_op sched₁ (fun _ => rfl) hs₁
  intro v₂ s₂ sched₂ hrun₂
  have htick : (tick (sched₁ 0).1 s₁).users = t := hs₁
  simp only [Op.run, htick] at hrun₂
  split at hrun₂
  · rename_i t' hcommit
    obtain ⟨-, rfl⟩ := Prod.mk.inj hrun₂
    exact .changed hvalid hfind hpassword hpolicy hcommit
  · cases hrun₂

/-- A password change that runs alone. -/
theorem outcome_of_alone (P : Platform) (r : PasswordChangeRequest) (i : ℕ) (machineName : String)
    (sched : ℕ → ℕ × Choice) (s : State) :
    ChangeOutcome P r s.users
      (machine.alone i (answer (api P machineName (.changePassword r))) sched s).1
      (machine.alone i (answer (api P machineName (.changePassword r))) sched s).2.users := by
  rw [answer_api]
  split_ifs with hvalid
  · apply outcome_of_op sched (fun _ => rfl) rfl
    intro v s₁ sched₁ hrun₁
    have hs₁ : s₁.users = s.users := by
      obtain ⟨-, rfl⟩ := Prod.mk.inj hrun₁
      rfl
    apply outcome_of_op sched₁ (fun _ => rfl) hs₁
    intro user s₂ sched₂ hrun₂
    obtain ⟨hfind, hs₂⟩ : user = s.users.find? r.uid ∧ s₂.users = s.users := by
      obtain ⟨huser, rfl⟩ := Prod.mk.inj hrun₂
      rw [← hs₁]
      exact ⟨(Except.ok.inj huser).symm, rfl⟩
    by_cases hauth : user.map User.passwordHash = some (computePasswordHash P r.oldPassword)
    · obtain ⟨u, rfl, hpassword⟩ := Option.map_eq_some_iff.1 hauth
      rw [decided_of_authenticated P r hpassword]
      split_ifs with hpolicy
      · exact outcome_executing sched₂ hs₂ hvalid hfind.symm hpassword hpolicy
      · apply outcome_closing sched₂ hs₂
        refine .refused hvalid ?_ (by simpa using hpolicy)
        rw [passwordHashIn, ← hfind]
        exact hauth
    · rw [decided_of_unauthenticated P r hauth]
      apply outcome_closing sched₂ hs₂
      refine .unauthorized hvalid ?_
      rw [passwordHashIn, ← hfind]
      exact hauth
  · exact .invalid (by simpa using hvalid)

/-! ## The passwords that are admitted afterwards -/

/-- `AuthenticateAndGetUser` returns the user. -/
def Admits (P : Platform) (s : State) (uid password : String) : Prop :=
  ∃ user s', machine.alone 0 (authenticateAndGetUser P uid password).run (fun _ => (0, .ok)) s =
    (.ok (some user), s')

theorem admits_iff {s : State} {uid password : String} :
    Admits P s uid password ↔ s.passwordHashOf uid = some (computePasswordHash P password) := by
  have halone : (machine.alone 0 (authenticateAndGetUser P uid password).run (fun _ => (0, .ok)) s).1 =
      .ok ((s.users.find? uid).filter fun user =>
        user.passwordHash == computePasswordHash P password) := rfl
  constructor
  · rintro ⟨user, s', hrun⟩
    rw [hrun] at halone
    obtain ⟨hfind, hpassword⟩ := Option.filter_eq_some_iff.1 (Except.ok.inj halone).symm
    rw [State.passwordHashOf, hfind]
    exact congrArg some (by simpa using hpassword)
  · intro h
    obtain ⟨user, hfind, hpassword⟩ := Option.map_eq_some_iff.1 h
    refine ⟨user, _, Prod.ext (halone.trans ?_) rfl⟩
    rw [hfind]
    simp [hpassword]

/-- The request is answered with 204. -/
def Accepted (P : Platform) (r : PasswordChangeRequest) (s s' : State) : Prop :=
  ∃ i machineName sched,
    machine.alone i (answer (api P machineName (.changePassword r))) sched s = (.noContent, s')

/-- The change of the row that was read. -/
theorem passwordHashIn_of_commit {t t' : Table User} {user : User} {uid pwd : String}
    (hfind : t.find? uid = some user) (h : t.commit (passwordHashChange user pwd) = some t') :
    passwordHashIn t' uid = some pwd := by
  unfold passwordHashChange at h
  split_ifs at h with hsame
  · obtain rfl := Option.some.inj h
    rw [passwordHashIn, hfind]
    exact congrArg some hsame
  · obtain ⟨u, -, hu⟩ := mem_of_commit_update h
    have hid : user.id = uid := (Table.find?_eq_some_iff.1 hfind).2
    rw [passwordHashIn, ← hid, hu]
    rfl

/-- An accepted change has presented the password whose hash it finds, and replaces it. -/
theorem changed_of_accepted {s s' : State} (h : Accepted P r s s') : r.isValid = true ∧
    ∃ user, s.users.find? r.uid = some user ∧
      user.passwordHash = computePasswordHash P r.oldPassword ∧
      s.users.commit (passwordHashChange user (computePasswordHash P r.newPassword)) =
        some s'.users := by
  obtain ⟨i, m, sched, halone⟩ := h
  have houtcome := outcome_of_alone P r i m sched s
  rw [halone] at houtcome
  generalize hreply : Reply.noContent = reply at houtcome
  generalize s'.users = t at houtcome
  cases houtcome with
  | changed hvalid hfind hpassword hpolicy hcommit => exact ⟨hvalid, _, hfind, hpassword, hcommit⟩
  | _ => cases hreply

/-- An accepted change stores the hash of the new password. -/
theorem passwordHashOf_of_accepted {s s' : State} (h : Accepted P r s s') :
    r.isValid = true ∧ s'.passwordHashOf r.uid = some (computePasswordHash P r.newPassword) := by
  obtain ⟨hvalid, user, hfind, -, hcommit⟩ := changed_of_accepted h
  exact ⟨hvalid, passwordHashIn_of_commit hfind hcommit⟩

/-- After an accepted change, the passwords that are admitted have the ASCII bytes of the new one. -/
theorem admits_of_accepted (hsha1 : Set.InjOn P.sha1 (Set.range asciiGetBytes)) {s s' : State}
    (h : Accepted P r s s') (q : String) :
    Admits P s' r.uid q ↔ asciiGetBytes q = asciiGetBytes r.newPassword := by
  rw [admits_iff, (passwordHashOf_of_accepted h).2, Option.some.injEq]
  constructor
  · intro heq
    have hdigest := hexLower_injective heq
    exact (hsha1 ⟨_, rfl⟩ ⟨_, rfl⟩ hdigest).symm
  · intro heq
    rw [computePasswordHash, computePasswordHash, heq]

/-- After an accepted change, the new password is the only one that is admitted if and only if it
consists of ASCII characters other than `?`. -/
theorem admitsOnly_iff (P : Platform) (hsha1 : Set.InjOn P.sha1 (Set.range asciiGetBytes))
    (r : PasswordChangeRequest) (s s' : State) (h : Accepted P r s s') :
    (∀ q, Admits P s' r.uid q ↔ q = r.newPassword) ↔ Plain r.newPassword := by
  constructor
  · intro honly
    by_contra hplain
    obtain ⟨q, hne, hbytes⟩ := exists_asciiGetBytes_eq hplain
    exact hne ((honly q).1 ((admits_of_accepted hsha1 h q).2 hbytes))
  · intro hplain q
    rw [admits_of_accepted hsha1 h]
    constructor
    · intro hbytes
      exact (eq_of_asciiGetBytes_eq hplain hbytes.symm).symm
    · rintro rfl
      rfl

section

open Deployment

/-- The request is accepted when nothing fails. -/
theorem accepted_of_answer {P : Platform} {r : PasswordChangeRequest} {s : State}
    (h : (machine.alone 0 (answer (api P "aslcert01" (.changePassword r))) (fun _ => (0, .ok)) s).1 =
      .noContent) : ∃ s', Accepted P r s s' :=
  ⟨_, 0, "aslcert01", fun _ => (0, .ok), Prod.ext h rfl⟩

theorem admitsOnly_sunnyHarbour : ∃ s', Accepted hashing passwordRequest (installed users) s' ∧
    ∀ q, Admits hashing s' "a3" q ↔ q = "sunny-harbour-42" := by
  obtain ⟨s', h⟩ : ∃ s', Accepted hashing passwordRequest (installed users) s' :=
    accepted_of_answer (by decide +kernel)
  exact ⟨s', h, (admitsOnly_iff hashing digest_injective.injOn passwordRequest _ s' h).2 (by decide)⟩

/-- A password with a letter that is not in ASCII. -/
def zurichRequest : PasswordChangeRequest := ⟨"a3", "Astrid", "Zürich-8001"⟩

/-- After the change to `Zürich-8001`, `Z?rich-8001` is admitted too. -/
theorem admits_question_mark : ¬ ∀ (P : Platform) (r : PasswordChangeRequest) (s s' : State),
    Set.InjOn P.sha1 (Set.range asciiGetBytes) → Accepted P r s s' →
      ∀ q, Admits P s' r.uid q ↔ q = r.newPassword := by
  intro hclaim
  obtain ⟨s', h⟩ : ∃ s', Accepted hashing zurichRequest (installed users) s' :=
    accepted_of_answer (by decide +kernel)
  have honly := hclaim hashing zurichRequest (installed users) s' digest_injective.injOn h
  have hadmits := (admits_of_accepted digest_injective.injOn h "Z?rich-8001").2 (by decide)
  have hne : "Z?rich-8001" ≠ "Zürich-8001" := by decide
  exact hne ((honly _).1 hadmits)

end

end IMoviesCA
