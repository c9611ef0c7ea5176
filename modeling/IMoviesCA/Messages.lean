import IMoviesCA.Replies
import IMoviesCA.Isolation

/-!
# The messages of the web server

After a form the web server redirects with a message, which says that the action succeeded or that it
failed.  `WebRequest.Effect` is what a success stands for: what the process has left.  In every run a
message of success is shown if and only if the process has left it and the answer of the CA was not
lost to an error, and a message of failure stands for nothing left behind, unless it was
(`truthful_of_reaches`).

The contracts of `Handlers` say what an answer of the CA promises; here the endpoints of revocation and
of password changes also keep silent about nothing (`Exactly`): an exception leaves no commit behind.
-/

namespace IMoviesCA

open CADBModifier UserDBAuthenticator

variable {P : Platform} {i : ℕ} {base evs : List Event} {T : Time}

/-! ## Answers -/

/-- An endpoint succeeds if and only if this is done, and else it leaves nothing behind. -/
structure Exactly (Done : List Event → Prop) (reply : Reply) (evs : List Event) : Prop where
  success_iff : reply.isSuccessStatusCode = true ↔ Done evs
  leavesNothing : reply.isSuccessStatusCode = false → LeavesNothing evs

/-- It is not done, and nothing else was left behind. -/
def NotDone (Done : List Event → Prop) (evs : List Event) : Prop := LeavesNothing evs ∧ ¬ Done evs

theorem exactly_of_notDone {Done : List Event → Prop} {reply : Reply}
    (hreply : reply.isSuccessStatusCode = false) (h : NotDone Done evs) : Exactly Done reply evs :=
  ⟨iff_of_false (Bool.eq_false_iff.1 hreply) h.2, fun _ => h.1⟩

theorem exactly_of_done {Done : List Event → Prop} (h : Done evs) : Exactly Done .noContent evs :=
  ⟨iff_of_true rfl h, fun hfailure => absurd hfailure (by simp [Reply.isSuccessStatusCode])⟩

/-! ## Revocation -/

/-- The revocation was carried out. -/
def Revoked (i : ℕ) (uid : String) (evs : List Event) : Prop :=
  ∃ (user : User) (t : Table PublicCertificate) (since : Time) (ws : List CertificateWrite)
    (time : Time), user.id = uid ∧ RevokesAll uid t since ws time ∧
      evs = revocationEvents i user t since ws time

theorem notRevoked_of_leavesNothing {uid : String} (h : LeavesNothing evs) :
    NotDone (Revoked i uid) evs := by
  refine ⟨h, ?_⟩
  rintro ⟨user, t, since, ws, time, -, -, rfl⟩
  cases h _ List.mem_cons_self

/-- `RevokeCertificate` succeeds if and only if it has revoked. -/
theorem meets_revokeCertificate_exactly (r : RevokeRequest) (base : List Event) (T : Time) :
    Meets i base (RevokeTrace i r.uid) (NotDone (Revoked i r.uid)) [] T
      (RevokeController.revokeCertificate r)
      fun reply evs _ => Exactly (Revoked i r.uid) reply evs := by
  have hread : ∀ user, NotDone (Revoked i r.uid) [.userRead i r.uid user] := fun user =>
    notRevoked_of_leavesNothing (by simp [LeavesNothing, Event.keeps])
  refine meets_bind (meets_findUser (notRevoked_of_leavesNothing leavesNothing_nil)
    fun user t _ hrow => ⟨.userRead hrow, ?_⟩)
  cases user with
  | none => exact meets_pure fun _ _ => exactly_of_notDone rfl (hread none)
  | some u =>
    have hid : u.id = r.uid := hrow u rfl
    refine meets_bind (meets_bind (meets_readCertificates (hread _) fun snapshot t' _ =>
      ⟨.certificatesRead hid, ?_⟩))
    have hsnapshot : NotDone (Revoked i r.uid)
        [.certificatesRead i snapshot t', .userRead i r.uid (some u)] :=
      notRevoked_of_leavesNothing (by simp [LeavesNothing, Event.keeps])
    refine meets_revocations hsnapshot le_rfl
      (fun ws => do saveChanges ws .autocommit; return ws) ?_
    intro ws t'' _ hws
    rw [hid] at hws
    have hevents : ∀ time, revocationEvents i u snapshot t' ws time =
        [.certificatesCommitted i ws time, .certificatesRead i snapshot t',
          .userRead i r.uid (some u)] := by
      intro time
      rw [revocationEvents, hid]
    refine meets_bind (meets_commitCertificates hsnapshot fun time htime => ⟨?_, ?_⟩)
    · rw [← hevents]
      exact .committed hid (hws.mono htime)
    · refine meets_pure fun _ _ => meets_pure fun _ _ => exactly_of_done ?_
      exact ⟨u, snapshot, t', ws, time, hid, hws.mono htime, (hevents time).symm⟩

/-! ## Password changes -/

/-- The password was changed to one that meets the policy. -/
def Changed (P : Platform) (i : ℕ) (r : PasswordChangeRequest) (evs : List Event) : Prop :=
  ∃ user, Authenticated P r.uid r.oldPassword user ∧ meetsPasswordPolicy P r.newPassword = true ∧
    evs = passwordChangeEvents P i r user

theorem notChanged_nil {r : PasswordChangeRequest} : NotDone (Changed P i r) [] := by
  refine ⟨leavesNothing_nil, ?_⟩
  rintro ⟨user, -, -, hevs⟩
  cases hevs

theorem notChanged_userRead {r : PasswordChangeRequest} (user : Option User) :
    NotDone (Changed P i r) [.userRead i r.uid user] := by
  refine ⟨by simp [LeavesNothing, Event.keeps], ?_⟩
  rintro ⟨u, -, -, hevs⟩
  simp [passwordChangeEvents] at hevs

/-- The row that was read decides who authenticates. -/
theorem user_of_changed {r : PasswordChangeRequest} {user : Option User} {ws : List UserWrite}
    (h : Changed P i r [.usersCommitted i ws, .userRead i r.uid user]) :
    ∃ u, user = some u ∧ u.passwordHash = computePasswordHash P r.oldPassword ∧
      meetsPasswordPolicy P r.newPassword = true := by
  obtain ⟨u, hauth, hpolicy, hevs⟩ := h
  obtain ⟨-, rfl⟩ : _ ∧ user = some u := by simpa [passwordChangeEvents] using hevs
  exact ⟨u, rfl, hauth.2, hpolicy⟩

/-- `ChangePassword` succeeds if and only if it has changed the password. -/
theorem meets_changePassword_exactly (r : PasswordChangeRequest) (base : List Event) (T : Time) :
    Meets i base (ChangePasswordTrace P i r) (NotDone (Changed P i r)) [] T
      (ChangePasswordController.changePassword P r)
      fun reply evs _ => Exactly (Changed P i r) reply evs := by
  have hnothing : ∀ user, LeavesNothing [.usersCommitted i [], .userRead i r.uid user] := by
    intro user
    simp [LeavesNothing, Event.keeps]
  refine meets_bind (meets_silent (silent_mayThrow _) notChanged_nil fun _ s _ _ => ?_)
  refine meets_bind (meets_bind (meets_findUser notChanged_nil fun user t _ hrow => ⟨.userRead hrow, ?_⟩))
  refine meets_pure fun t₁ _ => ?_
  by_cases hauth : ∃ u, user = some u ∧ u.passwordHash = computePasswordHash P r.oldPassword
  · obtain ⟨u, rfl, hpwd⟩ := hauth
    have hfilter : (some u).filter
        (fun user => user.passwordHash == computePasswordHash P r.oldPassword) = some u := by
      simp [hpwd]
    rw [hfilter]
    apply meets_bind
    unfold UserDBAuthenticator.changePassword
    split_ifs with hpolicy
    · refine meets_bind (meets_silent (silent_executeUsers _) (notChanged_userRead _) fun _ s₁ _ _ => ?_)
      apply meets_pure
      intro t₂ _
      have huser : Authenticated P r.uid r.oldPassword u := ⟨hrow u rfl, hpwd⟩
      refine meets_bind (meets_commitUsers (notChanged_userRead _) fun t₃ _ => ⟨.changed huser, ?_⟩)
      exact meets_pure fun _ _ => exactly_of_done ⟨u, huser, hpolicy, rfl⟩
    · apply meets_pure
      intro t₂ _
      refine meets_bind (meets_commitUsers (notChanged_userRead _) fun t₃ _ => ⟨.refused hrow, ?_⟩)
      refine meets_pure fun _ _ => exactly_of_notDone rfl ⟨hnothing _, fun hchanged => ?_⟩
      obtain ⟨-, -, -, hmeets⟩ := user_of_changed hchanged
      exact hpolicy hmeets
  · have hfilter : user.filter
        (fun user => user.passwordHash == computePasswordHash P r.oldPassword) = none := by
      cases user with
      | none => rfl
      | some u =>
        have hpwd : ¬ u.passwordHash = computePasswordHash P r.oldPassword :=
          fun hpwd => hauth ⟨u, rfl, hpwd⟩
        simp [hpwd]
    rw [hfilter]
    refine meets_bind (meets_commitUsers (notChanged_userRead _) fun t₃ _ => ⟨.refused hrow, ?_⟩)
    refine meets_pure fun _ _ => exactly_of_notDone rfl ⟨hnothing _, fun hchanged => ?_⟩
    obtain ⟨u, huser, hpwd, -⟩ := user_of_changed hchanged
    exact hauth ⟨u, huser, hpwd⟩

/-! ## Calls of the web server -/

/-- The web server receives the answer of an endpoint that says what was done, or one of `nginx`. -/
theorem meets_send_exactly {machineName : String} {r : ApiRequest} {Done : List Event → Prop}
    (hapi : ∀ base T, Meets i base (ApiTrace P i machineName r) (NotDone Done) [] T
      (api P machineName r) fun reply evs _ => Exactly Done reply evs)
    (hanswer : ∀ reply evs, Exactly Done reply evs → ApiAnswer P i machineName r reply evs)
    (base : List Event) (T : Time) :
    Meets i base (CallTrace P i machineName r) (fun _ => True) [] T
      (CoreCAClient.send P machineName r)
      fun reply evs _ => ∃ evs', evs = .received i reply :: evs' ∧
        (reply = .badGateway ∨ Exactly Done reply evs') := by
  refine meets_mono ?_ (meets_send_of hapi (fun _ h => exactly_of_notDone rfl h) hanswer base T)
  rintro reply evs t ⟨evs', hevs, -, hanswer⟩
  exact ⟨evs', hevs, hanswer⟩

theorem apiAnswer_of_exactlyRevoked {machineName uid : String} {reply : Reply}
    (h : Exactly (Revoked i uid) reply evs) : ApiAnswer P i machineName (.revoke ⟨uid⟩) reply evs :=
  h.success_iff.1

theorem apiAnswer_of_exactlyChanged {machineName : String} {r : PasswordChangeRequest} {reply : Reply}
    (h : Exactly (Changed P i r) reply evs) :
    ApiAnswer P i machineName (.changePassword r) reply evs := by
  intro hsuccess
  obtain ⟨user, hauth, -, hevs⟩ := h.success_iff.1 hsuccess
  exact ⟨user, hauth, hevs⟩

theorem meets_send_revoke (machineName uid : String) (base : List Event) (T : Time) :
    Meets i base (CallTrace P i machineName (.revoke ⟨uid⟩)) (fun _ => True) [] T
      (CoreCAClient.send P machineName (.revoke ⟨uid⟩))
      fun reply evs _ => ∃ evs', evs = .received i reply :: evs' ∧
        (reply = .badGateway ∨ Exactly (Revoked i uid) reply evs') := by
  refine meets_send_exactly (fun base T => ?_) (fun _ _ => apiAnswer_of_exactlyRevoked) base T
  exact meets_apiController (meets_revokeCertificate_exactly ⟨uid⟩ base T) fun _ =>
    exactly_of_notDone rfl (notRevoked_of_leavesNothing leavesNothing_nil)

theorem meets_send_changePassword (machineName : String) (r : PasswordChangeRequest)
    (base : List Event) (T : Time) :
    Meets i base (CallTrace P i machineName (.changePassword r)) (fun _ => True) [] T
      (CoreCAClient.send P machineName (.changePassword r))
      fun reply evs _ => ∃ evs', evs = .received i reply :: evs' ∧
        (reply = .badGateway ∨ Exactly (Changed P i r) reply evs') := by
  refine meets_send_exactly (fun base T => ?_) (fun _ _ => apiAnswer_of_exactlyChanged) base T
  exact meets_apiController (meets_changePassword_exactly r base T) fun _ =>
    exactly_of_notDone rfl notChanged_nil

/-! ## The actions -/

/-- The stored archive of the user was put into the memory cache, for the right password. -/
def Downloaded (P : Platform) (i : ℕ) (uid : String) (d : DownloadCertDetails) (evs : List Event) :
    Prop :=
  ∃ (user : User) (key : PrivateKey) (expires time : Time), Authenticated P uid d.password user ∧
    .privateKeyRead i uid (some key) ∈ evs ∧
      .cacheSet i (CertController.cacheKey uid) key.keyPkcs12 expires time ∈ evs

/-- A certificate was issued, and its archive was stored and put into the memory cache. -/
def NewCertificate (P : Platform) (i : ℕ) (machineName uid : String) (d : RequestNewCertDetails)
    (evs : List Event) : Prop :=
  ∃ (suite : CipherSuite) (I : Issuance P machineName (newRequest uid d suite)) (bytes : List UInt8)
    (stored : Bool) (expires time : Time), I.backup = some bytes ∧ I.delivered i bytes stored ⊆ evs ∧
      .cacheSet i (CertController.cacheKey uid) I.archive expires time ∈ evs

/-- What the success of an action stands for. -/
def WebRequest.Effect (P : Platform) (i : ℕ) (machineName uid : String) :
    WebRequest → List Event → Prop
  | .update d, evs => ∃ user, user.id = uid ∧ .usersCommitted i (savedDetails user d) ∈ evs
  | .updatePassword d, evs =>
      ∃ reply evs', evs = .received i reply :: evs' ∧
        Changed P i ⟨uid, d.oldPassword, d.newPassword⟩ evs'
  | .download d, evs => Downloaded P i uid d evs
  | .new d, evs => NewCertificate P i machineName uid d evs
  | .revoke, evs => ∃ reply evs', evs = .received i reply :: evs' ∧ Revoked i uid evs'
  | .downloadGet, _ => False
  | .certIndex, _ => False
  | .adminIndex, _ => False

/-- The last that was received does not tell what the CA has done: it is an answer of `nginx`, or an
error in the middle of an issuance. -/
def WebRequest.AnswerLost (i : ℕ) : WebRequest → List Event → Prop
  | .updatePassword _, evs => ∃ evs', evs = .received i .badGateway :: evs'
  | .revoke, evs => ∃ evs', evs = .received i .badGateway :: evs'
  | .new _, evs => ∃ reply evs', evs = .received i reply :: evs' ∧
      (reply = .badGateway ∨ reply = .serverError)
  | _, _ => False

/-- A message tells the truth.  A success stands for the effect, and a failure for nothing left
behind, unless the answer was lost. -/
structure MessageTrue (P : Platform) (i : ℕ) (machineName uid : String) (w : WebRequest)
    (success : Bool) (evs : List Event) : Prop where
  success_iff : success = true ↔ w.Effect P i machineName uid evs ∧ ¬ w.AnswerLost i evs
  leavesNothing : success = false → ¬ w.AnswerLost i evs → LeavesNothing evs

/-- A redirection tells the truth. -/
def Truthful (P : Platform) (i : ℕ) (machineName uid : String) (w : WebRequest) (reply : Reply)
    (evs : List Event) : Prop :=
  ∀ success message, reply = .redirect success message → MessageTrue P i machineName uid w success evs

section

variable {machineName uid message : String} {w : WebRequest}

theorem truthful_of_effect (h : w.Effect P i machineName uid evs) (hlost : ¬ w.AnswerLost i evs) :
    Truthful P i machineName uid w (.redirect true message) evs := by
  rintro _ _ ⟨⟩
  exact ⟨iff_of_true rfl ⟨h, hlost⟩, nofun⟩

theorem truthful_of_leavesNothing (h : ¬ w.Effect P i machineName uid evs) (hevs : LeavesNothing evs) :
    Truthful P i machineName uid w (.redirect false message) evs := by
  rintro _ _ ⟨⟩
  exact ⟨iff_of_false nofun fun heffect => h heffect.1, fun _ _ => hevs⟩

theorem truthful_of_lost (h : w.AnswerLost i evs) :
    Truthful P i machineName uid w (.redirect false message) evs := by
  rintro _ _ ⟨⟩
  exact ⟨iff_of_false nofun fun heffect => heffect.2 h, fun _ hnot => absurd h hnot⟩

/-- Only a redirection has a message. -/
theorem truthful_of_ne {reply : Reply} (h : ∀ success message, reply ≠ .redirect success message) :
    Truthful P i machineName uid w reply evs :=
  fun success message hreply => absurd hreply (h success message)

theorem leavesNothing_cons {e : Event} (he : e.keeps = true) (h : LeavesNothing evs) :
    LeavesNothing (e :: evs) :=
  List.forall_mem_cons.2 ⟨he, h⟩

theorem leavesNothing_append {evs' : List Event} (h : LeavesNothing evs) (h' : LeavesNothing evs') :
    LeavesNothing (evs ++ evs') :=
  List.forall_mem_append.2 ⟨h, h'⟩

/-- The message after a call whose answer says what was done. -/
theorem truthful_of_exactly {Done : List Event → Prop} {reply : Reply} {message' : String}
    (heffect : ∀ evs, w.Effect P i machineName uid evs ↔
      ∃ reply evs', evs = .received i reply :: evs' ∧ Done evs')
    (hlost : ∀ evs, w.AnswerLost i evs ↔ ∃ evs', evs = .received i .badGateway :: evs')
    (h : reply = .badGateway ∨ Exactly Done reply evs) :
    Truthful P i machineName uid w
      (if reply.isSuccessStatusCode then .redirect true message else .redirect false message')
      (.received i reply :: evs) := by
  rcases h with rfl | hexact
  · exact truthful_of_lost ((hlost _).2 ⟨evs, rfl⟩)
  · split_ifs with hsuccess
    · refine truthful_of_effect ((heffect _).2 ⟨reply, evs, rfl, hexact.success_iff.1 hsuccess⟩) ?_
      intro hanswer
      obtain ⟨evs', heq⟩ := (hlost _).1 hanswer
      obtain ⟨⟨⟩, -⟩ := List.cons.inj heq
      cases hsuccess
    · refine truthful_of_leavesNothing ?_
        (leavesNothing_cons rfl (hexact.leavesNothing (by simpa using hsuccess)))
      intro hdone
      obtain ⟨reply', evs', heq, hdone⟩ := (heffect _).1 hdone
      obtain ⟨-, rfl⟩ := List.cons.inj heq
      exact hsuccess (hexact.success_iff.2 hdone)

/-- Nothing that is left behind is put into the memory cache. -/
theorem not_cacheSet_of_leavesNothing (h : LeavesNothing evs) {key : String} {archive : Pkcs12Archive}
    {expires time : Time} : .cacheSet i key archive expires time ∉ evs :=
  fun hmem => by cases h _ hmem

end

section Web

variable (machineName uid : String)

theorem truthful_update (d : UserDetails) (base : List Event) (T : Time) :
    Meets i base (UpdateTrace P i machineName uid d) (fun _ => True) [] T
      (AccountController.update P machineName uid d)
      fun reply evs _ => Truthful P i machineName uid (.update d) reply evs := by
  have hread : ∀ user, LeavesNothing [.userRead i uid user] := by
    intro user
    simp [LeavesNothing, Event.keeps]
  have hnot : ∀ user, ¬ WebRequest.Effect P i machineName uid (.update d) [.userRead i uid user] := by
    rintro user ⟨u, -, hmem⟩
    simp at hmem
  unfold AccountController.update
  split
  · exact meets_pure fun _ _ => truthful_of_ne (by simp)
  · refine meets_bind (meets_findUser trivial fun user t _ hrow => ⟨.userRead hrow, ?_⟩)
    cases user with
    | none => exact meets_pure fun _ _ => truthful_of_leavesNothing (hnot _) (hread _)
    | some user =>
      obtain rfl : user.id = uid := hrow user rfl
      refine meets_bind (meets_silent (silent_countEmail _) trivial fun count s _ _ => ?_)
      split
      · unfold CoreCAClient.revokeCertificate
        refine meets_bind (meets_bind (meets_part [.userRead i user.id (some user)]
          (CallTrace P i machineName (.revoke ⟨user.id⟩)) (fun _ => True) ?_
          (.running (apiTrace_start P i machineName _)) (fun evs' h => .call rfl h)
          fun _ _ => trivial))
        refine meets_mono ?_ (meets_send machineName (.revoke ⟨user.id⟩) _ s.now)
        rintro reply evs' t ⟨evs, rfl, htrace, hanswer⟩ -
        apply meets_pure
        intro t₁ _
        refine meets_bind (meets_commitUsers trivial fun t₂ _ =>
          ⟨.saved rfl htrace (revokeAnswer_of_received hanswer), ?_⟩)
        exact meets_pure fun _ _ => truthful_of_effect ⟨user, rfl, List.mem_cons_self⟩ id
      · exact meets_pure fun _ _ => truthful_of_leavesNothing (hnot _) (hread _)

theorem truthful_updatePassword (d : UpdatePasswordDetails) (base : List Event) (T : Time) :
    Meets i base (CallTrace P i machineName
        (.changePassword ⟨uid, d.oldPassword, d.newPassword⟩)) (fun _ => True) [] T
      (AccountController.updatePassword P machineName uid d)
      fun reply evs _ => Truthful P i machineName uid (.updatePassword d) reply evs := by
  unfold AccountController.updatePassword
  split
  · exact meets_pure fun _ _ => truthful_of_ne (by simp)
  · unfold CoreCAClient.changePassword
    refine meets_bind (meets_bind (meets_mono ?_ (meets_send_changePassword machineName _ base T)))
    rintro reply evs t ⟨evs', rfl, hanswer⟩
    exact meets_pure fun _ _ => meets_pure fun _ _ =>
      truthful_of_exactly (fun _ => Iff.rfl) (fun _ => Iff.rfl) hanswer

theorem truthful_revoke (base : List Event) (T : Time) :
    Meets i base (CallTrace P i machineName (.revoke ⟨uid⟩)) (fun _ => True) [] T
      (CertController.revoke P machineName uid)
      fun reply evs _ => Truthful P i machineName uid .revoke reply evs := by
  unfold CertController.revoke CoreCAClient.revokeCertificate
  refine meets_bind (meets_bind (meets_mono ?_ (meets_send_revoke machineName uid base T)))
  rintro reply evs t ⟨evs', rfl, hanswer⟩
  exact meets_pure fun _ _ => meets_pure fun _ _ =>
    truthful_of_exactly (fun _ => Iff.rfl) (fun _ => Iff.rfl) hanswer

theorem truthful_downloadGet (base : List Event) (T : Time) :
    Meets i base (DownloadGetTrace i uid) (fun _ => True) [] T (CertController.downloadGet uid)
      fun reply evs _ => Truthful P i machineName uid .downloadGet reply evs := by
  refine meets_bind (meets_cacheTryGet trivial fun archive t _ => ⟨.cacheRead, ?_⟩)
  cases archive with
  | none => exact meets_pure fun _ _ => truthful_of_leavesNothing id (by simp [LeavesNothing, Event.keeps])
  | some archive => exact meets_pure fun _ _ => truthful_of_ne (by simp)

theorem truthful_download (d : DownloadCertDetails) (base : List Event) (T : Time) :
    Meets i base (WebTrace P i machineName uid (.download d)) (fun _ => True) [] T
      (CertController.download P machineName uid d)
      fun reply evs _ => Truthful P i machineName uid (.download d) reply evs := by
  apply meets_form uid ?_ (.call (.running (apiTrace_start P i machineName _)))
    fun _ _ _ => truthful_of_ne (by simp)
  unfold CoreCAClient.downloadPrivateKey
  refine meets_bind (meets_bind ?_)
  refine meets_part [] (CallTrace P i machineName (.downloadPrivateKey ⟨uid, d.password⟩))
    (fun _ => True) ?_ (.running (apiTrace_start P i machineName _)) (fun evs' h => ?_)
    fun _ _ => trivial
  · refine meets_mono ?_ (meets_send machineName _ _ T)
    rintro reply evs' t ⟨evs, rfl, htrace, hanswer⟩ -
    rw [List.append_nil]
    apply meets_pure
    intro t₁ _
    cases harchive : CoreCAClient.archiveOf reply with
    | none =>
      have hevs : LeavesNothing (.received i reply :: evs) := by
        cases htrace <;> simp [LeavesNothing, Event.keeps]
      refine meets_pure fun _ _ => truthful_of_leavesNothing ?_ hevs
      rintro ⟨user, key, expires, time, -, -, hmem⟩
      exact not_cacheSet_of_leavesNothing hevs hmem
    | some archive =>
      obtain rfl := archiveOf_eq_some harchive
      obtain ⟨user, key, huser, rfl, hevs⟩ := hanswer.of_ne (by simp) _ rfl
      refine meets_cacheArchive machineName uid htrace hanswer rfl fun expires time _ => ?_
      exact truthful_of_effect ⟨user, key, expires, time, huser, by simp [hevs], List.mem_cons_self⟩ id
  · rw [List.append_nil]
    exact .call h

/-- The answer of an issuance without an archive. -/
theorem truthful_new_failed {d : RequestNewCertDetails} {suite : CipherSuite} {reply reply₀ : Reply}
    {evs : List Event} {message : String}
    (hanswer : ReceivedAnswer P i machineName (.issue (newRequest uid d suite)) reply evs)
    (hnone : CoreCAClient.archiveOf reply = none) :
    Truthful P i machineName uid (.new d) (.redirect false message)
      (.received i reply :: (evs ++ [.received i reply₀])) := by
  by_cases hlost : reply = .badGateway ∨ reply = .serverError
  · exact truthful_of_lost ⟨reply, _, rfl, hlost⟩
  · obtain ⟨hgateway, herror⟩ := not_or.1 hlost
    have hrefused : ∀ archive, reply ≠ .ok archive := by
      rintro archive rfl
      cases hnone
    have hanswer : IssueAnswer P i machineName _ reply evs := hanswer.of_ne hgateway
    have hevs : LeavesNothing (.received i reply :: (evs ++ [.received i reply₀])) :=
      leavesNothing_cons rfl (leavesNothing_append (hanswer.refused hrefused herror)
        (leavesNothing_cons rfl leavesNothing_nil))
    refine truthful_of_leavesNothing ?_ hevs
    rintro ⟨suite', I, bytes, stored, expires, time, -, -, hmem⟩
    exact not_cacheSet_of_leavesNothing hevs hmem

/-- The answer of an issuance with its archive. -/
theorem truthful_new_issued {d : RequestNewCertDetails} {suite : CipherSuite} {reply₀ : Reply}
    {archive : Pkcs12Archive} {evs : List Event} {message : String} {expires time : Time}
    (hanswer : ReceivedAnswer P i machineName (.issue (newRequest uid d suite)) (.ok archive) evs) :
    Truthful P i machineName uid (.new d) (.redirect true message)
      (.cacheSet i (CertController.cacheKey uid) archive expires time :: .received i (.ok archive) ::
        evs ++ [.received i reply₀]) := by
  have hanswer : IssueAnswer P i machineName _ (.ok archive) evs := hanswer.of_ne (by simp)
  obtain ⟨I, bytes, stored, hbytes, rfl, rfl⟩ := hanswer.archive archive rfl
  refine truthful_of_effect ⟨suite, I, bytes, stored, expires, time, hbytes, ?_, List.mem_cons_self⟩ ?_
  · intro e he
    exact List.mem_cons_of_mem _ (List.mem_cons_of_mem _ (List.mem_append_left _ he))
  · rintro ⟨reply, evs, heq, -⟩
    cases (List.cons.inj heq).1

theorem truthful_new (d : RequestNewCertDetails) (base : List Event) (T : Time) :
    Meets i base (WebTrace P i machineName uid (.new d)) (fun _ => True) [] T
      (CertController.new P machineName uid d)
      fun reply evs _ => Truthful P i machineName uid (.new d) reply evs := by
  apply meets_form uid ?_ (.cipherSuites (.running (apiTrace_start P i machineName _)))
    fun _ _ _ => truthful_of_ne (by simp)
  unfold CoreCAClient.requestNewCertificate
  refine meets_bind (meets_bind (meets_part [] (CallTrace P i machineName .getCipherSuites)
    (fun _ => True) ?_ (.running (apiTrace_start P i machineName _)) (fun evs' h => ?_)
    fun _ _ => trivial))
  · refine meets_mono ?_ (meets_send machineName _ _ T)
    rintro reply evs' t ⟨evs, rfl, rfl, -⟩ -
    cases CoreCAClient.firstCipherSuite reply with
    | none =>
      have hevs : LeavesNothing [.received i reply] := leavesNothing_cons rfl leavesNothing_nil
      refine meets_pure fun _ _ => meets_pure fun _ _ => truthful_of_leavesNothing ?_ hevs
      rintro ⟨suite, I, bytes, stored, expires, time, -, -, hmem⟩
      exact not_cacheSet_of_leavesNothing hevs hmem
    | some suite =>
      apply meets_bind
      refine meets_part [.received i reply]
        (CallTrace P i machineName (.issue (newRequest uid d suite))) (fun _ => True) ?_
        (.running (apiTrace_start P i machineName _)) (fun evs' h => .issue (.call h))
        fun _ _ => trivial
      refine meets_mono ?_ (meets_send machineName _ _ t)
      rintro reply' evs' t' ⟨evs, rfl, htrace, hanswer⟩ -
      apply meets_pure
      intro t₁ _
      cases harchive : CoreCAClient.archiveOf reply' with
      | none => exact meets_pure fun _ _ => truthful_new_failed machineName uid hanswer harchive
      | some archive =>
        refine meets_part [.received i reply]
          (FetchTrace P i machineName uid (.issue (newRequest uid d suite))) (fun _ => True) ?_
          (.call (.received htrace hanswer)) (fun evs' h => .issue h) fun _ _ => trivial
        obtain rfl := archiveOf_eq_some harchive
        exact meets_cacheArchive machineName uid htrace hanswer rfl fun _ _ _ _ =>
          truthful_new_issued machineName uid hanswer
  · rw [List.append_nil]
    exact .cipherSuites h

theorem truthful_web (w : WebRequest) (base : List Event) (T : Time) :
    Meets i base (WebTrace P i machineName uid w) (fun _ => True) [] T (web P machineName uid w)
      fun reply evs _ => Truthful P i machineName uid w reply evs := by
  cases w with
  | update d => exact truthful_update machineName uid d base T
  | updatePassword d => exact truthful_updatePassword machineName uid d base T
  | downloadGet => exact truthful_downloadGet machineName uid base T
  | download d => exact truthful_download machineName uid d base T
  | new d => exact truthful_new machineName uid d base T
  | revoke => exact truthful_revoke machineName uid base T
  | certIndex => exact meets_certIndex uid (fun _ h => h) fun _ _ _ => nofun
  | adminIndex =>
    refine meets_bind (meets_readCertificates trivial fun t₁ u₁ _ => ⟨.reads [(t₁, u₁)], ?_⟩)
    refine meets_bind (meets_count trivial fun _ _ => ?_)
    refine meets_bind (meets_readCertificates trivial fun t₂ u₂ _ =>
      ⟨.reads [(t₂, u₂), (t₁, u₁)], ?_⟩)
    refine meets_bind (meets_count trivial fun _ _ => ?_)
    refine meets_bind (meets_readCertificates trivial fun t₃ u₃ _ =>
      ⟨.reads [(t₃, u₃), (t₂, u₂), (t₁, u₁)], ?_⟩)
    exact meets_pure fun _ _ => nofun

end Web

/-! ## Every run -/

/-- The message of an action of the web server is true. -/
def TruthfulAnswer (P : Platform) (i : ℕ) : Request → Reply → List Event → Prop
  | .api _ _, _, _ => True
  | .web m uid w, reply, evs => Truthful P i m uid w reply evs

theorem truthful_action (req : Request) (base : List Event) (T : Time) :
    Meets i base (Trace P i req) (Thrown req) [] T (action P req)
      fun reply evs _ => TruthfulAnswer P i req reply evs := by
  cases req with
  | api m r => exact meets_mono (fun _ _ _ _ => trivial) (meets_api m r base T)
  | web m uid w => exact truthful_web m uid w base T

/-- An error page has no message. -/
theorem truthful_serverError (i : ℕ) (req : Request) (evs : List Event) :
    TruthfulAnswer P i req .serverError evs := by
  cases req with
  | api => trivial
  | web => exact nofun

theorem safe_truthful (i : ℕ) (req : Request) {s : State} (hs : s.own i = []) :
    (system P).Safe i (Rely i) (fun _ _ => True)
      (fun reply s' => TruthfulAnswer P i req reply (s'.own i)) ((system P).handler req) s := by
  have hsafe := safe_answer (truthful_action (P := P) (i := i) req [] s.now)
    (fun evs _ _ _ => truthful_serverError i req evs) (trace_start P i req) hs (le_refl _)
  refine Machine.safe_contract_mono (fun _ _ _ => trivial) (Machine.safe_mono ?_ hsafe)
  rintro reply s' ⟨evs, hown, -, -, htruthful⟩
  rw [List.append_nil] at hown
  rw [hown]
  exact htruthful

theorem own_eq_nil_of_rely {s s₁ : State} (h : s.own i = []) (hr : Rely i s s₁) : s₁.own i = [] :=
  hr.1.trans h

/-- The contracts of the handlers, with the messages. -/
def messages (P : Platform) : Logic (system P) where
  start i s := s.own i = []
  rely i := Rely i
  contract _ _ _ _ := True
  post i req reply s := TruthfulAnswer P i req reply (s.own i)
  rely_refl := rely_refl
  rely_trans := rely_trans
  start_rely h hr := own_eq_nil_of_rely h hr
  env_rely i d s := rely_tick i d s
  exec_rely c hij _ := rely_exec hij _ c _
  safe hs := safe_truthful _ _ hs

/-- In every interleaving, whatever fails: the web server redirects with a message of success if and
only if the request has had its effect and the answer of the CA was not lost, and with a message of
failure only if nothing was left behind or the answer was lost. -/
theorem truthful_of_reaches (P : Platform) {s₀ : State} (h₀ : s₀.history = []) {c : Configuration}
    (h : (system P).Reaches (.initial s₀) c) {i : ℕ} {machineName uid : String} {w : WebRequest}
    {success : Bool} {message : String}
    (hdone : c.procs i = some (.web machineName uid w, .done (.redirect success message))) :
    MessageTrue P i machineName uid w success (c.shared.own i) := by
  have hstart : ∀ i, (messages P).start i s₀ := start_of_fresh (P := P) h₀
  obtain ⟨s, htruthful, hrely⟩ := Logic.post_of_reaches hstart h hdone
  rw [hrely.1]
  exact htruthful success message rfl

section

open Deployment

/-- The form that revokes, of a session of `a3`. -/
def revokeForm : Request := .web "aslcert01" "a3" .revoke

/-- A certificate is issued, and the form that revokes it comes to the answer of the CA. -/
def revokeByForm : List (Act Request Choice ℕ) :=
  .arrive 0 issueRequest :: (steps 0 17 ++ .arrive 1 revokeForm :: steps 1 5)

/-- Process 1 has committed the revocation of the certificate. -/
def revokedZero : Event → Bool
  | .certificatesCommitted i ws _ => decide (i = 1 ∧ ws = [revocation 0])
  | _ => false

/-- The form shows this message after the revocation, when the answer of the CA arrives or not. -/
def showsAfterRevocation (answered : Choice) (success : Bool) (message : String) : Bool :=
  ((system platform).run (revokeByForm ++ [.step 1 answered]) (.initial (installed users))).any
    fun c => decide (c.answer 1 = some (revokeForm, .redirect success message)) &&
      (c.shared.own 1).any revokedZero

theorem exists_showsAfterRevocation (answered : Choice) (success : Bool) (message : String)
    (h : showsAfterRevocation answered success message = true) : ∃ c : Configuration,
      (system platform).Reaches (.initial (installed users)) c ∧
      c.procs 1 = some (revokeForm, .done (.redirect success message)) ∧
      ¬ LeavesNothing (c.shared.own 1) := by
  obtain ⟨c, hc, h⟩ := (Option.any_eq_true _ _).1 h
  obtain ⟨hanswer, hrevoked⟩ := Bool.and_eq_true_iff.1 h
  refine ⟨c, System.reaches_of_run hc, Config.procs_of_answer (of_decide_eq_true hanswer), ?_⟩
  obtain ⟨e, he, hzero⟩ := List.any_eq_true.1 hrevoked
  intro hnothing
  have hkeeps := hnothing e he
  cases e with
  | certificatesCommitted => cases hkeeps
  | _ => cases hzero

/-- The form is answered with success, or, when `nginx` answers in the place of the CA, with failure
though the certificate was revoked. -/
theorem truthful_revokeForm :
    (∃ c : Configuration, (system platform).Reaches (.initial (installed users)) c ∧
      c.procs 1 = some (revokeForm, .done (.redirect true "Certificate revoked successfully.")) ∧
        WebRequest.Effect platform 1 "aslcert01" "a3" .revoke (c.shared.own 1)) ∧
    ∃ c : Configuration, (system platform).Reaches (.initial (installed users)) c ∧
      c.procs 1 = some (revokeForm, .done (.redirect false "Revoking certificate failed.")) ∧
        ¬ LeavesNothing (c.shared.own 1) ∧ WebRequest.AnswerLost 1 .revoke (c.shared.own 1) := by
  constructor
  · obtain ⟨c, hreach, hdone, -⟩ := exists_showsAfterRevocation .ok true
      "Certificate revoked successfully." (by decide +kernel)
    exact ⟨c, hreach, hdone, ((truthful_of_reaches platform rfl hreach hdone).success_iff.1 rfl).1⟩
  · obtain ⟨c, hreach, hdone, hchanged⟩ := exists_showsAfterRevocation
      (.throws (some 0)) false "Revoking certificate failed." (by decide +kernel)
    refine ⟨c, hreach, hdone, hchanged, ?_⟩
    by_contra hlost
    exact hchanged ((truthful_of_reaches platform rfl hreach hdone).leavesNothing rfl hlost)

end

end IMoviesCA
