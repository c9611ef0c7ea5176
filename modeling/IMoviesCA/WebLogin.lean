import IMoviesCA.ChangePassword
import IMoviesCA.Sessions

/-!
# The two password checks

`AccountController.Login` of the web server hashes UTF-8, and `AuthenticateAndGetUser` of the CA
server hashes ASCII.  After an accepted change the two admit the same passwords if and only if the
new one is plain (`loginAgrees_iff`); a user with any other password that has a letter outside of
ASCII cannot log in on the web with it.
-/

namespace IMoviesCA

open AccountController

variable {F : Framework} {P : Platform} {w : SessionState} {uid password : String}

/-- The answer to `Login` when no other request is in between. -/
def loginReply (F : Framework) (P : Platform) (w : SessionState) (uid password : String) :
    SessionReply :=
  ((sessions F P).alone 0 (login P ⟨uid, password⟩ none) (fun _ => (.tick 0, ())) w).1

/-- The form is valid, and the hashes are equal. -/
def PassesPasswordCheck (F : Framework) (P : Platform) (w : SessionState) (uid password : String) :
    Prop :=
  loginReply F P w uid password ≠ .view none ∧
    loginReply F P w uid password ≠ .view (some "User ID or password incorrect.")

theorem loginReply_of_invalid (h : (LoginDetails.mk uid password).isValid = false) :
    loginReply F P w uid password = .view none := by
  unfold loginReply login
  rw [h]
  rfl

/-- One operation of `Login`, when no other request is in between. -/
theorem alone_findUser (k : Option User → SessionProgram SessionReply) :
    (sessions F P).alone 0 (Session.findUser uid >>= k) (fun _ => (.tick 0, ())) w =
      (sessions F P).alone 0 (k (w.users.find? uid)) (fun _ => (.tick 0, ()))
        ((SessionOp.findUser uid).run F 0 ((SessionEnv.tick 0).run w)).2 := rfl

theorem alone_clock (k : Time → SessionProgram SessionReply) :
    (sessions F P).alone 0 (Session.clock >>= k) (fun _ => (.tick 0, ())) w =
      (sessions F P).alone 0 (k w.now) (fun _ => (.tick 0, ())) ((SessionEnv.tick 0).run w) := rfl

theorem alone_findAdmin (k : Option Admin → SessionProgram SessionReply) {w' : SessionState}
    (hadmins : w'.admins = w.admins) :
    (sessions F P).alone 0 (Session.findAdmin uid >>= k) (fun _ => (.tick 0, ())) w' =
      (sessions F P).alone 0 (k (w.admins.find? uid)) (fun _ => (.tick 0, ()))
        ((SessionOp.findAdmin uid).run F 0 ((SessionEnv.tick 0).run w')).2 := by
  rw [← hadmins]
  rfl

theorem loginReply_of_wrong (h : (LoginDetails.mk uid password).isValid = true)
    (hwrong : (w.users.find? uid).map User.passwordHash ≠ some (passwordHash P password)) :
    loginReply F P w uid password = .view (some "User ID or password incorrect.") := by
  have hfilter : (w.users.find? uid).filter (fun user =>
      user.passwordHash == passwordHash P password) = none := by
    cases hfind : w.users.find? uid with
    | none => rfl
    | some user =>
      rw [hfind] at hwrong
      have hne : user.passwordHash ≠ passwordHash P password := fun heq =>
        hwrong (congrArg some heq)
      simp [hne]
  unfold loginReply login
  rw [h]
  dsimp only
  rw [if_neg (by decide), alone_findUser, hfilter]
  rfl

theorem loginReply_of_right (h : (LoginDetails.mk uid password).isValid = true)
    (hright : (w.users.find? uid).map User.passwordHash = some (passwordHash P password)) :
    loginReply F P w uid password = if (w.admins.find? uid).isSome then
      .view (some "CA admins may only use certificate authentication.") else .redirect none := by
  obtain ⟨user, hfind, hpassword⟩ := Option.map_eq_some_iff.1 hright
  have hid : user.id = uid := (Table.find?_eq_some_iff.1 hfind).2
  have hfilter : (w.users.find? uid).filter (fun user =>
      user.passwordHash == passwordHash P password) = some user := by
    rw [hfind]
    simp [hpassword]
  unfold loginReply login
  rw [h]
  dsimp only
  rw [if_neg (by decide), alone_findUser, hfilter]
  subst hid
  dsimp only
  rw [alone_clock, alone_clock, alone_findAdmin (w := w)]
  · cases w.admins.find? user.id with
    | none => rfl
    | some admin => rfl
  · rfl

theorem passesPasswordCheck_iff : PassesPasswordCheck F P w uid password ↔
    (LoginDetails.mk uid password).isValid = true ∧
      (w.users.find? uid).map User.passwordHash = some (passwordHash P password) := by
  unfold PassesPasswordCheck
  cases hvalid : (LoginDetails.mk uid password).isValid with
  | false => simp [loginReply_of_invalid hvalid]
  | true =>
    by_cases hright : (w.users.find? uid).map User.passwordHash = some (passwordHash P password)
    · rw [loginReply_of_right hvalid hright]
      split_ifs <;> simp [hright]
    · simp [loginReply_of_wrong hvalid hright, hright]

/-- What the hypothesis on SHA-1 is about: the bytes of either encoding. -/
def PasswordBytes : Set (List UInt8) := Set.range asciiGetBytes ∪ Set.range utf8GetBytes

theorem injOn_ascii (h : Set.InjOn P.sha1 PasswordBytes) :
    Set.InjOn P.sha1 (Set.range asciiGetBytes) := h.mono Set.subset_union_left

/-- After an accepted change, `Login` compares the UTF-8 bytes with the ASCII bytes of the new
password. -/
theorem passesPasswordCheck_of_accepted (hsha1 : Set.InjOn P.sha1 PasswordBytes)
    {r : PasswordChangeRequest} {s s' : State} (h : Accepted P r s s') (hw : w.users = s'.users)
    (q : String) : PassesPasswordCheck F P w r.uid q ↔
      (LoginDetails.mk r.uid q).isValid = true ∧ utf8GetBytes q = asciiGetBytes r.newPassword := by
  have hstored : (w.users.find? r.uid).map User.passwordHash =
      some (UserDBAuthenticator.computePasswordHash P r.newPassword) := by
    rw [hw]
    exact (passwordHashOf_of_accepted h).2
  rw [passesPasswordCheck_iff, hstored, Option.some.injEq]
  apply and_congr_right
  intro _
  constructor
  · intro heq
    rw [passwordHash, appendFormatX2_eq] at heq
    exact (hsha1 (Or.inl ⟨_, rfl⟩) (Or.inr ⟨_, rfl⟩) (hexLower_injective heq)).symm
  · intro heq
    rw [passwordHash, appendFormatX2_eq, heq]
    rfl

/-- The two checks admit the same passwords of a user, and the new one logs in. -/
structure LoginAgrees (F : Framework) (P : Platform) (w : SessionState) (s : State)
    (uid newPassword : String) : Prop where
  agrees : ∀ q, PassesPasswordCheck F P w uid q ↔ Admits P s uid q
  logsIn : loginReply F P w uid newPassword = .redirect none

theorem isValid_of_passwordChangeRequest {r : PasswordChangeRequest} (h : r.isValid = true) :
    (LoginDetails.mk r.uid r.newPassword).isValid = true ↔ netLength r.uid ≤ 64 := by
  simp only [PasswordChangeRequest.isValid, Bool.and_eq_true] at h
  obtain ⟨⟨⟨huid, -⟩, hnew⟩, -⟩ := h
  have hlength : 1 ≤ netLength r.uid := by
    unfold required at huid
    unfold netLength
    cases hl : r.uid.toList with
    | nil =>
      rw [hl] at huid
      cases huid
    | cons c l =>
      rw [List.map_cons, List.sum_cons]
      split_ifs <;> omega
  simp only [LoginDetails.isValid, huid, hnew, stringLength, Bool.true_and, Bool.and_true,
    Bool.and_eq_true, decide_eq_true_eq]
  omega

/-- After an accepted change of a user who is no admin, the web server and the CA server admit the
same passwords, and the new one logs in on the web, if and only if the new password consists of
ASCII characters other than `?` (and the id fits the form of the web server). -/
theorem loginAgrees_iff (F : Framework) (P : Platform) (hsha1 : Set.InjOn P.sha1 PasswordBytes)
    (r : PasswordChangeRequest) (s s' : State) (h : Accepted P r s s') (w : SessionState)
    (hw : w.users = s'.users) (hadmin : w.admins.find? r.uid = none) :
    LoginAgrees F P w s' r.uid r.newPassword ↔ Plain r.newPassword ∧ netLength r.uid ≤ 64 := by
  have hvalid := isValid_of_passwordChangeRequest (passwordHashOf_of_accepted h).1
  have hweb := passesPasswordCheck_of_accepted (F := F) hsha1 h hw
  have hca := admits_of_accepted (injOn_ascii hsha1) h
  constructor
  · intro hagrees
    have hself := (hagrees.agrees r.newPassword).2 ((hca r.newPassword).2 rfl)
    obtain ⟨hform, hbytes⟩ := (hweb r.newPassword).1 hself
    refine ⟨?_, hvalid.1 hform⟩
    by_contra hplain
    obtain ⟨q, hne, hq⟩ := exists_asciiGetBytes_eq hplain
    -- The CA server admits `q`, whose UTF-8 bytes are others.
    have hpasses := (hagrees.agrees q).2 ((hca q).2 hq)
    have hsame := ((hweb q).1 hpasses).2
    rw [← hbytes] at hsame
    exact hne (utf8GetBytes_injective hsame)
  · rintro ⟨hplain, hlength⟩
    have hascii : utf8GetBytes r.newPassword = asciiGetBytes r.newPassword :=
      utf8GetBytes_of_ascii fun c hc => (hplain c hc).1
    have hself : PassesPasswordCheck F P w r.uid r.newPassword :=
      (hweb r.newPassword).2 ⟨hvalid.2 hlength, hascii⟩
    refine ⟨?_, ?_⟩
    · intro q
      constructor
      · intro hpasses
        have hsame := ((hweb q).1 hpasses).2
        rw [← hascii] at hsame
        obtain rfl := utf8GetBytes_injective hsame
        exact (hca _).2 rfl
      · intro hadmits
        obtain rfl := eq_of_asciiGetBytes_eq hplain ((hca q).1 hadmits).symm
        exact hself
    · obtain ⟨hform, hright⟩ := passesPasswordCheck_iff.1 hself
      rw [loginReply_of_right hform hright, hadmin]
      rfl

/-- A new password with a letter outside of ASCII does not log in on the web. -/
theorem not_passes_of_not_ascii (F : Framework) (P : Platform)
    (hsha1 : Set.InjOn P.sha1 PasswordBytes) {r : PasswordChangeRequest} {s s' : State}
    (h : Accepted P r s s') {w : SessionState} (hw : w.users = s'.users)
    (hascii : ¬ ∀ c ∈ r.newPassword.toList, c.toNat < 0x80) :
    ¬ PassesPasswordCheck F P w r.uid r.newPassword := by
  intro hpasses
  have hbytes := ((passesPasswordCheck_of_accepted hsha1 h hw _).1 hpasses).2
  exact hascii (ascii_of_utf8GetBytes_eq hbytes)

section

open Deployment

/-- The tables of the web server after a request to the CA server. -/
def webState (s : State) : SessionState where
  now := s.now
  users := s.users
  admins := ⟨[⟨"ms"⟩], by decide⟩
  tickets := []
  history := []

theorem find?_admins_webState (s : State) : (webState s).admins.find? "a3" = none := rfl

/-- A framework that accepts no certificate. -/
def noCertificates : Framework where
  trustStore := []
  crls _ := []
  chainElements _ := []
  validates _ _ := false
  validates_accepts _ _ h := by cases h
  certificateClaims _ := []
  certificateClaims_type := noClaims

theorem loginAgrees_sunnyHarbour : ∃ s', Accepted hashing passwordRequest (installed users) s' ∧
    LoginAgrees noCertificates hashing (webState s') s' "a3" "sunny-harbour-42" := by
  obtain ⟨s', h⟩ : ∃ s', Accepted hashing passwordRequest (installed users) s' :=
    accepted_of_answer (by decide +kernel)
  exact ⟨s', h, (loginAgrees_iff noCertificates hashing digest_injective.injOn passwordRequest _ s' h
    (webState s') rfl (find?_admins_webState s')).2 (by decide)⟩

/-- After the change to `Zürich-8001`, the CA server admits it and the web server does not. -/
theorem login_locked_out : ¬ ∀ (F : Framework) (P : Platform) (r : PasswordChangeRequest)
    (s s' : State) (w : SessionState), Set.InjOn P.sha1 PasswordBytes → Accepted P r s s' →
      w.users = s'.users → w.admins.find? r.uid = none →
      LoginAgrees F P w s' r.uid r.newPassword := by
  intro hclaim
  obtain ⟨s', h⟩ : ∃ s', Accepted hashing zurichRequest (installed users) s' :=
    accepted_of_answer (by decide +kernel)
  have hagrees := hclaim noCertificates hashing zurichRequest _ s' (webState s')
    digest_injective.injOn h rfl (find?_admins_webState s')
  have hadmits := (admits_of_accepted digest_injective.injOn h "Zürich-8001").2 rfl
  have hascii : ¬ ∀ c ∈ zurichRequest.newPassword.toList, c.toNat < 0x80 := fun hall =>
    absurd (hall 'ü' (by decide)) (by decide)
  exact not_passes_of_not_ascii noCertificates hashing digest_injective.injOn h rfl hascii
    ((hagrees.agrees _).2 hadmits)

end

end IMoviesCA
