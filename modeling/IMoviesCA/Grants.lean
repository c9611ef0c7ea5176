import IMoviesCA.Lib.Roles
import IMoviesCA.AdminPolicy

/-!
# The privileges of the database accounts

`create_users.yml` creates an account for each server and grants it columns of the tables.  A CA server
and the web server execute their statements under their own accounts: the operations of a request to the
CA, also of one that the web server sends, are those of `aslcert`, the others those of `aslweb`.  So are
the statements of `Login` and of the two validators, which read `users` and `admins`.

With the privileges enforced, every run is what it is without them, and no statement is ever refused
(`run_withGrants`).  More generally, accounts never meet a refusal exactly when they are granted the
columns in `Account.required` (`neverRefuses_iff`).
-/

namespace IMoviesCA

/-! ## The grants -/

/-- The accounts of the CA servers and of the web servers. -/
inductive Account
  | aslcert
  | aslweb
  deriving DecidableEq

/-- The privileges that the accounts are granted. -/
inductive Privilege
  | select
  | insert
  | update
  deriving DecidableEq

/-- The tables of the databases `imovies` and `imovies_ca`. -/
inductive DbTable
  | users
  | admins
  | publicCertificates
  | privateCertificates
  deriving DecidableEq

/-- An entry of `priv`: a privilege on some columns of a table, or on the whole of it. -/
structure Grant where
  table : DbTable
  privilege : Privilege
  columns : Option (List String)

/-- What a statement does with a column. -/
structure Access where
  table : DbTable
  privilege : Privilege
  column : String
  deriving DecidableEq

/-- A grant without columns is one on the whole table. -/
def Grant.allows (g : Grant) (a : Access) : Bool :=
  g.table = a.table && g.privilege = a.privilege && g.columns.all fun columns => columns.contains a.column

/-- The `priv` of the tasks of `create_users.yml`; both machines of a kind have the same. -/
def Account.priv : Account → List Grant
  | .aslcert => [
      ⟨.users, .select, some ["uid", "lastname", "firstname", "email", "pwd"]⟩,
      ⟨.users, .update, some ["pwd"]⟩,
      ⟨.publicCertificates, .select, none⟩,
      ⟨.publicCertificates, .insert, none⟩,
      ⟨.publicCertificates, .update, some ["serial_number", "uid", "public_cert", "revoked"]⟩,
      ⟨.privateCertificates, .select, none⟩,
      ⟨.privateCertificates, .insert, none⟩,
      ⟨.privateCertificates, .update, some ["sk_id", "uid", "private_cert"]⟩]
  | .aslweb => [
      ⟨.users, .select, none⟩,
      ⟨.users, .update, some ["uid", "lastname", "firstname", "email", "pwd"]⟩,
      ⟨.publicCertificates, .select, some ["serial_number", "uid", "public_cert", "revoked"]⟩,
      ⟨.admins, .select, none⟩]

/-! ## The statements -/

/-- One access for each column. -/
def columnAccesses (table : DbTable) (privilege : Privilege) (columns : List String) : List Access :=
  columns.map fun column => ⟨table, privilege, column⟩

/-- The columns of the entities. -/
def DbTable.columns : DbTable → List String
  | .users => ["uid", "firstname", "lastname", "email", "pwd"]
  | .admins => ["uid"]
  | .publicCertificates => ["serial_number", "uid", "public_cert", "revoked"]
  | .privateCertificates => ["uid", "private_cert"]

/-- An insert sets every column; an update sets some of them and finds its row by the key. -/
def writeAccesses {ρ κ π : Type} (table : DbTable) (key : String) (columns : π → List String) :
    Write ρ κ π → List Access
  | .insert _ => columnAccesses table .insert table.columns
  | .update _ p => columnAccesses table .update (columns p) ++ columnAccesses table .select [key]

/-- The columns that an update of a user writes. -/
def UserPatch.columns : UserPatch → List String
  | .passwordHash _ => ["pwd"]
  | .allColumns _ _ _ _ => ["firstname", "lastname", "email", "pwd"]

/-- The accesses of a statement on `users`. -/
def userAccesses : UserWrite → List Access := writeAccesses .users "uid" UserPatch.columns

/-- The accesses of a statement on `public_certificates`. -/
def certificateAccesses : CertificateWrite → List Access :=
  writeAccesses .publicCertificates "serial_number" fun _ => ["revoked"]

/-- The accesses of a statement on `private_certificates`. -/
def privateKeyAccesses : PrivateKeyWrite → List Access :=
  writeAccesses .privateCertificates "uid" fun _ => ["private_cert"]

/-- What the statements of an operation do; a commit executes those of its transaction. -/
def Op.accesses : Op → List Access
  | findUser _ => columnAccesses .users .select DbTable.users.columns
  | countEmail _ => columnAccesses .users .select ["email"]
  | executeUsers ws | commitUsers ws => ws.flatMap userAccesses
  | readCertificates =>
      columnAccesses .publicCertificates .select DbTable.publicCertificates.columns
  | executeCertificates ws | commitCertificates ws => ws.flatMap certificateAccesses
  | anyPrivateKey _ => columnAccesses .privateCertificates .select ["uid"]
  | findPrivateKey _ =>
      columnAccesses .privateCertificates .select DbTable.privateCertificates.columns
  | executePrivateKeys ws | commitPrivateKeys ws => ws.flatMap privateKeyAccesses
  | clock | generateKey _ _ | mayThrow _ | writeAllBytes _ _ | receive _ | cacheTryGet _
  | cacheSet _ _ _ => []

/-- What the statements of `Login`, `CertificateValidated` and `ValidatePrincipal` do. -/
def SessionOp.accesses : SessionOp → List Access
  | findUser _ => columnAccesses .users .select DbTable.users.columns
  | findAdmin _ => columnAccesses .admins .select DbTable.admins.columns
  | clock | validateCertificate _ | readTicket _ | signIn _ | enter _ _ => []

/-! ## The accounts of a request -/

/-- The account of the server that a request comes to. -/
def firstAccount : Request → Account
  | .api _ _ => .aslcert
  | .web _ _ _ => .aslweb

/-- A request that arrived at the CA server is answered there. -/
def nextAccount (account : Account) : (e : Op) → e.Res → Account
  | .mayThrow .sendRequest, .ok _ => .aslcert
  | .receive _, _ => .aslweb
  | _, _ => account

/-- The servers, with the account of each operation. -/
def accounts (P : Platform) : System Request (Account × Op) (fun e => e.2.Res) State Choice ℕ Reply :=
  (system P).inRole firstAccount nextAccount

/-- The operations whose statements the accounts may execute. -/
def grantedBy (priv : Account → List Grant) (e : Account × Op) : Bool :=
  e.2.accesses.all fun a => (priv e.1).any fun g => g.allows a

/-- A statement that is refused throws. -/
def refusal (e : Account × Op) : e.2.Res := .error .dbUpdate

/-- The servers on databases that enforce the privileges. -/
def withGrants (P : Platform) (priv : Account → List Grant) :
    System Request (Account × Op) (fun e => e.2.Res) State Choice ℕ Reply :=
  (accounts P).restrict (grantedBy priv) refusal

/-- The sessions of the web server, whose operations may throw: the request is answered with status
500. -/
def throwingSessions (F : Framework) (P : Platform) : System SessionRequest SessionOp
    (fun e => Option e.Res) SessionState (Option Unit) SessionEnv SessionReply :=
  (sessions F P).orEnd .serverError

/-- The operations of a session whose statements the account of the web server may execute. -/
def grantedToWeb (priv : Account → List Grant) (e : SessionOp) : Bool :=
  e.accesses.all fun a => (priv .aslweb).any fun g => g.allows a

/-- A query that is refused throws. -/
def sessionRefusal (e : SessionOp) : Option e.Res := none

/-- The sessions on databases that enforce the privileges. -/
def sessionsWithGrants (F : Framework) (P : Platform) (priv : Account → List Grant) :
    System SessionRequest SessionOp (fun e => Option e.Res) SessionState (Option Unit) SessionEnv
      SessionReply :=
  (throwingSessions F P).restrict (grantedToWeb priv) sessionRefusal

/-- The columns that the requests use. -/
def Account.required : Account → List Access
  | .aslcert =>
      columnAccesses .users .select DbTable.users.columns ++
      columnAccesses .users .update ["pwd"] ++
      columnAccesses .publicCertificates .select DbTable.publicCertificates.columns ++
      columnAccesses .publicCertificates .insert DbTable.publicCertificates.columns ++
      columnAccesses .publicCertificates .update ["revoked"] ++
      columnAccesses .privateCertificates .select DbTable.privateCertificates.columns ++
      columnAccesses .privateCertificates .insert DbTable.privateCertificates.columns ++
      columnAccesses .privateCertificates .update ["private_cert"]
  | .aslweb =>
      columnAccesses .users .select DbTable.users.columns ++
      columnAccesses .users .update ["firstname", "lastname", "email", "pwd"] ++
      columnAccesses .publicCertificates .select DbTable.publicCertificates.columns ++
      columnAccesses .admins .select DbTable.admins.columns

/-! ## What the requests use -/

theorem required_of_all {account : Account} {as : List Access}
    (h : (as.all fun a => account.required.contains a) = true) : ∀ a ∈ as, a ∈ account.required := by
  intro a ha
  exact List.contains_iff_mem.1 (List.all_eq_true.1 h a ha)

theorem required_of_mem_flatMap {ω : Type} {account : Account} {f : ω → List Access} {ws : List ω}
    (h : ∀ w ∈ ws, ∀ a ∈ f w, a ∈ account.required) : ∀ a ∈ ws.flatMap f, a ∈ account.required := by
  intro a ha
  obtain ⟨w, hw, ha⟩ := List.mem_flatMap.1 ha
  exact h w hw a ha

/-- The statements of the operation use columns that its account requires. -/
def UsesRequired (account : Account) (e : Op) : Prop := ∀ a ∈ e.accesses, a ∈ account.required

theorem usesRequired_of_nil {account : Account} {e : Op} (h : e.accesses = []) :
    UsesRequired account e := by
  intro a ha
  rw [h] at ha
  cases ha

theorem usesRequired_findUser (account : Account) (uid : String) :
    UsesRequired account (.findUser uid) := by
  apply required_of_all
  cases account <;> rfl

theorem usesRequired_readCertificates (account : Account) : UsesRequired account .readCertificates := by
  apply required_of_all
  cases account <;> rfl

/-- A CA server executes any statement on its certificates. -/
theorem required_certificateAccesses (ws : List CertificateWrite) :
    ∀ a ∈ ws.flatMap certificateAccesses, a ∈ Account.aslcert.required := by
  refine required_of_mem_flatMap fun w _ => required_of_all ?_
  cases w <;> rfl

theorem required_privateKeyAccesses (ws : List PrivateKeyWrite) :
    ∀ a ∈ ws.flatMap privateKeyAccesses, a ∈ Account.aslcert.required := by
  refine required_of_mem_flatMap fun w _ => required_of_all ?_
  cases w <;> rfl

/-- Of the users it only changes password hashes. -/
theorem required_passwordHashChange (user : User) (pwd : String) :
    ∀ a ∈ (UserDBAuthenticator.passwordHashChange user pwd).flatMap userAccesses,
      a ∈ Account.aslcert.required := by
  unfold UserDBAuthenticator.passwordHashChange
  split
  · exact required_of_all rfl
  · exact required_of_all rfl

theorem required_allColumns (user : User) :
    ∀ a ∈ [AccountController.allColumns user].flatMap userAccesses, a ∈ Account.aslweb.required :=
  required_of_all rfl

/-! ## The rules -/

section Rules

variable {α β : Type} {q : Account}

/-- Begun under the account `q`, the action uses what its accounts require, and a value that it returns
meets `post` with the last account. -/
def UsesIn (q : Account) (p : Action α) (post : α → Account → Prop) : Prop :=
  p.run.PerformsIn nextAccount UsesRequired (fun x q' => ∀ a, x = .ok a → post a q') q

theorem usesIn_pure {post : α → Account → Prop} {a : α} (h : post a q) : UsesIn q (pure a) post := by
  rintro _ ⟨⟩
  exact h

theorem usesIn_throw {post : α → Account → Prop} {f : Fault} : UsesIn q (throw f) post := by
  rintro _ ⟨⟩

theorem usesIn_call {e : Op} {post : e.Val → Account → Prop} (he : UsesRequired q e)
    (hpost : ∀ v, post v (nextAccount q e (.ok v))) : UsesIn q (call e) post := by
  refine ⟨he, fun x v hx => ?_⟩
  rw [hx]
  exact hpost v

theorem UsesIn.bind {mid : α → Account → Prop} {post : β → Account → Prop} {p : Action α}
    {f : α → Action β} (hp : UsesIn q p mid) (hf : ∀ a q', mid a q' → UsesIn q' (f a) post) :
    UsesIn q (p >>= f) post := by
  refine Program.PerformsIn.bind (fun x q' hx => ?_) hp
  cases x with
  | ok a => exact hf a q' (hx a rfl)
  | error fault => rintro _ ⟨⟩

/-- An answer uses what its action uses. -/
theorem UsesIn.answer {mid : Reply → Account → Prop} {p : Action Reply} (hp : UsesIn q p mid) :
    (answer p).PerformsIn nextAccount UsesRequired (fun _ _ => True) q := by
  refine Program.PerformsIn.bind (fun x q' _ => ?_) hp
  cases x <;> trivial

theorem UsesIn.lift_answer {mid : Reply → Account → Prop} {p : Action Reply} (hp : UsesIn q p mid) :
    UsesIn q (ExceptT.lift (IMoviesCA.answer p)) fun _ _ => True := by
  refine Program.PerformsIn.bind (f := fun a => .done (Except.ok a)) (fun reply q' _ => ?_) hp.answer
  exact fun _ _ => trivial

/-- The action uses what its account requires, and stays with it. -/
def Under (q : Account) (p : Action α) : Prop := UsesIn q p fun _ q' => q' = q

theorem under_pure {a : α} : Under q (pure a) := usesIn_pure rfl

theorem under_throw {f : Fault} : Under q (throw f : Action α) := usesIn_throw

theorem Under.bind {p : Action α} {f : α → Action β} (hp : Under q p) (hf : ∀ a, Under q (f a)) :
    Under q (p >>= f) := by
  refine UsesIn.bind hp ?_
  rintro a _ rfl
  exact hf a

theorem under_call {e : Op} (he : UsesRequired q e) (hnext : ∀ v, nextAccount q e (.ok v) = q) :
    Under q (call e) :=
  usesIn_call he hnext

/-- An operation without a statement. -/
theorem under_of_nil {e : Op} (he : e.accesses = []) (hnext : ∀ v, nextAccount q e (.ok v) = q) :
    Under q (call e) :=
  under_call (usesRequired_of_nil he) hnext

end Rules

/-! ## The CA server -/

section CA

open CADBModifier IssueController

variable {P : Platform}

theorem under_findUser (q : Account) (uid : String) : Under q (findUser uid) :=
  under_call (usesRequired_findUser q uid) fun _ => rfl

theorem under_readCertificates (q : Account) : Under q readCertificates :=
  under_call (usesRequired_readCertificates q) fun _ => rfl

theorem under_clock (q : Account) : Under q clock :=
  under_of_nil rfl fun _ => rfl

theorem under_commitUsers {ws : List UserWrite}
    (h : ∀ a ∈ ws.flatMap userAccesses, a ∈ Account.aslcert.required) :
    Under .aslcert (commitUsers ws) :=
  under_call h fun _ => rfl

theorem under_commitCertificates (ws : List CertificateWrite) :
    Under .aslcert (commitCertificates ws) :=
  under_call (required_certificateAccesses ws) fun _ => rfl

theorem under_executePrivateKeys (ws : List PrivateKeyWrite) :
    Under .aslcert (executePrivateKeys ws) :=
  under_call (required_privateKeyAccesses ws) fun _ => rfl

theorem under_commitPrivateKeys (ws : List PrivateKeyWrite) : Under .aslcert (commitPrivateKeys ws) :=
  under_call (required_privateKeyAccesses ws) fun _ => rfl

theorem under_authenticate (uid password : String) :
    Under .aslcert (UserDBAuthenticator.authenticateAndGetUser P uid password) :=
  (under_findUser _ uid).bind fun _ => under_pure

theorem under_saveChanges (ws : List CertificateWrite) (scope : Scope) :
    Under .aslcert (saveChanges ws scope) := by
  cases scope with
  | autocommit => exact under_call (required_certificateAccesses ws) fun _ => rfl
  | transaction snapshot => exact under_call (required_certificateAccesses ws) fun _ => rfl

theorem under_revokeLoop (certs : List PublicCertificate) (revoked : List UInt64) :
    Under .aslcert (revokeLoop certs revoked) := by
  induction certs generalizing revoked with
  | nil => exact under_pure
  | cons cert certs ih =>
    refine (under_clock _).bind fun now => ?_
    split
    · exact ih revoked
    · exact ih _

theorem under_revokeAllCertificatesOfUser (user : User) (scope : Scope) :
    Under .aslcert (revokeAllCertificatesOfUser user scope) := by
  have hquery : Under .aslcert (queryCertificates scope) := by
    cases scope with
    | autocommit => exact under_readCertificates _
    | transaction snapshot => exact under_pure
  exact hquery.bind fun t => (under_revokeLoop _ _).bind fun revoked =>
    (under_saveChanges _ scope).bind fun _ => under_pure

theorem under_certificateTransaction (coreCA : CertificateAuthority) (user : User)
    (req : CertificateRequest) : Under .aslcert (certificateTransaction coreCA user req) := by
  refine (under_of_nil rfl fun _ => rfl).bind fun _ => ?_
  refine (under_readCertificates _).bind fun snapshot => ?_
  refine (under_clock _).bind fun notBefore => (under_clock _).bind fun now => ?_
  refine (under_of_nil rfl fun _ => rfl).bind fun _ => ?_
  refine (under_revokeAllCertificatesOfUser user _).bind fun revocations => ?_
  refine Under.bind ?_ fun insertion => ?_
  · exact (under_saveChanges _ _).bind fun _ => under_pure
  · exact (under_commitCertificates _).bind fun _ => under_pure

theorem under_addPrivateKey (privKey : PrivateKey) : Under .aslcert (addPrivateKey privKey) := by
  refine (under_of_nil rfl fun _ => rfl).bind fun _ => ?_
  refine (under_call (required_of_all rfl) fun _ => rfl).bind fun stored => ?_
  exact (under_executePrivateKeys _).bind fun _ => under_commitPrivateKeys _

theorem under_backupPrivateKey (privKeyExport fileName : String) :
    Under .aslcert (backupPrivateKey P privKeyExport fileName) := by
  refine (under_of_nil rfl fun _ => rfl).bind fun _ => ?_
  split
  · exact under_throw
  · exact (under_of_nil rfl fun _ => rfl).bind fun _ => under_of_nil rfl fun _ => rfl

theorem under_deliver (certRequest : CertRequest) (user : User) (privKey : AsymmetricAlgorithm)
    (userCert : X509Certificate2) : Under .aslcert (deliver P certRequest user privKey userCert) := by
  refine (under_backupPrivateKey _ _).bind fun _ => ?_
  refine (under_of_nil rfl fun _ => rfl).bind fun _ => ?_
  exact (under_addPrivateKey _).bind fun _ => under_pure

theorem under_createKey (cipherSuite : CipherSuite) : Under .aslcert (createKey cipherSuite) := by
  unfold createKey
  split
  · exact under_of_nil rfl fun _ => rfl
  · exact under_of_nil rfl fun _ => rfl

theorem under_issueFor (machineName : String) (certRequest : CertRequest) (user : User) :
    Under .aslcert (issueFor P machineName certRequest user) := by
  refine (under_createKey _).bind fun privKey => ?_
  split
  · exact under_throw
  · exact (under_certificateTransaction _ _ _).bind fun userCert => under_deliver _ _ _ _

theorem under_issueCertificate (machineName : String) (certRequest : CertRequest) :
    Under .aslcert (issueCertificate P machineName certRequest) := by
  unfold issueCertificate
  split
  · exact under_throw
  · split
    · exact under_pure
    · refine (under_authenticate _ _).bind fun user => ?_
      cases user with
      | none => exact under_pure
      | some user => exact under_issueFor _ _ _

theorem under_revokeCertificate (r : RevokeRequest) :
    Under .aslcert (RevokeController.revokeCertificate r) := by
  refine (under_findUser _ _).bind fun user => ?_
  cases user with
  | none => exact under_pure
  | some user => exact (under_revokeAllCertificatesOfUser user .autocommit).bind fun _ => under_pure

/-- The statements of a password change are the ones that its commit executes. -/
theorem usesIn_changePassword (user : User) (newPassword : String) :
    UsesIn .aslcert (UserDBAuthenticator.changePassword P user newPassword) fun changed q =>
      q = .aslcert ∧ ∀ a ∈ changed.2.flatMap userAccesses, a ∈ Account.aslcert.required := by
  unfold UserDBAuthenticator.changePassword
  split
  · refine UsesIn.bind (under_call (required_passwordHashChange _ _) fun _ => rfl) ?_
    rintro _ _ rfl
    exact usesIn_pure ⟨rfl, required_passwordHashChange _ _⟩
  · exact usesIn_pure ⟨rfl, required_of_all rfl⟩

theorem under_changePassword (r : PasswordChangeRequest) :
    Under .aslcert (ChangePasswordController.changePassword P r) := by
  refine (under_of_nil rfl fun _ => rfl).bind fun _ => (under_authenticate _ _).bind fun user => ?_
  cases user with
  | none => exact (under_commitUsers (required_of_all rfl)).bind fun _ => under_pure
  | some user =>
    refine UsesIn.bind (usesIn_changePassword user _) ?_
    rintro changed _ ⟨rfl, hws⟩
    exact (under_commitUsers hws).bind fun _ => under_pure

theorem under_downloadPrivateKey (r : DownloadPrivateKeyRequest) :
    Under .aslcert (DownloadPrivateKeyController.downloadPrivateKey P r) := by
  refine (under_authenticate _ _).bind fun user => ?_
  cases user with
  | none => exact under_pure
  | some user =>
    refine (under_call (required_of_all rfl) fun _ => rfl).bind fun privKey => ?_
    cases privKey with
    | none => exact under_pure
    | some privKey => exact under_pure

theorem under_apiController {valid : Bool} {p : Action Reply} (hp : Under .aslcert p) :
    Under .aslcert (apiController valid p) := by
  unfold apiController
  split
  · exact hp
  · exact under_pure

theorem under_api (machineName : String) (r : ApiRequest) : Under .aslcert (api P machineName r) := by
  cases r with
  | issue r => exact under_apiController (under_issueCertificate machineName r)
  | revoke r => exact under_apiController (under_revokeCertificate r)
  | changePassword r => exact under_apiController (under_changePassword r)
  | downloadPrivateKey r => exact under_apiController (under_downloadPrivateKey r)
  | getCRL => exact (under_clock _).bind fun _ => (under_readCertificates _).bind fun _ => under_pure
  | getCipherSuites => exact under_pure

end CA

/-! ## The web server -/

section Web

open CoreCAClient AccountController CertController AdminController

variable {P : Platform} (machineName uid : String)

/-- A call is made under the account of the CA server, and the answer is received under the own
account. -/
theorem under_send (r : ApiRequest) : Under .aslweb (send P machineName r) := by
  have hsend : UsesIn .aslweb (mayThrow .sendRequest) fun _ q => q = .aslcert :=
    usesIn_call (usesRequired_of_nil rfl) fun _ => rfl
  refine UsesIn.bind hsend ?_
  rintro _ _ rfl
  refine UsesIn.bind (UsesIn.lift_answer (under_api machineName r)) fun reply q _ => ?_
  exact usesIn_call (usesRequired_of_nil rfl) fun _ => rfl

theorem under_update (d : UserDetails) : Under .aslweb (update P machineName uid d) := by
  unfold update
  split
  · exact under_pure
  · refine (under_findUser _ _).bind fun user => ?_
    cases user with
    | none => exact under_pure
    | some user =>
      refine Under.bind (under_call (required_of_all rfl) fun _ => rfl) fun count => ?_
      split
      · refine Under.bind ?_ fun _ => ?_
        · exact (under_send _ _).bind fun _ => under_pure
        · exact Under.bind (under_call (required_allColumns _) fun _ => rfl) fun _ => under_pure
      · exact under_pure

theorem under_updatePassword (d : UpdatePasswordDetails) :
    Under .aslweb (updatePassword P machineName uid d) := by
  unfold updatePassword
  split
  · exact under_pure
  · exact ((under_send _ _).bind fun _ => under_pure).bind fun _ => under_pure

theorem under_downloadGet : Under .aslweb (downloadGet uid) := by
  refine Under.bind (under_of_nil rfl fun _ => rfl) fun archive => ?_
  cases archive with
  | none => exact under_pure
  | some archive => exact under_pure

/-- An archive in an answer is put into the memory cache. -/
theorem under_cacheArchive (archive : Pkcs12Archive) (message : String) :
    Under .aslweb (do
      let now ← clock
      cacheSet (cacheKey uid) archive (addMinutes now 1)
      return Reply.redirect true message) :=
  (under_clock _).bind fun _ => (under_of_nil rfl fun _ => rfl).bind fun _ => under_pure

theorem under_validLoop (cs : List PublicCertificate) (valid : List Certificate) :
    Under .aslweb (validLoop P cs valid) := by
  induction cs generalizing valid with
  | nil => exact under_pure
  | cons c cs ih =>
    refine (under_clock _).bind fun now => ?_
    split
    · refine (under_clock _).bind fun now => ?_
      split
      · exact ih _
      · exact ih _
    · exact ih _

theorem under_expiredLoop (cs : List PublicCertificate) (expired : List Certificate) :
    Under .aslweb (expiredLoop P cs expired) := by
  induction cs generalizing expired with
  | nil => exact under_pure
  | cons c cs ih =>
    refine (under_clock _).bind fun now => ?_
    split
    · exact ih _
    · exact ih _

theorem under_certIndex : Under .aslweb (CertController.index P uid) := by
  refine Under.bind ?_ fun _ => under_pure
  refine (under_readCertificates _).bind fun _ => (under_validLoop _ _).bind fun _ => ?_
  refine (under_readCertificates _).bind fun _ => (under_readCertificates _).bind fun _ => ?_
  exact (under_expiredLoop _ _).bind fun _ => under_pure

theorem under_download (d : DownloadCertDetails) :
    Under .aslweb (CertController.download P machineName uid d) := by
  unfold CertController.download
  split
  · exact under_certIndex uid
  · refine ((under_send _ _).bind fun _ => under_pure).bind fun archive => ?_
    cases archive with
    | none => exact under_pure
    | some archive => exact under_cacheArchive uid archive _

theorem under_requestNewCertificate (password passphrase : String) :
    Under .aslweb (requestNewCertificate P machineName uid password passphrase) := by
  refine (under_send _ _).bind fun reply => ?_
  split
  · exact under_pure
  · exact (under_send _ _).bind fun _ => under_pure

theorem under_new (d : RequestNewCertDetails) : Under .aslweb (new P machineName uid d) := by
  unfold new
  split
  · exact under_certIndex uid
  · refine (under_requestNewCertificate _ _ _ _).bind fun archive => ?_
    cases archive with
    | none => exact under_pure
    | some archive => exact under_cacheArchive uid archive _

theorem under_count (n : ℕ) : Under .aslweb (count n) := by
  unfold count
  split
  · exact under_pure
  · exact under_throw

theorem under_adminIndex : Under .aslweb AdminController.index :=
  (under_readCertificates _).bind fun _ => (under_count _).bind fun _ =>
    (under_readCertificates _).bind fun _ => (under_count _).bind fun _ =>
      (under_readCertificates _).bind fun _ => under_pure

theorem under_web (w : WebRequest) : Under .aslweb (web P machineName uid w) := by
  cases w with
  | update d => exact under_update machineName uid d
  | updatePassword d => exact under_updatePassword machineName uid d
  | downloadGet => exact under_downloadGet uid
  | download d => exact under_download machineName uid d
  | new d => exact under_new machineName uid d
  | revoke => exact ((under_send _ _).bind fun _ => under_pure).bind fun _ => under_pure
  | certIndex => exact under_certIndex uid
  | adminIndex => exact under_adminIndex

end Web

/-! ## Enforced privileges -/

/-- The accounts are granted what they require. -/
def GrantsRequired (priv : Account → List Grant) : Prop :=
  ∀ account, ∀ a ∈ account.required, ((priv account).any fun g => g.allows a) = true

theorem performs_accounts (P : Platform) (req : Request) :
    ((accounts P).handler req).Performs fun e => UsesRequired e.1 e.2 := by
  cases req with
  | api machineName r => exact (under_api (P := P) machineName r).answer.performs_inRole
  | web machineName uid w => exact (under_web (P := P) machineName uid w).answer.performs_inRole

theorem neverRefuses_of_grantsRequired {priv : Account → List Grant} (h : GrantsRequired priv)
    (P : Platform) : (accounts P).NeverRefuses (grantedBy priv) refusal := by
  refine System.neverRefuses_of_performs fun req => (performs_accounts P req).mono ?_
  intro e he
  exact List.all_eq_true.2 fun a ha => h e.1 a (he a ha)

theorem grantsRequired_priv : GrantsRequired Account.priv := by
  intro account
  cases account
  · decide
  · decide

/-- Every statement of a session is one of the web server. -/
theorem usesRequired_session (e : SessionOp) : ∀ a ∈ e.accesses, a ∈ Account.aslweb.required := by
  apply required_of_all
  cases e <;> rfl

theorem session_neverRefuses {priv : Account → List Grant} (h : GrantsRequired priv) (F : Framework)
    (P : Platform) : (throwingSessions F P).NeverRefuses (grantedToWeb priv) sessionRefusal := by
  refine System.neverRefuses_of_performs fun req => Program.performs_of_forall (fun e => ?_) _
  exact List.all_eq_true.2 fun a ha => h .aslweb a (usesRequired_session e a ha)

/-- With the privileges of `create_users.yml` enforced, no statement is refused, and every run is the one
without them; both of the requests to the servers, and of the sessions. -/
theorem run_withGrants (P : Platform) :
    (∀ (as : List (Act Request Choice ℕ)) (s₀ : State),
      (∀ c, (withGrants P Account.priv).run as (.initial s₀) = some c →
        ∀ i req account e k, c.procs i = some (req, .op (account, e) k) →
          ∀ a ∈ e.accesses, ∃ g ∈ account.priv, g.allows a = true) ∧
      ((withGrants P Account.priv).run as (.initial s₀)).map Config.withoutRoles =
        (system P).run as (.initial s₀)) ∧
    ∀ (F : Framework) (s₀ : SessionState),
      (∀ as, (∀ c, (sessionsWithGrants F P Account.priv).run as (.initial s₀) = some c →
          ∀ i req e k, c.procs i = some (req, .op e k) →
            ∀ a ∈ e.accesses, ∃ g ∈ Account.aslweb.priv, g.allows a = true) ∧
        (sessionsWithGrants F P Account.priv).run as (.initial s₀) =
          (throwingSessions F P).run as (.initial s₀)) ∧
      ∀ as, (sessionsWithGrants F P Account.priv).run (as.map System.actOrEnd) (.initial s₀) =
        ((sessions F P).run as (.initial s₀)).map (System.toOrEnd .serverError) := by
  have hnever := neverRefuses_of_grantsRequired grantsRequired_priv P
  refine ⟨fun as s₀ => ⟨?_, ?_⟩, fun F s₀ => ?_⟩
  · intro c hrun i req account e k hi a ha
    have hgranted := hnever (System.reaches_of_run hrun) hi
    exact List.any_eq_true.1 (List.all_eq_true.1 hgranted a ha)
  · rw [withGrants, System.run_restrict hnever, accounts, System.run_inRole]
  · have hsession := session_neverRefuses grantsRequired_priv F P
    have hsame : ∀ as, (sessionsWithGrants F P Account.priv).run as (.initial s₀) =
        (throwingSessions F P).run as (.initial s₀) := fun as => System.run_restrict hsession as s₀
    refine ⟨fun as => ⟨fun c hrun i req e k hi a ha => ?_, hsame as⟩, fun as => ?_⟩
    · have hgranted := hsession (System.reaches_of_run hrun) hi
      exact List.any_eq_true.1 (List.all_eq_true.1 hgranted a ha)
    · rw [hsame, throwingSessions, System.run_orEnd]

/-! ## No privilege too many -/

section

open Deployment

/-- Requests one after the other: each one performs its operations before the next one arrives. -/
def oneByOne : ℕ → List (Request × ℕ) → List (Act Request Choice ℕ)
  | _, [] => []
  | i, (req, n) :: rest => .arrive i req :: (steps i n ++ oneByOne (i + 1) rest)

/-- A user gets two certificates, changes the password, downloads the key and changes the email address,
and an admin looks at the statistics. -/
def someRequests : List (Request × ℕ) := [
  (.api "aslcert01" (.issue certRequest), 18),
  (.api "aslcert01" (.issue certRequest), 19),
  (.api "aslcert01" (.changePassword ⟨"a3", "Astrid", "sunny-harbour-42"⟩), 4),
  (.api "aslcert01" (.downloadPrivateKey ⟨"a3", "sunny-harbour-42"⟩), 2),
  (.web "aslcert01" "a3" (.update ⟨"Andres Andrea", "Anderson", "a3@imovies.ch"⟩), 9),
  (.web "aslcert01" "a3" .adminIndex, 3)]

/-- The columns that these requests use. -/
def usedColumns : List (Account × Access) :=
  ((accounts platform).performed (oneByOne 0 someRequests) (.initial (installed users))).flatMap
    fun e => e.2.accesses.map (Prod.mk e.1)

/-- The columns that the admin's visit of the dashboard uses. -/
def visitedColumns : List Access :=
  ((throwingSessions andresFramework platform).performed (visit.map System.actOrEnd)
    (.initial (dashboard ∅))).flatMap SessionOp.accesses

theorem mem_usedColumns {account : Account} {a : Access} (ha : a ∈ account.required) :
    (account, a) ∈ usedColumns ∨ account = .aslweb ∧ a ∈ visitedColumns := by
  have hused : ∀ account ∈ [Account.aslcert, .aslweb], ∀ a ∈ account.required,
      (account, a) ∈ usedColumns ∨ account = .aslweb ∧ a ∈ visitedColumns := by
    decide +kernel
  have haccount : account ∈ [Account.aslcert, .aslweb] := by cases account <;> decide
  exact hused account haccount a ha

end

/-- The accounts meet no refusal, on any platform and in any run of the requests and of the sessions, if
and only if they are granted the columns that they require. -/
theorem neverRefuses_iff (priv : Account → List Grant) :
    ((∀ P, (accounts P).NeverRefuses (grantedBy priv) refusal) ∧
      ∀ F P, (throwingSessions F P).NeverRefuses (grantedToWeb priv) sessionRefusal) ↔
    GrantsRequired priv := by
  constructor
  · rintro ⟨hrequests, hsessions⟩ account a ha
    rcases mem_usedColumns ha with hused | ⟨rfl, hvisited⟩
    · obtain ⟨⟨account', e⟩, hperformed, hmem⟩ := List.mem_flatMap.1 hused
      obtain ⟨a', ha', heq⟩ := List.mem_map.1 hmem
      obtain ⟨rfl, rfl⟩ := Prod.mk.inj heq
      have hgranted := System.allows_of_mem_performed (hrequests Deployment.platform) hperformed
      exact List.all_eq_true.1 hgranted a' ha'
    · obtain ⟨e, hperformed, hmem⟩ := List.mem_flatMap.1 hvisited
      have hgranted := System.allows_of_mem_performed
        (hsessions andresFramework Deployment.platform) hperformed
      exact List.all_eq_true.1 hgranted a hmem
  · exact fun h => ⟨neverRefuses_of_grantsRequired h, session_neverRefuses h⟩

end IMoviesCA
