import IMoviesCA.WebServer

/-!
# The events of a request

Which events a request may leave in the history, and in which order.  `Trace P i req` holds of the
events of process `i`, newest first, at every moment of its run, and `Answer P i req` says what an
answer tells of them.

* `Issuance` is the data of one certificate transaction, with what ties them together.
* `IssueTrace`, `RevokeTrace`, `ChangePasswordTrace` and `DownloadTrace` are the operations of the
  CA server, `ApiTrace` and `ApiAnswer` its requests, and `CallTrace` is a call of the web server.
-/

namespace IMoviesCA

open IssueController CADBModifier UserDBAuthenticator

/-- The row that a password was compared with. -/
def Authenticated (P : Platform) (uid password : String) (user : User) : Prop :=
  user.id = uid ∧ user.passwordHash = computePasswordHash P password

/-- A read of the row with key `uid`. -/
def IsRowOf (uid : String) (user : Option User) : Prop := ∀ u, user = some u → u.id = uid

/-- The writes revoke the unrevoked certificates of a snapshot that have not expired by then, and none
that had expired before it was read. -/
structure RevokesAll (uid : String) (snapshot : Table PublicCertificate) (since : Time)
    (ws : List CertificateWrite) (time : Time) : Prop where
  sound : ∀ w ∈ ws, ∃ p ∈ unrevokedCertificates uid snapshot,
    w = revocation p.serialNr ∧ since ≤ p.parse.notAfter
  complete : ∀ p ∈ unrevokedCertificates uid snapshot,
    revocation p.serialNr ∈ ws ∨ p.parse.notAfter < time

/-! ## Issuing -/

/-- What a certificate request takes from the user and from the key. -/
theorem certificateRequest_spec {P : Platform} {user : User} {privKey : AsymmetricAlgorithm}
    {cipherSuite : CipherSuite} {req : CertificateRequest}
    (h : certificateRequest P user privKey cipherSuite = some req) :
    subjectOf P user = some req.subjectName ∧ req.publicKey = privKey.publicKey ∧
      req.certificateExtensions = [
        .subjectAlternativeName user.email,
        .basicConstraints false false 0,
        .subjectKeyIdentifier privKey.publicKey,
        .keyUsage [.keyEncipherment, .digitalSignature, .nonRepudiation],
        .enhancedKeyUsage [oidClientAuth, oidEmailProtection],
        .crlDistributionPoints CAConfig.crlDistributionPoint] := by
  simp only [certificateRequest, Option.bind_eq_bind, Option.bind_eq_some_iff, Option.pure_def,
    Option.some.injEq] at h
  obtain ⟨subjectName, hsubject, san, hsan, rfl⟩ := h
  obtain ⟨-, rfl⟩ : _ ∧ .subjectAlternativeName user.email = san := by
    simpa [addEmailAddress] using hsan
  exact ⟨hsubject, rfl, rfl⟩

/-- The data of a certificate transaction of process `i` for the request `r`. -/
structure Issuance (P : Platform) (machineName : String) (r : CertRequest) where
  user : User
  key : AsymmetricAlgorithm
  request : CertificateRequest
  snapshot : Table PublicCertificate
  since : Time
  notBefore : Time
  now : Time
  revocations : List CertificateWrite
  time : Time
  authenticated : Authenticated P r.uid r.password user
  request_eq : certificateRequest P user key r.requestedCipherSuite = some request
  since_le : since ≤ notBefore
  notBefore_le : notBefore ≤ now
  now_le : now ≤ time
  revokesAll : RevokesAll user.id snapshot since revocations time

namespace Issuance

variable {P : Platform} {machineName : String} {r : CertRequest} (I : Issuance P machineName r)

/-- The number that was read from the snapshot. -/
def serialNr : SerialNumber := getMaxSerialNr I.snapshot

/-- The CA of the machine. -/
def coreCA (_ : Issuance P machineName r) : CertificateAuthority :=
  P.pfx (CAConfig.coreCACertPath machineName)

/-- The certificate of the issuance. -/
def certificate : X509Certificate2 :=
  I.request.create I.coreCA I.notBefore (addDays I.now CAConfig.userCertValidityPeriod) I.serialNr

/-- The row of the certificate. -/
def row : PublicCertificate := newRow I.user I.serialNr I.certificate

/-- The statements of the transaction. -/
def writes : List CertificateWrite := I.revocations ++ [.insert I.row]

/-- What the certificate takes from the user and from the key. -/
theorem certificate_spec : subjectOf P I.user = some I.certificate.subjectName ∧
    I.certificate.publicKey = I.key.publicKey ∧ I.certificate.sanEmails = [I.user.email] := by
  obtain ⟨hsubject, hkey, hsan⟩ := certificateRequest_spec I.request_eq
  refine ⟨hsubject, hkey, ?_⟩
  show I.request.certificateExtensions.filterMap _ = _
  rw [hsan]
  rfl

/-- The archive with the certificate and its private key. -/
def archive : Pkcs12Archive := ⟨I.certificate, I.key, r.certPassphrase⟩

/-- The encrypted backup of the private key. -/
def backup : Option (List UInt8) :=
  P.encryptOaepSHA1 (asciiGetBytes (toPem I.key (P.exportPrivateKey I.key)))

/-- The path of the backup. -/
def backupPath : String := CAConfig.backupFolder ++ backupFileName P I.user I.certificate

/-- The events up to the commit of the transaction. -/
def committed (i : ℕ) : List Event :=
  [.certificatesCommitted i I.writes I.time, .certificatesRead i I.snapshot I.since,
    .keyGenerated i I.key, .userRead i r.uid (some I.user)]

/-- The write of the archive. -/
def keyWrite (stored : Bool) : PrivateKeyWrite := privateKeyWrite stored ⟨I.user.id, I.archive⟩

/-- The events of an issuance that was answered with its archive. -/
def delivered (i : ℕ) (bytes : List UInt8) (stored : Bool) : List Event :=
  .privateKeysCommitted i [I.keyWrite stored] :: .fileWritten i I.backupPath bytes :: I.committed i

end Issuance

/-- The events of `IssueCertificate`. -/
inductive IssueTrace (P : Platform) (i : ℕ) (machineName : String) (r : CertRequest) :
    List Event → Prop
  | start : IssueTrace P i machineName r []
  | userRead {user : Option User} (h : IsRowOf r.uid user) :
      IssueTrace P i machineName r [.userRead i r.uid user]
  | keyGenerated {user : User} {key : AsymmetricAlgorithm}
      (h : Authenticated P r.uid r.password user) :
      IssueTrace P i machineName r [.keyGenerated i key, .userRead i r.uid (some user)]
  | certificatesRead {user : User} {key : AsymmetricAlgorithm} {t : Table PublicCertificate}
      {since : Time} (h : Authenticated P r.uid r.password user) :
      IssueTrace P i machineName r
        [.certificatesRead i t since, .keyGenerated i key, .userRead i r.uid (some user)]
  | committed (I : Issuance P machineName r) : IssueTrace P i machineName r (I.committed i)
  | fileWritten (I : Issuance P machineName r) {bytes : List UInt8} {n : ℕ}
      (h : I.backup = some bytes) :
      IssueTrace P i machineName r (.fileWritten i I.backupPath (bytes.take n) :: I.committed i)
  | delivered (I : Issuance P machineName r) {bytes : List UInt8} {stored : Bool}
      (h : I.backup = some bytes) : IssueTrace P i machineName r (I.delivered i bytes stored)

/-- No archive and no password was written last. -/
def Open : List Event → Prop
  | .privateKeysCommitted _ _ :: _ => False
  | .usersCommitted _ _ :: _ => False
  | _ => True

/-- The event leaves the tables, the backups and the memory cache as they are: a read, an answer, or
an empty commit to `users`. -/
def Event.keeps : Event → Bool
  | .userRead _ _ _ => true
  | .certificatesRead _ _ _ => true
  | .privateKeyRead _ _ _ => true
  | .received _ _ => true
  | .cacheRead _ _ _ _ => true
  | .usersCommitted _ ws => ws.isEmpty
  | _ => false

/-- Nothing was left behind. -/
def LeavesNothing (evs : List Event) : Prop := ∀ e ∈ evs, e.keeps = true

theorem leavesNothing_nil : LeavesNothing [] := List.forall_mem_nil _

/-- The events of an answered `IssueCertificate`: it is answered with an archive when it stored one,
and then with that one, and a request that was refused has left nothing behind. -/
structure IssueAnswer (P : Platform) (i : ℕ) (machineName : String) (r : CertRequest)
    (reply : Reply) (evs : List Event) : Prop where
  archive : ∀ archive, reply = .ok archive → ∃ (I : Issuance P machineName r)
    (bytes : List UInt8) (stored : Bool), I.backup = some bytes ∧
      evs = I.delivered i bytes stored ∧ archive = I.archive
  stored : ¬ Open evs → ∃ archive, reply = .ok archive
  refused : (∀ archive, reply ≠ .ok archive) → reply ≠ .serverError → LeavesNothing evs

/-! ## The other operations of the CA server -/

/-- The events of a revocation that was carried out. -/
def revocationEvents (i : ℕ) (user : User) (t : Table PublicCertificate) (since : Time)
    (ws : List CertificateWrite) (time : Time) : List Event :=
  [.certificatesCommitted i ws time, .certificatesRead i t since, .userRead i user.id (some user)]

/-- The events of `RevokeCertificate`. -/
inductive RevokeTrace (i : ℕ) (uid : String) : List Event → Prop
  | start : RevokeTrace i uid []
  | userRead {user : Option User} (h : IsRowOf uid user) : RevokeTrace i uid [.userRead i uid user]
  | certificatesRead {user : User} {t : Table PublicCertificate} {since : Time} (h : user.id = uid) :
      RevokeTrace i uid [.certificatesRead i t since, .userRead i uid (some user)]
  | committed {user : User} {t : Table PublicCertificate} {since : Time} {ws : List CertificateWrite}
      {time : Time} (h : user.id = uid) (hws : RevokesAll uid t since ws time) :
      RevokeTrace i uid (revocationEvents i user t since ws time)

/-- The events of an answered `RevokeCertificate`: a success has committed the revocations. -/
def RevokeAnswer (i : ℕ) (uid : String) (reply : Reply) (evs : List Event) : Prop :=
  reply.isSuccessStatusCode = true → ∃ (user : User) (t : Table PublicCertificate) (since : Time)
    (ws : List CertificateWrite) (time : Time), user.id = uid ∧ RevokesAll uid t since ws time ∧
      evs = revocationEvents i user t since ws time

/-- The events of a password change that was carried out. -/
def passwordChangeEvents (P : Platform) (i : ℕ) (r : PasswordChangeRequest) (user : User) :
    List Event :=
  [.usersCommitted i (passwordHashChange user (computePasswordHash P r.newPassword)),
    .userRead i r.uid (some user)]

/-- The events of `ChangePassword`. -/
inductive ChangePasswordTrace (P : Platform) (i : ℕ) (r : PasswordChangeRequest) :
    List Event → Prop
  | start : ChangePasswordTrace P i r []
  | userRead {user : Option User} (h : IsRowOf r.uid user) :
      ChangePasswordTrace P i r [.userRead i r.uid user]
  | refused {user : Option User} (h : IsRowOf r.uid user) :
      ChangePasswordTrace P i r [.usersCommitted i [], .userRead i r.uid user]
  | changed {user : User} (h : Authenticated P r.uid r.oldPassword user) :
      ChangePasswordTrace P i r (passwordChangeEvents P i r user)

/-- The events of an answered `ChangePassword`. -/
def ChangePasswordAnswer (P : Platform) (i : ℕ) (r : PasswordChangeRequest) (reply : Reply)
    (evs : List Event) : Prop :=
  reply.isSuccessStatusCode = true → ∃ user, Authenticated P r.uid r.oldPassword user ∧
    evs = passwordChangeEvents P i r user

/-- The events of `DownloadPrivateKey`. -/
inductive DownloadTrace (P : Platform) (i : ℕ) (r : DownloadPrivateKeyRequest) :
    List Event → Prop
  | start : DownloadTrace P i r []
  | userRead {user : Option User} (h : IsRowOf r.uid user) :
      DownloadTrace P i r [.userRead i r.uid user]
  | privateKeyRead {user : User} {key : Option PrivateKey}
      (h : Authenticated P r.uid r.password user) :
      DownloadTrace P i r [.privateKeyRead i r.uid key, .userRead i r.uid (some user)]

/-- The events of an answered `DownloadPrivateKey`: an archive is the one that was read. -/
def DownloadAnswer (P : Platform) (i : ℕ) (r : DownloadPrivateKeyRequest) (reply : Reply)
    (evs : List Event) : Prop :=
  ∀ archive, reply = .ok archive → ∃ (user : User) (key : PrivateKey),
    Authenticated P r.uid r.password user ∧ key.keyPkcs12 = archive ∧
      evs = [.privateKeyRead i r.uid (some key), .userRead i r.uid (some user)]

/-- The events of `GetCRL`. -/
inductive CrlTrace (i : ℕ) : List Event → Prop
  | start : CrlTrace i []
  | certificatesRead {t : Table PublicCertificate} {time : Time} :
      CrlTrace i [.certificatesRead i t time]

/-- The list of an answered `GetCRL` is that of the table that it read. -/
def CrlAnswer (P : Platform) (i : ℕ) (machineName : String) (reply : Reply) (evs : List Event) :
    Prop :=
  ∀ crl, reply = .crl crl → ∃ (now : Time) (t : Table PublicCertificate) (time : Time),
    crl = generateCRL P machineName now t ∧ evs = [.certificatesRead i t time]

/-- The events of a request to the CA server. -/
def ApiTrace (P : Platform) (i : ℕ) (machineName : String) : ApiRequest → List Event → Prop
  | .issue r => IssueTrace P i machineName r
  | .revoke r => RevokeTrace i r.uid
  | .changePassword r => ChangePasswordTrace P i r
  | .downloadPrivateKey r => DownloadTrace P i r
  | .getCRL => CrlTrace i
  | .getCipherSuites => fun evs => evs = []

/-- What an answer of the CA server tells of its events. -/
def ApiAnswer (P : Platform) (i : ℕ) (machineName : String) :
    ApiRequest → Reply → List Event → Prop
  | .issue r => IssueAnswer P i machineName r
  | .revoke r => RevokeAnswer i r.uid
  | .changePassword r => ChangePasswordAnswer P i r
  | .downloadPrivateKey r => DownloadAnswer P i r
  | .getCRL => CrlAnswer P i machineName
  | .getCipherSuites => fun _ _ => True

/-! ## The web server -/

/-- What an answer that the web server received tells of the events of the CA server: it may be one of
`nginx`, which tells nothing. -/
def ReceivedAnswer (P : Platform) (i : ℕ) (machineName : String) (r : ApiRequest) (reply : Reply)
    (evs : List Event) : Prop :=
  reply = .badGateway ∨ ApiAnswer P i machineName r reply evs

theorem ReceivedAnswer.of_ne {P : Platform} {i : ℕ} {machineName : String} {r : ApiRequest}
    {reply : Reply} {evs : List Event} (h : ReceivedAnswer P i machineName r reply evs)
    (hne : reply ≠ .badGateway) : ApiAnswer P i machineName r reply evs :=
  h.resolve_left hne

/-- The events of a call of the web server to the CA server. -/
inductive CallTrace (P : Platform) (i : ℕ) (machineName : String) (r : ApiRequest) :
    List Event → Prop
  | running {evs : List Event} (h : ApiTrace P i machineName r evs) : CallTrace P i machineName r evs
  | received {evs : List Event} {reply : Reply} (h : ApiTrace P i machineName r evs)
      (ha : ReceivedAnswer P i machineName r reply evs) :
      CallTrace P i machineName r (.received i reply :: evs)

/-- The save of `AccountController.Update`. -/
def savedDetails (user : User) (d : UserDetails) : List UserWrite :=
  [AccountController.allColumns (AccountController.withDetails user d)]

/-- The events of `AccountController.Update`. -/
inductive UpdateTrace (P : Platform) (i : ℕ) (machineName uid : String) (d : UserDetails) :
    List Event → Prop
  | start : UpdateTrace P i machineName uid d []
  | userRead {user : Option User} (h : IsRowOf uid user) :
      UpdateTrace P i machineName uid d [.userRead i uid user]
  | call {user : User} {evs : List Event} (h : user.id = uid)
      (hevs : CallTrace P i machineName (.revoke ⟨uid⟩) evs) :
      UpdateTrace P i machineName uid d (evs ++ [.userRead i uid (some user)])
  | saved {user : User} {evs : List Event} {reply : Reply} (h : user.id = uid)
      (hevs : RevokeTrace i uid evs) (ha : RevokeAnswer i uid reply evs) :
      UpdateTrace P i machineName uid d (.usersCommitted i (savedDetails user d) ::
        .received i reply :: (evs ++ [.userRead i uid (some user)]))

/-- The write of the memory cache after a call that was answered with an archive. -/
structure CachesAnswer (P : Platform) (i : ℕ) (machineName uid : String) (r : ApiRequest)
    (evs : List Event) (archive : Pkcs12Archive) (expires time : Time) : Prop where
  trace : ApiTrace P i machineName r evs
  answer : ApiAnswer P i machineName r (.ok archive) evs
  expires_le : expires ≤ addMinutes time 1

/-- The events of `[HttpGet] Download`. -/
inductive DownloadGetTrace (i : ℕ) (uid : String) : List Event → Prop
  | start : DownloadGetTrace i uid []
  | cacheRead {archive : Option Pkcs12Archive} {time : Time} :
      DownloadGetTrace i uid [.cacheRead i (CertController.cacheKey uid) archive time]

/-- The events of a page that lists or counts certificates: reads, newest first. -/
inductive PageTrace (i : ℕ) : List Event → Prop
  | reads (ts : List (Table PublicCertificate × Time)) :
      PageTrace i (ts.map fun x => .certificatesRead i x.1 x.2)

theorem PageTrace.eq_read {i : ℕ} {evs : List Event} (h : PageTrace i evs) {e : Event}
    (he : e ∈ evs) : ∃ t time, e = .certificatesRead i t time := by
  cases h with
  | reads ts =>
    obtain ⟨x, -, rfl⟩ := List.mem_map.1 he
    exact ⟨x.1, x.2, rfl⟩

/-- The events of a form, which is shown again on the page of the certificates when it is refused. -/
inductive FormTrace (i : ℕ) (L : List Event → Prop) : List Event → Prop
  | page {evs : List Event} (h : PageTrace i evs) : FormTrace i L evs
  | accepted {evs : List Event} (h : L evs) : FormTrace i L evs

/-- The events of `[HttpPost] Download` and, after the cipher suites were fetched, of `New`. -/
inductive FetchTrace (P : Platform) (i : ℕ) (machineName uid : String) (r : ApiRequest) :
    List Event → Prop
  | call {evs : List Event} (h : CallTrace P i machineName r evs) :
      FetchTrace P i machineName uid r evs
  | cached {evs : List Event} {archive : Pkcs12Archive} {expires time : Time}
      (h : CachesAnswer P i machineName uid r evs archive expires time) :
      FetchTrace P i machineName uid r
        (.cacheSet i (CertController.cacheKey uid) archive expires time ::
          .received i (.ok archive) :: evs)

/-- The request that `New` sends to the CA server. -/
def newRequest (uid : String) (d : RequestNewCertDetails) (suite : CipherSuite) : CertRequest where
  uid := uid
  password := d.password
  certPassphrase := d.passphrase
  requestedCipherSuite := suite

/-- The events of `New`. -/
inductive NewTrace (P : Platform) (i : ℕ) (machineName uid : String) (d : RequestNewCertDetails) :
    List Event → Prop
  | cipherSuites {evs : List Event} (h : CallTrace P i machineName .getCipherSuites evs) :
      NewTrace P i machineName uid d evs
  | issue {suite : CipherSuite} {reply : Reply} {evs : List Event}
      (h : FetchTrace P i machineName uid (.issue (newRequest uid d suite)) evs) :
      NewTrace P i machineName uid d (evs ++ [.received i reply])

/-- The three tables behind the statistics. -/
def AdminAnswer (i : ℕ) (reply : Reply) (evs : List Event) : Prop :=
  ∀ stats, reply = .adminStats stats → ∃ (t₁ t₂ t₃ : Table PublicCertificate) (u₁ u₂ u₃ : Time),
    stats = ⟨t₁.rows.length, AdminController.numRevoked t₂, AdminController.currentSerialNum t₃⟩ ∧
      evs = [.certificatesRead i t₃ u₃, .certificatesRead i t₂ u₂, .certificatesRead i t₁ u₁]

/-- The events of a request to the web server. -/
def WebTrace (P : Platform) (i : ℕ) (machineName uid : String) : WebRequest → List Event → Prop
  | .update d => UpdateTrace P i machineName uid d
  | .updatePassword d =>
      CallTrace P i machineName (.changePassword ⟨uid, d.oldPassword, d.newPassword⟩)
  | .downloadGet => DownloadGetTrace i uid
  | .download d =>
      FormTrace i (FetchTrace P i machineName uid (.downloadPrivateKey ⟨uid, d.password⟩))
  | .new d => FormTrace i (NewTrace P i machineName uid d)
  | .revoke => CallTrace P i machineName (.revoke ⟨uid⟩)
  | .certIndex => PageTrace i
  | .adminIndex => PageTrace i

/-- What an answer of the web server tells of its events: an archive comes from the memory cache,
and the statistics come from three reads. -/
structure WebAnswer (i : ℕ) (uid : String) (r : WebRequest) (reply : Reply) (evs : List Event) :
    Prop where
  archive : ∀ archive, reply.archive? = some archive → r = .downloadGet ∧
    ∃ time, evs = [.cacheRead i (CertController.cacheKey uid) (some archive) time]
  stats : AdminAnswer i reply evs

/-- The events of process `i`, newest first, at some moment of its run. -/
def Trace (P : Platform) (i : ℕ) : Request → List Event → Prop
  | .api machineName r => ApiTrace P i machineName r
  | .web machineName uid r => WebTrace P i machineName uid r

/-- What an answer tells of the events of process `i`. -/
def Answer (P : Platform) (i : ℕ) : Request → Reply → List Event → Prop
  | .api machineName r => ApiAnswer P i machineName r
  | .web _ uid r => WebAnswer i uid r

/-! ## Reading a trace -/

/-- The user of a request to the CA server. -/
def ApiRequest.user? : ApiRequest → Option String
  | .issue r => some r.uid
  | .revoke r => some r.uid
  | .changePassword r => some r.uid
  | .downloadPrivateKey r => some r.uid
  | .getCRL => none
  | .getCipherSuites => none

/-- The user of a request: the one of the session, or the one of the request to the CA server. -/
def Request.user? : Request → Option String
  | .api _ r => r.user?
  | .web _ uid _ => some uid

/-- The requests to the CA server that a request amounts to. -/
inductive Calls : Request → String → ApiRequest → Prop
  | api {machineName : String} {r : ApiRequest} : Calls (.api machineName r) machineName r
  | update {machineName uid : String} {d : UserDetails} :
      Calls (.web machineName uid (.update d)) machineName (.revoke ⟨uid⟩)
  | updatePassword {machineName uid : String} {d : UpdatePasswordDetails} :
      Calls (.web machineName uid (.updatePassword d)) machineName
        (.changePassword ⟨uid, d.oldPassword, d.newPassword⟩)
  | download {machineName uid : String} {d : DownloadCertDetails} :
      Calls (.web machineName uid (.download d)) machineName (.downloadPrivateKey ⟨uid, d.password⟩)
  | cipherSuites {machineName uid : String} {d : RequestNewCertDetails} :
      Calls (.web machineName uid (.new d)) machineName .getCipherSuites
  | new {machineName uid : String} {d : RequestNewCertDetails} {suite : CipherSuite} :
      Calls (.web machineName uid (.new d)) machineName (.issue (newRequest uid d suite))
  | revoke {machineName uid : String} :
      Calls (.web machineName uid .revoke) machineName (.revoke ⟨uid⟩)

/-- A request uses one CA server. -/
theorem Calls.machineName_eq {req : Request} {m m' : String} {r r' : ApiRequest}
    (h : Calls req m r) (h' : Calls req m' r') : m = m' := by
  cases h <;> cases h' <;> rfl

theorem Calls.user? {req : Request} {machineName : String} {r : ApiRequest} {uid : String}
    (h : Calls req machineName r) (hr : r.user? = some uid) : req.user? = some uid := by
  cases h with
  | cipherSuites => cases hr
  | _ => exact hr

/-- The request to the CA server whose archive an action puts into the memory cache. -/
inductive Fetches (uid : String) : WebRequest → ApiRequest → Prop
  | download {d : DownloadCertDetails} :
      Fetches uid (.download d) (.downloadPrivateKey ⟨uid, d.password⟩)
  | new {d : RequestNewCertDetails} {suite : CipherSuite} :
      Fetches uid (.new d) (.issue (newRequest uid d suite))

theorem Fetches.calls {machineName uid : String} {w : WebRequest} {r : ApiRequest}
    (h : Fetches uid w r) : Calls (.web machineName uid w) machineName r := by
  cases h with
  | download => exact .download
  | new => exact .new

/-- The events that the web server leaves itself. -/
inductive WebEvent (P : Platform) (i : ℕ) (evs : List Event) : Request → Event → Prop
  | received {req : Request} {reply : Reply} : WebEvent P i evs req (.received i reply)
  | userRead {machineName uid : String} {d : UserDetails} {user : Option User} :
      WebEvent P i evs (.web machineName uid (.update d)) (.userRead i uid user)
  | saved {machineName uid : String} {d : UserDetails} {user : User} (h : user.id = uid)
      (hread : evs.getLast? = some (.userRead i uid (some user))) :
      WebEvent P i evs (.web machineName uid (.update d)) (.usersCommitted i (savedDetails user d))
  | cacheRead {machineName uid : String} {archive : Option Pkcs12Archive} {time : Time} :
      WebEvent P i evs (.web machineName uid .downloadGet)
        (.cacheRead i (CertController.cacheKey uid) archive time)
  | cacheSet {machineName uid : String} {w : WebRequest} {r : ApiRequest} {evs' : List Event}
      {archive : Pkcs12Archive} {expires time : Time}
      (hfetch : Fetches uid w r) (hevs : evs' ⊆ evs)
      (h : CachesAnswer P i machineName uid r evs' archive expires time) :
      WebEvent P i evs (.web machineName uid w)
        (.cacheSet i (CertController.cacheKey uid) archive expires time)
  | certificatesRead {machineName uid : String} {w : WebRequest} {t : Table PublicCertificate}
      {time : Time} (h : PageTrace i evs) :
      WebEvent P i evs (.web machineName uid w) (.certificatesRead i t time)

/-- The events `evs'` are those of the one call of a request that leaves events; all the others are
of the web server. -/
structure IsCallOf (P : Platform) (i : ℕ) (req : Request) (evs evs' : List Event) : Prop where
  subset : evs' ⊆ evs
  call : evs' = [] ∨ ∃ machineName r, Calls req machineName r ∧ ApiTrace P i machineName r evs'
  cases : ∀ e ∈ evs, e ∈ evs' ∨ WebEvent P i evs req e

theorem call_of_callTrace {P : Platform} {i : ℕ} {machineName : String} {r : ApiRequest}
    {evs : List Event} (h : CallTrace P i machineName r evs) :
    ∃ evs', evs' ⊆ evs ∧ ApiTrace P i machineName r evs' ∧
      ∀ e ∈ evs, e ∈ evs' ∨ ∃ reply, e = .received i reply := by
  cases h with
  | running h => exact ⟨evs, List.Subset.refl _, h, fun e he => Or.inl he⟩
  | @received evs reply h ha =>
    refine ⟨evs, List.subset_cons_self _ _, h, fun e he => ?_⟩
    rcases List.mem_cons.1 he with rfl | he
    · exact Or.inr ⟨reply, rfl⟩
    · exact Or.inl he

/-- Around a call the web server leaves only its own events. -/
theorem isCallOf_callTrace {P : Platform} {i : ℕ} {machineName : String} {req : Request}
    {r : ApiRequest} (hcall : Calls req machineName r) {evs part : List Event}
    (h : CallTrace P i machineName r part) (hsub : part ⊆ evs)
    (hrest : ∀ e ∈ evs, e ∈ part ∨ WebEvent P i evs req e) : ∃ evs', IsCallOf P i req evs evs' := by
  obtain ⟨evs', hsub', htrace, hcases⟩ := call_of_callTrace h
  refine ⟨evs', List.Subset.trans hsub' hsub, Or.inr ⟨machineName, r, hcall, htrace⟩, ?_⟩
  intro e he
  rcases hrest e he with he | hweb
  · rcases hcases e he with he | ⟨reply, rfl⟩
    · exact Or.inl he
    · exact Or.inr .received
  · exact Or.inr hweb

theorem isCallOf_fetchTrace {P : Platform} {i : ℕ} {machineName uid : String} {w : WebRequest}
    {r : ApiRequest} (hfetch : Fetches uid w r)
    {evs part : List Event} (h : FetchTrace P i machineName uid r part) (hsub : part ⊆ evs)
    (hrest : ∀ e ∈ evs, e ∈ part ∨ WebEvent P i evs (.web machineName uid w) e) :
    ∃ evs', IsCallOf P i (.web machineName uid w) evs evs' := by
  cases h with
  | call h => exact isCallOf_callTrace hfetch.calls h hsub hrest
  | @cached part' archive expires time h =>
    have hsub' : .received i (.ok archive) :: part' ⊆ evs :=
      List.Subset.trans (List.subset_cons_self _ _) hsub
    apply isCallOf_callTrace hfetch.calls (.received h.trace (Or.inr h.answer)) hsub'
    intro e he
    rcases hrest e he with he | hweb
    · rcases List.mem_cons.1 he with rfl | he
      · exact Or.inr (.cacheSet hfetch (List.Subset.trans (List.subset_cons_self _ _) hsub') h)
      · exact Or.inl he
    · exact Or.inr hweb

theorem isCallOf_nil {P : Platform} {i : ℕ} {req : Request} {evs : List Event}
    (h : ∀ e ∈ evs, WebEvent P i evs req e) : ∃ evs', IsCallOf P i req evs evs' :=
  ⟨[], List.nil_subset _, Or.inl rfl, fun e he => Or.inr (h e he)⟩

theorem isCallOf_pageTrace {P : Platform} {i : ℕ} {machineName uid : String} {w : WebRequest}
    {evs : List Event} (h : PageTrace i evs) :
    ∃ evs', IsCallOf P i (.web machineName uid w) evs evs' := by
  apply isCallOf_nil
  intro e he
  obtain ⟨t, time, rfl⟩ := h.eq_read he
  exact .certificatesRead h

theorem isCallOf_update {P : Platform} {i : ℕ} {machineName uid : String} {d : UserDetails}
    {evs : List Event} (h : UpdateTrace P i machineName uid d evs) :
    ∃ evs', IsCallOf P i (.web machineName uid (.update d)) evs evs' := by
  cases h with
  | start => exact isCallOf_nil fun e he => by cases he
  | userRead h =>
    apply isCallOf_nil
    intro e he
    obtain rfl := List.mem_singleton.1 he
    exact .userRead
  | @call user part hid hpart =>
    apply isCallOf_callTrace .update hpart (List.subset_append_left _ _)
    intro e he
    apply (List.mem_append.1 he).imp_right
    intro he
    obtain rfl := List.mem_singleton.1 he
    exact .userRead
  | @saved user part reply hid hpart ha =>
    have hlast : (Event.usersCommitted i (savedDetails user d) :: .received i reply ::
        (part ++ [.userRead i uid (some user)])).getLast? =
        some (.userRead i uid (some user)) := by
      rw [← List.cons_append, ← List.cons_append, List.getLast?_append]
      rfl
    have hsub : .received i reply :: part ⊆ .usersCommitted i (savedDetails user d) ::
        .received i reply :: (part ++ [.userRead i uid (some user)]) := by
      intro e he
      rw [← List.cons_append]
      exact List.mem_cons_of_mem _ (List.mem_append_left _ he)
    apply isCallOf_callTrace .update (.received hpart (Or.inr ha)) hsub
    intro e he
    rcases List.mem_cons.1 he with rfl | he
    · exact Or.inr (.saved hid hlast)
    · rw [← List.cons_append] at he
      apply (List.mem_append.1 he).imp_right
      intro he
      obtain rfl := List.mem_singleton.1 he
      exact .userRead

theorem isCallOf_newTrace {P : Platform} {i : ℕ} {machineName uid : String}
    {d : RequestNewCertDetails} {evs : List Event} (h : NewTrace P i machineName uid d evs) :
    ∃ evs', IsCallOf P i (.web machineName uid (.new d)) evs evs' := by
  have hself : ∀ e ∈ evs, e ∈ evs ∨ WebEvent P i evs (.web machineName uid (.new d)) e :=
    fun e he => Or.inl he
  cases h with
  | cipherSuites h => exact isCallOf_callTrace .cipherSuites h (List.Subset.refl _) hself
  | @issue suite reply part h =>
    apply isCallOf_fetchTrace .new h (List.subset_append_left _ _)
    intro e he
    apply (List.mem_append.1 he).imp_right
    intro he
    obtain rfl := List.mem_singleton.1 he
    exact .received

/-- A request leaves the events of one call, and its own. -/
theorem call_of_trace {P : Platform} {i : ℕ} {req : Request} {evs : List Event}
    (h : Trace P i req evs) : ∃ evs', IsCallOf P i req evs evs' := by
  have hself : ∀ e ∈ evs, e ∈ evs ∨ WebEvent P i evs req e := fun e he => Or.inl he
  cases req with
  | api machineName r =>
    exact ⟨evs, List.Subset.refl _, Or.inr ⟨machineName, r, .api, h⟩, hself⟩
  | web machineName uid w =>
    cases w with
    | update d => exact isCallOf_update h
    | updatePassword d => exact isCallOf_callTrace .updatePassword h (List.Subset.refl _) hself
    | downloadGet =>
      cases h with
      | start => exact isCallOf_nil fun e he => by cases he
      | cacheRead =>
        apply isCallOf_nil
        intro e he
        obtain rfl := List.mem_singleton.1 he
        exact .cacheRead
    | download d =>
      cases h with
      | page h => exact isCallOf_pageTrace h
      | accepted h => exact isCallOf_fetchTrace .download h (List.Subset.refl _) hself
    | new d =>
      cases h with
      | page h => exact isCallOf_pageTrace h
      | accepted h => exact isCallOf_newTrace h
    | revoke => exact isCallOf_callTrace .revoke h (List.Subset.refl _) hself
    | certIndex => exact isCallOf_pageTrace h
    | adminIndex => exact isCallOf_pageTrace h

/-- An event of a request is an event of one of its calls, or one of the web server. -/
def FromCall (P : Platform) (i : ℕ) (req : Request) (evs : List Event) (e : Event) : Prop :=
  ∃ machineName r evs', Calls req machineName r ∧ ApiTrace P i machineName r evs' ∧ evs' ⊆ evs ∧
    e ∈ evs'

theorem mem_trace {P : Platform} {i : ℕ} {req : Request} {evs : List Event}
    (h : Trace P i req evs) {e : Event} (he : e ∈ evs) :
    FromCall P i req evs e ∨ WebEvent P i evs req e := by
  obtain ⟨evs', hsub, hcall, hcases⟩ := call_of_trace h
  rcases hcases e he with he' | hweb
  · rcases hcall with rfl | ⟨machineName, r, hcall, htrace⟩
    · cases he'
    · exact Or.inl ⟨machineName, r, evs', hcall, htrace, hsub, he'⟩
  · exact Or.inr hweb

/-! ## Events of the CA server -/

section Api

variable {P : Platform} {i j : ℕ} {machineName : String} {evs : List Event}

/-- A certificate transaction of `IssueCertificate` is an `Issuance`. -/
theorem IssueTrace.issuance {r : CertRequest} (h : IssueTrace P i machineName r evs)
    {ws : List CertificateWrite} {t : Time} (he : .certificatesCommitted j ws t ∈ evs) :
    ∃ I : Issuance P machineName r, j = i ∧ ws = I.writes ∧ t = I.time ∧ I.committed i <:+ evs := by
  cases h with
  | start => cases he
  | userRead | keyGenerated | certificatesRead => simp at he
  | committed I =>
    obtain ⟨rfl, rfl, rfl⟩ : j = i ∧ ws = I.writes ∧ t = I.time := by
      simpa [Issuance.committed] using he
    exact ⟨I, rfl, rfl, rfl, List.suffix_refl _⟩
  | fileWritten I =>
    obtain ⟨rfl, rfl, rfl⟩ : j = i ∧ ws = I.writes ∧ t = I.time := by
      simpa [Issuance.committed] using he
    exact ⟨I, rfl, rfl, rfl, List.suffix_cons _ _⟩
  | delivered I =>
    obtain ⟨rfl, rfl, rfl⟩ : j = i ∧ ws = I.writes ∧ t = I.time := by
      simpa [Issuance.delivered, Issuance.committed] using he
    exact ⟨I, rfl, rfl, rfl, (List.suffix_cons _ _).trans (List.suffix_cons _ _)⟩

/-- A commit to `public_certificates` is an issuance or a revocation. -/
theorem certificatesCommitted_cases {r : ApiRequest} (h : ApiTrace P i machineName r evs)
    {ws : List CertificateWrite} {t : Time} (he : .certificatesCommitted j ws t ∈ evs) :
    j = i ∧ ((∃ (r' : CertRequest) (I : Issuance P machineName r'), r = .issue r' ∧
        ws = I.writes ∧ t = I.time ∧ I.committed i ⊆ evs) ∨
      ∃ (r' : RevokeRequest) (user : User) (S : Table PublicCertificate) (since : Time),
        r = .revoke r' ∧ user.id = r'.uid ∧ RevokesAll r'.uid S since ws t ∧
          evs = revocationEvents i user S since ws t) := by
  cases r with
  | issue r =>
    obtain ⟨I, rfl, rfl, rfl, hI⟩ := IssueTrace.issuance h he
    exact ⟨rfl, Or.inl ⟨r, I, rfl, rfl, rfl, hI.subset⟩⟩
  | revoke r =>
    cases h with
    | start => cases he
    | userRead | certificatesRead => simp at he
    | @committed user S since ws' time hid hws =>
      obtain ⟨rfl, rfl, rfl⟩ : j = i ∧ ws = ws' ∧ t = time := by
        simpa [revocationEvents] using he
      exact ⟨rfl, Or.inr ⟨r, user, S, since, rfl, hid, hws, rfl⟩⟩
  | changePassword r => cases h <;> simp [passwordChangeEvents] at he
  | downloadPrivateKey r => cases h <;> simp at he
  | getCRL => cases h <;> simp at he
  | getCipherSuites =>
    obtain rfl : evs = [] := h
    cases he

/-- A request commits to `public_certificates` at most once. -/
theorem certificatesCommitted_unique {req : Request} (h : Trace P i req evs)
    {ws ws' : List CertificateWrite} {t t' : Time} (he : .certificatesCommitted i ws t ∈ evs)
    (he' : .certificatesCommitted i ws' t' ∈ evs) : ws = ws' ∧ t = t' := by
  obtain ⟨evs', -, hcall, hcases⟩ := call_of_trace h
  have hmem : ∀ {ws t}, .certificatesCommitted i ws t ∈ evs → .certificatesCommitted i ws t ∈ evs' := by
    intro ws t hmem
    rcases hcases _ hmem with hmem | hweb
    · exact hmem
    · cases hweb
  have he := hmem he
  have he' := hmem he'
  rcases hcall with rfl | ⟨m, r, -, htrace⟩
  · cases he
  · rcases (certificatesCommitted_cases htrace he).2 with
      ⟨r', I, rfl, rfl, rfl, -⟩ | ⟨r', user, S, since, rfl, -, -, rfl⟩
    · cases htrace <;> simp_all [Issuance.delivered, Issuance.committed]
    · have heq : ws' = ws ∧ t' = t := by simpa [revocationEvents] using he'
      exact ⟨heq.1.symm, heq.2.symm⟩

/-- A request that commits to `public_certificates` has read the table once. -/
theorem certificatesRead_unique {req : Request} (h : Trace P i req evs)
    {ws : List CertificateWrite} {time : Time} (hcommit : .certificatesCommitted i ws time ∈ evs)
    {t t' : Table PublicCertificate} {u u' : Time} (ht : .certificatesRead i t u ∈ evs)
    (ht' : .certificatesRead i t' u' ∈ evs) : t = t' ∧ u = u' := by
  obtain ⟨evs', -, hcall, hcases⟩ := call_of_trace h
  have hread : ∀ {S v}, .certificatesRead i S v ∈ evs → .certificatesRead i S v ∈ evs' := by
    intro S v hS
    rcases hcases _ hS with hS | hweb
    · exact hS
    · -- a page commits nothing
      cases hweb with
      | certificatesRead hpage =>
        obtain ⟨S', v', hread⟩ := hpage.eq_read hcommit
        cases hread
  have ht := hread ht
  have ht' := hread ht'
  have hcommit : .certificatesCommitted i ws time ∈ evs' := by
    rcases hcases _ hcommit with hcommit | hweb
    · exact hcommit
    · cases hweb
  rcases hcall with rfl | ⟨m, r, -, htrace⟩
  · cases ht
  · rcases (certificatesCommitted_cases htrace hcommit).2 with
      ⟨r', I, rfl, rfl, rfl, -⟩ | ⟨r', user, S, since, rfl, -, -, rfl⟩
    · cases htrace <;> simp_all [Issuance.delivered, Issuance.committed]
    · simp_all [revocationEvents]

/-- A commit to `private_certificates` is the end of an issuance. -/
theorem privateKeysCommitted_cases {r : ApiRequest} (h : ApiTrace P i machineName r evs)
    {ws : List PrivateKeyWrite} (he : .privateKeysCommitted j ws ∈ evs) :
    j = i ∧ ∃ (r' : CertRequest) (I : Issuance P machineName r') (bytes : List UInt8)
      (stored : Bool), r = .issue r' ∧ I.backup = some bytes ∧ ws = [I.keyWrite stored] ∧
        evs = I.delivered i bytes stored := by
  cases r with
  | issue r =>
    cases h with
    | @delivered I bytes stored hbytes =>
      obtain ⟨rfl, rfl⟩ : j = i ∧ ws = [I.keyWrite stored] := by
        simpa [Issuance.delivered, Issuance.committed] using he
      exact ⟨rfl, r, I, bytes, stored, rfl, hbytes, rfl, rfl⟩
    | start | userRead | keyGenerated | certificatesRead => simp at he
    | committed | fileWritten => simp [Issuance.committed] at he
  | revoke r => cases h <;> simp [revocationEvents] at he
  | changePassword r => cases h <;> simp [passwordChangeEvents] at he
  | downloadPrivateKey r => cases h <;> simp at he
  | getCRL => cases h <;> simp at he
  | getCipherSuites =>
    obtain rfl : evs = [] := h
    cases he

/-- A commit to `users` by the CA server is a change of a password, or empty. -/
theorem usersCommitted_cases {r : ApiRequest} (h : ApiTrace P i machineName r evs)
    {ws : List UserWrite} (he : .usersCommitted j ws ∈ evs) :
    j = i ∧ ∃ r' : PasswordChangeRequest, r = .changePassword r' ∧
      (ws = [] ∨ ∃ user, Authenticated P r'.uid r'.oldPassword user ∧
        ws = passwordHashChange user (computePasswordHash P r'.newPassword) ∧
        evs = passwordChangeEvents P i r' user) := by
  cases r with
  | issue r => cases h <;> simp [Issuance.delivered, Issuance.committed] at he
  | revoke r => cases h <;> simp [revocationEvents] at he
  | changePassword r =>
    cases h with
    | start => cases he
    | userRead => simp at he
    | refused =>
      obtain ⟨rfl, rfl⟩ : j = i ∧ ws = [] := by simpa using he
      exact ⟨rfl, r, rfl, Or.inl rfl⟩
    | @changed user huser =>
      obtain ⟨rfl, rfl⟩ : j = i ∧
          ws = passwordHashChange user (computePasswordHash P r.newPassword) := by
        simpa [passwordChangeEvents] using he
      exact ⟨rfl, r, rfl, Or.inr ⟨user, huser, rfl, rfl⟩⟩
  | downloadPrivateKey r => cases h <;> simp at he
  | getCRL => cases h <;> simp at he
  | getCipherSuites =>
    obtain rfl : evs = [] := h
    cases he

theorem not_cacheSet_of_apiTrace {key : String} {r : ApiRequest}
    (h : ApiTrace P i machineName r evs) {archive : Pkcs12Archive} {expires time : Time} :
    .cacheSet j key archive expires time ∉ evs := by
  cases r with
  | issue r => cases h <;> simp [Issuance.delivered, Issuance.committed]
  | revoke r => cases h <;> simp [revocationEvents]
  | changePassword r => cases h <;> simp [passwordChangeEvents]
  | downloadPrivateKey r => cases h <;> simp
  | getCRL => cases h <;> simp
  | getCipherSuites =>
    obtain rfl : evs = [] := h
    simp

end Api

end IMoviesCA
