import IMoviesCA.Pem
import IMoviesCA.State

/-!
# The CA server

`UserDBAuthenticator`, `CADBModifier` and the controllers of `CertServer`, as programs over the
shared state.  An exception that no one catches ends the request, and the transactions that it
had open are rolled back: their statements were never committed.
-/

namespace IMoviesCA

/-- What the servers run on: functions of .NET and of its libraries, and the files that the
deployment installs. -/
structure Platform where
  /-- `SHA1.ComputeHash`. -/
  sha1 : List UInt8 → List UInt8
  /-- The attribute that a tag of a distinguished-name string names. -/
  attributeType : String → Option AttributeType
  attributeType_CN : attributeType "CN" = some .commonName
  /-- `X509Certificate2.GetNameInfo(X509NameType.SimpleName, false)` for a subject. -/
  simpleName : DistinguishedName → Option String
  simpleName_eq : ∀ dn, commonNames dn ≠ [] → ∃ v ∈ commonNames dn, simpleName dn = some v
  /-- `X509Certificate2.Thumbprint`. -/
  thumbprint : X509Certificate2 → String
  /-- `ExportRSAPrivateKey` and `ExportECPrivateKey`. -/
  exportPrivateKey : AsymmetricAlgorithm → List UInt8
  /-- RSA encryption with OAEP-SHA1 under the key of the backup server; `none` is its exception. -/
  encryptOaepSHA1 : List UInt8 → Option (List UInt8)
  /-- The key file at a path. -/
  pfx : String → CertificateAuthority
  /-- The text of the password list. -/
  passwordList : String

/-- A program that may throw. -/
abbrev Action (α : Type) : Type := ExceptT Fault (Program Op Op.Res) α

/-- The program of one operation. -/
def call (e : Op) : Action e.Val := ExceptT.mk (Program.perform e)

/-- The answer to a request: an exception that no one catches is answered with status 500. -/
def answer (p : Action Reply) : Program Op Op.Res Reply := do
  match ← p.run with
  | .ok r => pure r
  | .error _ => pure .serverError

/-- An operation in a request: the request goes on with its value, or is answered with status
500. -/
def orServerError (e : Op) (k : e.Val → Program Op Op.Res Reply) : Program Op Op.Res Reply :=
  .op e fun
    | .ok v => k v
    | .error _ => .done .serverError

theorem answer_call (e : Op) (f : e.Val → Action Reply) :
    answer (call e >>= f) = orServerError e fun v => answer (f v) := by
  show Program.op e _ = Program.op e _
  congr 1
  funext x
  cases x <;> rfl

theorem answer_call_bind {α : Type} (e : Op) (g : e.Val → Action α) (f : α → Action Reply) :
    answer (call e >>= g >>= f) = orServerError e fun v => answer (g v >>= f) := by
  show Program.op e _ = Program.op e _
  congr 1
  funext x
  cases x <;> rfl

/-- An operation and what the request does with each of its values. -/
theorem answer_call_eq {e : Op} {f : e.Val → Action Reply} {k : e.Val → Program Op Op.Res Reply}
    (h : ∀ v, answer (f v) = k v) : answer (call e >>= f) = orServerError e k := by
  rw [answer_call]
  exact congrArg (orServerError e) (funext h)

theorem answer_call_bind_eq {α : Type} {e : Op} {g : e.Val → Action α} {f : α → Action Reply}
    {k : e.Val → Program Op Op.Res Reply} (h : ∀ v, answer (g v >>= f) = k v) :
    answer (call e >>= g >>= f) = orServerError e k := by
  rw [answer_call_bind]
  exact congrArg (orServerError e) (funext h)

/-! ## Access to the shared state -/

/-- `Users.Find`. -/
def findUser (uid : String) : Action (Option User) := call (.findUser uid)

/-- The number of rows of `users` with an e-mail address. -/
def countEmail (email : String) : Action ℕ := call (.countEmail email)

/-- Statements of an open transaction on `users`. -/
def executeUsers (ws : List UserWrite) : Action Unit := call (.executeUsers ws)

/-- The commit of a transaction on `users`. -/
def commitUsers (ws : List UserWrite) : Action Unit := call (.commitUsers ws)

/-- A query of the rows of `public_certificates`, or the snapshot that a transaction reads. -/
def readCertificates : Action (Table PublicCertificate) := call .readCertificates

/-- Statements of an open transaction on `public_certificates`. -/
def executeCertificates (ws : List CertificateWrite) : Action Unit := call (.executeCertificates ws)

/-- The commit of a transaction on `public_certificates`. -/
def commitCertificates (ws : List CertificateWrite) : Action Unit := call (.commitCertificates ws)

/-- `PrivateKeys.Any` for the row of a user. -/
def anyPrivateKey (uid : String) : Action Bool := call (.anyPrivateKey uid)

/-- `PrivateKeys.Find`. -/
def findPrivateKey (uid : String) : Action (Option PrivateKey) := call (.findPrivateKey uid)

/-- Statements of an open transaction on `private_certificates`. -/
def executePrivateKeys (ws : List PrivateKeyWrite) : Action Unit := call (.executePrivateKeys ws)

/-- The commit of a transaction on `private_certificates`. -/
def commitPrivateKeys (ws : List PrivateKeyWrite) : Action Unit := call (.commitPrivateKeys ws)

/-- `DateTime.UtcNow`. -/
def clock : Action Time := call .clock

/-- `RSA.Create` and `ECDsa.Create`. -/
def generateKey (alg : EncryptionAlgorithms) (keySize : ℕ) : Action AsymmetricAlgorithm :=
  call (.generateKey alg keySize)

/-- A call whose only effect here is that it may throw. -/
def mayThrow (site : Site) : Action Unit := call (.mayThrow site)

/-- `File.WriteAllBytes`. -/
def writeAllBytes (path : String) (bytes : List UInt8) : Action Unit :=
  call (.writeAllBytes path bytes)

/-- The receipt of the answer of the CA server. -/
def receive (r : Reply) : Action Reply := call (.receive r)

/-- `IMemoryCache.TryGetValue`. -/
def cacheTryGet (key : String) : Action (Option Pkcs12Archive) := call (.cacheTryGet key)

/-- `IMemoryCache.Set` with an absolute expiration. -/
def cacheSet (key : String) (value : Pkcs12Archive) (expires : Time) : Action Unit :=
  call (.cacheSet key value expires)

/-! ## `UserDBAuthenticator` -/

namespace UserDBAuthenticator

variable (P : Platform)

/-- `ComputePasswordHash`: the digest in lower-case hexadecimal. -/
def computePasswordHash (password : String) : String := hexLower (P.sha1 (asciiGetBytes password))

/-- `PasswordPolicyValidator.IsValidPassword`: no substring of the list. -/
def isValidPassword (password : String) : Bool :=
  !decide (password.toList <:+: P.passwordList.toList)

/-- `MeetsPasswordPolicy`: not in the list, and long enough. -/
def meetsPasswordPolicy (password : String) : Bool :=
  isValidPassword P password && Constants.minPasswordLength ≤ netLength password

/-- `AuthenticateAndGetUser`: the row of the user, if it has the hash of the password. -/
def authenticateAndGetUser (uid password : String) : Action (Option User) := do
  let user ← findUser uid
  return user.filter fun user => user.passwordHash == computePasswordHash P password

/-- `GetUser`: the row of the user, without a password. -/
def getUser (uid : String) : Action (Option User) := findUser uid

/-- The statements of `SaveChanges` after the password hash of a tracked user was set: only a
column whose value changed is written. -/
def passwordHashChange (user : User) (pwd : String) : List UserWrite :=
  if user.passwordHash = pwd then [] else [.update user.id (.passwordHash pwd)]

/-- `ChangePassword`, with the statements that it executed. -/
def changePassword (user : User) (newPassword : String) : Action (Bool × List UserWrite) :=
  if meetsPasswordPolicy P newPassword then do
    let ws := passwordHashChange user (computePasswordHash P newPassword)
    executeUsers ws
    return (true, ws)
  else
    return (false, [])

end UserDBAuthenticator

/-! ## `CADBModifier` -/

namespace CADBModifier

/-- The transaction that `IMoviesCAContext` is in, with the snapshot that it reads. -/
inductive Scope
  | autocommit
  | transaction (snapshot : Table PublicCertificate)

/-- A query of `public_certificates`. -/
def queryCertificates : Scope → Action (Table PublicCertificate)
  | .autocommit => readCertificates
  | .transaction snapshot => return snapshot

/-- `SaveChanges`: by itself it is a transaction of its own. -/
def saveChanges (ws : List CertificateWrite) : Scope → Action Unit
  | .autocommit => commitCertificates ws
  | .transaction _ => executeCertificates ws

/-- `AddCertificate`, with the statement that it executed. -/
def addCertificate (publicCert : PublicCertificate) (scope : Scope) :
    Action (List CertificateWrite) := do
  let ws := [.insert publicCert]
  saveChanges ws scope
  return ws

/-- The loop of `RevokeAllCertificatesOfUser`: a certificate that has expired is skipped. -/
def revokeLoop : List PublicCertificate → List UInt64 → Action (List UInt64)
  | [], revoked => return revoked
  | pubCert :: rest, revoked => do
      let now ← clock
      if now > pubCert.parse.notAfter then
        revokeLoop rest revoked
      else
        revokeLoop rest (revoked ++ [pubCert.serialNr])

/-- The unrevoked certificates of a user. -/
def unrevokedCertificates (uid : String) (t : Table PublicCertificate) : List PublicCertificate :=
  t.rows.filter fun p => p.uid == uid && !p.isRevoked

/-- The update of one revoked row. -/
def revocation (serialNr : UInt64) : CertificateWrite := .update serialNr .isRevoked

/-- `RevokeAllCertificatesOfUser`, with the statements that it executed. -/
def revokeAllCertificatesOfUser (user : User) (scope : Scope) :
    Action (List CertificateWrite) := do
  let certificates ← queryCertificates scope
  let revoked ← revokeLoop (unrevokedCertificates user.id certificates) []
  let ws := revoked.map revocation
  saveChanges ws scope
  return ws

/-- `GetMaxSerialNr`: the number after the largest one, in 64-bit arithmetic that wraps. -/
def getMaxSerialNr (t : Table PublicCertificate) : SerialNumber :=
  let serialNrs := t.rows.map PublicCertificate.serialNr
  match serialNrs with
  | [] => ⟨0⟩
  | first :: rest =>
      if serialNrs.length = 1 then ⟨first + 1⟩
      else ⟨rest.foldl (fun m n => if m < n then n else m) first + 1⟩

/-- The integer that BouncyCastle reads from the bytes of a serial number: `BigInteger(byte[])` is
signed. -/
def crlSerialNumber (s : SerialNumber) : ℤ := Bytes.signed s.serialNrBytes

/-- `GenerateCRL`, at one reading of the clock.  The times of a list have whole seconds. -/
def generateCRL (P : Platform) (machineName : String) (now : Time) (t : Table PublicCertificate) :
    X509Crl :=
  let coreCA := P.pfx (CAConfig.coreCACertPath machineName)
  { issuerDN := coreCA.subjectName
    thisUpdate := wholeSeconds now
    nextUpdate := wholeSeconds (addMinutes now Constants.crlNextUpdatedIntervalMinutes)
    entries := (t.rows.filter fun p => p.isRevoked).map fun pubCert =>
      ⟨crlSerialNumber pubCert.getSerialNumber, wholeSeconds now, .keyCompromise⟩
    authorityKeyIdentifier := coreCA.key.publicKey
    signatureAlgorithm := "SHA512WITHRSA"
    signedBy := coreCA.key.publicKey }

/-- The statement that stores an archive: an insert, or an update when the user has a row. -/
def privateKeyWrite (stored : Bool) (privKey : PrivateKey) : PrivateKeyWrite :=
  if stored then .update privKey.uid (.keyPkcs12 privKey.keyPkcs12) else .insert privKey

/-- `AddPrivateKey`: the query, the write and the commit of one transaction. -/
def addPrivateKey (privKey : PrivateKey) : Action Unit := do
  mayThrow .beginTransaction
  let stored ← anyPrivateKey privKey.uid
  let ws := [privateKeyWrite stored privKey]
  executePrivateKeys ws
  commitPrivateKeys ws

/-- `GetPrivateKey`: the stored archive of the user. -/
def getPrivateKey (user : User) : Action (Option PrivateKey) := findPrivateKey user.id

end CADBModifier

/-! ## `IssueController` -/

/-- `System.Security.Cryptography.X509Certificates.CertificateRequest`. -/
structure CertificateRequest where
  subjectName : DistinguishedName
  publicKey : PublicKey
  hashAlgorithm : String
  certificateExtensions : List X509Extension

/-- The integer that `CertificateRequest.Create` reads from the bytes of a serial number: it is
unsigned. -/
def certificateSerialNumber (s : SerialNumber) : ℕ := Bytes.unsigned s.serialNrBytes

/-- `CertificateRequest.Create`. -/
def CertificateRequest.create (req : CertificateRequest) (coreCA : CertificateAuthority)
    (notBefore notAfter : Time) (serialNr : SerialNumber) : X509Certificate2 where
  subjectName := req.subjectName
  issuerName := coreCA.subjectName
  serialNumber := certificateSerialNumber serialNr
  notBefore := wholeSeconds notBefore
  notAfter := wholeSeconds notAfter
  publicKey := req.publicKey
  hashAlgorithm := req.hashAlgorithm
  extensions := req.certificateExtensions
  signedBy := coreCA.key.publicKey

/-- `SubjectAlternativeNameBuilder.AddEmailAddress`: an IA5 string. -/
def addEmailAddress (email : String) : Option X509Extension :=
  if email.toList.all fun c => c.toNat ≤ 0x7F then some (.subjectAlternativeName email) else none

namespace IssueController

variable (P : Platform)

/-- The subject that `CertificateRequest` reads from `"CN=" + user.Id`. -/
def subjectOf (user : User) : Option DistinguishedName :=
  X500.parse P.attributeType ("CN=" ++ user.id)

/-- The request for the certificate of a user; `none` when one of the two texts is refused. -/
def certificateRequest (user : User) (privKey : AsymmetricAlgorithm) (cipherSuite : CipherSuite) :
    Option CertificateRequest := do
  let subjectName ← subjectOf P user
  let san ← addEmailAddress user.email
  return {
    subjectName := subjectName
    publicKey := privKey.publicKey
    hashAlgorithm := cipherSuite.hashAlg
    certificateExtensions := [
      san,
      .basicConstraints false false 0,
      .subjectKeyIdentifier privKey.publicKey,
      .keyUsage [.keyEncipherment, .digitalSignature, .nonRepudiation],
      .enhancedKeyUsage [oidClientAuth, oidEmailProtection],
      .crlDistributionPoints CAConfig.crlDistributionPoint] }

/-- `ECDsa.Create` takes no size: it makes a key for P-521. -/
def createKey (cipherSuite : CipherSuite) : Action AsymmetricAlgorithm :=
  match cipherSuite.alg with
  | .RSA => generateKey .RSA cipherSuite.keySize
  | .ECDSA => generateKey .ECDSA 521

/-- The row of `public_certificates` for a new certificate. -/
def newRow (user : User) (serialNr : SerialNumber) (userCert : X509Certificate2) :
    PublicCertificate where
  serialNr := serialNr.serialNr
  uid := user.id
  certificate := userCert
  isRevoked := false

/-- The transaction of `IssueCertificate`. -/
def certificateTransaction (coreCA : CertificateAuthority) (user : User)
    (req : CertificateRequest) : Action X509Certificate2 := do
  mayThrow .beginTransaction
  let snapshot ← readCertificates
  let scope := CADBModifier.Scope.transaction snapshot
  let serialNr := CADBModifier.getMaxSerialNr snapshot
  let notBefore ← clock
  let now ← clock
  mayThrow .createCertificate
  let userCert := req.create coreCA notBefore (addDays now CAConfig.userCertValidityPeriod) serialNr
  let revocations ← CADBModifier.revokeAllCertificatesOfUser user scope
  let insertion ← CADBModifier.addCertificate (newRow user serialNr userCert) scope
  commitCertificates (revocations ++ insertion)
  return userCert

/-- `BackupPrivateKey`; the chain that it builds is not looked at. -/
def backupPrivateKey (privKeyExport fileName : String) : Action Unit := do
  mayThrow .encrypt
  match P.encryptOaepSHA1 (asciiGetBytes privKeyExport) with
  | none => throw .cryptographic
  | some privKeyEncrypted =>
      writeAllBytes (CAConfig.backupFolder ++ fileName) privKeyEncrypted
      mayThrow .startProcess

/-- The file name of a backup. -/
def backupFileName (user : User) (userCert : X509Certificate2) : String :=
  user.id ++ "_" ++ P.thumbprint userCert ++ ".pem.enc"

/-- `IssueCertificate` after the transaction of the certificate. -/
def deliver (certRequest : CertRequest) (user : User) (privKey : AsymmetricAlgorithm)
    (userCert : X509Certificate2) : Action Reply := do
  let privKeyExport := toPem privKey (P.exportPrivateKey privKey)
  backupPrivateKey P privKeyExport (backupFileName P user userCert)
  mayThrow .exportPkcs12
  let pkcs12Archive : Pkcs12Archive := ⟨userCert, privKey, certRequest.certPassphrase⟩
  CADBModifier.addPrivateKey { uid := user.id, keyPkcs12 := pkcs12Archive }
  return .ok pkcs12Archive

/-- `IssueCertificate` after the user was authenticated. -/
def issueFor (machineName : String) (certRequest : CertRequest) (user : User) : Action Reply := do
  let coreCA := P.pfx (CAConfig.coreCACertPath machineName)
  let cipherSuite := certRequest.requestedCipherSuite
  let privKey ← createKey cipherSuite
  match certificateRequest P user privKey cipherSuite with
  | none => throw .cryptographic
  | some req =>
      let userCert ← certificateTransaction coreCA user req
      deliver P certRequest user privKey userCert

/-- `IssueCertificate`.  A short passphrase is logged with the format `"User {} tried ..."`, and
`string.Format` throws on the empty item before the request is answered with status 400. -/
def issueCertificate (machineName : String) (certRequest : CertRequest) : Action Reply :=
  if netLength certRequest.certPassphrase < Constants.minPassphraseLength then
    throw .format
  else if !certRequest.requestedCipherSuite.isValidCipherSuite then
    return .badRequest (some "Invalid cipher suite.")
  else do
    match ← UserDBAuthenticator.authenticateAndGetUser P certRequest.uid certRequest.password with
    | some user => issueFor P machineName certRequest user
    | none => return .unauthorized

end IssueController

/-! ## The other controllers -/

/-- `RevokeCertificate`: all unrevoked certificates of the user, without a password. -/
def RevokeController.revokeCertificate (revokeRequest : RevokeRequest) : Action Reply := do
  match ← UserDBAuthenticator.getUser revokeRequest.uid with
  | some user =>
      let _ ← CADBModifier.revokeAllCertificatesOfUser user .autocommit
      return .noContent
  | none => return .badRequest none

/-- `ChangePassword`.  The transaction is committed whatever the answer. -/
def ChangePasswordController.changePassword (P : Platform) (r : PasswordChangeRequest) :
    Action Reply := do
  mayThrow .beginTransaction
  match ← UserDBAuthenticator.authenticateAndGetUser P r.uid r.oldPassword with
  | some user =>
      let changed ← UserDBAuthenticator.changePassword P user r.newPassword
      commitUsers changed.2
      return if changed.1 then .noContent else .badRequest none
  | none =>
      commitUsers []
      return .unauthorized

/-- `DownloadPrivateKey`: the stored archive of the user who knows the password. -/
def DownloadPrivateKeyController.downloadPrivateKey (P : Platform) (r : DownloadPrivateKeyRequest) :
    Action Reply := do
  match ← UserDBAuthenticator.authenticateAndGetUser P r.uid r.password with
  | some user =>
      match ← CADBModifier.getPrivateKey user with
      | none => return .badRequest none
      | some privKey => return .ok privKey.keyPkcs12
  | none => return .unauthorized

/-- `GetCRL`: a list of the certificates that are revoked now. -/
def CRLController.getCRL (P : Platform) (machineName : String) : Action Reply := do
  let now ← clock
  let t ← readCertificates
  return .crl (CADBModifier.generateCRL P machineName now t)

/-- `GetCipherSuites`: the suites of the configuration. -/
def CipherSuitesController.getCipherSuites : Action Reply :=
  return .cipherSuites CAConfig.cipherSuites

/-! ## The API -/

/-- `[ApiController]`: an invalid request is answered before the action runs. -/
def apiController (valid : Bool) (action : Action Reply) : Action Reply :=
  if valid then action else return .badRequest none

/-- The requests to the CA server. -/
inductive ApiRequest
  | issue (r : CertRequest)
  | revoke (r : RevokeRequest)
  | changePassword (r : PasswordChangeRequest)
  | downloadPrivateKey (r : DownloadPrivateKeyRequest)
  | getCRL
  | getCipherSuites
  deriving DecidableEq

/-- The endpoints of the CA server on a machine. -/
def api (P : Platform) (machineName : String) : ApiRequest → Action Reply
  | .issue r => apiController r.isValid (IssueController.issueCertificate P machineName r)
  | .revoke r => apiController r.isValid (RevokeController.revokeCertificate r)
  | .changePassword r => apiController r.isValid (ChangePasswordController.changePassword P r)
  | .downloadPrivateKey r =>
      apiController r.isValid (DownloadPrivateKeyController.downloadPrivateKey P r)
  | .getCRL => CRLController.getCRL P machineName
  | .getCipherSuites => CipherSuitesController.getCipherSuites

end IMoviesCA
