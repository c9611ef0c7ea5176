import Mathlib.Data.List.Sort
import IMoviesCA.CertServer

/-!
# The web server

`CoreCAClient`, the actions of `AccountController` and `CertController` that change something, hand out
an archive or show the certificates, the dashboard of `AdminController`, and the system in which the
requests of both servers interleave.

The user id of an action is the name identifier of the session.  `Users.Find` returns the row that
the session was validated with, when the context already tracks it: either way an action reads the
row once, before its other operations.
-/

namespace IMoviesCA

/-! ## `CoreCAClient` -/

namespace CoreCAClient

variable (P : Platform) (machineName : String)

/-- A request to the CA server through `nginx`: it may not arrive, an exception there is answered
with status 500, and the answer may not come back or be replaced by one of `nginx`. -/
def send (r : ApiRequest) : Action Reply := do
  mayThrow .sendRequest
  let response ← ExceptT.lift (answer (api P machineName r))
  receive response

/-- The archive in an answer. -/
def archiveOf : Reply → Option Pkcs12Archive
  | .ok archive => some archive
  | _ => none

/-- `DownloadPrivateKey`: the stored archive, or `null`. -/
def downloadPrivateKey (uid userPassword : String) : Action (Option Pkcs12Archive) := do
  let response ← send P machineName (.downloadPrivateKey { uid := uid, password := userPassword })
  return archiveOf response

/-- The preferred cipher suite in an answer. -/
def firstCipherSuite : Reply → Option CipherSuite
  | .cipherSuites suites => suites.head?
  | _ => none

/-- `RequestNewCertificate` for the preferred cipher suite: the archive, or `null`. -/
def requestNewCertificate (uid userPassword certPassphrase : String) :
    Action (Option Pkcs12Archive) := do
  let cipherSuitesResponse ← send P machineName .getCipherSuites
  match firstCipherSuite cipherSuitesResponse with
  | none => return none
  | some cipherSuite =>
      let response ← send P machineName (.issue {
        uid := uid
        password := userPassword
        certPassphrase := certPassphrase
        requestedCipherSuite := cipherSuite })
      return archiveOf response

/-- `RevokeCertificate`: whether the answer is a success. -/
def revokeCertificate (uid : String) : Action Bool := do
  let response ← send P machineName (.revoke { uid := uid })
  return response.isSuccessStatusCode

/-- `ChangePassword`: whether the answer is a success. -/
def changePassword (uid oldPassword newPassword : String) : Action Bool := do
  let response ← send P machineName
    (.changePassword { uid := uid, oldPassword := oldPassword, newPassword := newPassword })
  return response.isSuccessStatusCode

end CoreCAClient

/-! ## `AccountController` -/

namespace AccountController

variable (P : Platform) (machineName uid : String)

/-- The update of `SaveChanges` after `DbSet.Update`: every column of the entity. -/
def allColumns (user : User) : UserWrite :=
  .update user.id (.allColumns user.firstName user.lastName user.email user.passwordHash)

/-- The entity with the details of the form. -/
def withDetails (user : User) (userDetails : UserDetails) : User :=
  { user with
    email := userDetails.email
    firstName := userDetails.firstName
    lastName := userDetails.lastName }

/-- `[HttpPost] Update`.  The answer of the CA to the revocation is not looked at. -/
def update (userDetails : UserDetails) : Action Reply :=
  if !userDetails.isValid then
    return .view
  else do
    match ← findUser uid with
    | none => return .redirect false "Updating account information failed."
    | some user =>
        let count ← countEmail userDetails.email
        if count = 0 ∨ user.email = userDetails.email then do
          let _ ← CoreCAClient.revokeCertificate P machineName user.id
          commitUsers [allColumns (withDetails user userDetails)]
          return .redirect true "Account information updated successfully."
        else
          return .redirect false "Updating account information failed."

/-- `[HttpPost] UpdatePassword`. -/
def updatePassword (details : UpdatePasswordDetails) : Action Reply :=
  if !details.isValid then
    return .view
  else do
    let changed ← CoreCAClient.changePassword P machineName uid details.oldPassword
      details.newPassword
    return if changed then .redirect true "Password updated successfully."
      else .redirect false "Updating password failed."

end AccountController

/-! ## `CertController` -/

/-- The constructor of `Models.Certificate`. -/
def Certificate.ofPublicCertificate (P : Platform) (cert : PublicCertificate) : Certificate where
  fingerprint := P.thumbprint cert.parse
  validFrom := cert.parse.notBefore
  expireDate := cert.parse.notAfter

namespace CertController

variable (P : Platform) (machineName uid : String)

/-- The rows of a query for a user. -/
def certificatesOf (uid : String) (t : Table PublicCertificate) : List PublicCertificate :=
  t.rows.filter fun c => c.uid == uid

/-- The condition of the valid certificates, row by row; each side reads the clock. -/
def validLoop : List PublicCertificate → List Certificate → Action (List Certificate)
  | [], valid => return valid
  | c :: rest, valid => do
      let now ← clock
      if c.parse.notBefore ≤ now then do
        let now ← clock
        if now ≤ c.parse.notAfter ∧ c.isRevoked = false then
          validLoop rest (valid ++ [.ofPublicCertificate P c])
        else
          validLoop rest valid
      else
        validLoop rest valid

/-- The condition of the expired certificates, row by row. -/
def expiredLoop : List PublicCertificate → List Certificate → Action (List Certificate)
  | [], expired => return expired
  | c :: rest, expired => do
      let now ← clock
      if now > c.parse.notAfter ∧ c.isRevoked = false then
        expiredLoop rest (expired ++ [.ofPublicCertificate P c])
      else
        expiredLoop rest expired

/-- The entities of a query on a context that tracks them: a row that an earlier query has read is
returned as it was then. -/
def entities (tracked rows : List PublicCertificate) : List PublicCertificate :=
  rows.map fun c => (tracked.find? fun t => t.serialNr == c.serialNr).getD c

/-- `FetchCertificatesData`.  The three queries are carried out when the page enumerates the lists, one
after the other on one context. -/
def fetchCertificatesData : Action CertificatesData := do
  let t₁ ← readCertificates
  let forValid := certificatesOf uid t₁
  let valid ← validLoop P forValid []
  let t₂ ← readCertificates
  let forRevoked := entities forValid (certificatesOf uid t₂)
  let revoked := forRevoked.filter fun c => c.isRevoked
  let t₃ ← readCertificates
  let forExpired := entities (forValid ++ forRevoked) (certificatesOf uid t₃)
  let expired ← expiredLoop P forExpired []
  return {
    valid := valid
    revoked := revoked.map (.ofPublicCertificate P)
    expired := expired }

/-- `Index`: the page of the certificates. -/
def index : Action Reply := do
  let data ← fetchCertificatesData P uid
  return .certificates data

/-- The key of a user's entry in the memory cache. -/
def cacheKey (uid : String) : String := uid ++ ".CertB64"

/-- `[HttpGet] Download`. -/
def downloadGet : Action Reply := do
  match ← cacheTryGet (cacheKey uid) with
  | none => return .redirect false "Certificate download failed."
  | some certBytes => return .file certBytes

/-- `[HttpPost] Download`.  A form that is refused is shown again, on the page of the certificates. -/
def download (details : DownloadCertDetails) : Action Reply :=
  if !details.isValid then
    index P uid
  else do
    match ← CoreCAClient.downloadPrivateKey P machineName uid details.password with
    | none => return .redirect false "Certificate download failed."
    | some certb64 =>
        let now ← clock
        cacheSet (cacheKey uid) certb64 (addMinutes now 1)
        return .redirect true "Certificate downloaded."

/-- `New`. -/
def new (details : RequestNewCertDetails) : Action Reply :=
  if !details.isValid then
    index P uid
  else do
    match ← CoreCAClient.requestNewCertificate P machineName uid details.password
        details.passphrase with
    | none => return .redirect false "New certificate request failed."
    | some certb64 =>
        let now ← clock
        cacheSet (cacheKey uid) certb64 (addMinutes now 1)
        return .redirect true "Certificate issued successfully."

/-- `Revoke`. -/
def revoke : Action Reply := do
  let success ← CoreCAClient.revokeCertificate P machineName uid
  return if success then .redirect true "Certificate revoked successfully."
    else .redirect false "Revoking certificate failed."

end CertController

/-! ## `AdminController` -/

namespace AdminController

/-- `Queryable.Count` counts in an `int`. -/
def count (n : ℕ) : Action ℕ := if n < 2 ^ 31 then return n else throw .overflow

/-- The number of revoked certificates. -/
def numRevoked (t : Table PublicCertificate) : ℕ := t.rows.countP fun c => c.isRevoked

/-- The first of the serial numbers by descending order, or 0. -/
def currentSerialNum (t : Table PublicCertificate) : UInt64 :=
  ((t.rows.map PublicCertificate.serialNr).insertionSort (· ≥ ·)).head?.getD 0

/-- `Index`.  Every query is a transaction of its own. -/
def index : Action Reply := do
  let forIssued ← readCertificates
  let numIssuedCertificates ← count forIssued.rows.length
  let forRevoked ← readCertificates
  let numRevokedCertificates ← count (numRevoked forRevoked)
  let forSerial ← readCertificates
  return .adminStats ⟨numIssuedCertificates, numRevokedCertificates, currentSerialNum forSerial⟩

end AdminController

/-! ## The system -/

/-- The requests to the web server in a session. -/
inductive WebRequest
  | update (userDetails : UserDetails)
  | updatePassword (details : UpdatePasswordDetails)
  | downloadGet
  | download (details : DownloadCertDetails)
  | new (details : RequestNewCertDetails)
  | revoke
  | certIndex
  | adminIndex
  deriving DecidableEq

/-- The actions of the web server in a session of `uid`, with the CA server on a machine. -/
def web (P : Platform) (machineName uid : String) : WebRequest → Action Reply
  | .update userDetails => AccountController.update P machineName uid userDetails
  | .updatePassword details => AccountController.updatePassword P machineName uid details
  | .downloadGet => CertController.downloadGet uid
  | .download details => CertController.download P machineName uid details
  | .new details => CertController.new P machineName uid details
  | .revoke => CertController.revoke P machineName uid
  | .certIndex => CertController.index P uid
  | .adminIndex => AdminController.index

/-- A request to one of the CA servers, or a request in a session of the web server, which uses
one of the CA servers. -/
inductive Request
  | api (machineName : String) (r : ApiRequest)
  | web (machineName uid : String) (r : WebRequest)
  deriving DecidableEq

/-- The action of a request. -/
def action (P : Platform) : Request → Action Reply
  | .api machineName r => api P machineName r
  | .web machineName uid r => web P machineName uid r

/-- The operations on the shared state, and the clock that moves forward. -/
def machine : Machine Op Op.Res State Choice ℕ where
  exec := exec
  env := tick

/-- The two servers: any number of requests, interleaved operation by operation. -/
def system (P : Platform) : System Request Op Op.Res State Choice ℕ Reply where
  toMachine := machine
  handler r := answer (action P r)

end IMoviesCA
