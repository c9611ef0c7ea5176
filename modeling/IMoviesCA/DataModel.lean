import IMoviesCA.Lib.Table
import IMoviesCA.Lib.Bytes
import IMoviesCA.X500

/-!
# The data model

The classes of `CoreCA.DataModel`, `CertServer.Models`, `WebServer.Models` and
`WebServer.ViewModels` that the requests read and write, the certificates and archives that they hold,
and the constants of the deployment.
A column that holds a certificate or an archive in base64 holds the object itself here.
-/

namespace IMoviesCA

/-! ## Constants -/

namespace Constants

/-- The minutes until the next list is due. -/
def crlNextUpdatedIntervalMinutes : ℕ := 10

/-- The least number of UTF-16 code units of a password. -/
def minPasswordLength : ℕ := 8

/-- The least number of UTF-16 code units of the passphrase of an archive. -/
def minPassphraseLength : ℕ := 12

end Constants

/-! ## Time -/

/-- A reading of the clock, in `DateTime` ticks of 100 nanoseconds. -/
abbrev Time := ℕ

/-- `TimeSpan.TicksPerSecond`. -/
def ticksPerSecond : ℕ := 10000000

/-- `DateTime.AddMinutes`. -/
def addMinutes (t : Time) (n : ℕ) : Time := t + n * 60 * ticksPerSecond

/-- `DateTime.AddDays`. -/
def addDays (t : Time) (n : ℕ) : Time := t + n * 86400 * ticksPerSecond

/-- The times in a certificate and in a revocation list have whole seconds. -/
def wholeSeconds (t : Time) : Time := t / ticksPerSecond * ticksPerSecond

/-! ## Keys and certificates -/

/-- The algorithms of the cipher suites. -/
inductive EncryptionAlgorithms
  | RSA
  | ECDSA
  deriving DecidableEq, Repr

/-- A public key; `material` tells the generated key pairs apart. -/
structure PublicKey where
  alg : EncryptionAlgorithms
  keySize : ℕ
  material : ℕ
  deriving DecidableEq, Repr

/-- A key pair. -/
structure AsymmetricAlgorithm where
  alg : EncryptionAlgorithms
  keySize : ℕ
  material : ℕ
  deriving DecidableEq, Repr

/-- The public half of a key pair. -/
def AsymmetricAlgorithm.publicKey (k : AsymmetricAlgorithm) : PublicKey :=
  ⟨k.alg, k.keySize, k.material⟩

theorem AsymmetricAlgorithm.publicKey_inj {k k' : AsymmetricAlgorithm} :
    k.publicKey = k'.publicKey ↔ k = k' := by
  cases k; cases k'; simp [publicKey]

/-- The usages that a certificate is issued for. -/
inductive X509KeyUsageFlags
  | keyEncipherment
  | digitalSignature
  | nonRepudiation
  deriving DecidableEq, Repr

/-- The extensions of a certificate. -/
inductive X509Extension
  | subjectAlternativeName (email : String)
  | basicConstraints (certificateAuthority hasPathLengthConstraint : Bool) (pathLength : ℕ)
  | subjectKeyIdentifier (key : PublicKey)
  | keyUsage (flags : List X509KeyUsageFlags)
  | enhancedKeyUsage (oids : List String)
  | crlDistributionPoints (uri : String)
  deriving DecidableEq, Repr

/-- The object identifier of client authentication. -/
def oidClientAuth : String := "1.3.6.1.5.5.7.3.2"

/-- The object identifier of e-mail protection. -/
def oidEmailProtection : String := "1.3.6.1.5.5.7.3.4"

/-- A certificate, by its fields. -/
structure X509Certificate2 where
  subjectName : DistinguishedName
  issuerName : DistinguishedName
  serialNumber : ℕ
  notBefore : Time
  notAfter : Time
  publicKey : PublicKey
  hashAlgorithm : String
  extensions : List X509Extension
  /-- The key that made the signature. -/
  signedBy : PublicKey
  deriving DecidableEq, Repr

/-- The e-mail addresses in the subject-alternative-name extension. -/
def X509Certificate2.sanEmails (c : X509Certificate2) : List String :=
  c.extensions.filterMap fun
    | .subjectAlternativeName email => some email
    | _ => none

/-- A certificate with its private key, the certificate of the CA and the passphrase that
encrypts them. -/
structure Pkcs12Archive where
  certificate : X509Certificate2
  privateKey : AsymmetricAlgorithm
  passphrase : String
  deriving DecidableEq, Repr

/-- A certificate authority: its name and its key. -/
structure CertificateAuthority where
  subjectName : DistinguishedName
  key : AsymmetricAlgorithm
  deriving DecidableEq, Repr

/-- The one reason that `GenerateCRL` gives. -/
inductive CrlReason
  | keyCompromise
  deriving DecidableEq, Repr

/-- An entry of a revocation list. -/
structure CrlEntry where
  userCertificate : ℤ
  revocationDate : Time
  reason : CrlReason
  deriving DecidableEq, Repr

/-- A revocation list, by its fields. -/
structure X509Crl where
  issuerDN : DistinguishedName
  thisUpdate : Time
  nextUpdate : Time
  entries : List CrlEntry
  authorityKeyIdentifier : PublicKey
  signatureAlgorithm : String
  /-- The key that made the signature. -/
  signedBy : PublicKey
  deriving DecidableEq, Repr

/-! ## Serial numbers -/

/-- `SerialNumber`: a `ulong`. -/
structure SerialNumber where
  serialNr : UInt64
  deriving DecidableEq, Repr

/-- `BitConverter.GetBytes` on the servers' little-endian processors. -/
def bitConverterGetBytes (n : UInt64) : List UInt8 := Bytes.littleEndian 8 n.toNat

/-- The big-endian bytes of the serial number. -/
def SerialNumber.serialNrBytes (s : SerialNumber) : List UInt8 :=
  (bitConverterGetBytes s.serialNr).reverse

/-! ## The users database -/

/-- A row of `users`. -/
structure User where
  id : String
  firstName : String
  lastName : String
  email : String
  passwordHash : String
  deriving DecidableEq, Repr

/-- The column lists of the updates of `users`: the changed column of a tracked entity, or, after
`DbSet.Update`, every column but the key. -/
inductive UserPatch
  | passwordHash (pwd : String)
  | allColumns (firstName lastName email passwordHash : String)
  deriving DecidableEq, Repr

instance : Record User String UserPatch where
  key := User.id
  patch
    | .passwordHash pwd, u => { u with passwordHash := pwd }
    | .allColumns firstName lastName email pwd, u =>
        { u with firstName := firstName, lastName := lastName, email := email, passwordHash := pwd }
  key_patch := by rintro (_ | _) _ <;> rfl

/-- A statement on `users`. -/
abbrev UserWrite := Write User String UserPatch

/-! ## The CA database -/

/-- A row of `public_certificates`. -/
structure PublicCertificate where
  serialNr : UInt64
  uid : String
  certificate : X509Certificate2
  isRevoked : Bool
  deriving DecidableEq, Repr

/-- The serial number of a row. -/
def PublicCertificate.getSerialNumber (c : PublicCertificate) : SerialNumber := ⟨c.serialNr⟩

/-- The certificate of a row. -/
def PublicCertificate.parse (c : PublicCertificate) : X509Certificate2 := c.certificate

/-- The one column that is ever updated. -/
inductive CertificatePatch
  | isRevoked
  deriving DecidableEq, Repr

instance : Record PublicCertificate UInt64 CertificatePatch where
  key := PublicCertificate.serialNr
  patch _ c := { c with isRevoked := true }
  key_patch _ _ := rfl

/-- A statement on `public_certificates`. -/
abbrev CertificateWrite := Write PublicCertificate UInt64 CertificatePatch

/-- A row of `private_certificates`. -/
structure PrivateKey where
  uid : String
  keyPkcs12 : Pkcs12Archive
  deriving DecidableEq, Repr

/-- The column that a stored archive is replaced in. -/
inductive PrivateKeyPatch
  | keyPkcs12 (archive : Pkcs12Archive)
  deriving DecidableEq, Repr

instance : Record PrivateKey String PrivateKeyPatch where
  key := PrivateKey.uid
  patch
    | .keyPkcs12 archive, k => { k with keyPkcs12 := archive }
  key_patch := by rintro ⟨_⟩ _; rfl

/-- A statement on `private_certificates`. -/
abbrev PrivateKeyWrite := Write PrivateKey String PrivateKeyPatch

/-! ## Requests -/

/-- A cipher suite of a request or of the configuration. -/
structure CipherSuite where
  alg : EncryptionAlgorithms
  hashAlg : String
  keySize : ℕ
  deriving DecidableEq, Repr

/-- The body of a request for a certificate. -/
structure CertRequest where
  uid : String
  password : String
  certPassphrase : String
  requestedCipherSuite : CipherSuite
  deriving DecidableEq, Repr

/-- The model validation of `[ApiController]`. -/
def CertRequest.isValid (r : CertRequest) : Bool :=
  required r.uid && stringLength 64 1 r.uid && required r.password && required r.certPassphrase &&
    required r.requestedCipherSuite.hashAlg

/-- The body of a request to revoke: the user alone. -/
structure RevokeRequest where
  uid : String
  deriving DecidableEq, Repr

/-- The model validation of `[ApiController]`. -/
def RevokeRequest.isValid (r : RevokeRequest) : Bool := required r.uid

/-- The body of a request for the stored archive. -/
structure DownloadPrivateKeyRequest where
  uid : String
  password : String
  deriving DecidableEq, Repr

/-- The model validation of `[ApiController]`. -/
def DownloadPrivateKeyRequest.isValid (r : DownloadPrivateKeyRequest) : Bool :=
  required r.uid && stringLength 64 1 r.uid && required r.password

/-- The body of a request to change a password. -/
structure PasswordChangeRequest where
  uid : String
  oldPassword : String
  newPassword : String
  deriving DecidableEq, Repr

/-- The model validation of `[ApiController]`. -/
def PasswordChangeRequest.isValid (r : PasswordChangeRequest) : Bool :=
  required r.uid && required r.oldPassword && required r.newPassword &&
    stringLength 64 Constants.minPasswordLength r.newPassword

/-- The form of `AccountController.Update`. -/
structure UserDetails where
  firstName : String
  lastName : String
  email : String
  deriving DecidableEq, Repr

/-- `ModelState.IsValid` of the form. -/
def UserDetails.isValid (d : UserDetails) : Bool :=
  required d.firstName && stringLength 64 1 d.firstName && required d.lastName &&
    stringLength 64 1 d.lastName && required d.email && emailAddress d.email &&
    stringLength 64 1 d.email

/-- The form of `AccountController.UpdatePassword`. -/
structure UpdatePasswordDetails where
  oldPassword : String
  newPassword : String
  deriving DecidableEq, Repr

/-- `ModelState.IsValid` of the form. -/
def UpdatePasswordDetails.isValid (d : UpdatePasswordDetails) : Bool :=
  required d.oldPassword && required d.newPassword &&
    stringLength 64 Constants.minPasswordLength d.newPassword

/-- The form of `CertController.Download`. -/
structure DownloadCertDetails where
  password : String
  deriving DecidableEq, Repr

/-- `ModelState.IsValid` of the form. -/
def DownloadCertDetails.isValid (d : DownloadCertDetails) : Bool := required d.password

/-- The form of `CertController.New`. -/
structure RequestNewCertDetails where
  passphrase : String
  password : String
  deriving DecidableEq, Repr

/-- `ModelState.IsValid` of the form. -/
def RequestNewCertDetails.isValid (d : RequestNewCertDetails) : Bool :=
  required d.passphrase && stringLength 256 Constants.minPassphraseLength d.passphrase &&
    required d.password

/-! ## Pages -/

/-- `Models.Certificate`: what the page shows of a certificate. -/
structure Certificate where
  fingerprint : String
  validFrom : Time
  expireDate : Time
  deriving DecidableEq, Repr

/-- The lists of `ViewModels.CertificatesData`. -/
structure CertificatesData where
  valid : List Certificate
  revoked : List Certificate
  expired : List Certificate
  deriving DecidableEq, Repr

/-- What the dashboard shows. -/
@[ext]
structure AdminStats where
  numIssuedCertificates : ℕ
  numRevokedCertificates : ℕ
  currentSerialNum : UInt64
  deriving DecidableEq, Repr

/-! ## Configuration of the CA -/

namespace CAConfig

/-- Where a certificate says that its revocation list is. -/
def crlDistributionPoint : String := "http://imovies.ch/crl/revoked.crl"

/-- The key file of the CA server on a machine. -/
def coreCACertPath (machineName : String) : String :=
  "/home/coreca/pki/private/iMovies_external_" ++ machineName ++
    "_Intermediate_CA_cert_and_priv_key.pfx"

/-- Where the encrypted keys are written. -/
def backupFolder : String := "/home/coreca/backup/"

/-- The validity of a certificate, in days. -/
def userCertValidityPeriod : ℕ := 150

/-- By decreasing preference; the first is the default. -/
def cipherSuites : List CipherSuite :=
  [⟨.ECDSA, "SHA512", 521⟩, ⟨.RSA, "SHA512", 4096⟩, ⟨.RSA, "SHA512", 2048⟩]

end CAConfig

/-- `IsValidCipherSuite`: one of the configuration. -/
def CipherSuite.isValidCipherSuite (c : CipherSuite) : Bool :=
  CAConfig.cipherSuites.any fun elem => elem == c

end IMoviesCA
