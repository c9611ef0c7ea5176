import IMoviesCA.WebServer

/-!
# Logging in with a certificate

`CertificateAuthenticationDBValidator` of the web server, and what the framework has checked of a
client certificate before it calls `CertificateValidated`.
-/

namespace IMoviesCA

/-! ## Claims -/

/-- A claim type.  The framework compares types without regard to case, so one type stands for all its
spellings. -/
inductive ClaimType
  | nameIdentifier
  | givenName
  | surname
  | name
  | email
  | admin
  | other (uri : String)
  deriving DecidableEq, Repr

/-- `Claim`: a type and a value. -/
structure Claim where
  type : ClaimType
  value : String
  deriving DecidableEq, Repr

/-- `ClaimsIdentity`: the claims that one scheme found. -/
structure ClaimsIdentity where
  claims : List Claim
  authenticationType : String
  deriving DecidableEq, Repr

/-- `FindFirst` of a claim type. -/
def ClaimsIdentity.findFirst (i : ClaimsIdentity) (type : ClaimType) : Option String :=
  (i.claims.find? fun claim => claim.type = type).map Claim.value

/-- `ClaimsIdentity.AddClaim`. -/
def ClaimsIdentity.addClaim (i : ClaimsIdentity) (claim : Claim) : ClaimsIdentity :=
  { i with claims := i.claims ++ [claim] }

/-- `User.GetName`. -/
def User.getName (user : User) : String := user.firstName ++ " " ++ user.lastName

/-- `User.ToClaimsIdentity`. -/
def User.toClaimsIdentity (user : User) (authScheme : String) : ClaimsIdentity where
  claims := [
    ⟨.nameIdentifier, user.id⟩,
    ⟨.givenName, user.firstName⟩,
    ⟨.surname, user.lastName⟩,
    ⟨.name, user.getName⟩,
    ⟨.email, user.email⟩]
  authenticationType := authScheme

/-- A row of `admins`; rows of this table are never updated. -/
structure Admin where
  uid : String
  deriving DecidableEq, Repr

instance : Record Admin String Empty where
  key := Admin.uid
  patch := nofun
  key_patch := nofun

/-! ## `CertificateAuthenticationDBValidator` -/

/-- What `CertificateValidated` makes of the request. -/
inductive CertificateAuthentication
  | noResult
  | success (identity : ClaimsIdentity)
  deriving DecidableEq, Repr

namespace CertificateAuthenticationDBValidator

variable (P : Platform)

/-- `GetNameInfo(X509NameType.SimpleName, false)`. -/
def getNameInfo (cert : X509Certificate2) : String := (P.simpleName cert.subjectName).getD ""

/-- The lookup of a key, and the identity of the user that it finds. -/
def lookUp (users : Table User) (admins : Table Admin) (scheme key : String) :
    CertificateAuthentication :=
  match users.find? key with
  | none => .noResult
  | some user =>
      let userClaims := user.toClaimsIdentity scheme
      .success (if (admins.find? key).isSome then userClaims.addClaim ⟨.admin, "True"⟩
        else userClaims)

/-- `CertificateValidated`.  The certificate of the issuer is taken from the chain, which throws
when the chain has none, and is not looked at. -/
def certificateValidated (users : Table User) (admins : Table Admin) (scheme : String)
    (chainElements : List X509Certificate2) (cert : X509Certificate2) :
    Except Fault CertificateAuthentication := do
  let _caCert ← (chainElements[1]?).elim (.error .external) .ok
  let key := getNameInfo P cert
  return lookUp users admins scheme key

end CertificateAuthenticationDBValidator

/-! ## The checks of the framework -/

/-- The signature of a certificate is that of an issuer. -/
structure SignedBy (cert issuer : X509Certificate2) : Prop where
  issuerName : cert.issuerName = issuer.subjectName
  signedBy : cert.signedBy = issuer.publicKey

/-- A certificate of a CA. -/
def X509Certificate2.isCA (cert : X509Certificate2) : Prop :=
  ∃ hasPathLengthConstraint pathLength,
    .basicConstraints true hasPathLengthConstraint pathLength ∈ cert.extensions

/-- What the framework has checked when it calls `CertificateValidated`: the chain leads from the
certificate over certificates of the trust store to a root in it, the certificate is within its
validity period, has the client-authentication usage and is on no list of its issuer.  A
self-signed certificate is refused before (`CertificateTypes.Chained`). -/
structure FrameworkAccepts (trustStore : List X509Certificate2) (crls : List X509Crl) (now : Time)
    (chainElements : List X509Certificate2) (cert : X509Certificate2) : Prop where
  chained : ∃ issuer rest, chainElements = cert :: issuer :: rest
  signed : chainElements.IsChain SignedBy
  trusted : ∀ issuer ∈ chainElements.tail, issuer ∈ trustStore ∧ issuer.isCA
  root : ∃ root, chainElements.getLast? = some root ∧ SignedBy root root
  validityPeriod : cert.notBefore ≤ now ∧ now ≤ cert.notAfter
  clientAuth : ∃ oids, .enhancedKeyUsage oids ∈ cert.extensions ∧ oidClientAuth ∈ oids
  notRevoked : ∀ crl ∈ crls, crl.issuerDN = cert.issuerName →
    ∀ entry ∈ crl.entries, entry.userCertificate ≠ cert.serialNumber

end IMoviesCA
