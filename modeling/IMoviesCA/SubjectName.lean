import IMoviesCA.Authentication
import IMoviesCA.Deployment
import IMoviesCA.Trace

/-!
# The subject of a user certificate

`IssueCertificate` puts `"CN=" + user.Id` together without quoting, and the web server reads a
common name back.  The two agree exactly on the plain identifiers (`looksUp_iff`): the reader drops
every separator, every blank at an end and every opening quote, so what comes back of any other
identifier is shorter.
-/

namespace IMoviesCA

open IssueController CertificateAuthenticationDBValidator

variable {P : Platform}

/-- Whatever is stored, `CertificateValidated` looks up the user id `uid` for the certificate. -/
def LooksUp (P : Platform) (cert : X509Certificate2) (uid : String) : Prop :=
  ∀ users admins scheme chainElements, 2 ≤ chainElements.length →
    certificateValidated P users admins scheme chainElements cert =
      .ok (lookUp users admins scheme uid)

theorem certificateValidated_eq {users : Table User} {admins : Table Admin} {scheme : String}
    {chainElements : List X509Certificate2} {cert : X509Certificate2}
    (h : 2 ≤ chainElements.length) :
    certificateValidated P users admins scheme chainElements cert =
      .ok (lookUp users admins scheme (getNameInfo P cert)) := by
  have hissuer : chainElements[1]? = some chainElements[1] := List.getElem?_eq_getElem h
  rw [certificateValidated, hissuer]
  rfl

theorem lookUp_eq_success (admins : Table Admin) (scheme : String) {users : Table User}
    {key : String} {user : User} (h : users.find? key = some user) :
    ∃ identity, lookUp users admins scheme key = .success identity ∧
      identity.findFirst .nameIdentifier = some user.id := by
  simp only [lookUp, h]
  by_cases hadmin : (admins.find? key).isSome = true
  · rw [if_pos hadmin]
    exact ⟨_, rfl, rfl⟩
  · rw [if_neg hadmin]
    exact ⟨_, rfl, rfl⟩

theorem lookUp_eq_noResult {users : Table User} {admins : Table Admin} {scheme key : String}
    (h : users.find? key = none) : lookUp users admins scheme key = .noResult := by
  simp only [lookUp, h]

/-- A success is that of the row with the key. -/
theorem find?_of_lookUp {users : Table User} {admins : Table Admin} {scheme key : String}
    {identity : ClaimsIdentity} (h : lookUp users admins scheme key = .success identity) :
    ∃ user, users.find? key = some user ∧
      identity.findFirst .nameIdentifier = some user.id := by
  cases hfind : users.find? key with
  | none =>
    rw [lookUp_eq_noResult hfind] at h
    cases h
  | some user =>
    obtain ⟨identity', hsuccess, hid⟩ := lookUp_eq_success admins scheme hfind
    rw [hsuccess] at h
    obtain rfl := CertificateAuthentication.success.inj h
    exact ⟨user, rfl, hid⟩

/-- A table with a user of the given id only. -/
def onlyUser (uid : String) : Table User := ⟨[⟨uid, "", "", "", ""⟩], List.nodup_singleton _⟩

/-- The validator looks up the name that it extracts. -/
theorem looksUp_iff_getNameInfo {cert : X509Certificate2} {uid : String} :
    LooksUp P cert uid ↔ getNameInfo P cert = uid := by
  constructor
  · intro h
    have heq := h (onlyUser uid) ∅ "" [cert, cert] (le_refl 2)
    rw [certificateValidated_eq (le_refl 2)] at heq
    have hown : (onlyUser uid).find? uid = some ⟨uid, "", "", "", ""⟩ :=
      Table.find?_eq_some_iff.2 ⟨List.mem_singleton.2 rfl, rfl⟩
    obtain ⟨identity, hsuccess, -⟩ := lookUp_eq_success ∅ "" hown
    rw [hsuccess] at heq
    obtain ⟨user, hfind, -⟩ := find?_of_lookUp (Except.ok.inj heq)
    obtain ⟨hmem, hkey⟩ := Table.find?_eq_some_iff.1 hfind
    rw [← hkey, List.mem_singleton.1 hmem]
    rfl
  · rintro rfl users admins scheme chainElements hlen
    exact certificateValidated_eq hlen

/-- The extracted name is one of the common names of the subject. -/
theorem getNameInfo_mem {cert : X509Certificate2} (h : commonNames cert.subjectName ≠ []) :
    getNameInfo P cert ∈ commonNames cert.subjectName := by
  obtain ⟨name, hmem, hname⟩ := P.simpleName_eq _ h
  rw [getNameInfo, hname]
  exact hmem

/-- The name comes back exactly when the identifier is plain. -/
theorem getNameInfo_eq_iff {user : User} {cert : X509Certificate2}
    (h : subjectOf P user = some cert.subjectName) :
    getNameInfo P cert = user.id ↔ X500.plain user.id = true := by
  have hmem := getNameInfo_mem (P := P) (X500.commonNames_ne_nil P.attributeType_CN h)
  constructor
  · intro heq
    by_contra hplain
    rw [Bool.not_eq_true] at hplain
    apply X500.not_mem_commonNames P.attributeType_CN hplain h
    rw [← heq]
    exact hmem
  · intro hplain
    have hparse := X500.parse_commonName_of_plain P.attributeType_CN hplain
    rw [subjectOf, hparse] at h
    rw [← Option.some.inj h] at hmem
    simpa [commonNames] using hmem

/-- A certificate of a user logs in as this user if and only if the user id is plain. -/
theorem looksUp_iff (P : Platform) {user : User} {privKey : AsymmetricAlgorithm}
    {cipherSuite : CipherSuite} {req : CertificateRequest}
    (hreq : certificateRequest P user privKey cipherSuite = some req)
    (coreCA : CertificateAuthority) (notBefore notAfter : Time) (serialNr : SerialNumber) :
    LooksUp P (req.create coreCA notBefore notAfter serialNr) user.id ↔
      X500.plain user.id = true := by
  rw [looksUp_iff_getNameInfo]
  exact getNameInfo_eq_iff (certificateRequest_spec hreq).1

section

open Deployment

/-- The key pair of a request with the default cipher suite. -/
def newKey : AsymmetricAlgorithm := ⟨.ECDSA, 521, 0⟩

/-- The certificate with serial number 0 that the CA makes of a request. -/
def userCertificate (req : CertificateRequest) : X509Certificate2 :=
  req.create coreCA 0 (addDays 0 CAConfig.userCertValidityPeriod) ⟨0⟩

theorem looksUp_andres : ∃ req, certificateRequest platform andres newKey
    certRequest.requestedCipherSuite = some req ∧ LooksUp platform (userCertificate req) "a3" := by
  have hsome : (certificateRequest platform andres newKey
      certRequest.requestedCipherSuite).isSome = true := by decide +kernel
  obtain ⟨req, hreq⟩ := Option.isSome_iff_exists.1 hsome
  exact ⟨req, hreq, (looksUp_iff platform hreq coreCA 0 _ ⟨0⟩).2 (by decide)⟩

/-- A user whose id ends in the name of another one. -/
def impostor : User := { andres with id := "x,CN=ps" }

/-- The certificate of this user logs in as the other one. -/
theorem looksUp_impostor : ∃ req, certificateRequest platform impostor newKey
    certRequest.requestedCipherSuite = some req ∧ LooksUp platform (userCertificate req) "ps" ∧
      ¬ LooksUp platform (userCertificate req) impostor.id := by
  have hname : (certificateRequest platform impostor newKey
      certRequest.requestedCipherSuite).map (fun req => getNameInfo platform (userCertificate req)) =
        some "ps" := by decide +kernel
  obtain ⟨req, hreq, hps⟩ := Option.map_eq_some_iff.1 hname
  refine ⟨req, hreq, looksUp_iff_getNameInfo.2 hps, fun hown => ?_⟩
  have hid := looksUp_iff_getNameInfo.1 hown
  rw [hps] at hid
  revert hid
  decide

end

end IMoviesCA
