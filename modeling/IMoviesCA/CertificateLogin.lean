import IMoviesCA.SubjectName
import IMoviesCA.StoredKey

/-!
# Who logs in with a certificate

`CertificateValidated` takes the certificate of the issuer out of the chain and never looks at it:
any chain to the root will do.  So a login is that of a certificate of `IssueCertificate`, and of
its user, exactly when the issuer in the chain is the external intermediate and the user id of the
certificate is plain, or when nobody has the name and nothing happens (`certificateLogin_iff`).

The TLS certificates of the internal intermediate carry the client-authentication usage too, and
their common name is a host name (`certificateLogin_tls`).
-/

namespace IMoviesCA

open IssueController CertificateAuthenticationDBValidator

variable {P : Platform}

/-- A certificate of the external intermediate of a machine, with whose key `IssueCertificate`
signs. -/
def IsCoreCA (P : Platform) (issuer : X509Certificate2) : Prop :=
  ∃ machineName, issuer.subjectName = (P.pfx (CAConfig.coreCACertPath machineName)).subjectName ∧
    issuer.publicKey = (P.pfx (CAConfig.coreCACertPath machineName)).key.publicKey

/-- The certificate carries the signature of an external intermediate, and the table of the CA has
it for the user. -/
structure IssuedByCoreCA (P : Platform) (t : Table PublicCertificate) (cert : X509Certificate2)
    (uid : String) : Prop where
  signed : ∃ machineName,
    cert.issuerName = (P.pfx (CAConfig.coreCACertPath machineName)).subjectName ∧
      cert.signedBy = (P.pfx (CAConfig.coreCACertPath machineName)).key.publicKey
  issuedTo : ∃ p ∈ t.rows, p.certificate = cert ∧ p.uid = uid

/-- The issuer in an accepted chain is the external intermediate if and only if the certificate
carries its signature. -/
theorem FrameworkAccepts.isCoreCA_iff {trustStore : List X509Certificate2} {crls : List X509Crl}
    {now : Time} {chainElements : List X509Certificate2} {cert : X509Certificate2}
    (h : FrameworkAccepts trustStore crls now chainElements cert) :
    (∃ issuer, chainElements[1]? = some issuer ∧ IsCoreCA P issuer) ↔
      ∃ machineName,
        cert.issuerName = (P.pfx (CAConfig.coreCACertPath machineName)).subjectName ∧
          cert.signedBy = (P.pfx (CAConfig.coreCACertPath machineName)).key.publicKey := by
  obtain ⟨issuer, rest, hchain⟩ := h.chained
  have hsigned := h.signed
  rw [hchain] at hsigned ⊢
  have hissuer : SignedBy cert issuer := (List.isChain_cons_cons.1 hsigned).1
  constructor
  · rintro ⟨issuer', hget, m, hname, hkey⟩
    obtain rfl : issuer = issuer' := Option.some.inj hget
    exact ⟨m, hissuer.issuerName.trans hname, hissuer.signedBy.trans hkey⟩
  · rintro ⟨m, hname, hkey⟩
    exact ⟨issuer, rfl, m, hissuer.issuerName.symm.trans hname, hissuer.signedBy.symm.trans hkey⟩

theorem FrameworkAccepts.two_le {trustStore : List X509Certificate2} {crls : List X509Crl}
    {now : Time} {chainElements : List X509Certificate2} {cert : X509Certificate2}
    (h : FrameworkAccepts trustStore crls now chainElements cert) : 2 ≤ chainElements.length := by
  obtain ⟨issuer, rest, hchain⟩ := h.chained
  rw [hchain]
  simp

section

variable {s₀ : State} {c : Configuration}

/-- The name comes back from a certificate of the table exactly when the user id is plain. -/
theorem getNameInfo_of_row (h₀ : s₀.history = []) (hempty : s₀.publicCertificates = ∅)
    (h : (system P).Reaches (.initial s₀) c) {p : PublicCertificate}
    (hp : p ∈ c.shared.publicCertificates.rows) :
    getNameInfo P p.certificate = p.uid ↔ X500.plain p.uid = true := by
  obtain ⟨m, r, I, hlater⟩ := issuance_of_row h₀ hempty h hp
  have huid : p.uid = I.user.id := hlater.uid
  have hcert : p.certificate = I.certificate := hlater.certificate
  rw [huid, hcert]
  exact getNameInfo_eq_iff I.certificate_spec.1

/-- A login with a certificate that the framework has accepted is that of the user for whom the CA
issued it if and only if nobody is logged in, or the issuer in the chain is the external
intermediate and the table has the certificate under a plain user id. -/
theorem certificateLogin_iff (P : Platform) (h₀ : s₀.history = [])
    (hempty : s₀.publicCertificates = ∅) (h : (system P).Reaches (.initial s₀) c)
    {trustStore : List X509Certificate2} {crls : List X509Crl} {now : Time}
    {chainElements : List X509Certificate2} {cert : X509Certificate2}
    (haccepts : FrameworkAccepts trustStore crls now chainElements cert)
    (users : Table User) (admins : Table Admin) (scheme : String) :
    (∀ identity uid,
      certificateValidated P users admins scheme chainElements cert = .ok (.success identity) →
        identity.findFirst .nameIdentifier = some uid →
          IssuedByCoreCA P c.shared.publicCertificates cert uid) ↔
      users.find? (getNameInfo P cert) = none ∨
        (∃ issuer, chainElements[1]? = some issuer ∧ IsCoreCA P issuer) ∧
          ∃ p ∈ c.shared.publicCertificates.rows, p.certificate = cert ∧
            X500.plain p.uid = true := by
  rw [certificateValidated_eq haccepts.two_le, haccepts.isCoreCA_iff]
  constructor
  · intro hlogin
    cases hfind : users.find? (getNameInfo P cert) with
    | none => exact Or.inl rfl
    | some user =>
      right
      have hkey : user.id = getNameInfo P cert := (Table.find?_eq_some_iff.1 hfind).2
      obtain ⟨identity, hsuccess, hid⟩ := lookUp_eq_success admins scheme hfind
      obtain ⟨hsigned, p, hp, hcert, huid⟩ := hlogin identity user.id (by rw [hsuccess]) hid
      refine ⟨hsigned, p, hp, hcert, ?_⟩
      apply (getNameInfo_of_row h₀ hempty h hp).1
      rw [hcert, huid, hkey]
  · rintro hcond identity uid hok hid
    obtain ⟨user, hfind, hid'⟩ := find?_of_lookUp (Except.ok.inj hok)
    have hkey : user.id = getNameInfo P cert := (Table.find?_eq_some_iff.1 hfind).2
    rw [hid] at hid'
    obtain rfl : uid = user.id := Option.some.inj hid'
    rcases hcond with hnone | ⟨hsigned, p, hp, hcert, hplain⟩
    · rw [hnone] at hfind
      cases hfind
    · refine ⟨hsigned, p, hp, hcert, ?_⟩
      rw [hkey, ← hcert]
      exact ((getNameInfo_of_row h₀ hempty h hp).2 hplain).symm

end

section

open Deployment

/-- The name of a CA or of a host under the country, state and organisation of the deployment. -/
def iMoviesName (commonName : String) : DistinguishedName :=
  [⟨.other "2.5.4.6", "CH"⟩, ⟨.other "2.5.4.8", "Zurich"⟩, ⟨.other "2.5.4.10", "iMovies"⟩,
    ⟨.commonName, commonName⟩]

/-- The root CA. -/
def rootCA : CertificateAuthority := ⟨iMoviesName "iMovies Root CA", ⟨.RSA, 4096, 1000001⟩⟩

/-- The CA of the TLS certificates on `aslcert01`. -/
def internalCA : CertificateAuthority :=
  ⟨iMoviesName "iMovies internal aslcert01 intermediate CA", ⟨.RSA, 4096, 1000002⟩⟩

/-- A certificate that the root CA signed for a CA. -/
def caCertificate (ca : CertificateAuthority) (serialNumber : ℕ) : X509Certificate2 where
  subjectName := ca.subjectName
  issuerName := rootCA.subjectName
  serialNumber := serialNumber
  notBefore := 0
  notAfter := addDays 0 730
  publicKey := ca.key.publicKey
  hashAlgorithm := "SHA512"
  extensions := [.basicConstraints true true 0, .subjectKeyIdentifier ca.key.publicKey]
  signedBy := rootCA.key.publicKey

/-- The CA certificates on the web server: the root and both intermediates. -/
def trustStore : List X509Certificate2 :=
  [caCertificate rootCA 0, caCertificate internalCA 1, caCertificate coreCA 2]

/-- The TLS certificate of a host, with the section `server_cert`. -/
def tlsCertificate (hostname : String) : X509Certificate2 where
  subjectName := iMoviesName hostname
  issuerName := internalCA.subjectName
  serialNumber := 0
  notBefore := 0
  notAfter := addDays 0 730
  publicKey := ⟨.RSA, 4096, 1000003⟩
  hashAlgorithm := "SHA512"
  extensions := [.basicConstraints false false 0, .subjectKeyIdentifier ⟨.RSA, 4096, 1000003⟩,
    .keyUsage [.digitalSignature, .keyEncipherment],
    .enhancedKeyUsage ["1.3.6.1.5.5.7.3.1", oidClientAuth]]
  signedBy := internalCA.key.publicKey

theorem frameworkAccepts_intermediate (ca : CertificateAuthority) (serialNumber : ℕ)
    (hca : caCertificate ca serialNumber ∈ trustStore) {cert : X509Certificate2}
    (hsigned : SignedBy cert (caCertificate ca serialNumber)) {now : Time}
    (htime : cert.notBefore ≤ now ∧ now ≤ cert.notAfter) (oids : List String)
    (hoids : .enhancedKeyUsage oids ∈ cert.extensions) (hclient : oidClientAuth ∈ oids) :
    FrameworkAccepts trustStore [] now
      [cert, caCertificate ca serialNumber, caCertificate rootCA 0] cert where
  chained := ⟨_, _, rfl⟩
  signed := .cons_cons hsigned (.cons_cons ⟨rfl, rfl⟩ (.singleton _))
  trusted := by
    intro issuer hmem
    have hisCA : ∀ ca n, (caCertificate ca n).isCA := fun _ _ => ⟨true, 0, List.mem_cons_self⟩
    rcases List.mem_cons.1 hmem with rfl | hmem
    · exact ⟨hca, hisCA _ _⟩
    · obtain rfl := List.mem_singleton.1 hmem
      exact ⟨List.mem_cons_self, hisCA _ _⟩
  root := ⟨caCertificate rootCA 0, rfl, rfl, rfl⟩
  validityPeriod := htime
  clientAuth := ⟨oids, hoids, hclient⟩
  notRevoked := by simp

/-- The certificate that `andres` gets. -/
def andresCertificate : X509Certificate2 where
  subjectName := [⟨.commonName, "a3"⟩]
  issuerName := coreCA.subjectName
  serialNumber := 0
  notBefore := 0
  notAfter := addDays 0 CAConfig.userCertValidityPeriod
  publicKey := newKey.publicKey
  hashAlgorithm := "SHA512"
  extensions := [.subjectAlternativeName "anderson@imovies.ch", .basicConstraints false false 0,
    .subjectKeyIdentifier newKey.publicKey,
    .keyUsage [.keyEncipherment, .digitalSignature, .nonRepudiation],
    .enhancedKeyUsage [oidClientAuth, oidEmailProtection],
    .crlDistributionPoints CAConfig.crlDistributionPoint]
  signedBy := coreCA.key.publicKey

theorem certificateLogin_andres : ∃ (c : Configuration) (chainElements : List X509Certificate2)
    (identity : ClaimsIdentity), (system platform).Reaches (.initial (installed users)) c ∧
      FrameworkAccepts trustStore [] 0 chainElements andresCertificate ∧
      certificateValidated platform users ∅ "Certificate" chainElements andresCertificate =
        .ok (.success identity) ∧
      IssuedByCoreCA platform c.shared.publicCertificates andresCertificate "a3" := by
  have hrun : ((system platform).run (.arrive 0 issueRequest :: steps 0 18)
      (.initial (installed users))).map (fun c => c.shared.publicCertificates.rows.any fun p =>
        decide (p.certificate = andresCertificate ∧ X500.plain p.uid = true)) = some true := by
    decide +kernel
  obtain ⟨c, hc, hany⟩ := Option.map_eq_some_iff.1 hrun
  obtain ⟨p, hp, hdec⟩ := List.any_eq_true.1 hany
  obtain ⟨hcert, hplain⟩ := of_decide_eq_true hdec
  have hreach := System.reaches_of_run hc
  have haccepts : FrameworkAccepts trustStore [] 0 _ andresCertificate :=
    frameworkAccepts_intermediate coreCA 2 (by decide) ⟨rfl, rfl⟩ (by decide)
      [oidClientAuth, oidEmailProtection] (by decide) (by decide)
  have hissuer : ∃ issuer, [andresCertificate, caCertificate coreCA 2, caCertificate rootCA 0][1]? =
      some issuer ∧ IsCoreCA platform issuer := ⟨_, rfl, "aslcert01", rfl, rfl⟩
  have hlogin := (certificateLogin_iff platform rfl rfl hreach haccepts users ∅ "Certificate").2
    (Or.inr ⟨hissuer, p, hp, hcert, hplain⟩)
  exact ⟨c, _, andres.toClaimsIdentity "Certificate", hreach, haccepts, rfl, hlogin _ "a3" rfl rfl⟩

/-- A user whose id is the host name of the CA server. -/
def hostUsers : Table User := ⟨[{ andres with id := "aslcert01" }], List.nodup_singleton _⟩

/-- The TLS certificate of the CA server logs in as the user of that name. -/
theorem certificateLogin_tls : ¬ ∀ (c : Configuration) (crls : List X509Crl) (now : Time)
    (chainElements : List X509Certificate2) (cert : X509Certificate2) (admins : Table Admin)
    (scheme : String) (identity : ClaimsIdentity) (uid : String),
      (system platform).Reaches (.initial (installed hostUsers)) c →
        FrameworkAccepts trustStore crls now chainElements cert →
          certificateValidated platform c.shared.users admins scheme chainElements cert =
            .ok (.success identity) → identity.findFirst .nameIdentifier = some uid →
              IssuedByCoreCA platform c.shared.publicCertificates cert uid := by
  intro hclaim
  have haccepts : FrameworkAccepts trustStore [] 0 _ (tlsCertificate "aslcert01") :=
    frameworkAccepts_intermediate internalCA 1 (by decide) ⟨rfl, rfl⟩ (by decide)
      ["1.3.6.1.5.5.7.3.1", oidClientAuth] (by decide) (by decide)
  have hissued := hclaim _ [] 0 _ _ ∅ "Certificate" _ "aslcert01" .refl haccepts rfl rfl
  obtain ⟨machineName, hname, -⟩ := hissued.signed
  have hne : internalCA.subjectName ≠ coreCA.subjectName := by decide
  exact hne hname

end

end IMoviesCA
