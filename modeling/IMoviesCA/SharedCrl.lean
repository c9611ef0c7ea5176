import IMoviesCA.AppendOnly

/-!
# One table, several CA servers

Every CA server lists all revoked certificates of the shared table, whoever issued them, but signs
the list under the name of its own intermediate CA.  A list that is generated after a revocation
therefore marks the certificate as revoked if and only if the CA of its server has the name of the
CA that issued the certificate, and the serial number is below `2 ^ 63` (`marks_iff`).
-/

namespace IMoviesCA

open CADBModifier

variable {P : Platform} {s₀ : State} {c c' : Configuration}

/-- The list says that the certificate is revoked: it is a list of its issuer, and has its serial
number. -/
def Marks (crl : X509Crl) (cert : X509Certificate2) : Prop :=
  crl.issuerDN = cert.issuerName ∧ (cert.serialNumber : ℤ) ∈ crl.serialNumbers

/-- The intermediate CA of a machine. -/
def coreCAOf (P : Platform) (machineName : String) : CertificateAuthority :=
  P.pfx (CAConfig.coreCACertPath machineName)

/-- A request that the CA server of this machine carried out has inserted the row. -/
def IssuedOn (c : Configuration) (machineName : String) (p : PublicCertificate) : Prop :=
  ∃ i req r ws time row, c.request i = some req ∧ Calls req machineName (.issue r) ∧
    .certificatesCommitted i ws time ∈ c.shared.history ∧ insertedRow ws = some row ∧
    row.serialNr = p.serialNr

/-- The certificate names the CA of the machine that it was issued on. -/
theorem issuerName_of_issuedOn (h₀ : s₀.history = []) (hempty : s₀.publicCertificates = ∅)
    (h : (system P).Reaches (.initial s₀) c) {p : PublicCertificate}
    (hp : p ∈ c.shared.publicCertificates.rows) {m : String} (hissued : IssuedOn c m p) :
    p.certificate.issuerName = (coreCAOf P m).subjectName := by
  obtain ⟨i, req, r, ws, time, row, hreq, hcalls, hcommit, hrow, hserial⟩ := hissued
  -- The row that the request inserted is this one.
  have hmem : row ∈ (issued c.shared.history).reverse :=
    List.mem_reverse.2 (List.mem_filterMap.2 ⟨_, hcommit, hrow⟩)
  obtain ⟨q, hq, hlater⟩ := exists_of_forall₂_left (ledger_of_reaches h₀ hempty h).rows hmem
  obtain rfl : q = p := Table.eq_of_key_eq hq hp (hlater.serialNr.trans hserial)
  rw [hlater.certificate]
  have htrace := trace_of_reaches h₀ h hreq
  have hown : .certificatesCommitted i ws time ∈ c.shared.own i := State.mem_own.2 ⟨hcommit, rfl⟩
  obtain ⟨ws', time', B, heq, rfl⟩ := issuedBy_of_issued htrace hown State.own_subset hrow
  obtain rfl := hcalls.machineName_eq B.calls
  rfl

/-- The number of a revoked certificate is in every later list if and only if it is below
`2 ^ 63`. -/
theorem mem_serialNumbers_of_extends {t t' : Table PublicCertificate} (h : Extends t t')
    {p : PublicCertificate} (hp : p ∈ t.rows) (hrev : p.isRevoked = true) (hcert : CertifiedRow p)
    (m : String) (now : Time) :
    (p.certificate.serialNumber : ℤ) ∈ (generateCRL P m now t').serialNumbers ↔
      p.serialNr.toNat < 2 ^ 63 := by
  rw [hcert.serialNumber, mem_serialNumbers_generateCRL]
  constructor
  · rintro ⟨q, -, -, hq⟩
    have hlt := crlSerialNumber_lt q.getSerialNumber
    rw [hq, certificateSerialNumber_eq] at hlt
    exact_mod_cast hlt
  · intro hlt
    obtain ⟨q, hq, hlater⟩ := h p hp
    refine ⟨q, hq, hlater.isRevoked hrev, ?_⟩
    have hsame : q.getSerialNumber = p.getSerialNumber := by
      rw [PublicCertificate.getSerialNumber, PublicCertificate.getSerialNumber, hlater.serialNr]
    rw [hsame]
    exact (crlSerialNumber_eq_iff p.getSerialNumber).2 hlt

/-- A list that is generated after a certificate was revoked marks it if and only if the CA of the
server has the name of the CA that issued the certificate, and its serial number is below
`2 ^ 63`. -/
theorem marks_iff (P : Platform) {s₀ : State} (h₀ : s₀.history = [])
    (hempty : s₀.publicCertificates = ∅) {c c' : Configuration}
    (h : (system P).Reaches (.initial s₀) c) (h' : (system P).Reaches c c')
    {p : PublicCertificate} (hp : p ∈ c.shared.publicCertificates.rows) (hrev : p.isRevoked = true)
    {m : String} (hissued : IssuedOn c m p) {j : ℕ} {m' : String} {crl : X509Crl}
    (hcrl : AnswersCrl c' j m' crl) (hlater : ¬ HasReadCertificates c j) :
    Marks crl p.certificate ↔
      (coreCAOf P m').subjectName = (coreCAOf P m).subjectName ∧ p.serialNr.toNat < 2 ^ 63 := by
  obtain ⟨now, t, rfl, hextends⟩ := extends_of_later_crl h₀ h h' hcrl hlater
  have hcert := certifiedRow_of_reaches h₀ hempty h hp
  rw [Marks, mem_serialNumbers_of_extends hextends hp hrev hcert,
    issuerName_of_issuedOn h₀ hempty h hp hissued]
  rfl

section

open Deployment

/-- The intermediate CA of the second machine. -/
def secondCA : CertificateAuthority where
  subjectName := [⟨.other "2.5.4.6", "CH"⟩, ⟨.other "2.5.4.8", "Zurich"⟩,
    ⟨.other "2.5.4.10", "iMovies"⟩, ⟨.commonName, "iMovies external aslcert02 intermediate CA"⟩]
  key := ⟨.RSA, 4096, 1000001⟩

/-- The platform of two machines, each with its key file. -/
def twoMachines : Platform :=
  { platform with
    pfx := fun path => if path = CAConfig.coreCACertPath "aslcert02" then secondCA else coreCA }

/-- Process `i` inserted the row. -/
def inserts (i : ℕ) (p : PublicCertificate) : Event → Bool
  | .certificatesCommitted j ws _ =>
      i = j && (insertedRow ws).any fun row => row.serialNr = p.serialNr
  | _ => false

theorem issuedOn_of_inserts {i : ℕ} {m : String} {r : CertRequest} {p : PublicCertificate}
    (hreq : c.request i = some (.api m (.issue r)))
    (hinserts : c.shared.history.any (inserts i p) = true) : IssuedOn c m p := by
  obtain ⟨e, he, hcheck⟩ := List.any_eq_true.1 hinserts
  cases e with
  | certificatesCommitted j ws time =>
    simp only [inserts, Bool.and_eq_true, decide_eq_true_eq, Option.any_eq_true] at hcheck
    obtain ⟨rfl, row, hrow, hserial⟩ := hcheck
    exact ⟨i, _, r, ws, time, row, hreq, .api, he, hrow, hserial⟩
  | _ => cases hcheck

/-- The certificate was issued by process 0 on the first machine and is revoked, and process 3 has
not begun. -/
def revokedOnFirst (c : Configuration) (p : PublicCertificate) : Bool :=
  p.isRevoked && decide (p.serialNr.toNat < 2 ^ 63) && (c.procs 3).isNone &&
    decide (c.request 0 = some (.api "aslcert01" (.issue certRequest))) &&
    c.shared.history.any (inserts 0 p)

/-- After the revocation, process 3 generates a list on this machine. -/
def listsRevoked (machineName : String) (test : X509Crl → PublicCertificate → Bool) : Bool :=
  ((system twoMachines).run (issueThenList ++ revokeIt) (.initial (installed users))).any fun c =>
    ((system twoMachines).run (listOn machineName) c).any fun c' =>
      (crlOf c' 3 machineName).any fun crl =>
        c.shared.publicCertificates.rows.any fun p => revokedOnFirst c p && test crl p

/-- What the check says. -/
structure ListsRevoked (c c' : Configuration) (p : PublicCertificate) (machineName : String)
    (crl : X509Crl) : Prop where
  reaches : (system twoMachines).Reaches (.initial (installed users)) c
  later : (system twoMachines).Reaches c c'
  mem : p ∈ c.shared.publicCertificates.rows
  isRevoked : p.isRevoked = true
  serialNr : p.serialNr.toNat < 2 ^ 63
  issuedOn : IssuedOn c "aslcert01" p
  answers : AnswersCrl c' 3 machineName crl
  idle : ¬ HasReadCertificates c 3

theorem exists_listsRevoked (m : String) (test : X509Crl → PublicCertificate → Bool)
    (h : listsRevoked m test = true) :
    ∃ c c' p crl, ListsRevoked c c' p m crl ∧ test crl p = true := by
  obtain ⟨c, hc, h⟩ := (Option.any_eq_true _ _).1 h
  obtain ⟨c', hc', h⟩ := (Option.any_eq_true _ _).1 h
  obtain ⟨crl, hcrl, h⟩ := (Option.any_eq_true _ _).1 h
  obtain ⟨p, hp, h⟩ := List.any_eq_true.1 h
  simp only [revokedOnFirst, Bool.and_eq_true, decide_eq_true_eq, Option.isNone_iff_eq_none] at h
  obtain ⟨⟨⟨⟨⟨hrev, hserial⟩, hidle⟩, hreq⟩, hinserts⟩, htest⟩ := h
  have hreach := System.reaches_of_run hc
  exact ⟨c, c', p, crl, ⟨hreach, System.reaches_of_run hc', hp, hrev, hserial,
    issuedOn_of_inserts hreq hinserts, answersCrl_of_crlOf hcrl,
    not_hasRead_of_idle rfl hreach hidle⟩, htest⟩

theorem marks_same_machine : ∃ c c' p crl, ListsRevoked c c' p "aslcert01" crl ∧
    Marks crl p.certificate := by
  obtain ⟨c, c', p, crl, h, -⟩ := exists_listsRevoked "aslcert01" (fun _ _ => true)
    (by decide +kernel)
  exact ⟨c, c', p, crl, h, (marks_iff twoMachines rfl rfl h.reaches h.later h.mem h.isRevoked
    h.issuedOn h.answers h.idle).2 ⟨rfl, h.serialNr⟩⟩

/-- The list of the second machine does not mark the certificate of the first one. -/
theorem not_marked_second_machine : ¬ ∀ (P : Platform) (s₀ : State) (c c' : Configuration)
    (p : PublicCertificate) (m : String) (j : ℕ) (m' : String) (crl : X509Crl),
    s₀.history = [] → s₀.publicCertificates = ∅ → (system P).Reaches (.initial s₀) c →
    (system P).Reaches c c' → p ∈ c.shared.publicCertificates.rows → p.isRevoked = true →
    IssuedOn c m p → AnswersCrl c' j m' crl → ¬ HasReadCertificates c j →
      Marks crl p.certificate := by
  intro hclaim
  obtain ⟨c, c', p, crl, h, htest⟩ := exists_listsRevoked "aslcert02"
    (fun crl p => decide (crl.issuerDN ≠ p.certificate.issuerName)) (by decide +kernel)
  have hmarks := hclaim twoMachines _ c c' p _ 3 _ crl rfl rfl h.reaches h.later h.mem h.isRevoked
    h.issuedOn h.answers h.idle
  exact of_decide_eq_true htest hmarks.1

end

end IMoviesCA
