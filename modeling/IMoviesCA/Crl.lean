import IMoviesCA.SerialNumbers

/-!
# The revocation list

`IssueCertificate` and `GenerateCRL` start from the same eight bytes of a serial number.  The first
reads them as an unsigned integer, the second in two's complement, and so a list names the revoked
certificates exactly while their numbers stay below `2 ^ 63` (`crl_names_revoked_iff`).
-/

namespace IMoviesCA

open CADBModifier IssueController

theorem length_serialNrBytes (s : SerialNumber) : s.serialNrBytes.length = 8 := by
  rw [SerialNumber.serialNrBytes, List.length_reverse, bitConverterGetBytes,
    Bytes.length_littleEndian]

/-- The serial number in a certificate is the number of the row. -/
theorem certificateSerialNumber_eq (s : SerialNumber) :
    certificateSerialNumber s = s.serialNr.toNat := by
  rw [certificateSerialNumber, SerialNumber.serialNrBytes, bitConverterGetBytes,
    Bytes.unsigned_reverse_littleEndian]
  exact Nat.mod_eq_of_lt s.serialNr.toNat_lt

/-- Both readings of the bytes agree exactly below `2 ^ 63`. -/
theorem crlSerialNumber_eq_iff (s : SerialNumber) :
    crlSerialNumber s = certificateSerialNumber s ↔ s.serialNr.toNat < 2 ^ 63 := by
  have hval : Bytes.unsigned s.serialNrBytes = s.serialNr.toNat := certificateSerialNumber_eq s
  rw [crlSerialNumber, certificateSerialNumber, Bytes.signed_eq_unsigned_iff, hval,
    length_serialNrBytes]
  omega

/-- From there on the number in the list is negative. -/
theorem crlSerialNumber_neg {s : SerialNumber} (h : ¬ s.serialNr.toNat < 2 ^ 63) :
    crlSerialNumber s < 0 := by
  have hval : Bytes.unsigned s.serialNrBytes = s.serialNr.toNat := certificateSerialNumber_eq s
  have hlt : s.serialNr.toNat < 2 ^ 64 := s.serialNr.toNat_lt
  apply Bytes.signed_neg
  · rw [hval, length_serialNrBytes]
    omega
  · rw [hval, length_serialNrBytes]
    omega

theorem crlSerialNumber_lt (s : SerialNumber) : crlSerialNumber s < 2 ^ 63 := by
  by_cases h : s.serialNr.toNat < 2 ^ 63
  · rw [(crlSerialNumber_eq_iff s).2 h, certificateSerialNumber_eq]
    exact_mod_cast h
  · have hneg := crlSerialNumber_neg h
    omega

/-- The certificate in the row is one that `IssueCertificate` creates for its serial number. -/
def CertifiedRow (p : PublicCertificate) : Prop :=
  ∃ (req : CertificateRequest) (coreCA : CertificateAuthority) (notBefore notAfter : Time),
    p.certificate = req.create coreCA notBefore notAfter p.getSerialNumber

theorem CertifiedRow.serialNumber {p : PublicCertificate} (h : CertifiedRow p) :
    p.certificate.serialNumber = certificateSerialNumber p.getSerialNumber := by
  obtain ⟨req, coreCA, notBefore, notAfter, hcert⟩ := h
  rw [hcert]
  rfl

/-- Every row that was issued is such a row. -/
theorem certifiedRow_of_reaches {P : Platform} {s₀ : State} (h₀ : s₀.history = [])
    (hempty : s₀.publicCertificates = ∅) {c : Configuration}
    (h : (system P).Reaches (.initial s₀) c) {p : PublicCertificate}
    (hp : p ∈ c.shared.publicCertificates.rows) : CertifiedRow p := by
  obtain ⟨m, r, I, hlater⟩ := issuance_of_row h₀ hempty h hp
  refine ⟨I.request, I.coreCA, I.notBefore, addDays I.now CAConfig.userCertValidityPeriod, ?_⟩
  rw [hlater.certificate, PublicCertificate.getSerialNumber, hlater.serialNr]
  rfl

/-- The serial numbers in a list. -/
def X509Crl.serialNumbers (crl : X509Crl) : Set ℤ := {n | ∃ e ∈ crl.entries, e.userCertificate = n}

/-- The serial numbers of the revoked certificates. -/
def revokedSerialNumbers (t : Table PublicCertificate) : Set ℤ :=
  {n | ∃ p ∈ t.rows, p.isRevoked = true ∧ (p.certificate.serialNumber : ℤ) = n}

/-- The list writes the serial number of every revoked certificate, and no other number. -/
def NamesRevoked (P : Platform) (machineName : String) (now : Time) (t : Table PublicCertificate) :
    Prop :=
  (∀ p ∈ t.rows, p.isRevoked = true →
    crlSerialNumber p.getSerialNumber = p.certificate.serialNumber) ∧
  (generateCRL P machineName now t).serialNumbers = revokedSerialNumbers t

theorem mem_serialNumbers_generateCRL {P : Platform} {machineName : String} {now : Time}
    {t : Table PublicCertificate} {n : ℤ} :
    n ∈ (generateCRL P machineName now t).serialNumbers ↔
      ∃ p ∈ t.rows, p.isRevoked = true ∧ crlSerialNumber p.getSerialNumber = n := by
  constructor
  · rintro ⟨e, he, rfl⟩
    obtain ⟨p, hp, rfl⟩ := List.mem_map.1 he
    obtain ⟨hmem, hrev⟩ := List.mem_filter.1 hp
    exact ⟨p, hmem, hrev, rfl⟩
  · rintro ⟨p, hp, hrev, rfl⟩
    exact ⟨_, List.mem_map.2 ⟨p, List.mem_filter.2 ⟨hp, hrev⟩, rfl⟩, rfl⟩

/-- The list names exactly the revoked certificates if and only if their numbers are below
`2 ^ 63`. -/
theorem crl_names_revoked_iff (P : Platform) (machineName : String) (now : Time)
    (t : Table PublicCertificate) (ht : ∀ p ∈ t.rows, CertifiedRow p) :
    NamesRevoked P machineName now t ↔
      ∀ p ∈ t.rows, p.isRevoked = true → p.serialNr.toNat < 2 ^ 63 := by
  constructor
  · rintro ⟨hnames, -⟩ p hp hrev
    have heq := hnames p hp hrev
    rw [(ht p hp).serialNumber] at heq
    exact (crlSerialNumber_eq_iff p.getSerialNumber).1 heq
  · intro hlt
    have hnames : ∀ p ∈ t.rows, p.isRevoked = true →
        crlSerialNumber p.getSerialNumber = p.certificate.serialNumber := by
      intro p hp hrev
      rw [(ht p hp).serialNumber]
      exact (crlSerialNumber_eq_iff p.getSerialNumber).2 (hlt p hp hrev)
    refine ⟨hnames, Set.ext fun n => ?_⟩
    rw [mem_serialNumbers_generateCRL]
    constructor
    · rintro ⟨p, hp, hrev, rfl⟩
      exact ⟨p, hp, hrev, (hnames p hp hrev).symm⟩
    · rintro ⟨p, hp, hrev, rfl⟩
      exact ⟨p, hp, hrev, hnames p hp hrev⟩

section

open Deployment

/-- A revoked certificate with a given number. -/
def revokedRow (serialNr : UInt64) : PublicCertificate where
  serialNr := serialNr
  uid := "a3"
  certificate := CertificateRequest.create ⟨[⟨.commonName, "a3"⟩], ⟨.ECDSA, 521, 0⟩, "SHA512", []⟩
    coreCA 0 (addDays 0 CAConfig.userCertValidityPeriod) ⟨serialNr⟩
  isRevoked := true

/-- A table with one certificate, which is revoked. -/
def revokedTable (serialNr : UInt64) : Table PublicCertificate :=
  ⟨[revokedRow serialNr], List.nodup_singleton _⟩

theorem certifiedRow_revokedTable (serialNr : UInt64) :
    ∀ p ∈ (revokedTable serialNr).rows, CertifiedRow p := by
  intro p hp
  obtain rfl := List.mem_singleton.1 hp
  exact ⟨_, _, _, _, rfl⟩

theorem crl_names_revoked_7 : NamesRevoked platform "aslcert01" 0 (revokedTable 7) := by
  apply (crl_names_revoked_iff platform "aslcert01" 0 _ (certifiedRow_revokedTable 7)).2
  intro p hp _
  obtain rfl := List.mem_singleton.1 hp
  decide

/-- The certificate with the number `2 ^ 63` is revoked, and the list names `-2 ^ 63`. -/
theorem crl_misses_top_bit :
    ¬ NamesRevoked platform "aslcert01" 0 (revokedTable 0x8000000000000000) := by
  rintro ⟨hnames, -⟩
  have := hnames (revokedRow 0x8000000000000000) (List.mem_singleton.2 rfl) rfl
  revert this
  decide

end

end IMoviesCA
