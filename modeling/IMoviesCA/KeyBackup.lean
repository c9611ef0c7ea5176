import IMoviesCA.Lib.Der
import IMoviesCA.Encoding
import IMoviesCA.Deployment
import IMoviesCA.Alone

/-!
# The backup of a private key

`BackupPrivateKey` encrypts the PEM text of a key at once, with RSA-OAEP-SHA1 under the key of 4096
bits that the deployment generates, and so the text may have 470 bytes.  That of a key on P-521 has
365; that of an RSA key of 2048 bits already has more than 700.  Of the cipher suites that
`IssueCertificate` accepts, only the first one therefore has keys that can be backed up
(`canBackUp_iff`).
-/

namespace IMoviesCA

open IssueController

/-! ## The standards -/

/-- The bytes that RSA-OAEP encrypts at once: the key has 4096 bits, and the digests 20 bytes. -/
def maxOaepSHA1 : ℕ := 4096 / 8 - 2 * 20 - 2

/-- The exported keys have the formats of their standards, and the encryption takes what fits. -/
structure FollowsStandards (P : Platform) : Prop where
  rsa : ∀ key, key.alg = .RSA → ∃ k : Der.RsaPrivateKey, 2 ^ (key.keySize - 1) ≤ k.modulus ∧
    P.exportPrivateKey key = k.der
  p521 : ∀ key, key.alg = .ECDSA → key.keySize = 521 → ∃ k : Der.EcPrivateKey 66,
    k.curve = Der.p521 ∧ P.exportPrivateKey key = k.der
  oaepSHA1 : ∀ bytes, (P.encryptOaepSHA1 bytes).isSome = true ↔ bytes.length ≤ maxOaepSHA1

/-! ## The keys of a request -/

/-- The checks of the passphrase and of the cipher suite in `IssueCertificate`. -/
structure PassesChecks (r : CertRequest) : Prop where
  passphrase : ¬ netLength r.certPassphrase < Constants.minPassphraseLength
  cipherSuite : r.requestedCipherSuite.isValidCipherSuite = true

/-- `IssueCertificate` may generate the key for the suite. -/
def GeneratedFor (cipherSuite : CipherSuite) (key : AsymmetricAlgorithm) : Prop :=
  ∃ (i : ℕ) (sched : ℕ → ℕ × Choice) (s : State),
    (machine.alone i (createKey cipherSuite).run sched s).1 = .ok key

theorem key_of_generateKey {alg : EncryptionAlgorithms} {keySize i : ℕ} {sched : ℕ → ℕ × Choice}
    {s : State} {key : AsymmetricAlgorithm}
    (h : (machine.alone i (generateKey alg keySize).run sched s).1 = .ok key) :
    key.alg = alg ∧ key.keySize = keySize := by
  have hexec : (exec i (.generateKey alg keySize) (sched 0).2 (tick (sched 0).1 s)).1 = .ok key := h
  cases hch : (sched 0).2 with
  | ok =>
    rw [hch] at hexec
    obtain rfl := Except.ok.inj hexec
    exact ⟨rfl, rfl⟩
  | throws written =>
    rw [hch] at hexec
    cases hexec

theorem key_of_generatedFor {cipherSuite : CipherSuite} {key : AsymmetricAlgorithm}
    (h : GeneratedFor cipherSuite key) : key.alg = cipherSuite.alg ∧
      key.keySize = match cipherSuite.alg with
        | .RSA => cipherSuite.keySize
        | .ECDSA => 521 := by
  obtain ⟨i, sched, s, hkey⟩ := h
  unfold createKey at hkey
  cases halg : cipherSuite.alg with
  | RSA =>
    rw [halg] at hkey
    exact key_of_generateKey hkey
  | ECDSA =>
    rw [halg] at hkey
    exact key_of_generateKey hkey

theorem keySize_of_valid {cipherSuite : CipherSuite}
    (h : cipherSuite.isValidCipherSuite = true) : 2048 ≤ cipherSuite.keySize ∨
      cipherSuite.alg = .ECDSA := by
  have hsuite : ∀ c ∈ CAConfig.cipherSuites, 2048 ≤ c.keySize ∨ c.alg = .ECDSA := by decide
  obtain ⟨c, hc, heq⟩ := List.any_eq_true.1 h
  rw [← eq_of_beq heq]
  exact hsuite c hc

/-! ## The backup -/

/-- The text that is encrypted. -/
def pemBytes (P : Platform) (key : AsymmetricAlgorithm) : List UInt8 :=
  asciiGetBytes (toPem key (P.exportPrivateKey key))

/-- The text fits, and the backup of the key is made when nothing else fails. -/
structure CanBackUp (P : Platform) (key : AsymmetricAlgorithm) : Prop where
  fits : (pemBytes P key).length ≤ maxOaepSHA1
  succeeds : ∀ (i : ℕ) (fileName : String) (sched : ℕ → ℕ × Choice) (s : State),
    (∀ n, (sched n).2 = .ok) →
    (machine.alone i (backupPrivateKey P (toPem key (P.exportPrivateKey key)) fileName).run
      sched s).1 = .ok ()

theorem length_pemBytes_rsa {P : Platform} {key : AsymmetricAlgorithm} (h : key.alg = .RSA) :
    4 * (P.exportPrivateKey key).length / 3 < (pemBytes P key).length := by
  have hpem : toPem key (P.exportPrivateKey key) =
      pem "RSA PRIVATE KEY" (P.exportPrivateKey key) := by
    rw [toPem, h]
  have hlabel : netLength "RSA PRIVATE KEY" = 15 := by decide
  rw [pemBytes, length_asciiGetBytes, hpem, netLength_pem, hlabel]
  omega

theorem length_pemBytes_ecdsa {P : Platform} {key : AsymmetricAlgorithm} (h : key.alg = .ECDSA)
    (hexport : (P.exportPrivateKey key).length = 223) : (pemBytes P key).length = 365 := by
  have hpem : toPem key (P.exportPrivateKey key) =
      pem "EC PRIVATE KEY" (P.exportPrivateKey key) := by
    rw [toPem, h]
  have hlabel : netLength "EC PRIVATE KEY" = 14 := by decide
  rw [pemBytes, length_asciiGetBytes, hpem, netLength_pem, hlabel, hexport]

/-- The text of an RSA key of 2048 bits or more does not fit. -/
theorem not_fits_of_rsa {P : Platform} (hP : FollowsStandards P) {key : AsymmetricAlgorithm}
    (h : key.alg = .RSA) (hsize : 2048 ≤ key.keySize) :
    maxOaepSHA1 < (pemBytes P key).length := by
  obtain ⟨k, hmodulus, hexport⟩ := hP.rsa key h
  have hder := k.le_length_der hmodulus
  have hpem := length_pemBytes_rsa (P := P) h
  rw [hexport] at hpem
  have hmax : maxOaepSHA1 = 470 := rfl
  omega

/-- The text of a key on P-521 fits. -/
theorem fits_of_ecdsa {P : Platform} (hP : FollowsStandards P) {key : AsymmetricAlgorithm}
    (h : key.alg = .ECDSA) (hsize : key.keySize = 521) :
    (pemBytes P key).length ≤ maxOaepSHA1 := by
  obtain ⟨k, hcurve, hexport⟩ := hP.p521 key h hsize
  have hder := k.length_der_p521 hcurve
  rw [← hexport] at hder
  rw [length_pemBytes_ecdsa h hder]
  decide

/-- When no operation fails, the backup is made exactly when the text can be encrypted. -/
theorem backup_alone (P : Platform) (privKeyExport fileName : String) (i : ℕ)
    (sched : ℕ → ℕ × Choice) (s : State) (hok : ∀ n, (sched n).2 = .ok) :
    (machine.alone i (backupPrivateKey P privKeyExport fileName).run sched s).1 =
      if (P.encryptOaepSHA1 (asciiGetBytes privKeyExport)).isSome then .ok ()
      else .error .cryptographic := by
  refine (congrArg Prod.fst (alone_call (hok 0) rfl)).trans ?_
  cases P.encryptOaepSHA1 (asciiGetBytes privKeyExport) with
  | none => rfl
  | some bytes =>
    refine (congrArg Prod.fst (alone_call (hok 1) rfl)).trans ?_
    show (exec i (.mayThrow .startProcess) (sched 2).2 _).1 = .ok ()
    rw [hok 2]
    rfl

theorem canBackUp_of_fits {P : Platform} (hP : FollowsStandards P) {key : AsymmetricAlgorithm}
    (h : (pemBytes P key).length ≤ maxOaepSHA1) : CanBackUp P key := by
  refine ⟨h, fun i fileName sched s hok => ?_⟩
  have hsome : (P.encryptOaepSHA1 (pemBytes P key)).isSome = true := (hP.oaepSHA1 _).2 h
  rw [backup_alone P _ fileName i sched s hok]
  exact if_pos hsome

/-- Of the keys that `IssueCertificate` generates for the suites that it accepts, exactly those on a
curve can be backed up. -/
theorem canBackUp_iff (P : Platform) (hP : FollowsStandards P) {r : CertRequest}
    (hr : PassesChecks r) {key : AsymmetricAlgorithm}
    (hkey : GeneratedFor r.requestedCipherSuite key) :
    CanBackUp P key ↔ r.requestedCipherSuite.alg = .ECDSA := by
  obtain ⟨halg, hsize⟩ := key_of_generatedFor hkey
  constructor
  · intro hbackup
    rcases keySize_of_valid hr.cipherSuite with hlarge | hecdsa
    · cases hcase : r.requestedCipherSuite.alg with
      | ECDSA => rfl
      | RSA =>
        rw [hcase] at halg hsize
        have hnot := not_fits_of_rsa hP halg (hsize ▸ hlarge)
        exact absurd hbackup.fits (Nat.not_le.2 hnot)
    · exact hecdsa
  · intro hecdsa
    rw [hecdsa] at halg hsize
    exact canBackUp_of_fits hP (fits_of_ecdsa hP halg hsize)

section

open Deployment

/-- Numbers of the sizes of an RSA key. -/
def rsaKey (keySize material : ℕ) : Der.RsaPrivateKey where
  modulus := 2 ^ (keySize / 2) * 2 ^ (keySize - 1 - keySize / 2)
  publicExponent := 65537
  privateExponent := 2 ^ (keySize - 1) + material
  prime1 := 2 ^ (keySize / 2)
  prime2 := 2 ^ (keySize - 1 - keySize / 2)
  exponent1 := 2 ^ (keySize / 2 - 1)
  exponent2 := 2 ^ (keySize / 2 - 1)
  coefficient := 2 ^ (keySize / 2 - 1)
  modulus_eq := rfl

/-- Bytes of the sizes of a key on P-521. -/
def ecKey (material : ℕ) : Der.EcPrivateKey 66 where
  curve := Der.p521
  privateKey := Der.bigEndian 66 material
  publicKey := 0x04 :: Der.bigEndian 132 material
  length_privateKey := Der.length_bigEndian 66 material
  length_publicKey := by simp

/-- The platform with exported keys in the formats of the standards. -/
def exporting : Platform :=
  { platform with
    exportPrivateKey := fun key =>
      match key.alg with
      | .RSA => (rsaKey key.keySize key.material).der
      | .ECDSA => (ecKey key.material).der }

theorem followsStandards_exporting : FollowsStandards exporting := by
  constructor
  · intro key h
    refine ⟨rsaKey key.keySize key.material, ?_, ?_⟩
    · show 2 ^ (key.keySize - 1) ≤ 2 ^ (key.keySize / 2) * 2 ^ (key.keySize - 1 - key.keySize / 2)
      rw [← Nat.pow_add]
      apply Nat.pow_le_pow_right (by omega)
      omega
    · simp only [exporting, h]
  · intro key h _
    refine ⟨ecKey key.material, rfl, ?_⟩
    simp only [exporting, h]
  · intro bytes
    show (if bytes.length ≤ 470 then some (List.replicate 512 (0 : UInt8)) else none).isSome = true ↔ _
    have hmax : maxOaepSHA1 = 470 := rfl
    rw [hmax]
    split_ifs with h
    · exact iff_of_true rfl h
    · exact iff_of_false Bool.false_ne_true h

/-- The sample request of `IssueCertificate`, with an RSA key. -/
def rsaRequest : CertRequest := { certRequest with requestedCipherSuite := ⟨.RSA, "SHA512", 4096⟩ }

theorem generatedFor_first (cipherSuite : CipherSuite) : GeneratedFor cipherSuite
    ⟨cipherSuite.alg, match cipherSuite.alg with
      | .RSA => cipherSuite.keySize
      | .ECDSA => 521, 0⟩ := by
  refine ⟨0, fun _ => (0, .ok), installed users, ?_⟩
  unfold createKey
  cases cipherSuite.alg with
  | RSA => rfl
  | ECDSA => rfl

theorem canBackUp_p521 : CanBackUp exporting ⟨.ECDSA, 521, 0⟩ :=
  (canBackUp_iff exporting followsStandards_exporting (r := certRequest) ⟨by decide, by decide⟩
    (generatedFor_first _)).2 rfl

theorem not_canBackUp_rsa : ¬ ∀ (P : Platform) (r : CertRequest) (key : AsymmetricAlgorithm),
    FollowsStandards P → PassesChecks r → GeneratedFor r.requestedCipherSuite key →
      CanBackUp P key := by
  intro hclaim
  have hbackup := hclaim exporting rsaRequest ⟨.RSA, 4096, 0⟩ followsStandards_exporting
    ⟨by decide, by decide⟩ (generatedFor_first rsaRequest.requestedCipherSuite)
  have hnot : maxOaepSHA1 < (pemBytes exporting ⟨.RSA, 4096, 0⟩).length :=
    not_fits_of_rsa followsStandards_exporting rfl (by decide)
  exact absurd hbackup.fits (Nat.not_le.2 hnot)

end

end IMoviesCA
