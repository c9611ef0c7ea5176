import IMoviesCA.WebServer
import IMoviesCA.Lib.Der

/-!
# The bytes of a revocation list

`GetEncoded` writes a list in DER: a sequence of its fields, of the algorithm and of the signature.
`openssl crl` reads such a sequence at the start of its input and writes its bytes as a PEM text; it
refuses everything else.

The bytes of every list are converted as they are (`opensslPem_getEncoded`), and those of a list that
breaks off are not (`opensslPem_take`).
-/

namespace IMoviesCA

open Der

namespace X509Crl

/-! ## The fields -/

/-- The digits of a number in base 128; all bytes but the last have their top bit set. -/
def base128 (n : ℕ) : List UInt8 :=
  (List.range (n.log2 / 7)).reverse.map (fun i => UInt8.ofNat (128 + n / 128 ^ (i + 1) % 128)) ++
    [UInt8.ofNat (n % 128)]

/-- The number of a string of digits. -/
def decimal (digits : List Char) : ℕ := digits.foldl (fun n d => 10 * n + (d.toNat - 0x30)) 0

/-- An object identifier in its dotted form. -/
def objectIdentifier (dotted : String) : List UInt8 :=
  tlv 0x06 (match (dotted.toList.splitOn '.').map decimal with
    | first :: second :: arcs => base128 (40 * first + second) ++ arcs.flatMap base128
    | _ => [])

example : objectIdentifier "1.2.840.113549.1.1.13" =
    [0x06, 0x09, 0x2A, 0x86, 0x48, 0x86, 0xF7, 0x0D, 0x01, 0x01, 0x0D] := by decide

/-- The object identifier of an attribute. -/
def attributeOid : AttributeType → String
  | .commonName => "2.5.4.3"
  | .other oid => oid

/-- A name: a sequence of sets of one attribute each. -/
def name (dn : DistinguishedName) : List UInt8 :=
  tlv 0x30 (dn.flatMap fun r => tlv 0x31 (tlv 0x30
    (objectIdentifier (attributeOid r.attr) ++ tlv 0x0C (utf8GetBytes r.value))))

/-- The lengths of the months. -/
def monthLengths (leap : Bool) : List ℕ :=
  [31, if leap then 29 else 28, 31, 30, 31, 30, 31, 31, 30, 31, 30, 31]

/-- The month of a day of the year, and the day of this month. -/
def monthOf : ℕ → List ℕ → ℕ → ℕ × ℕ
  | month, [], day => (month, day + 1)
  | month, length :: lengths, day =>
      if day < length then (month, day + 1) else monthOf (month + 1) lengths (day - length)

/-- `DateTime`: year, month and day, from the days since 1 January of the year 1. -/
def dateOf (days : ℕ) : ℕ × ℕ × ℕ :=
  let n400 := days / 146097
  let days := days % 146097
  let n100 := min (days / 36524) 3
  let days := days - n100 * 36524
  let n4 := days / 1461
  let days := days % 1461
  let n1 := min (days / 365) 3
  let leap := n1 == 3 && (n4 != 24 || n100 == 3)
  (400 * n400 + 100 * n100 + 4 * n4 + n1 + 1, monthOf 1 (monthLengths leap) (days - n1 * 365))

example : dateOf 737387 = (2019, 11, 25) := by decide

/-- The last two digits of a number. -/
def twoDigits (n : ℕ) : List UInt8 := [UInt8.ofNat (0x30 + n / 10 % 10), UInt8.ofNat (0x30 + n % 10)]

/-- A time, with two digits of the year from 1950 to 2049 and with four digits otherwise. -/
def time (t : Time) : List UInt8 :=
  let seconds := t / ticksPerSecond
  let (year, month, day) := dateOf (seconds / 86400)
  let rest := [month, day, seconds / 3600 % 24, seconds / 60 % 60, seconds % 60].flatMap twoDigits ++
    [0x5A]
  if 1950 ≤ year ∧ year ≤ 2049 then tlv 0x17 (twoDigits year ++ rest)
  else tlv 0x18 (twoDigits (year / 100) ++ twoDigits year ++ rest)

/-- An extension that is not critical. -/
def extension (oid : String) (value : List UInt8) : List UInt8 :=
  tlv 0x30 (objectIdentifier oid ++ tlv 0x04 value)

/-- `CrlReason`. -/
def reasonCode : CrlReason → ℕ
  | .keyCompromise => 1

/-- A revoked certificate, with the reason. -/
def entry (e : CrlEntry) : List UInt8 :=
  tlv 0x30 (signedInteger e.userCertificate ++ time e.revocationDate ++
    tlv 0x30 (extension "2.5.29.21" (tlv 0x0A [UInt8.ofNat (reasonCode e.reason)])))

/-- The algorithm of the signature, SHA512 with RSA. -/
def algorithm : List UInt8 := objectIdentifier "1.2.840.113549.1.1.13" ++ tlv 0x05 []

/-- The material of the key stands for the digest of the key. -/
def authorityKey (key : PublicKey) : List UInt8 :=
  extension "2.5.29.35" (tlv 0x30 (tlv 0x80 (bigEndian 20 key.material)))

/-- The fields that are signed. -/
def fields (crl : X509Crl) : List UInt8 :=
  integer 1 ++ tlv 0x30 algorithm ++ name crl.issuerDN ++ time crl.thisUpdate ++
    time crl.nextUpdate ++
    (if crl.entries.isEmpty then [] else tlv 0x30 (crl.entries.flatMap entry)) ++
    tlv 0xA0 (tlv 0x30 (authorityKey crl.authorityKeyIdentifier))

/-- The material of the key stands for the signature, which has the size of the key. -/
def signature (crl : X509Crl) : List UInt8 :=
  0x00 :: bigEndian (crl.signedBy.keySize / 8) crl.signedBy.material

/-! ## The list -/

/-- The fields, the algorithm and the signature. -/
def parts (fields signature : List UInt8) : List UInt8 :=
  tlv 0x30 fields ++ (tlv 0x30 algorithm ++ tlv 0x03 signature)

/-- `GetEncoded`.  A list that is longer than any memory has no bytes; it is written without fields. -/
@[irreducible] def getEncoded (crl : X509Crl) : List UInt8 :=
  if (parts crl.fields crl.signature).length < maxLength then tlv 0x30 (parts crl.fields crl.signature)
  else tlv 0x30 (parts [] [])

/-- The list that the bytes start with. -/
def readList (bytes : List UInt8) : Option (List UInt8) := do
  let (content, rest) ← readTlv 0x30 bytes
  let (_, content) ← readTlv 0x30 content
  let (_, content) ← readTlv 0x30 content
  let (_, content) ← readTlv 0x03 content
  if content.isEmpty then some (bytes.take (bytes.length - rest.length)) else none

/-- `openssl crl -inform DER -outform PEM`. -/
def opensslPem (bytes : List UInt8) : Option (List UInt8) :=
  (readList bytes).map fun der => utf8GetBytes (pem "X509 CRL" der)

/-- The PEM text of a list. -/
def text (crl : X509Crl) : List UInt8 := utf8GetBytes (pem "X509 CRL" crl.getEncoded)

theorem readList_parts {fields signature : List UInt8}
    (h : (parts fields signature).length < maxLength) :
    readList (tlv 0x30 (parts fields signature)) = some (tlv 0x30 (parts fields signature)) := by
  have hlength := h
  simp only [parts, List.length_append, length_tlv] at hlength
  have houter : readTlv 0x30 (tlv 0x30 (parts fields signature)) =
      some (parts fields signature, []) := by
    rw [← List.append_nil (tlv 0x30 _), readTlv_tlv h]
  have hfields : readTlv 0x30 (parts fields signature) =
      some (fields, tlv 0x30 algorithm ++ tlv 0x03 signature) := readTlv_tlv (by omega) _ _
  have halgorithm : readTlv 0x30 (tlv 0x30 algorithm ++ tlv 0x03 signature) =
      some (algorithm, tlv 0x03 signature) := readTlv_tlv (by omega) _ _
  have hsignature : readTlv 0x03 (tlv 0x03 signature) = some (signature, []) := by
    rw [← List.append_nil (tlv 0x03 _), readTlv_tlv (by omega)]
  simp [readList, houter, hfields, halgorithm, hsignature]

/-- Every list is a value with the parts of a list. -/
theorem exists_parts (crl : X509Crl) : ∃ fields signature,
    crl.getEncoded = tlv 0x30 (parts fields signature) ∧
      (parts fields signature).length < maxLength := by
  unfold getEncoded
  split_ifs with h
  · exact ⟨_, _, rfl, h⟩
  · exact ⟨[], [], rfl, by decide +kernel⟩

theorem opensslPem_getEncoded (crl : X509Crl) : opensslPem crl.getEncoded = some crl.text := by
  obtain ⟨fields, signature, hcrl, h⟩ := exists_parts crl
  rw [opensslPem, text, hcrl, readList_parts h, Option.map_some]

theorem opensslPem_take (crl : X509Crl) {n : ℕ} (h : n < crl.getEncoded.length) :
    opensslPem (crl.getEncoded.take n) = none := by
  obtain ⟨fields, signature, hcrl, hlength⟩ := exists_parts crl
  rw [hcrl] at h ⊢
  rw [opensslPem, readList, readTlv_take hlength _ h]
  rfl

theorem head_of_opensslPem {bytes text : List UInt8} (h : opensslPem bytes = some text) :
    bytes.head? = some 0x30 := by
  obtain ⟨der, hder, -⟩ := Option.map_eq_some_iff.1 h
  obtain ⟨x, hx, -⟩ := Option.bind_eq_some_iff.1 hder
  exact head_of_readTlv hx

theorem head_opensslPem {bytes text : List UInt8} (h : opensslPem bytes = some text) :
    text.head? = some 0x2d := by
  obtain ⟨der, -, rfl⟩ := Option.map_eq_some_iff.1 h
  simp only [pem, utf8GetBytes, String.toList_append, List.flatMap_append, List.append_assoc]
  rfl

end X509Crl

end IMoviesCA
