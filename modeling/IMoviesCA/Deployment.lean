import IMoviesCA.WebServer

/-!
# A small deployment

A platform whose functions can be evaluated, one of the users of the deployment, and schedules in
which whole requests run without a failure: the witnesses and the counterexamples run on these.
-/

namespace IMoviesCA.Deployment

/-- The SHA-1 digests of the passwords that are used here. -/
def digests : List (String × List UInt8) :=
  [("Astrid", [107, 151, 245, 52, 195, 48, 181, 204, 120, 212, 204, 35, 224, 30, 72, 190, 51, 119,
      16, 91]),
    ("sunny-harbour-42", [93, 234, 160, 124, 211, 145, 132, 81, 87, 80, 104, 254, 207, 127, 183,
      230, 84, 19, 185, 187])]

/-- The digests of the passwords below. -/
def sha1 (bytes : List UInt8) : List UInt8 :=
  ((digests.find? fun d => asciiGetBytes d.1 = bytes).map Prod.snd).getD []

/-- The attribute names of the examples. -/
def attributeType (tag : String) : Option AttributeType :=
  if tag = "CN" then some .commonName
  else if tag = "O" then some (.other "2.5.4.10")
  else if tag = "OU" then some (.other "2.5.4.11")
  else none

/-- The intermediate CA of the external machine. -/
def coreCA : CertificateAuthority where
  subjectName := [⟨.other "2.5.4.6", "CH"⟩, ⟨.other "2.5.4.8", "Zurich"⟩,
    ⟨.other "2.5.4.10", "iMovies"⟩, ⟨.commonName, "iMovies external aslcert01 intermediate CA"⟩]
  key := ⟨.RSA, 4096, 1000000⟩

/-- A platform: RSA-OAEP-SHA1 with a 4096-bit key refuses more than 470 bytes. -/
def platform : Platform where
  sha1 := sha1
  attributeType := attributeType
  attributeType_CN := by decide
  simpleName dn := (commonNames dn).getLast?
  simpleName_eq dn h := ⟨(commonNames dn).getLast h, List.getLast_mem h,
    List.getLast?_eq_getLast_of_ne_nil h⟩
  thumbprint cert := hexLower (bitConverterGetBytes (UInt64.ofNat cert.serialNumber))
  exportPrivateKey key := bitConverterGetBytes (UInt64.ofNat key.material)
  encryptOaepSHA1 bytes := if bytes.length ≤ 470 then some (List.replicate 512 0) else none
  pfx _ := coreCA
  passwordList := "123456\npassword\n12345678\nqwerty"

/-! ## Different digests for different bytes -/

/-- The SHA-1 digests of the byte strings that are hashed here. -/
def byteDigests : List (List UInt8 × List UInt8) :=
  digests.map (fun d => (asciiGetBytes d.1, d.2)) ++
    [(asciiGetBytes "Z?rich-8001", [56, 202, 18, 101, 96, 31, 25, 95, 76, 210, 147, 37, 212, 37, 206,
      223, 190, 130, 255, 221]),
    (utf8GetBytes "Zürich-8001", [3, 50, 10, 24, 73, 138, 37, 18, 185, 151, 125, 3, 126, 128, 226,
      136, 130, 242, 214, 154])]

/-- The digests of these byte strings; any other one stands for its own digest. -/
def digest (bytes : List UInt8) : List UInt8 :=
  ((byteDigests.find? fun d => d.1 = bytes).map Prod.snd).getD (0 :: bytes)

theorem digest_cases (bytes : List UInt8) :
    (∃ d ∈ byteDigests, d.1 = bytes ∧ digest bytes = d.2) ∨ digest bytes = 0 :: bytes := by
  unfold digest
  cases hfind : byteDigests.find? fun d => d.1 = bytes with
  | none => exact Or.inr rfl
  | some d =>
    have hd : d.1 = bytes := by simpa using List.find?_some hfind
    exact Or.inl ⟨d, List.mem_of_find?_eq_some hfind, hd, rfl⟩

theorem digest_injective : Function.Injective digest := by
  have hdistinct : ∀ d ∈ byteDigests, ∀ d' ∈ byteDigests, d.2 = d'.2 → d.1 = d'.1 := by decide
  have hhead : ∀ d ∈ byteDigests, d.2.head? ≠ some 0 := by decide
  intro a b h
  rcases digest_cases a with ⟨d, hd, rfl, hda⟩ | ha
  · rcases digest_cases b with ⟨d', hd', rfl, hdb⟩ | hb
    · exact hdistinct d hd d' hd' (by rw [← hda, ← hdb, h])
    · apply absurd _ (hhead d hd)
      rw [← hda, h, hb]
      rfl
  · rcases digest_cases b with ⟨d', hd', rfl, hdb⟩ | hb
    · apply absurd _ (hhead d' hd')
      rw [← hdb, ← h, ha]
      rfl
    · rw [ha, hb] at h
      exact (List.cons.inj h).2

/-- The platform with these digests. -/
def hashing : Platform := { platform with sha1 := digest }

/-! ## The databases -/

/-- The user `a3` of the imported database. -/
def andres : User where
  id := "a3"
  firstName := "Andres Andrea"
  lastName := "Anderson"
  email := "anderson@imovies.ch"
  passwordHash := "6b97f534c330b5cc78d4cc23e01e48be3377105b"

/-- The databases after the installation, with these users. -/
def installed (users : Table User) : State where
  now := 0
  users := users
  publicCertificates := ∅
  privateCertificates := ∅
  backupFolder _ := none
  memoryCache _ := none
  nextKey := 0
  history := []

/-- The table with this user. -/
def users : Table User := ⟨[andres], by decide⟩

/-- The user `ms` of the imported database. -/
def michael : User where
  id := "ms"
  firstName := "Michael"
  lastName := "Schlaepfer"
  email := "ms@imovies.ch"
  passwordHash := "4d7de8512bd584c3137bb80f453e61306b148875"

/-- The table with both users. -/
def twoUsers : Table User := ⟨[michael, andres], by decide⟩

/-- A request of `andres` for a certificate. -/
def certRequest : CertRequest where
  uid := "a3"
  password := "Astrid"
  certPassphrase := "correct horse battery"
  requestedCipherSuite := ⟨.ECDSA, "SHA512", 521⟩

/-- `n` operations of process `i`, none of which throws. -/
def steps (i n : ℕ) : List (Act Request Choice ℕ) := List.replicate n (.step i .ok)

/-- In a schedule of two requests there is no third process. -/
theorem eq_or_eq_of_procs {P : Platform} {as : List (Act Request Choice ℕ)} {s : State}
    {c : Config Request Op Op.Res State Reply} (h : (system P).run as (.initial s) = some c)
    (has : ∀ a ∈ as, a.process = some 0 ∨ a.process = some 1) {n : ℕ} (hn : c.procs n ≠ none) :
    n = 0 ∨ n = 1 := by
  obtain ⟨a, ha, hprocess⟩ := System.process_of_run h hn
  have hcases := has a ha
  simp only [hprocess, Option.some.injEq] at hcases
  exact hcases

/-- After a schedule of two requests that have ended, every process is one of them. -/
theorem procs_cases {P : Platform} {as : List (Act Request Choice ℕ)} {s : State}
    {c : Config Request Op Op.Res State Reply} (h : (system P).run as (.initial s) = some c)
    (has : ∀ a ∈ as, a.process = some 0 ∨ a.process = some 1) {req₀ req₁ : Request}
    {reply₀ reply₁ : Reply} (h₀ : c.procs 0 = some (req₀, .done reply₀))
    (h₁ : c.procs 1 = some (req₁, .done reply₁)) {n : ℕ} {req : Request}
    {p : Program Op Op.Res Reply} (hn : c.procs n = some (req, p)) :
    (n = 0 ∧ req = req₀ ∧ p = .done reply₀) ∨ (n = 1 ∧ req = req₁ ∧ p = .done reply₁) := by
  have hne : c.procs n ≠ none := by simp [hn]
  rcases eq_or_eq_of_procs h has hne with rfl | rfl
  · left
    simpa [h₀, eq_comm] using hn
  · right
    simpa [h₁, eq_comm] using hn

/-- After a schedule of two requests that have ended, all have. -/
theorem ended_of_two {P : Platform} {as : List (Act Request Choice ℕ)} {s : State}
    {c : Config Request Op Op.Res State Reply} (h : (system P).run as (.initial s) = some c)
    (has : ∀ a ∈ as, a.process = some 0 ∨ a.process = some 1) {req₀ req₁ : Request}
    {reply₀ reply₁ : Reply} (h₀ : c.procs 0 = some (req₀, .done reply₀))
    (h₁ : c.procs 1 = some (req₁, .done reply₁)) (i : ℕ) (req : Request)
    (p : Program Op Op.Res Reply) (hi : c.procs i = some (req, p)) : ∃ reply, p = .done reply := by
  rcases procs_cases h has h₀ h₁ hi with ⟨-, -, rfl⟩ | ⟨-, -, rfl⟩
  · exact ⟨_, rfl⟩
  · exact ⟨_, rfl⟩

end IMoviesCA.Deployment
