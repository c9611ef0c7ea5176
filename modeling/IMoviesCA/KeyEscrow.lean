import IMoviesCA.Registration
import IMoviesCA.PemRoundTrip
import IMoviesCA.Encoding

/-!
# Recovering private keys

Before a private key is stored its backup is written, in a file that is named after the user and the
thumbprint of the certificate, and nothing ever looks whether that file exists already.  As long as no
two certificates have one thumbprint, no backup is overwritten, and whoever holds the key of the backup
server gets the private key of every archive that is stored or was handed out
(`recovers_of_reaches`).
-/

namespace IMoviesCA

open CADBModifier IssueController UserDBAuthenticator

variable {P : Platform} {s₀ : State} {c : Configuration} {uid : String}

/-! ## The path of a backup -/

/-- The path of the backup of the key of a certificate. -/
def backupPathOf (P : Platform) (uid : String) (cert : X509Certificate2) : String :=
  CAConfig.backupFolder ++ (uid ++ "_" ++ P.thumbprint cert ++ ".pem.enc")

/-- Thumbprints are digests of SHA-1, in hexadecimal. -/
def ThumbprintLength (P : Platform) : Prop := ∀ cert, (P.thumbprint cert).toList.length = 40

/-- The user and the thumbprint are read off the path. -/
theorem backupPathOf_inj (hP : ThumbprintLength P) {uid uid' : String} {cert cert' : X509Certificate2}
    (h : backupPathOf P uid cert = backupPathOf P uid' cert') :
    uid = uid' ∧ P.thumbprint cert = P.thumbprint cert' := by
  have hlist := congrArg String.toList h
  simp only [backupPathOf, String.toList_append, List.append_cancel_left_eq,
    List.append_cancel_right_eq] at hlist
  obtain ⟨huid, hthumb⟩ := List.append_inj' hlist (by rw [hP, hP])
  exact ⟨String.toList_injective (List.append_cancel_right huid), String.toList_injective hthumb⟩

/-! ## No backup is overwritten -/

/-- A file that was written is there. -/
def FilesPresent (s : State) : Prop :=
  ∀ j path bytes, .fileWritten j path bytes ∈ s.history → ∃ bytes', s.backupFolder path = some bytes'

theorem filesPresent_occurs {e : Event} {s s' : State} (he : Occurs e s s') (h : FilesPresent s) :
    FilesPresent s' := by
  intro j path bytes hmem
  rw [he.history] at hmem
  cases he with
  | @fileWritten i path' bytes' =>
    by_cases hpath : path = path'
    · subst hpath
      exact ⟨bytes', Function.update_self _ _ _⟩
    · rcases List.mem_cons.1 hmem with heq | hmem
      · obtain ⟨-, rfl, -⟩ := Event.fileWritten.inj heq
        exact absurd rfl hpath
      · simp only [State.record, Function.update_of_ne hpath]
        exact h j path bytes hmem
  | _ => exact h j path bytes (List.mem_of_ne_of_mem (by simp) hmem)

theorem filesPresent_of_reaches (h₀ : s₀.history = []) (h : (system P).Reaches (.initial s₀) c) :
    FilesPresent c.shared := by
  refine invariant_of_moves h₀ ?_ (fun d s hs => hs) (fun _ hm => filesPresent_occurs hm.occurs) h
  intro j path bytes hmem
  rw [h₀] at hmem
  cases hmem

/-- A request writes one file. -/
theorem fileWritten_unique {i : ℕ} {req : Request} {evs : List Event} (h : Trace P i req evs)
    {path path' : String} {bytes bytes' : List UInt8} (he : .fileWritten i path bytes ∈ evs)
    (he' : .fileWritten i path' bytes' ∈ evs) : bytes = bytes' := by
  obtain ⟨evs', -, hcall, hcases⟩ := call_of_trace h
  have hmem : ∀ {path bytes}, .fileWritten i path bytes ∈ evs → .fileWritten i path bytes ∈ evs' := by
    intro path bytes hmem
    rcases hcases _ hmem with hmem | hweb
    · exact hmem
    · cases hweb
  have he := hmem he
  have he' := hmem he'
  rcases hcall with rfl | ⟨m, r, -, htrace⟩
  · cases he
  · obtain ⟨r', I, full, n, rfl, -⟩ := fileWritten_cases htrace he
    cases htrace <;> simp_all [Issuance.delivered, Issuance.committed]

/-- No two certificates of the table have one thumbprint. -/
def ThumbprintsDistinct (P : Platform) (s : State) : Prop :=
  ∀ p ∈ s.publicCertificates.rows, ∀ q ∈ s.publicCertificates.rows,
    P.thumbprint p.certificate = P.thumbprint q.certificate → p.certificate = q.certificate

/-- Two issuances whose backups have one path are one. -/
theorem pid_of_backupPath (hfresh : s₀.Fresh) (h : (system P).Reaches (.initial s₀) c)
    (hP : ThumbprintLength P) (hdistinct : ThumbprintsDistinct P c.shared) {m m' : String}
    {r r' : CertRequest} {I : Issuance P m r} {I' : Issuance P m' r'} {j j' : ℕ}
    (hI : ∀ e ∈ I.committed j, e ∈ c.shared.history)
    (hI' : ∀ e ∈ I'.committed j', e ∈ c.shared.history) (hpath : I.backupPath = I'.backupPath) :
    j = j' := by
  obtain ⟨p, hp, -, hcert⟩ := (registered_of_committed hfresh.history hfresh.publicCertificates h I
    (hI _ List.mem_cons_self)).row
  obtain ⟨p', hp', -, hcert'⟩ := (registered_of_committed hfresh.history hfresh.publicCertificates h
    I' (hI' _ List.mem_cons_self)).row
  have hthumb : P.thumbprint I.certificate = P.thumbprint I'.certificate :=
    (backupPathOf_inj hP hpath).2
  have heq : I.certificate = I'.certificate := by
    have := hdistinct p hp p' hp' (by rw [hcert, hcert']; exact hthumb)
    rw [hcert, hcert'] at this
    exact this
  have hkey : I.key = I'.key := by
    rw [← AsymmetricAlgorithm.publicKey_inj, ← I.certificate_spec.2.1, ← I'.certificate_spec.2.1, heq]
  apply (keysDistinct_of_reaches hfresh.history h).process j j' I.key I'.key
  · exact hI _ (by simp [Issuance.committed])
  · exact hI' _ (by simp [Issuance.committed])
  · rw [hkey]

/-- A backup that was written is still there. -/
theorem backupFolder_of_fileWritten (hfresh : s₀.Fresh) (h : (system P).Reaches (.initial s₀) c)
    (hP : ThumbprintLength P) (hdistinct : ThumbprintsDistinct P c.shared) {j : ℕ} {path : String}
    {bytes : List UInt8} (he : .fileWritten j path bytes ∈ c.shared.history) :
    c.shared.backupFolder path = some bytes := by
  obtain ⟨bytes', hfile⟩ := filesPresent_of_reaches hfresh.history h _ _ _ he
  obtain ⟨j', he'⟩ := filesTracked_of_reaches hfresh h _ _ hfile
  obtain ⟨m, r, I, full, n, -, hpath, -, hI⟩ := issuance_of_fileWritten hfresh.history h he
  obtain ⟨m', r', I', full', n', -, hpath', -, hI'⟩ := issuance_of_fileWritten hfresh.history h he'
  obtain rfl := pid_of_backupPath hfresh h hP hdistinct hI hI' (hpath.symm.trans hpath')
  obtain ⟨req, -, hown, htrace⟩ := trace_of_mem_history hfresh.history h he
  have hown' : .fileWritten j path bytes' ∈ c.shared.own j := State.mem_own.2 ⟨he', rfl⟩
  rw [hfile, fileWritten_unique htrace hown' hown]

/-- Before an archive is stored the whole backup of its key is written. -/
theorem fileWritten_of_stored (h₀ : s₀.history = []) (h : (system P).Reaches (.initial s₀) c)
    {archive : Pkcs12Archive} (hstored : WasStored c.shared uid archive) :
    ∃ j bytes, P.encryptOaepSHA1 (asciiGetBytes (toPem archive.privateKey
      (P.exportPrivateKey archive.privateKey))) = some bytes ∧
        .fileWritten j (backupPathOf P uid archive.certificate) bytes ∈ c.shared.history := by
  obtain ⟨e, he, hk⟩ := hstored
  obtain ⟨req, -, hown, htrace⟩ := trace_of_mem_history h₀ h he
  cases e with
  | privateKeysCommitted i ws =>
    rcases mem_trace htrace hown with ⟨m, r, evs, -, hapi, hsub, he'⟩ | hweb
    · obtain ⟨-, r', I, bytes, stored, -, hbytes, rfl, rfl⟩ := privateKeysCommitted_cases hapi he'
      rw [stored_keyWrite] at hk
      obtain ⟨rfl, rfl⟩ := PrivateKey.mk.inj (Option.some.inj hk)
      have hwritten : .fileWritten i I.backupPath bytes ∈ I.delivered i bytes stored := by
        simp [Issuance.delivered]
      exact ⟨i, bytes, hbytes, (State.mem_own.1 (hsub hwritten)).1⟩
    · cases hweb
  | _ => cases hk

/-! ## Recovering a key -/

/-- The text of ASCII bytes. -/
def asciiGetString (bytes : List UInt8) : String :=
  String.ofList (bytes.map fun b => Char.ofNat b.toNat)

theorem asciiGetString_asciiGetBytes {s : String} (h : ∀ ch ∈ s.toList, ch.toNat < 0x80) :
    asciiGetString (asciiGetBytes s) = s := by
  have hchars : ∀ cs : List Char, (∀ ch ∈ cs, ch.toNat < 0x80) →
      (cs.flatMap asciiBytes).map (fun b => Char.ofNat b.toNat) = cs := by
    intro cs hcs
    induction cs with
    | nil => rfl
    | cons ch cs ih =>
      have hch := hcs ch List.mem_cons_self
      rw [List.flatMap_cons, List.map_append, ih fun ch' h' => hcs ch' (List.mem_cons_of_mem _ h'),
        asciiBytes, if_pos hch, List.map_singleton, toNat_ofNat_ascii hch, Char.ofNat_toNat]
      rfl
  rw [asciiGetString, asciiGetBytes_eq, hchars _ h, String.ofList_toList]

theorem toList_toPem_lt (key : AsymmetricAlgorithm) (exported : List UInt8) :
    ∀ ch ∈ (toPem key exported).toList, ch.toNat < 0x80 := by
  intro ch hch
  rw [toPem_eq, toList_pem] at hch
  have hheader : (pemHeader (pemLabel key.alg)).all (fun ch => ch.toNat < 0x80) = true := by
    cases key.alg <;> decide
  have hfooter : (pemFooter (pemLabel key.alg)).all (fun ch => ch.toNat < 0x80) = true := by
    cases key.alg <;> decide
  have hbody := formatB64_lt (toBase64String_lt exported)
  simp only [List.mem_append, List.mem_cons, List.not_mem_nil, or_false] at hch
  rcases hch with h | rfl | h | rfl | h | rfl
  · exact of_decide_eq_true (List.all_eq_true.1 hheader ch h)
  · decide
  · exact hbody ch h
  · decide
  · exact of_decide_eq_true (List.all_eq_true.1 hfooter ch h)
  · decide

/-- The bytes of the key in a backup, for whoever can decrypt it. -/
def recoverKey (decrypt : List UInt8 → Option (List UInt8)) (alg : EncryptionAlgorithms)
    (file : List UInt8) : Option (List UInt8) :=
  (decrypt file).bind fun bytes => readPem (pemLabel alg) (asciiGetString bytes)

/-- `decrypt` undoes the encryption: it knows the key of the backup server. -/
def Decrypts (P : Platform) (decrypt : List UInt8 → Option (List UInt8)) : Prop :=
  ∀ bytes file, P.encryptOaepSHA1 bytes = some file → decrypt file = some bytes

theorem recoverKey_of_encrypted {decrypt : List UInt8 → Option (List UInt8)}
    (hdecrypt : Decrypts P decrypt) {key : AsymmetricAlgorithm} {exported file : List UInt8}
    (h : P.encryptOaepSHA1 (asciiGetBytes (toPem key exported)) = some file) :
    recoverKey decrypt key.alg file = some exported := by
  rw [recoverKey, hdecrypt _ _ h, Option.bind_some,
    asciiGetString_asciiGetBytes (toList_toPem_lt key exported), toPem_eq]
  cases key.alg
  · exact readPem_pem (by decide) (by decide) exported
  · exact readPem_pem (by decide) (by decide) exported

/-- In every interleaving, whatever fails, and as long as no two certificates have one thumbprint: every
backup is as it was written, and the private key of every archive that is stored, in the memory cache or
in an answer is recovered from the file that is named after its user and its certificate. -/
theorem recovers_of_reaches (P : Platform) (hP : ThumbprintLength P)
    (decrypt : List UInt8 → Option (List UInt8)) (hdecrypt : Decrypts P decrypt) {s₀ : State}
    (hfresh : s₀.Fresh) {c : Configuration} (h : (system P).Reaches (.initial s₀) c)
    (hdistinct : ThumbprintsDistinct P c.shared) :
    (∀ i path bytes, .fileWritten i path bytes ∈ c.shared.history →
      c.shared.backupFolder path = some bytes) ∧
    ∀ uid archive, Kept c uid archive →
      ∃ file, c.shared.backupFolder (backupPathOf P uid archive.certificate) = some file ∧
        recoverKey decrypt archive.privateKey.alg file =
          some (P.exportPrivateKey archive.privateKey) := by
  refine ⟨fun i path bytes => backupFolder_of_fileWritten hfresh h hP hdistinct, ?_⟩
  intro uid archive hkept
  obtain ⟨j, bytes, hencrypted, he⟩ :=
    fileWritten_of_stored hfresh.history h (wasStored_of_kept hfresh h hkept)
  exact ⟨bytes, backupFolder_of_fileWritten hfresh h hP hdistinct he,
    recoverKey_of_encrypted hdecrypt hencrypted⟩

section

open Deployment

/-- A reversible stand-in for the encryption: the length and the padded message. -/
def pad (bytes : List UInt8) : List UInt8 :=
  UInt8.ofNat (bytes.length / 256) :: UInt8.ofNat (bytes.length % 256) ::
    (bytes ++ List.replicate (510 - bytes.length) 0)

/-- The message of a padded one. -/
def unpad : List UInt8 → Option (List UInt8)
  | high :: low :: rest => some (rest.take (high.toNat * 256 + low.toNat))
  | _ => none

theorem unpad_pad {bytes : List UInt8} (h : bytes.length ≤ 470) : unpad (pad bytes) = some bytes := by
  have hhigh : (UInt8.ofNat (bytes.length / 256)).toNat = bytes.length / 256 := by
    rw [UInt8.toNat_ofNat']
    omega
  have hlow : (UInt8.ofNat (bytes.length % 256)).toNat = bytes.length % 256 := by
    rw [UInt8.toNat_ofNat']
    omega
  have hlength : bytes.length / 256 * 256 + bytes.length % 256 = bytes.length := by omega
  rw [pad, unpad, hhigh, hlow, hlength, List.take_left]

/-- The platform with thumbprints of 40 digits and with this encryption. -/
def escrowing : Platform :=
  { platform with
    thumbprint := fun cert => hexLower (Bytes.littleEndian 20 cert.serialNumber)
    encryptOaepSHA1 := fun bytes => if bytes.length ≤ 470 then some (pad bytes) else none }

theorem thumbprintLength_escrowing : ThumbprintLength escrowing := by
  intro cert
  show (hexLower (Bytes.littleEndian 20 cert.serialNumber)).toList.length = 40
  rw [hexLower, String.toList_ofList, List.length_flatMap]
  simp [hexByte]

theorem decrypts_escrowing : Decrypts escrowing unpad := by
  intro bytes file h
  simp only [escrowing] at h
  split_ifs at h with hlength
  obtain rfl := Option.some.inj h
  exact unpad_pad hlength

/-- The paths of the backups that were written. -/
def writtenPaths (s : State) : List String :=
  s.history.filterMap fun
    | .fileWritten _ path _ => some path
    | _ => none

/-- Two certificates were issued, they have different thumbprints, and the second archive is stored. -/
def twoIssued (c : Configuration) : Bool :=
  decide (c.shared.publicCertificates.rows.length = 2 ∧
    ∀ p ∈ c.shared.publicCertificates.rows, ∀ q ∈ c.shared.publicCertificates.rows,
      escrowing.thumbprint p.certificate = escrowing.thumbprint q.certificate →
        p.certificate = q.certificate) && !c.shared.privateCertificates.rows.isEmpty &&
    (writtenPaths c.shared).length == 2

/-- A user asks for two certificates; both backups are there, and the key of the second one is
recovered. -/
theorem recovers_newCertificates : ∃ (c : Configuration) (k : PrivateKey) (file : List UInt8),
    (system escrowing).Reaches (.initial (installed users)) c ∧
      (writtenPaths c.shared).length = 2 ∧
      (∀ path ∈ writtenPaths c.shared, c.shared.backupFolder path ≠ none) ∧
      k ∈ c.shared.privateCertificates.rows ∧
      c.shared.backupFolder (backupPathOf escrowing k.uid k.keyPkcs12.certificate) = some file ∧
      recoverKey unpad k.keyPkcs12.privateKey.alg file =
        some (escrowing.exportPrivateKey k.keyPkcs12.privateKey) := by
  have hrun : ((system escrowing).run (.arrive 0 newCertificate ::
      (steps 0 24 ++ .arrive 1 newCertificate :: steps 1 25)) (.initial (installed users))).map
        twoIssued = some true := by decide +kernel
  obtain ⟨c, hc, htwo⟩ := Option.map_eq_some_iff.1 hrun
  simp only [twoIssued, Bool.and_eq_true, decide_eq_true_eq, Bool.not_eq_true',
    List.isEmpty_eq_false_iff, beq_iff_eq] at htwo
  obtain ⟨⟨⟨-, hdistinct⟩, hstored⟩, hpaths⟩ := htwo
  obtain ⟨k, hk⟩ := List.exists_mem_of_ne_nil _ hstored
  have hreach := System.reaches_of_run hc
  obtain ⟨hkept, hrecovers⟩ := recovers_of_reaches escrowing thumbprintLength_escrowing unpad
    decrypts_escrowing (fresh_installed users) hreach hdistinct
  obtain ⟨file, hfile, hrecover⟩ := hrecovers _ _ (.stored hk)
  refine ⟨c, k, file, hreach, hpaths, ?_, hk, hfile, hrecover⟩
  intro path hpath
  obtain ⟨e, he, hwritten⟩ := List.mem_filterMap.1 hpath
  cases e with
  | fileWritten i path' bytes =>
    obtain rfl := Option.some.inj hwritten
    rw [hkept i path' bytes he]
    exact Option.some_ne_none _
  | _ => cases hwritten

end

end IMoviesCA
