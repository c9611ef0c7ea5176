import IMoviesCA.Isolation
import IMoviesCA.Replies

/-!
# Registration

The archives, their backups and the entries of the memory cache are kept apart from
`public_certificates`, and no constraint of the databases ties one to another.  `StoresAgree` is what
holds between them in every reachable state: whatever is kept or was handed out belongs to a
certificate that is registered for the same user, and every registered user is a user
(`storesAgree_of_reaches`).

The order of `IssueCertificate` is what makes this so: the certificate is committed before its key
leaves the request.
-/

namespace IMoviesCA

open CADBModifier IssueController AccountController UserDBAuthenticator

variable {P : Platform} {s₀ : State} {c c' : Configuration} {uid : String}

/-- The state after the installation: there are users, and nothing else. -/
structure State.Fresh (s : State) : Prop where
  history : s.history = []
  publicCertificates : s.publicCertificates = ∅
  privateCertificates : s.privateCertificates = ∅
  backupFolder : ∀ path, s.backupFolder path = none
  memoryCache : ∀ key, s.memoryCache key = none

/-! ## Users -/

/-- The write set consists of updates. -/
def Updates (ws : List UserWrite) : Prop := ∀ w ∈ ws, ∃ uid patch, w = .update uid patch

theorem insertedKeys_updates {ws : List UserWrite} (h : Updates ws) : Table.insertedKeys ws = [] := by
  induction ws with
  | nil => rfl
  | cons w ws ih =>
    obtain ⟨uid, patch, rfl⟩ := h w List.mem_cons_self
    exact ih fun w' hw' => h w' (List.mem_cons_of_mem _ hw')

theorem updates_passwordHashChange (user : User) (pwd : String) :
    Updates (passwordHashChange user pwd) := by
  intro w hw
  unfold passwordHashChange at hw
  split_ifs at hw
  · cases hw
  · exact ⟨_, _, List.mem_singleton.1 hw⟩

/-- Neither server adds a user. -/
theorem updates_of_move {req : Request} {i : ℕ} {ws : List UserWrite}
    (hm : Move P c c' req (.usersCommitted i ws)) : Updates ws := by
  rcases mem_trace hm.trace List.mem_cons_self with ⟨m, r, evs, -, htrace, -, he⟩ | hweb
  · obtain ⟨-, r', -, rfl | ⟨user, -, rfl, -⟩⟩ := usersCommitted_cases htrace he
    · exact fun w hw => by cases hw
    · exact updates_passwordHashChange _ _
  · cases hweb with
    | saved => exact fun w hw => ⟨_, _, List.mem_singleton.1 hw⟩

theorem users_keys_of_move {req : Request} {e : Event} (hm : Move P c c' req e) :
    c'.shared.users.keys = c.shared.users.keys := by
  have hocc := hm.occurs
  generalize hs : c.shared = s at hocc
  generalize hs' : c'.shared = s' at hocc
  cases hocc with
  | usersCommitted hc =>
    exact (Table.keys_of_commit hc).trans
      (by rw [insertedKeys_updates (updates_of_move hm), List.append_nil])
  | _ => rfl

/-- The users of the installation stay the users. -/
theorem users_keys_of_reaches (h₀ : s₀.history = []) (h : (system P).Reaches (.initial s₀) c) :
    c.shared.users.keys = s₀.users.keys :=
  invariant_of_moves (I := fun s => s.users.keys = s₀.users.keys) h₀ rfl (fun _ _ hs => hs)
    (fun _ hm hs => (users_keys_of_move hm).trans hs) h

/-- A row of `users` that was read is that of a user. -/
def UsersRead (s : State) : Prop :=
  ∀ i uid user, .userRead i uid (some user) ∈ s.history → user.id ∈ s.users.keys

theorem usersRead_occurs {e : Event} {s s' : State} (he : Occurs e s s') (h : UsersRead s) :
    UsersRead s' := by
  intro i uid user hmem
  rw [he.history] at hmem
  cases he with
  | userRead =>
    rcases List.mem_cons.1 hmem with heq | hmem
    · obtain ⟨-, -, hfind⟩ := Event.userRead.inj heq
      exact Table.key_mem_keys (Table.find?_eq_some_iff.1 hfind.symm).1
    · exact h i uid user hmem
  | usersCommitted hc =>
    exact Table.keys_subset_of_commit hc (h i uid user (List.mem_of_ne_of_mem (by simp) hmem))
  | _ => exact h i uid user (List.mem_of_ne_of_mem (by simp) hmem)

theorem usersRead_of_reaches (h₀ : s₀.history = []) (h : (system P).Reaches (.initial s₀) c) :
    UsersRead c.shared := by
  refine invariant_of_moves h₀ ?_ (fun d s hs => hs) (fun _ hm => usersRead_occurs hm.occurs) h
  intro i uid user hmem
  rw [h₀] at hmem
  cases hmem

/-! ## Certificates -/

/-- A certificate is issued to a user. -/
theorem uid_of_issued (h₀ : s₀.history = []) (h : (system P).Reaches (.initial s₀) c) {e : Event}
    (he : e ∈ c.shared.history) {row : PublicCertificate} (hrow : e.issued = some row) :
    row.uid ∈ c.shared.users.keys := by
  obtain ⟨req, -, hown, htrace⟩ := trace_of_mem_history h₀ h he
  obtain ⟨ws, time, B, -, rfl⟩ := issuedBy_of_issued htrace hown State.own_subset hrow
  exact usersRead_of_reaches h₀ h _ _ _ B.userRead

/-- A certificate that was committed is in the table. -/
theorem row_of_issued {s : State} (h : Ledger s) {e : Event} (he : e ∈ s.history)
    {row : PublicCertificate} (hrow : e.issued = some row) :
    ∃ p ∈ s.publicCertificates.rows, Later row p := by
  have hmem : row ∈ (issued s.history).reverse :=
    List.mem_reverse.2 (List.mem_filterMap.2 ⟨e, he, hrow⟩)
  exact exists_of_forall₂_left h.rows hmem

theorem issued_writes {machineName : String} {r : CertRequest} (I : Issuance P machineName r)
    (i : ℕ) (time : Time) : (Event.certificatesCommitted i I.writes time).issued = some I.row :=
  I.insertedRow_writes

/-- `public_certificates` has the certificate of the archive for the user, who is one, and the private
key in the archive is that of the certificate. -/
structure Registered (s : State) (uid : String) (archive : Pkcs12Archive) : Prop where
  row : ∃ p ∈ s.publicCertificates.rows, p.uid = uid ∧ p.certificate = archive.certificate
  user : uid ∈ s.users.keys
  key : archive.privateKey.publicKey = archive.certificate.publicKey

theorem registered_of_committed (h₀ : s₀.history = []) (hempty : s₀.publicCertificates = ∅)
    (h : (system P).Reaches (.initial s₀) c) {machineName : String} {r : CertRequest}
    (I : Issuance P machineName r) {j : ℕ} {time : Time}
    (he : .certificatesCommitted j I.writes time ∈ c.shared.history) :
    Registered c.shared I.user.id I.archive := by
  obtain ⟨p, hp, hlater⟩ := row_of_issued (ledger_of_reaches h₀ hempty h) he (issued_writes I j time)
  have huser : I.row.uid ∈ c.shared.users.keys := uid_of_issued h₀ h he (issued_writes I j time)
  exact ⟨⟨p, hp, hlater.uid, hlater.certificate⟩, huser, I.certificate_spec.2.1.symm⟩

/-! ## Archives -/

/-- The archive was stored for the user. -/
def WasStored (s : State) (uid : String) (archive : Pkcs12Archive) : Prop :=
  ∃ e ∈ s.history, e.stored = some ⟨uid, archive⟩

theorem registered_of_wasStored (h₀ : s₀.history = []) (hempty : s₀.publicCertificates = ∅)
    (h : (system P).Reaches (.initial s₀) c) {archive : Pkcs12Archive}
    (hstored : WasStored c.shared uid archive) : Registered c.shared uid archive := by
  obtain ⟨e, he, hk⟩ := hstored
  obtain ⟨m, r, I, hkey, hcommit, -⟩ := issuance_of_stored h₀ h he hk
  obtain ⟨rfl, rfl⟩ := PrivateKey.mk.inj hkey
  exact registered_of_committed h₀ hempty h I (State.mem_own.1 hcommit).1

/-- An archive in an answer of the CA server was stored for the user of the request. -/
theorem wasStored_of_apiAnswer (h₀ : s₀.history = []) (hkeys : s₀.privateCertificates = ∅)
    (h : (system P).Reaches (.initial s₀) c) {j : ℕ} {machineName : String} {r : ApiRequest}
    {archive : Pkcs12Archive} (hreplies : r.Replies (.ok archive)) (huser : r.user? = some uid)
    {evs : List Event} (hevs : ∀ e ∈ evs, e ∈ c.shared.history)
    (hanswer : ApiAnswer P j machineName r (.ok archive) evs) :
    WasStored c.shared uid archive := by
  cases r with
  | issue r =>
    obtain ⟨I, bytes, stored, -, rfl, rfl⟩ := IssueAnswer.archive hanswer archive rfl
    obtain rfl := Option.some.inj huser
    rw [← I.authenticated.1]
    exact ⟨_, hevs _ List.mem_cons_self, stored_keyWrite I j stored⟩
  | downloadPrivateKey r =>
    obtain ⟨user, key, -, rfl, rfl⟩ := hanswer archive rfl
    obtain rfl := Option.some.inj huser
    obtain ⟨hu, hstored⟩ :=
      (keysTracked_of_reaches h₀ hkeys h).read _ _ _ (hevs _ List.mem_cons_self)
    rw [← hu]
    exact hstored
  | revoke r => rcases hreplies with heq | heq <;> cases heq
  | changePassword r => rcases hreplies with heq | heq | heq <;> cases heq
  | getCRL =>
    obtain ⟨crl, heq⟩ := hreplies
    cases heq
  | getCipherSuites => cases hreplies

/-- An archive in the memory cache was stored for the user under whose key it is. -/
theorem wasStored_of_cacheSet (h₀ : s₀.history = []) (hkeys : s₀.privateCertificates = ∅)
    (h : (system P).Reaches (.initial s₀) c) {j : ℕ} {key : String} {archive : Pkcs12Archive}
    {expires time : Time} (he : .cacheSet j key archive expires time ∈ c.shared.history) :
    ∃ uid, key = CertController.cacheKey uid ∧ WasStored c.shared uid archive := by
  obtain ⟨req, -, hown, htrace⟩ := trace_of_mem_history h₀ h he
  rcases mem_trace htrace hown with ⟨m, r, evs, -, hapi, -, he'⟩ | hweb
  · exact absurd he' (not_cacheSet_of_apiTrace hapi)
  · cases hweb with
    | @cacheSet m uid w r evs _ _ _ hfetch hsub hcaches =>
      have hevs : ∀ e ∈ evs, e ∈ c.shared.history := fun e he => (State.mem_own.1 (hsub he)).1
      refine ⟨uid, rfl, ?_⟩
      have hreplies : r.Replies (.ok archive) := by cases hfetch <;> exact Or.inl ⟨_, rfl⟩
      have huser : r.user? = some uid := by cases hfetch <;> rfl
      exact wasStored_of_apiAnswer h₀ hkeys h hreplies huser hevs hcaches.answer

/-- An archive that a request was answered with was stored for the user of the request. -/
theorem wasStored_of_answer (hfresh : s₀.Fresh) (h : (system P).Reaches (.initial s₀) c) {i : ℕ}
    {req : Request} {reply : Reply} (hdone : c.procs i = some (req, .done reply))
    {archive : Pkcs12Archive} (harchive : reply.archive? = some archive)
    (huser : req.user? = some uid) : WasStored c.shared uid archive := by
  have hanswer := answer_of_reaches hfresh.history h hdone
  have hown : ∀ e ∈ c.shared.own i, e ∈ c.shared.history := fun e he => (State.mem_own.1 he).1
  rcases replies_of_reaches h hdone with rfl | hreplies
  · cases harchive
  · cases req with
    | web m uid' w =>
      obtain rfl := Option.some.inj huser
      obtain ⟨rfl, time, hevs⟩ := WebAnswer.archive hanswer archive harchive
      have hread := hown _ (by rw [hevs]; exact List.mem_cons_self)
      obtain ⟨j, expires, time', hset, -⟩ :=
        (cacheTracked_of_reaches hfresh.history hfresh.memoryCache h).read _ _ _ _ hread
      obtain ⟨uid, hkey, hstored⟩ :=
        wasStored_of_cacheSet hfresh.history hfresh.privateCertificates h hset
      rw [cacheKey_injective hkey]
      exact hstored
    | api m r =>
      obtain rfl : reply = .ok archive := by
        cases reply with
        | ok archive' => exact congrArg Reply.ok (Option.some.inj harchive)
        | file archive' => cases r <;> simp [Request.Replies, ApiRequest.Replies] at hreplies
        | _ => cases harchive
      exact wasStored_of_apiAnswer hfresh.history hfresh.privateCertificates h hreplies huser hown
        hanswer

/-- An archive of a user that is stored, in the memory cache, or in an answer. -/
inductive Kept (c : Configuration) : String → Pkcs12Archive → Prop
  | stored {k : PrivateKey} (h : k ∈ c.shared.privateCertificates.rows) : Kept c k.uid k.keyPkcs12
  | cached {uid : String} {entry : CacheEntry}
      (h : c.shared.memoryCache (CertController.cacheKey uid) = some entry) : Kept c uid entry.value
  | answered {i : ℕ} {req : Request} {reply : Reply} {uid : String} {archive : Pkcs12Archive}
      (hdone : c.procs i = some (req, .done reply)) (harchive : reply.archive? = some archive)
      (huser : req.user? = some uid) : Kept c uid archive

theorem wasStored_of_kept (hfresh : s₀.Fresh) (h : (system P).Reaches (.initial s₀) c)
    {archive : Pkcs12Archive} (hkept : Kept c uid archive) : WasStored c.shared uid archive := by
  cases hkept with
  | stored hk => exact (keysTracked_of_reaches hfresh.history hfresh.privateCertificates h).row _ hk
  | cached hentry =>
    obtain ⟨j, time, hset, -⟩ :=
      (cacheTracked_of_reaches hfresh.history hfresh.memoryCache h).entry _ _ hentry
    obtain ⟨uid', hkey, hstored⟩ :=
      wasStored_of_cacheSet hfresh.history hfresh.privateCertificates h hset
    rw [cacheKey_injective hkey]
    exact hstored
  | answered hdone harchive huser => exact wasStored_of_answer hfresh h hdone harchive huser

/-! ## Backups -/

/-- A file in the backup folder was written. -/
def FilesTracked (s : State) : Prop :=
  ∀ path bytes, s.backupFolder path = some bytes → ∃ j, .fileWritten j path bytes ∈ s.history

theorem filesTracked_occurs {e : Event} {s s' : State} (he : Occurs e s s') (h : FilesTracked s) :
    FilesTracked s' := by
  intro path bytes hfile
  rw [he.history]
  cases he with
  | @fileWritten i path' bytes' =>
    by_cases hpath : path = path'
    · subst hpath
      obtain rfl : bytes' = bytes := by simpa [State.record] using hfile
      exact ⟨i, List.mem_cons_self⟩
    · simp only [State.record, Function.update_of_ne hpath] at hfile
      obtain ⟨j, hmem⟩ := h path bytes hfile
      exact ⟨j, List.mem_cons_of_mem _ hmem⟩
  | _ =>
    obtain ⟨j, hmem⟩ := h path bytes hfile
    exact ⟨j, List.mem_cons_of_mem _ hmem⟩

theorem filesTracked_of_reaches (hfresh : s₀.Fresh) (h : (system P).Reaches (.initial s₀) c) :
    FilesTracked c.shared := by
  refine invariant_of_moves hfresh.history ?_ (fun d s hs => hs)
    (fun _ hm => filesTracked_occurs hm.occurs) h
  intro path bytes hfile
  rw [hfresh.backupFolder] at hfile
  cases hfile

/-- A file is written by an issuance, after the commit of its certificate: the encrypted key, or the
beginning of it. -/
theorem fileWritten_cases {i j : ℕ} {machineName path : String} {r : ApiRequest}
    {evs : List Event} (h : ApiTrace P i machineName r evs) {bytes : List UInt8}
    (he : .fileWritten j path bytes ∈ evs) : ∃ (r' : CertRequest) (I : Issuance P machineName r')
      (full : List UInt8) (n : ℕ), r = .issue r' ∧ I.backup = some full ∧ path = I.backupPath ∧
        bytes = full.take n ∧ I.committed i ⊆ evs := by
  cases r with
  | issue r =>
    cases h with
    | @fileWritten I full n hfull =>
      obtain ⟨-, rfl, rfl⟩ : j = i ∧ path = I.backupPath ∧ bytes = full.take n := by
        simpa [Issuance.committed] using he
      exact ⟨r, I, full, n, rfl, hfull, rfl, rfl, List.subset_cons_self _ _⟩
    | @delivered I full stored hfull =>
      obtain ⟨-, rfl, rfl⟩ : j = i ∧ path = I.backupPath ∧ bytes = full := by
        simpa [Issuance.delivered, Issuance.committed] using he
      exact ⟨r, I, bytes, bytes.length, rfl, hfull, rfl, List.take_length.symm,
        List.Subset.trans (List.subset_cons_self _ _) (List.subset_cons_self _ _)⟩
    | start | userRead | keyGenerated | certificatesRead => simp at he
    | committed => simp [Issuance.committed] at he
  | revoke r => cases h <;> simp [revocationEvents] at he
  | changePassword r => cases h <;> simp [passwordChangeEvents] at he
  | downloadPrivateKey r => cases h <;> simp at he
  | getCRL => cases h <;> simp at he
  | getCipherSuites =>
    obtain rfl : evs = [] := h
    cases he

/-- The issuance behind a file that was written. -/
theorem issuance_of_fileWritten (h₀ : s₀.history = []) (h : (system P).Reaches (.initial s₀) c)
    {j : ℕ} {path : String} {bytes : List UInt8}
    (he : .fileWritten j path bytes ∈ c.shared.history) :
    ∃ (machineName : String) (r : CertRequest) (I : Issuance P machineName r) (full : List UInt8)
      (n : ℕ), I.backup = some full ∧ path = I.backupPath ∧ bytes = full.take n ∧
        ∀ e ∈ I.committed j, e ∈ c.shared.history := by
  obtain ⟨req, -, hown, htrace⟩ := trace_of_mem_history h₀ h he
  rcases mem_trace htrace hown with ⟨m, r, evs, -, hapi, hsub, he'⟩ | hweb
  · obtain ⟨r', I, full, n, rfl, hfull, rfl, rfl, hcommitted⟩ := fileWritten_cases hapi he'
    exact ⟨m, r', I, full, n, hfull, rfl, rfl,
      fun e hmem => (State.mem_own.1 (hsub (hcommitted hmem))).1⟩
  · cases hweb

/-- The file is the backup, or the beginning of it, of the private key of a certificate that is
registered. -/
structure IsBackup (P : Platform) (s : State) (path : String) (bytes : List UInt8) : Prop where
  of_key : ∃ uid archive full, Registered s uid archive ∧
    path = CAConfig.backupFolder ++ (uid ++ "_" ++ P.thumbprint archive.certificate ++ ".pem.enc") ∧
      P.encryptOaepSHA1 (asciiGetBytes (toPem archive.privateKey
        (P.exportPrivateKey archive.privateKey))) = some full ∧ bytes <+: full

/-! ## The stores -/

/-- What the stores have to do with each other. -/
structure StoresAgree (P : Platform) (c : Configuration) : Prop where
  certificates : ∀ p ∈ c.shared.publicCertificates.rows, p.uid ∈ c.shared.users.keys
  archives : ∀ uid archive, Kept c uid archive → Registered c.shared uid archive
  cacheKeys : ∀ key entry, c.shared.memoryCache key = some entry →
    ∃ uid, key = CertController.cacheKey uid
  backups : ∀ path bytes, c.shared.backupFolder path = some bytes → IsBackup P c.shared path bytes

/-- In every interleaving, whatever fails: the users stay the same, every certificate is registered
for one of them, and every archive that is stored, in the memory cache or in an answer, and every
backup, belongs to a certificate that is registered for the same user. -/
theorem storesAgree_of_reaches (P : Platform) {s₀ : State} (hfresh : s₀.Fresh) {c : Configuration}
    (h : (system P).Reaches (.initial s₀) c) :
    c.shared.users.keys = s₀.users.keys ∧ StoresAgree P c := by
  refine ⟨users_keys_of_reaches hfresh.history h, ?_, ?_, ?_, ?_⟩
  · intro p hp
    obtain ⟨row, hrow, hlater⟩ := exists_of_forall₂_right
      (ledger_of_reaches hfresh.history hfresh.publicCertificates h).rows hp
    obtain ⟨e, he, hissued⟩ := List.mem_filterMap.1 (List.mem_reverse.1 hrow)
    rw [hlater.uid]
    exact uid_of_issued hfresh.history h he hissued
  · intro uid archive hkept
    exact registered_of_wasStored hfresh.history hfresh.publicCertificates h
      (wasStored_of_kept hfresh h hkept)
  · intro key entry hentry
    obtain ⟨j, time, hset, -⟩ :=
      (cacheTracked_of_reaches hfresh.history hfresh.memoryCache h).entry key entry hentry
    obtain ⟨uid, hkey, -⟩ :=
      wasStored_of_cacheSet hfresh.history hfresh.privateCertificates h hset
    exact ⟨uid, hkey⟩
  · intro path bytes hfile
    obtain ⟨j, he⟩ := filesTracked_of_reaches hfresh h path bytes hfile
    obtain ⟨m, r, I, full, n, hfull, rfl, rfl, hcommitted⟩ :=
      issuance_of_fileWritten hfresh.history h he
    exact ⟨I.user.id, I.archive, full, registered_of_committed hfresh.history
      hfresh.publicCertificates h I (hcommitted _ List.mem_cons_self), rfl, hfull,
      List.take_prefix _ _⟩

section

open Deployment

theorem fresh_installed (users : Table User) : (installed users).Fresh :=
  ⟨rfl, rfl, rfl, fun _ => rfl, fun _ => rfl⟩

/-- A file is in the backup folder, and its key was not stored. -/
def backupOnly (c : Configuration) : Bool :=
  c.shared.privateCertificates.rows.isEmpty && (c.shared.publicCertificates.rows.any fun p =>
    (c.shared.backupFolder (CAConfig.backupFolder ++
      ("a3" ++ "_" ++ platform.thumbprint p.certificate ++ ".pem.enc"))).isSome)

/-- An issuance that fails while it writes the backup: the file has its beginning. -/
theorem storesAgree_backupOnly : ∃ c : Configuration,
    (system platform).Reaches (.initial (installed users)) c ∧ backupOnly c = true ∧
      StoresAgree platform c := by
  have hrun : ((system platform).run (.arrive 0 newCertificate ::
      (steps 0 15 ++ [.step 0 (.throws (some 100))])) (.initial (installed users))).map backupOnly =
        some true := by decide +kernel
  obtain ⟨c, hc, hbackup⟩ := Option.map_eq_some_iff.1 hrun
  have hreach := System.reaches_of_run hc
  exact ⟨c, hreach, hbackup, (storesAgree_of_reaches platform (fresh_installed users) hreach).2⟩

end

end IMoviesCA
