import IMoviesCA.EmailAddress

/-!
# Isolation of the users

Every commit of a request is for the rows of the user for whom the request acts: `rowsOf_of_step`
is about one step, `rowsOf_of_run` about a run without a request of that user.  And an archive
reaches a session through the memory cache only, under a key that no other user has: it is one that
was issued to the user of the session, and a request of this user has put it there, with the
password, less than a minute before (`isolation_of_reaches`).
-/

namespace IMoviesCA

open CADBModifier IssueController AccountController UserDBAuthenticator

variable {P : Platform} {s₀ : State} {c c' : Configuration}

/-! ## The rows of a user -/

/-- The rows of a user in `users`, `public_certificates` and `private_certificates`. -/
structure UserRows where
  users : List User
  publicCertificates : List PublicCertificate
  privateCertificates : List PrivateKey
  deriving DecidableEq

/-- The rows of the three tables that belong to the user. -/
def State.rowsOf (s : State) (uid : String) : UserRows where
  users := s.users.rows.filter fun user => user.id = uid
  publicCertificates := s.publicCertificates.rows.filter fun p => p.uid = uid
  privateCertificates := s.privateCertificates.rows.filter fun k => k.uid = uid

/-- Every snapshot is an older state of the table. -/
def SnapshotsExtend (s : State) : Prop :=
  ∀ i t time, .certificatesRead i t time ∈ s.history → Extends t s.publicCertificates

theorem snapshotsExtend_occurs {e : Event} {s s' : State} (he : Occurs e s s')
    (h : SnapshotsExtend s) : SnapshotsExtend s' := by
  intro j t time hmem
  rw [he.history] at hmem
  cases he with
  | certificatesRead =>
    rcases List.mem_cons.1 hmem with heq | hmem
    · obtain ⟨-, rfl, -⟩ := Event.certificatesRead.inj heq
      exact Extends.refl _
    · exact h j t time hmem
  | certificatesCommitted hc =>
    exact (h j t time (List.mem_of_ne_of_mem (by simp) hmem)).trans (extends_of_commit hc)
  | _ => exact h j t time (List.mem_of_ne_of_mem (by simp) hmem)

theorem snapshotsExtend_of_reaches (h₀ : s₀.history = [])
    (h : (system P).Reaches (.initial s₀) c) : SnapshotsExtend c.shared := by
  refine invariant_of_moves h₀ ?_ (fun d s hs => hs) (fun _ hm => snapshotsExtend_occurs hm.occurs) h
  intro i t time hmem
  rw [h₀] at hmem
  cases hmem

/-- The write sets of the two servers for `users` are for the row of the user of the request. -/
theorem untouched_users {req : Request} {i : ℕ} {ws : List UserWrite}
    (hm : Move P c c' req (.usersCommitted i ws)) {uid : String} (hu : req.user? ≠ some uid) :
    Table.Untouched ws uid := by
  rcases mem_trace hm.trace List.mem_cons_self with ⟨m, r, evs, hcall, htrace, -, he⟩ | hweb
  · obtain ⟨-, r', rfl, rfl | ⟨user, ⟨hid, -⟩, rfl, -⟩⟩ := usersCommitted_cases htrace he
    · intro w hw
      cases hw
    · intro w hw
      unfold passwordHashChange at hw
      split_ifs at hw
      · cases hw
      · obtain rfl := List.mem_singleton.1 hw
        show user.id ≠ uid
        rintro rfl
        apply hu
        rw [hid]
        exact hcall.user? rfl
  · cases hweb with
    | saved hid =>
      intro w hw
      obtain rfl := List.mem_singleton.1 hw
      rintro rfl
      apply hu
      rw [← hid]
      rfl

/-- The write set for `private_certificates` is for the row of the user of the request. -/
theorem untouched_privateKeys {req : Request} {i : ℕ} {ws : List PrivateKeyWrite}
    (hm : Move P c c' req (.privateKeysCommitted i ws)) {uid : String}
    (hu : req.user? ≠ some uid) : Table.Untouched ws uid := by
  obtain ⟨m, r, I, stored, hcall, rfl⟩ := keyWrite_of_move hm
  have hne : I.user.id ≠ uid := by
    rintro rfl
    apply hu
    rw [I.authenticated.1]
    exact hcall.user? rfl
  intro w hw
  obtain rfl := List.mem_singleton.1 hw
  cases stored
  · exact hne
  · exact hne

/-- A revocation finds the row of the user in the snapshot, and so in the table. -/
theorem uid_of_revocation {s : State} {t : Table PublicCertificate}
    (hext : Extends t s.publicCertificates) {uid : String} {ws : List CertificateWrite}
    {since time : Time} (hws : RevokesAll uid t since ws time) {p : PublicCertificate}
    (hp : p ∈ s.publicCertificates.rows) (hmem : revocation p.serialNr ∈ ws) : p.uid = uid := by
  obtain ⟨p₀, hp₀, heq, -⟩ := hws.sound _ hmem
  obtain ⟨hrow, ⟨hu, -⟩⟩ : p₀ ∈ t.rows ∧ p₀.uid = uid ∧ p₀.isRevoked = false := by
    simpa [unrevokedCertificates, and_assoc] using hp₀
  obtain ⟨q, hq, hlater⟩ := hext p₀ hrow
  have hserial : q.serialNr = p.serialNr :=
    hlater.serialNr.trans (Write.update.inj heq).1.symm
  obtain rfl := Table.eq_of_key_eq hq hp hserial
  exact hlater.uid.trans hu

/-- The write set for `public_certificates` revokes and inserts rows of the user of the request. -/
theorem user?_of_certificates {req : Request} {i : ℕ} {ws : List CertificateWrite} {time : Time}
    (hm : Move P c c' req (.certificatesCommitted i ws time)) (hext : SnapshotsExtend c.shared) :
    (∀ p ∈ c.shared.publicCertificates.rows, revocation p.serialNr ∈ ws →
      req.user? = some p.uid) ∧ ∀ p ∈ Table.added ws, req.user? = some p.uid := by
  rcases commit_of_move hm with hiss | hrev
  · obtain ⟨⟨m, r, hcall, I, rfl, -, hread, -, -⟩⟩ := hiss
    have huser : req.user? = some I.user.id := by
      rw [I.authenticated.1]
      exact hcall.user? rfl
    constructor
    · intro p hp hmem
      have hrev : revocation p.serialNr ∈ I.revocations := by
        simpa [Issuance.writes, revocation] using hmem
      rw [uid_of_revocation (hext i _ _ hread) I.revokesAll hp hrev]
      exact huser
    · intro p hp
      rw [I.added_writes] at hp
      rw [List.mem_singleton.1 hp]
      exact huser
  · obtain ⟨R⟩ := hrev
    constructor
    · intro p hp hmem
      rw [uid_of_revocation (hext i _ _ R.certificatesRead) R.revokesAll hp hmem]
      exact R.calls.user? rfl
    · intro p hp
      rw [R.added] at hp
      cases hp

theorem certificatesOf_move {req : Request} {i : ℕ} {ws : List CertificateWrite} {time : Time}
    (hm : Move P c c' req (.certificatesCommitted i ws time)) (hext : SnapshotsExtend c.shared)
    {t : Table PublicCertificate} (hc : c.shared.publicCertificates.commit ws = some t)
    {uid : String} (hu : req.user? ≠ some uid) :
    t.rows.filter (fun p => p.uid = uid) =
      c.shared.publicCertificates.rows.filter fun p => p.uid = uid := by
  obtain ⟨hrevoked, hadded⟩ := user?_of_certificates hm hext
  apply Table.filter_of_commit hc
  · intro p hp
    refine ⟨by rw [(later_patched ws p).uid], fun hsel => ?_⟩
    rw [patched_certificate, if_neg]
    intro hmem
    apply hu
    rw [hrevoked p hp hmem, of_decide_eq_true hsel]
  · intro p hp
    simp only [decide_eq_false_iff_not]
    rintro rfl
    exact hu (hadded p hp)

/-- A step of a request leaves the rows of all other users as they are. -/
theorem rowsOf_of_move {req : Request} {e : Event} (hm : Move P c c' req e)
    (hext : SnapshotsExtend c.shared) {uid : String} (hu : req.user? ≠ some uid) :
    c'.shared.rowsOf uid = c.shared.rowsOf uid := by
  have hocc := hm.occurs
  generalize hs : c.shared = s at hocc
  generalize hs' : c'.shared = s' at hocc
  cases hocc with
  | usersCommitted hc =>
    subst hs
    have hrows := Table.filter_key_of_commit hc (untouched_users hm hu)
    exact congrArg (fun rows => { c.shared.rowsOf uid with users := rows }) hrows
  | certificatesCommitted hc =>
    subst hs
    have hrows := certificatesOf_move hm hext hc hu
    exact congrArg (fun rows => { c.shared.rowsOf uid with publicCertificates := rows }) hrows
  | privateKeysCommitted hc =>
    subst hs
    have hrows := Table.filter_key_of_commit hc (untouched_privateKeys hm hu)
    exact congrArg (fun rows => { c.shared.rowsOf uid with privateCertificates := rows }) hrows
  | _ => rfl

theorem rowsOf_of_step (h₀ : s₀.history = []) (h : (system P).Reaches (.initial s₀) c)
    {i : ℕ} {ch : Choice} (ha : (system P).step (.step i ch) c = some c') {req : Request}
    (hreq : c.request i = some req) {uid : String} (hu : req.user? ≠ some uid) :
    c'.shared.rowsOf uid = c.shared.rowsOf uid := by
  rcases moves_of_step h₀ h ha with hs | ⟨d, hs⟩ | ⟨req', e, ch', hact, hm⟩
  · rw [hs]
  · rw [hs]
    rfl
  · obtain ⟨rfl, -⟩ := Act.step.inj hact
    obtain rfl : req = req' := Option.some.inj (hreq.symm.trans hm.request)
    exact rowsOf_of_move hm (snapshotsExtend_of_reaches h₀ h) hu

/-- The action is not a step of a request of the user. -/
def NotOf (uid : String) (a : Act Request Choice ℕ) (c _ : Configuration) : Prop :=
  ∀ i ch req, a = .step i ch → c.request i = some req → req.user? ≠ some uid

/-- A run without a step of a request of the user leaves the rows of the user as they are. -/
theorem rowsOf_of_run (h₀ : s₀.history = []) (h : (system P).Reaches (.initial s₀) c)
    {as : List (Act Request Choice ℕ)} (hrun : (system P).run as c = some c') {uid : String}
    (halong : (system P).Along (NotOf uid) as c) : c'.shared.rowsOf uid = c.shared.rowsOf uid := by
  refine System.run_induction (I := fun b => b.shared.rowsOf uid = c.shared.rowsOf uid) rfl ?_ hrun
    halong
  intro a b b' hreach hkept ha hnot
  rw [← hkept]
  cases a with
  | arrive i r =>
    cases System.step_cases ha
    rfl
  | env d =>
    cases System.step_cases ha
    rfl
  | step i ch =>
    cases hreq : b.request i with
    | none =>
      cases System.step_cases ha with
      | step hhere => simp [Config.request, hhere] at hreq
    | some req => exact rowsOf_of_step h₀ (h.trans hreach) ha hreq (hnot i ch req rfl hreq)

/-! ## Archives -/

theorem cacheKey_injective : Function.Injective CertController.cacheKey := by
  intro uid uid' h
  have hlist := congrArg String.toList h
  simp only [CertController.cacheKey, String.toList_append] at hlist
  exact String.toList_injective (List.append_cancel_right hlist)

/-- An entry of the memory cache was put there, and a reader found it before it expired. -/
structure CacheTracked (s : State) : Prop where
  entry : ∀ key entry, s.memoryCache key = some entry → ∃ j time,
    .cacheSet j key entry.value entry.expires time ∈ s.history ∧ time ≤ s.now
  read : ∀ i key archive readAt, .cacheRead i key (some archive) readAt ∈ s.history →
    ∃ j expires time, .cacheSet j key archive expires time ∈ s.history ∧ time ≤ readAt ∧
      readAt < expires

theorem cacheTracked_tick {s : State} (d : ℕ) (h : CacheTracked s) : CacheTracked (tick d s) := by
  refine ⟨fun key entry hentry => ?_, h.read⟩
  obtain ⟨j, time, hmem, hle⟩ := h.entry key entry hentry
  exact ⟨j, time, hmem, hle.trans (Nat.le_add_right _ _)⟩

theorem cacheTracked_other {s s' : State} {e : Event} (h : CacheTracked s)
    (hhist : s'.history = e :: s.history) (hnow : s'.now = s.now)
    (hcache : s'.memoryCache = s.memoryCache)
    (hread : ∀ i key archive readAt, e ≠ .cacheRead i key (some archive) readAt) :
    CacheTracked s' := by
  constructor
  · intro key entry hentry
    rw [hcache] at hentry
    obtain ⟨j, time, hmem, hle⟩ := h.entry key entry hentry
    rw [hhist, hnow]
    exact ⟨j, time, List.mem_cons_of_mem _ hmem, hle⟩
  · intro i key archive readAt hmem
    rw [hhist] at hmem ⊢
    rcases List.mem_cons.1 hmem with heq | hmem
    · exact absurd heq.symm (hread i key archive readAt)
    · obtain ⟨j, expires, time, hset, hle, hlt⟩ := h.read i key archive readAt hmem
      exact ⟨j, expires, time, List.mem_cons_of_mem _ hset, hle, hlt⟩

theorem cacheTracked_occurs {e : Event} {s s' : State} (he : Occurs e s s')
    (h : CacheTracked s) : CacheTracked s' := by
  cases he with
  | @cacheSet i key value expires _ =>
    constructor
    · intro key' entry hentry
      by_cases hkey : key' = key
      · subst hkey
        simp only [State.record, Function.update_self, Option.some.injEq] at hentry
        subst hentry
        exact ⟨i, s.now, List.mem_cons_self, le_refl _⟩
      · simp only [State.record, Function.update_of_ne hkey] at hentry
        obtain ⟨j, time, hmem, hle⟩ := h.entry key' entry hentry
        exact ⟨j, time, List.mem_cons_of_mem _ hmem, hle⟩
    · intro j key' archive readAt hmem
      obtain ⟨k, expires', time, hset, hle, hlt⟩ :=
        h.read j key' archive readAt (List.mem_of_ne_of_mem (by simp) hmem)
      exact ⟨k, expires', time, List.mem_cons_of_mem _ hset, hle, hlt⟩
  | @cacheRead i key _ =>
    constructor
    · intro key' entry hentry
      obtain ⟨j, time, hmem, hle⟩ := h.entry key' entry hentry
      exact ⟨j, time, List.mem_cons_of_mem _ hmem, hle⟩
    · intro j key' archive readAt hmem
      rcases List.mem_cons.1 hmem with heq | hmem
      · obtain ⟨-, rfl, hcached, rfl⟩ := Event.cacheRead.inj heq
        obtain ⟨entry, hentry, hvalue⟩ := Option.bind_eq_some_iff.1 hcached.symm
        split_ifs at hvalue with hlt
        obtain ⟨k, time, hset, hle⟩ := h.entry key' entry hentry
        rw [Option.some.inj hvalue] at hset
        exact ⟨k, entry.expires, time, List.mem_cons_of_mem _ hset, hle, hlt⟩
      · obtain ⟨k, expires, time, hset, hle, hlt⟩ := h.read j key' archive readAt hmem
        exact ⟨k, expires, time, List.mem_cons_of_mem _ hset, hle, hlt⟩
  | _ => exact cacheTracked_other h rfl rfl rfl (by simp)

theorem cacheTracked_of_reaches (h₀ : s₀.history = []) (hcache : ∀ key, s₀.memoryCache key = none)
    (h : (system P).Reaches (.initial s₀) c) : CacheTracked c.shared := by
  refine invariant_of_moves h₀ ?_ (fun d _ => cacheTracked_tick d)
    (fun _ hm => cacheTracked_occurs hm.occurs) h
  constructor
  · intro key entry hentry
    rw [hcache] at hentry
    cases hentry
  · intro i key archive readAt hmem
    rw [h₀] at hmem
    cases hmem

/-- A row of `private_certificates` was stored by an issuance, and a reader found the row of its
key. -/
structure KeysTracked (s : State) : Prop where
  row : ∀ k ∈ s.privateCertificates.rows, ∃ e ∈ s.history, e.stored = some k
  read : ∀ i uid k, .privateKeyRead i uid (some k) ∈ s.history →
    k.uid = uid ∧ ∃ e ∈ s.history, e.stored = some k

/-- A row after a commit of `AddPrivateKey` is an old one or the one that is stored. -/
theorem row_of_keyWrite {t t' : Table PrivateKey} {stored : Bool} {k k' : PrivateKey}
    (h : t.commit [privateKeyWrite stored k] = some t') (hk : k' ∈ t'.rows) :
    k' ∈ t.rows ∨ k' = k := by
  by_cases hu : k'.uid = k.uid
  · right
    have hfind : t'.find? k.uid = some k' := Table.find?_eq_some_iff.2 ⟨hk, hu⟩
    rw [find?_of_keyWrite h] at hfind
    exact (Option.some.inj hfind).symm
  · left
    have huntouched : Table.Untouched [privateKeyWrite stored k] k'.uid := by
      intro w hw
      obtain rfl := List.mem_singleton.1 hw
      cases stored
      · exact Ne.symm hu
      · exact Ne.symm hu
    have hfind := Table.find?_of_commit h huntouched
    have hk' : t'.find? k'.uid = some k' := Table.find?_of_mem hk
    rw [hk'] at hfind
    exact (Table.find?_eq_some_iff.1 hfind.symm).1

theorem keysTracked_move {req : Request} {e : Event} (hm : Move P c c' req e)
    (h : KeysTracked c.shared) : KeysTracked c'.shared := by
  have hkeep : ∀ k, (∃ e' ∈ c.shared.history, e'.stored = some k) →
      ∃ e' ∈ c'.shared.history, e'.stored = some k := by
    rintro k ⟨e', he', hk⟩
    rw [hm.occurs.history]
    exact ⟨e', List.mem_cons_of_mem _ he', hk⟩
  constructor
  · intro k hk
    have hocc := hm.occurs
    generalize hs : c.shared = s at hocc
    generalize hs' : c'.shared = s' at hocc hk
    cases hocc with
    | @privateKeysCommitted i ws _ t hc =>
      obtain ⟨m, r, I, stored, -, rfl⟩ := keyWrite_of_move hm
      rcases row_of_keyWrite hc hk with hk | rfl
      · subst hs
        rw [← hs']
        exact hkeep k (h.row k hk)
      · exact ⟨_, List.mem_cons_self, stored_keyWrite I i stored⟩
    | _ =>
      subst hs
      rw [← hs']
      exact hkeep k (h.row k hk)
  · intro i uid k hmem
    have hocc := hm.occurs
    rw [hocc.history] at hmem
    rcases List.mem_cons.1 hmem with heq | hmem
    · subst heq
      have hfind := find?_of_privateKeyRead hocc
      obtain ⟨hk, hu⟩ := Table.find?_eq_some_iff.1 hfind
      exact ⟨hu, hkeep k (h.row k hk)⟩
    · obtain ⟨hu, hstored⟩ := h.read i uid k hmem
      exact ⟨hu, hkeep k hstored⟩

theorem keysTracked_of_reaches (h₀ : s₀.history = []) (hkeys : s₀.privateCertificates = ∅)
    (h : (system P).Reaches (.initial s₀) c) : KeysTracked c.shared := by
  refine invariant_of_moves h₀ ?_ (fun d s hs => ⟨hs.row, hs.read⟩)
    (fun _ hm => keysTracked_move hm) h
  constructor
  · intro k hk
    rw [hkeys] at hk
    cases hk
  · intro i uid k hmem
    rw [h₀] at hmem
    cases hmem

/-- `IssueCertificate` made the archive for the user, and committed its certificate. -/
def ProducedFor (P : Platform) (s : State) (uid : String) (archive : Pkcs12Archive) : Prop :=
  ∃ (machineName : String) (r : CertRequest) (I : Issuance P machineName r) (j : ℕ),
    r.uid = uid ∧ archive = I.archive ∧ .certificatesCommitted j I.writes I.time ∈ s.history

/-- The password of a form that asks for an archive. -/
def WebRequest.password? : WebRequest → Option String
  | .download d => some d.password
  | .new d => some d.password
  | _ => none

/-- Process `j` is a `Download` or `New` of the user, its password was that of the row that it read,
and it put the archive into the memory cache. -/
structure Supplied (P : Platform) (c : Configuration) (j : ℕ) (uid : String)
    (archive : Pkcs12Archive) (time : Time) : Prop where
  request : ∃ machineName w password user, c.request j = some (.web machineName uid w) ∧
    w.password? = some password ∧ .userRead j uid (some user) ∈ c.shared.history ∧
      Authenticated P uid password user
  cached : ∃ expires,
    .cacheSet j (CertController.cacheKey uid) archive expires time ∈ c.shared.history

/-- The archive in the answer to a call that an action makes for it. -/
theorem producedFor_of_fetch (h₀ : s₀.history = []) (hkeys : s₀.privateCertificates = ∅)
    (h : (system P).Reaches (.initial s₀) c) {j : ℕ} {machineName uid : String} {w : WebRequest}
    {r : ApiRequest} (hfetch : Fetches uid w r) {evs : List Event}
    (hevs : ∀ e ∈ evs, e ∈ c.shared.history) {archive : Pkcs12Archive}
    (hanswer : ApiAnswer P j machineName r (.ok archive) evs) :
    ProducedFor P c.shared uid archive ∧ ∃ password user, w.password? = some password ∧
      .userRead j uid (some user) ∈ c.shared.history ∧ Authenticated P uid password user := by
  cases hfetch with
  | @download d =>
    obtain ⟨user, key, hauth, rfl, rfl⟩ := hanswer archive rfl
    have hread := hevs _ List.mem_cons_self
    refine ⟨?_, d.password, user, rfl, hevs _ (by simp), hauth⟩
    obtain ⟨hu, e, he, hstored⟩ := (keysTracked_of_reaches h₀ hkeys h).read _ _ _ hread
    obtain ⟨m, r, I, rfl, hcommit, -⟩ := issuance_of_stored h₀ h he hstored
    exact ⟨m, r, I, e.pid, I.authenticated.1.symm.trans hu, rfl, (State.mem_own.1 hcommit).1⟩
  | @new d suite =>
    obtain ⟨I, bytes, stored, -, rfl, rfl⟩ := hanswer.archive archive rfl
    refine ⟨⟨_, _, I, j, rfl, rfl, hevs _ ?_⟩, d.password, I.user, rfl, hevs _ ?_, I.authenticated⟩
    · simp [Issuance.delivered, Issuance.committed]
    · simp [Issuance.delivered, Issuance.committed, newRequest]

/-- An archive in the memory cache was put there for the user whose key it has. -/
theorem supplied_of_cacheSet (h₀ : s₀.history = []) (hkeys : s₀.privateCertificates = ∅)
    (h : (system P).Reaches (.initial s₀) c) {j : ℕ} {uid : String} {archive : Pkcs12Archive}
    {expires time : Time}
    (he : .cacheSet j (CertController.cacheKey uid) archive expires time ∈ c.shared.history) :
    Supplied P c j uid archive time ∧ ProducedFor P c.shared uid archive ∧
      expires ≤ addMinutes time 1 := by
  obtain ⟨req, hreq, hown, htrace⟩ := trace_of_mem_history h₀ h he
  rcases mem_trace htrace hown with ⟨m, r, evs, -, hapi, -, he'⟩ | hweb
  · exact absurd he' (not_cacheSet_of_apiTrace hapi)
  · generalize hkey : CertController.cacheKey uid = key at hweb
    cases hweb with
    | @cacheSet m uid' w r evs _ _ _ hfetch hsub hcaches =>
      obtain rfl := cacheKey_injective hkey
      obtain ⟨hproduced, password, user, hpassword, hread, hauth⟩ := producedFor_of_fetch h₀ hkeys h
        hfetch (fun e he => (State.mem_own.1 (hsub he)).1) hcaches.answer
      exact ⟨⟨⟨m, w, password, user, hreq, hpassword, hread, hauth⟩, expires, he⟩, hproduced,
        hcaches.expires_le⟩

/-- In every run: a step of a request leaves the rows of all other users as they are, and an archive
that a session of the web server is answered with was issued to the user of the session, and was put
into the memory cache, less than a minute before it was read, by a `Download` or `New` of this user
with the right password. -/
theorem isolation_of_reaches (P : Platform) {s₀ : State} (h₀ : s₀.history = [])
    (hkeys : s₀.privateCertificates = ∅) (hcache : ∀ key, s₀.memoryCache key = none)
    {c : Configuration} (h : (system P).Reaches (.initial s₀) c) :
    (∀ i ch c' req uid, (system P).step (.step i ch) c = some c' → c.request i = some req →
      req.user? ≠ some uid → c'.shared.rowsOf uid = c.shared.rowsOf uid) ∧
    (∀ i machineName uid w reply archive,
      c.procs i = some (.web machineName uid w, .done reply) → reply.archive? = some archive →
        ProducedFor P c.shared uid archive ∧ w = .downloadGet ∧ ∃ readAt j time,
          .cacheRead i (CertController.cacheKey uid) (some archive) readAt ∈ c.shared.history ∧
            Supplied P c j uid archive time ∧ time ≤ readAt ∧ readAt < addMinutes time 1) := by
  constructor
  · intro i ch c' req uid ha hreq hu
    exact rowsOf_of_step h₀ h ha hreq hu
  · intro i m uid w reply archive hdone harchive
    have hanswer : WebAnswer i uid w reply (c.shared.own i) := answer_of_reaches h₀ h hdone
    obtain ⟨rfl, readAt, hown⟩ := hanswer.archive archive harchive
    have hread : .cacheRead i (CertController.cacheKey uid) (some archive) readAt ∈
        c.shared.history := by
      have hmem : .cacheRead i (CertController.cacheKey uid) (some archive) readAt ∈
          c.shared.own i := by
        rw [hown]
        exact List.mem_cons_self
      exact (State.mem_own.1 hmem).1
    obtain ⟨j, expires, time, hset, hle, hlt⟩ :=
      (cacheTracked_of_reaches h₀ hcache h).read _ _ _ _ hread
    obtain ⟨hsupplied, hproduced, hexpires⟩ := supplied_of_cacheSet h₀ hkeys h hset
    exact ⟨hproduced, rfl, readAt, j, time, hread, hsupplied, hle, lt_of_lt_of_le hlt hexpires⟩

section

open Deployment

/-- The form for a new certificate, of a session of `a3`. -/
def newCertificate : Request :=
  .web "aslcert01" "a3" (.new ⟨"correct horse battery", "Astrid"⟩)

/-- A download of what the memory cache holds for `a3`. -/
def fileRequest : Request := .web "aslcert01" "a3" .downloadGet

/-- Process 1 was answered with a file. -/
def fileSent (c : Configuration) : Bool :=
  match c.answer 1 with
  | some (req, .file _) => req = fileRequest
  | _ => false

theorem procs_of_fileSent {c : Configuration} (h : fileSent c = true) :
    ∃ archive, c.procs 1 = some (fileRequest, .done (.file archive)) := by
  simp only [fileSent] at h
  split at h
  · rename_i req archive hanswer
    obtain rfl : req = fileRequest := by simpa using h
    exact ⟨archive, Config.procs_of_answer hanswer⟩
  · cases h

/-- The certificate of `a3` is committed, beside a row of `ms`. -/
def commitsForAndres : Bool :=
  ((system platform).run (.arrive 0 newCertificate :: steps 0 12) (.initial (installed twoUsers))).any
    fun c => decide (c.request 0 = some newCertificate ∧ (c.shared.rowsOf "ms").users = [michael]) &&
      ((system platform).step (.step 0 .ok) c).any fun c' =>
        decide (c'.shared.rowsOf "a3" ≠ c.shared.rowsOf "a3")

/-- A user asks for a certificate, which leaves the other user's rows alone, and gets the file. -/
theorem isolation_newCertificate :
    (∃ c c' : Configuration, (system platform).step (.step 0 .ok) c = some c' ∧
      c'.shared.rowsOf "a3" ≠ c.shared.rowsOf "a3" ∧ (c.shared.rowsOf "ms").users = [michael] ∧
      c'.shared.rowsOf "ms" = c.shared.rowsOf "ms") ∧
    ∃ (c : Configuration) (archive : Pkcs12Archive) (j : ℕ) (time : Time),
      (system platform).Reaches (.initial (installed twoUsers)) c ∧
      c.procs 1 = some (fileRequest, .done (.file archive)) ∧
      ProducedFor platform c.shared "a3" archive ∧ Supplied platform c j "a3" archive time := by
  constructor
  · have hcommits : commitsForAndres = true := by decide +kernel
    obtain ⟨c, hc, hcommits⟩ := (Option.any_eq_true _ _).1 hcommits
    obtain ⟨hhere, hcommits⟩ := Bool.and_eq_true_iff.1 hcommits
    obtain ⟨hreq, husers⟩ := of_decide_eq_true hhere
    obtain ⟨c', hstep, hchanged⟩ := (Option.any_eq_true _ _).1 hcommits
    obtain ⟨hrows, -⟩ := isolation_of_reaches platform rfl rfl (fun _ => rfl) (System.reaches_of_run hc)
    exact ⟨c, c', hstep, of_decide_eq_true hchanged, husers,
      hrows 0 .ok c' newCertificate "ms" hstep hreq (by decide)⟩
  · have hrun : ((system platform).run
        (.arrive 0 newCertificate :: (steps 0 24 ++ .arrive 1 fileRequest :: steps 1 1))
        (.initial (installed twoUsers))).map fileSent = some true := by decide +kernel
    obtain ⟨c, hc, hsent⟩ := Option.map_eq_some_iff.1 hrun
    obtain ⟨archive, hdone⟩ := procs_of_fileSent hsent
    have hreach := System.reaches_of_run hc
    obtain ⟨-, hfile⟩ := isolation_of_reaches platform rfl rfl (fun _ => rfl) hreach
    obtain ⟨hproduced, -, readAt, j, time, -, hsupplied, -⟩ := hfile 1 _ _ _ _ archive hdone rfl
    exact ⟨c, archive, j, time, hreach, hdone, hproduced, hsupplied⟩

end

end IMoviesCA
