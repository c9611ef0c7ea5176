import IMoviesCA.Contract

/-!
# The handlers meet their contracts

Each operation of the two servers leaves the events of its trace, and its answer tells of them what
`ApiAnswer` and `WebAnswer` say.  The proofs follow the programs statement by statement.
-/

namespace IMoviesCA

open IssueController CADBModifier UserDBAuthenticator

variable {P : Platform} {i : ℕ} {base evs : List Event} {L E : List Event → Prop} {T : Time}

/-! ## Users -/

theorem meets_authenticateAndGetUser {uid password : String}
    {post : Option User → List Event → Time → Prop} (hE : E evs)
    (hread : ∀ user, IsRowOf uid user → L (.userRead i uid user :: evs))
    (hsome : ∀ user t, T ≤ t → Authenticated P uid password user →
      post (some user) (.userRead i uid (some user) :: evs) t)
    (hnone : ∀ user t, T ≤ t → IsRowOf uid user →
      post none (.userRead i uid user :: evs) t) :
    Meets i base L E evs T (authenticateAndGetUser P uid password) post := by
  refine meets_bind (meets_findUser hE fun user t ht hrow => ⟨hread user hrow, ?_⟩)
  apply meets_pure
  intro t' ht'
  cases user with
  | none => exact hnone none t' (ht.trans ht') hrow
  | some u =>
    by_cases hpwd : u.passwordHash = computePasswordHash P password
    · have hfilter : (some u).filter (fun user => user.passwordHash == computePasswordHash P password)
          = some u := by simp [hpwd]
      rw [hfilter]
      exact hsome u t' (ht.trans ht') ⟨hrow u rfl, hpwd⟩
    · have hfilter : (some u).filter (fun user => user.passwordHash == computePasswordHash P password)
          = none := by simp [hpwd]
      rw [hfilter]
      exact hnone (some u) t' (ht.trans ht') hrow

/-! ## Revocation -/

/-- The loop keeps the serial numbers of the certificates that have not expired when it looks at
them. -/
theorem meets_revokeLoop {post : List UInt64 → List Event → Time → Prop} (hE : E evs)
    (rows : List PublicCertificate) (revoked : List UInt64) (T : Time)
    (h : ∀ kept t, T ≤ t → (∀ n ∈ kept, ∃ p ∈ rows, n = p.serialNr ∧ T ≤ p.parse.notAfter) →
      (∀ p ∈ rows, p.serialNr ∈ kept ∨ p.parse.notAfter < t) → post (revoked ++ kept) evs t) :
    Meets i base L E evs T (revokeLoop rows revoked) post := by
  induction rows generalizing revoked T with
  | nil =>
    apply meets_pure
    intro t ht
    have := h [] t ht (by simp) (by simp)
    rwa [List.append_nil] at this
  | cons p rows ih =>
    refine meets_bind (meets_clock hE fun now hnow => ?_)
    by_cases hexp : now > p.parse.notAfter
    · rw [if_pos hexp]
      refine ih revoked now fun kept t ht hsound hcomplete => h kept t (hnow.trans ht) ?_ ?_
      · intro n hn
        obtain ⟨q, hq, rfl, hle⟩ := hsound n hn
        exact ⟨q, List.mem_cons_of_mem _ hq, rfl, hnow.trans hle⟩
      · intro q hq
        rcases List.mem_cons.1 hq with rfl | hq
        · exact Or.inr (lt_of_lt_of_le hexp ht)
        · exact hcomplete q hq
    · rw [if_neg hexp]
      apply ih (revoked ++ [p.serialNr]) now
      intro kept t ht hsound hcomplete
      rw [List.append_assoc]
      refine h (p.serialNr :: kept) t (hnow.trans ht) ?_ ?_
      · intro n hn
        rcases List.mem_cons.1 hn with rfl | hn
        · exact ⟨p, List.mem_cons_self, rfl, hnow.trans (Nat.le_of_not_gt hexp)⟩
        · obtain ⟨q, hq, rfl, hle⟩ := hsound n hn
          exact ⟨q, List.mem_cons_of_mem _ hq, rfl, hnow.trans hle⟩
      · intro q hq
        rcases List.mem_cons.1 hq with rfl | hq
        · exact Or.inl List.mem_cons_self
        · exact (hcomplete q hq).imp_left (List.mem_cons_of_mem _)

/-- The statements of the revocation of a user's certificates. -/
theorem meets_revocations {uid : String} {snapshot : Table PublicCertificate} {since : Time}
    {post : List CertificateWrite → List Event → Time → Prop} (hE : E evs) (hsince : since ≤ T)
    (f : List CertificateWrite → Action (List CertificateWrite))
    (h : ∀ ws t, T ≤ t → RevokesAll uid snapshot since ws t → Meets i base L E evs t (f ws) post) :
    Meets i base L E evs T
      (revokeLoop (unrevokedCertificates uid snapshot) [] >>= fun revoked =>
        f (revoked.map revocation)) post := by
  refine meets_bind (meets_revokeLoop hE _ _ _ fun kept t ht hsound hcomplete => ?_)
  refine h _ t ht ⟨?_, ?_⟩
  · intro w hw
    obtain ⟨n, hn, rfl⟩ := List.mem_map.1 hw
    obtain ⟨p, hp, rfl, hle⟩ := hsound n hn
    exact ⟨p, hp, rfl, hsince.trans hle⟩
  · intro p hp
    exact (hcomplete p hp).imp_left List.mem_map_of_mem

theorem RevokesAll.mono {uid : String} {snapshot : Table PublicCertificate} {since : Time}
    {ws : List CertificateWrite} {t t' : Time} (h : RevokesAll uid snapshot since ws t)
    (ht : t ≤ t') : RevokesAll uid snapshot since ws t' :=
  ⟨h.sound, fun p hp => (h.complete p hp).imp_right fun hlt => lt_of_lt_of_le hlt ht⟩

/-- Inside a transaction the statements are only executed. -/
theorem meets_revokeAllCertificatesOfUser {user : User} {snapshot : Table PublicCertificate}
    {since : Time} {post : List CertificateWrite → List Event → Time → Prop} (hE : E evs)
    (hsince : since ≤ T)
    (h : ∀ ws t, T ≤ t → RevokesAll user.id snapshot since ws t → post ws evs t) :
    Meets i base L E evs T (revokeAllCertificatesOfUser user (.transaction snapshot)) post := by
  refine meets_bind (meets_pure fun t ht => ?_)
  refine meets_revocations hE (hsince.trans ht)
    (fun ws => do saveChanges ws (.transaction snapshot); return ws) ?_
  intro ws t' ht' hws
  refine meets_bind (meets_silent (silent_executeCertificates ws) hE fun _ s hs _ => ?_)
  exact meets_pure fun t'' ht'' =>
    h ws t'' (ht.trans (ht'.trans (hs.trans ht''))) (hws.mono (hs.trans ht''))

/-- By itself the revocation is a transaction of its own. -/
theorem meets_revokeCertificate (r : RevokeRequest) (base : List Event) (T : Time) :
    Meets i base (RevokeTrace i r.uid) Open [] T (RevokeController.revokeCertificate r)
      fun reply evs _ => RevokeAnswer i r.uid reply evs := by
  refine meets_bind (meets_findUser trivial fun user t _ hrow => ⟨.userRead hrow, ?_⟩)
  cases user with
  | none => exact meets_pure fun _ _ h => by cases h
  | some u =>
    have hid : u.id = r.uid := hrow u rfl
    refine meets_bind (meets_bind (meets_readCertificates trivial fun snapshot t' _ =>
      ⟨.certificatesRead hid, ?_⟩))
    refine meets_revocations trivial le_rfl
      (fun ws => do saveChanges ws .autocommit; return ws) ?_
    intro ws t'' _ hws
    rw [hid] at hws
    have hevents : ∀ time, revocationEvents i u snapshot t' ws time =
        [.certificatesCommitted i ws time, .certificatesRead i snapshot t',
          .userRead i r.uid (some u)] := by
      intro time
      rw [revocationEvents, hid]
    refine meets_bind (meets_commitCertificates trivial fun time htime => ⟨?_, ?_⟩)
    · rw [← hevents]
      exact .committed hid (hws.mono htime)
    · refine meets_pure fun _ _ => meets_pure fun _ _ _ => ?_
      exact ⟨u, snapshot, t', ws, time, hid, hws.mono htime, (hevents time).symm⟩

/-! ## Issuing -/

section Issue

variable {machineName : String} {r : CertRequest}

theorem meets_createKey {cipherSuite : CipherSuite}
    {post : AsymmetricAlgorithm → List Event → Time → Prop} (hE : E evs)
    (h : ∀ key t, T ≤ t →
      L (.keyGenerated i key :: evs) ∧ post key (.keyGenerated i key :: evs) t) :
    Meets i base L E evs T (createKey cipherSuite) post := by
  unfold createKey
  split
  · exact meets_generateKey hE h
  · exact meets_generateKey hE h

/-- The transaction of the certificate: its commit is the event of an `Issuance`. -/
theorem meets_certificateTransaction {user : User} {key : AsymmetricAlgorithm}
    {req : CertificateRequest} {post : X509Certificate2 → List Event → Time → Prop}
    (huser : Authenticated P r.uid r.password user)
    (hreq : certificateRequest P user key r.requestedCipherSuite = some req)
    (h : ∀ (I : Issuance P machineName r) t, I.user = user → I.key = key →
      post I.certificate (I.committed i) t) :
    Meets i base (IssueTrace P i machineName r) Open
      [.keyGenerated i key, .userRead i r.uid (some user)] T
      (certificateTransaction (P.pfx (CAConfig.coreCACertPath machineName)) user req) post := by
  refine meets_bind (meets_silent (silent_mayThrow _) trivial fun _ s _ _ => ?_)
  refine meets_bind (meets_readCertificates trivial fun snapshot since _ =>
    ⟨.certificatesRead huser, ?_⟩)
  refine meets_bind (meets_clock trivial fun notBefore hbefore => ?_)
  refine meets_bind (meets_clock trivial fun now hnow => ?_)
  refine meets_bind (meets_silent (silent_mayThrow _) trivial fun _ s₁ hs₁ _ => ?_)
  refine meets_bind (meets_revokeAllCertificatesOfUser trivial (hbefore.trans (hnow.trans hs₁))
    fun revocations t₁ ht₁ hrevokes => ?_)
  refine meets_bind (meets_bind (meets_silent (silent_executeCertificates _) trivial
    fun _ s₂ hs₂ _ => ?_))
  apply meets_pure
  intro t₂ ht₂
  refine meets_bind (meets_commitCertificates trivial fun time htime => ?_)
  let I : Issuance P machineName r :=
    { user := user
      key := key
      request := req
      snapshot := snapshot
      since := since
      notBefore := notBefore
      now := now
      revocations := revocations
      time := time
      authenticated := huser
      request_eq := hreq
      since_le := hbefore
      notBefore_le := hnow
      now_le := hs₁.trans (ht₁.trans (hs₂.trans (ht₂.trans htime)))
      revokesAll := hrevokes.mono (hs₂.trans (ht₂.trans htime)) }
  exact ⟨.committed I, meets_pure fun t _ => h I t rfl rfl⟩

/-- After the commit: the backup, the export and the transaction of the archive. -/
theorem meets_deliver (I : Issuance P machineName r) :
    Meets i base (IssueTrace P i machineName r) Open (I.committed i) T
      (deliver P r I.user I.key I.certificate)
      fun reply evs _ => IssueAnswer P i machineName r reply evs := by
  unfold deliver backupPrivateKey
  refine meets_bind (meets_bind (meets_silent (silent_mayThrow _) trivial fun _ s _ _ => ?_))
  cases hbytes : I.backup with
  | none =>
    rw [Issuance.backup] at hbytes
    simp only [hbytes]
    exact meets_throw trivial
  | some bytes =>
    have henc := hbytes
    rw [Issuance.backup] at henc
    simp only [henc]
    refine meets_bind (meets_writeAllBytes trivial (fun n => ⟨.fileWritten I hbytes, trivial⟩)
      fun t _ => ?_)
    apply meets_silent (silent_mayThrow _) trivial
    intro _ s₁ _ _
    refine meets_bind (meets_silent (silent_mayThrow _) trivial fun _ s₂ _ _ => ?_)
    refine meets_bind (meets_bind (meets_silent (silent_mayThrow _) trivial fun _ s₃ _ _ => ?_))
    refine meets_bind (meets_silent (silent_anyPrivateKey _) trivial fun stored s₄ _ _ => ?_)
    refine meets_bind (meets_silent (silent_executePrivateKeys _) trivial fun _ s₅ _ _ => ?_)
    refine meets_commitPrivateKeys trivial fun t _ => ⟨.delivered I hbytes, ?_⟩
    refine meets_pure fun t _ =>
      ⟨fun archive harchive => ?_, fun _ => ⟨_, rfl⟩, fun hrefused => absurd rfl (hrefused _)⟩
    exact ⟨I, bytes, stored, hbytes, rfl, (Reply.ok.inj harchive).symm⟩

/-- A refused request has stored nothing. -/
theorem issueAnswer_of_open {reply : Reply} (hopen : Open evs)
    (hreply : ∀ archive, reply ≠ .ok archive) (hrefused : reply ≠ .serverError → LeavesNothing evs) :
    IssueAnswer P i machineName r reply evs :=
  ⟨fun archive h => absurd h (hreply archive), fun h => absurd hopen h, fun _ => hrefused⟩

theorem meets_issueCertificate (machineName : String) (r : CertRequest) (base : List Event)
    (T : Time) :
    Meets i base (IssueTrace P i machineName r) Open [] T (issueCertificate P machineName r)
      fun reply evs _ => IssueAnswer P i machineName r reply evs := by
  unfold issueCertificate
  split_ifs with hpass hsuite
  · exact meets_throw trivial
  · exact meets_pure fun _ _ => issueAnswer_of_open trivial nofun fun _ => by simp [LeavesNothing]
  · refine meets_bind (meets_authenticateAndGetUser trivial (fun user hrow => .userRead hrow)
      (fun user t _ huser => ?_) fun user t _ hrow => ?_)
    · refine meets_bind (meets_createKey trivial fun key t _ => ⟨.keyGenerated huser, ?_⟩)
      cases hreq : certificateRequest P user key r.requestedCipherSuite with
      | none => exact meets_throw trivial
      | some req =>
        refine meets_bind (meets_certificateTransaction huser hreq fun I t hI hkey => ?_)
        subst hI hkey
        exact meets_deliver I
    · refine meets_pure fun _ _ => issueAnswer_of_open trivial nofun fun _ => ?_
      simp [LeavesNothing, Event.keeps]

end Issue

/-! ## The other operations of the CA server -/

theorem meets_changePassword (r : PasswordChangeRequest) (base : List Event) (T : Time) :
    Meets i base (ChangePasswordTrace P i r) Open [] T (ChangePasswordController.changePassword P r)
      fun reply evs _ => ChangePasswordAnswer P i r reply evs := by
  refine meets_bind (meets_silent (silent_mayThrow _) trivial fun _ s _ _ => ?_)
  refine meets_bind (meets_authenticateAndGetUser trivial (fun user hrow => .userRead hrow)
    (fun user t _ huser => ?_) fun user t _ hrow => ?_)
  · have hrow : IsRowOf r.uid (some user) := fun u hu => Option.some.inj hu ▸ huser.1
    apply meets_bind
    unfold UserDBAuthenticator.changePassword
    split
    · refine meets_bind (meets_silent (silent_executeUsers _) trivial fun _ s₁ _ _ => ?_)
      apply meets_pure
      intro t₁ _
      refine meets_bind (meets_commitUsers trivial fun t₂ _ => ⟨.changed huser, ?_⟩)
      exact meets_pure fun _ _ _ => ⟨user, huser, rfl⟩
    · apply meets_pure
      intro t₁ _
      refine meets_bind (meets_commitUsers trivial fun t₂ _ => ⟨.refused hrow, ?_⟩)
      exact meets_pure fun _ _ h => by cases h
  · refine meets_bind (meets_commitUsers trivial fun t₂ _ => ⟨.refused hrow, ?_⟩)
    exact meets_pure fun _ _ h => by cases h

theorem meets_downloadPrivateKey (r : DownloadPrivateKeyRequest) (base : List Event) (T : Time) :
    Meets i base (DownloadTrace P i r) Open [] T (DownloadPrivateKeyController.downloadPrivateKey P r)
      fun reply evs _ => DownloadAnswer P i r reply evs := by
  refine meets_bind (meets_authenticateAndGetUser trivial (fun user hrow => .userRead hrow)
    (fun user t _ huser => ?_) fun user t _ hrow => ?_)
  · have hid : user.id = r.uid := huser.1
    unfold getPrivateKey
    simp only [hid]
    refine meets_bind (meets_findPrivateKey trivial fun key t' _ => ⟨.privateKeyRead huser, ?_⟩)
    cases key with
    | none => exact meets_pure fun _ _ _ h => by cases h
    | some key =>
      apply meets_pure
      intro _ _ archive harchive
      exact ⟨user, key, huser, Reply.ok.inj harchive, rfl⟩
  · exact meets_pure fun _ _ _ h => by cases h

theorem meets_getCRL (machineName : String) (base : List Event) (T : Time) :
    Meets i base (CrlTrace i) Open [] T (CRLController.getCRL P machineName)
      fun reply evs _ => CrlAnswer P i machineName reply evs := by
  refine meets_bind (meets_clock trivial fun now _ => ?_)
  refine meets_bind (meets_readCertificates trivial fun t t' _ => ⟨.certificatesRead, ?_⟩)
  apply meets_pure
  intro _ _ crl hcrl
  exact ⟨now, t, t', (Reply.crl.inj hcrl).symm, rfl⟩

theorem meets_apiController {valid : Bool} {action : Action Reply}
    {post : Reply → List Event → Time → Prop} (h : Meets i base L E evs T action post)
    (hbad : ∀ t, post (.badRequest none) evs t) :
    Meets i base L E evs T (apiController valid action) post := by
  unfold apiController
  split
  · exact h
  · exact meets_pure fun t _ => hbad t

/-- Every request to the CA server leaves the events of its trace. -/
theorem meets_api (machineName : String) (r : ApiRequest) (base : List Event) (T : Time) :
    Meets i base (ApiTrace P i machineName r) Open [] T (api P machineName r)
      fun reply evs _ => ApiAnswer P i machineName r reply evs := by
  cases r with
  | issue r =>
    exact meets_apiController (meets_issueCertificate machineName r base T)
      fun _ => issueAnswer_of_open trivial nofun fun _ => by simp [LeavesNothing]
  | revoke r => exact meets_apiController (meets_revokeCertificate r base T) fun _ h => by cases h
  | changePassword r =>
    exact meets_apiController (meets_changePassword r base T) fun _ h => by cases h
  | downloadPrivateKey r =>
    exact meets_apiController (meets_downloadPrivateKey r base T) fun _ _ h => by cases h
  | getCRL => exact meets_getCRL machineName base T
  | getCipherSuites => exact meets_pure fun _ _ => trivial

theorem apiTrace_start (P : Platform) (i : ℕ) (machineName : String) (r : ApiRequest) :
    ApiTrace P i machineName r [] := by
  cases r with
  | issue r => exact IssueTrace.start
  | revoke r => exact RevokeTrace.start
  | changePassword r => exact ChangePasswordTrace.start
  | downloadPrivateKey r => exact DownloadTrace.start
  | getCRL => exact CrlTrace.start
  | getCipherSuites => rfl

/-! ## The web server -/

/-- An exception is answered. -/
theorem safe_answer {p : Action Reply} {post : Reply → List Event → Time → Prop}
    (h : Meets i base L E evs T p post)
    (hbad : ∀ evs t, L evs → E evs → post .serverError evs t)
    (hL : L evs) {s : State} (hs : s.own i = evs ++ base) (hT : T ≤ s.now) :
    machine.Safe i (Rely i) (Keeps i base L) (fun reply => Ends i base L E T post (.ok reply))
      (answer p) s := by
  refine Machine.safe_bind ?_ (h hL s hs hT)
  rintro x s' ⟨evs', hown, hevs', hT', hx⟩
  cases x with
  | ok reply => exact Machine.safe_done ⟨evs', hown, hevs', hT', hx⟩
  | error f => exact Machine.safe_done ⟨evs', hown, hevs', hT', hbad evs' _ hevs' hx⟩

theorem meets_answer {E' : List Event → Prop} {p : Action Reply}
    {post : Reply → List Event → Time → Prop} (h : Meets i base L E evs T p post)
    (hbad : ∀ evs t, L evs → E evs → post .serverError evs t) :
    Meets i base L E' evs T (ExceptT.lift (answer p)) post := by
  intro hL s hs hT
  refine Machine.safe_bind ?_ (safe_answer h hbad hL hs hT)
  intro reply s' hends
  exact Machine.safe_done hends

theorem apiAnswer_serverError (P : Platform) (i : ℕ) (machineName : String) (r : ApiRequest)
    (evs : List Event) (h : Open evs) : ApiAnswer P i machineName r .serverError evs := by
  cases r with
  | issue r => exact issueAnswer_of_open h nofun fun hne => absurd rfl hne
  | revoke r => exact fun h => by cases h
  | changePassword r => exact fun h => by cases h
  | downloadPrivateKey r => exact fun _ h => by cases h
  | getCRL => exact fun _ h => by cases h
  | getCipherSuites => trivial

/-- A call of the web server, for what an answer of the CA server says of the events of the call. -/
theorem meets_send_of {machineName : String} {r : ApiRequest} {E : List Event → Prop}
    {A : Reply → List Event → Prop}
    (hapi : ∀ base T, Meets i base (ApiTrace P i machineName r) E [] T (api P machineName r)
      fun reply evs _ => A reply evs)
    (hbad : ∀ evs, E evs → A .serverError evs)
    (hanswer : ∀ reply evs, A reply evs → ApiAnswer P i machineName r reply evs) (base : List Event)
    (T : Time) :
    Meets i base (CallTrace P i machineName r) (fun _ => True) [] T
      (CoreCAClient.send P machineName r)
      fun reply evs _ => ∃ evs', evs = .received i reply :: evs' ∧ ApiTrace P i machineName r evs' ∧
        (reply = .badGateway ∨ A reply evs') := by
  refine meets_bind (meets_silent (silent_mayThrow _) trivial fun _ s _ _ => ?_)
  refine meets_bind (meets_part [] (ApiTrace P i machineName r) (fun _ => True) ?_
    (apiTrace_start P i machineName r) (fun evs' h => ?_) fun _ _ => trivial)
  · refine meets_mono ?_ (meets_answer (hapi _ s.now) fun evs _ _ => hbad evs)
    intro reply evs' t hA htrace
    rw [List.append_nil]
    refine meets_receive trivial ?_
    rintro r' (rfl | rfl) t' _
    · exact ⟨.received htrace (Or.inr (hanswer _ _ hA)), evs', rfl, htrace, Or.inr hA⟩
    · exact ⟨.received htrace (Or.inl rfl), evs', rfl, htrace, Or.inl rfl⟩
  · rw [List.append_nil]
    exact .running h

/-- What it received is an answer to the events of the call, or one of `nginx`. -/
theorem meets_send (machineName : String) (r : ApiRequest) (base : List Event) (T : Time) :
    Meets i base (CallTrace P i machineName r) (fun _ => True) [] T
      (CoreCAClient.send P machineName r)
      fun reply evs _ => ∃ evs', evs = .received i reply :: evs' ∧
        ApiTrace P i machineName r evs' ∧ ReceivedAnswer P i machineName r reply evs' :=
  meets_send_of (meets_api machineName r) (apiAnswer_serverError P i machineName r)
    (fun _ _ h => h) base T

/-- A success is no answer of `nginx`. -/
theorem revokeAnswer_of_received {machineName : String} {r : RevokeRequest} {reply : Reply}
    (h : ReceivedAnswer P i machineName (.revoke r) reply evs) : RevokeAnswer i r.uid reply evs := by
  intro hsuccess
  refine h.of_ne ?_ hsuccess
  rintro rfl
  cases hsuccess

/-- An answer that is neither an archive nor the statistics tells nothing. -/
theorem webAnswer_other {uid : String} {r : WebRequest} {reply : Reply} {evs : List Event}
    (harchive : reply.archive? = none) (hstats : ∀ stats, reply ≠ .adminStats stats) :
    WebAnswer i uid r reply evs := by
  constructor
  · intro archive h
    rw [harchive] at h
    cases h
  · intro stats h
    exact absurd h (hstats stats)

section Web

variable (machineName uid : String)

theorem meets_update (d : UserDetails) (base : List Event) (T : Time) :
    Meets i base (UpdateTrace P i machineName uid d) (fun _ => True) [] T
      (AccountController.update P machineName uid d)
      fun reply evs _ => WebAnswer i uid (.update d) reply evs := by
  unfold AccountController.update
  split
  · exact meets_pure fun _ _ => webAnswer_other rfl nofun
  · refine meets_bind (meets_findUser trivial fun user t _ hrow => ⟨.userRead hrow, ?_⟩)
    cases user with
    | none => exact meets_pure fun _ _ => webAnswer_other rfl nofun
    | some user =>
      obtain rfl : user.id = uid := hrow user rfl
      refine meets_bind (meets_silent (silent_countEmail _) trivial fun count s _ _ => ?_)
      split
      · unfold CoreCAClient.revokeCertificate
        refine meets_bind (meets_bind (meets_part [.userRead i user.id (some user)]
          (CallTrace P i machineName (.revoke ⟨user.id⟩)) (fun _ => True) ?_
          (.running (apiTrace_start P i machineName _)) (fun evs' h => .call rfl h)
          fun _ _ => trivial))
        refine meets_mono ?_ (meets_send machineName (.revoke ⟨user.id⟩) _ s.now)
        rintro reply evs' t ⟨evs, rfl, htrace, hanswer⟩ -
        apply meets_pure
        intro t₁ _
        refine meets_bind (meets_commitUsers trivial fun t₂ _ =>
          ⟨.saved rfl htrace (revokeAnswer_of_received hanswer), ?_⟩)
        exact meets_pure fun _ _ => webAnswer_other rfl nofun
      · exact meets_pure fun _ _ => webAnswer_other rfl nofun

theorem meets_updatePassword (d : UpdatePasswordDetails) (base : List Event) (T : Time) :
    Meets i base (CallTrace P i machineName
        (.changePassword ⟨uid, d.oldPassword, d.newPassword⟩)) (fun _ => True) [] T
      (AccountController.updatePassword P machineName uid d)
      fun reply evs _ => WebAnswer i uid (.updatePassword d) reply evs := by
  unfold AccountController.updatePassword
  split
  · exact meets_pure fun _ _ => webAnswer_other rfl nofun
  · unfold CoreCAClient.changePassword
    refine meets_bind (meets_bind (meets_mono ?_ (meets_send machineName _ base T)))
    rintro reply evs t -
    refine meets_pure fun _ _ => meets_pure fun _ _ => ?_
    split
    · exact webAnswer_other rfl nofun
    · exact webAnswer_other rfl nofun

theorem meets_downloadGet (base : List Event) (T : Time) :
    Meets i base (DownloadGetTrace i uid) (fun _ => True) [] T (CertController.downloadGet uid)
      fun reply evs _ => WebAnswer i uid .downloadGet reply evs := by
  refine meets_bind (meets_cacheTryGet trivial fun archive t _ => ⟨.cacheRead, ?_⟩)
  cases archive with
  | none => exact meets_pure fun _ _ => webAnswer_other rfl nofun
  | some archive =>
    apply meets_pure
    intro _ _
    refine ⟨fun archive' h => ?_, nofun⟩
    obtain rfl : archive = archive' := Option.some.inj h
    exact ⟨rfl, t, rfl⟩

theorem archiveOf_eq_some {reply : Reply} {archive : Pkcs12Archive}
    (h : CoreCAClient.archiveOf reply = some archive) : reply = .ok archive := by
  cases reply with
  | ok archive' => exact congrArg _ (Option.some.inj h)
  | _ => cases h

/-- An archive in an answer is put into the memory cache for a minute. -/
theorem meets_cacheArchive {r : ApiRequest} {evs : List Event} {reply : Reply}
    {archive : Pkcs12Archive} {message : String} {post : Reply → List Event → Time → Prop}
    (htrace : ApiTrace P i machineName r evs) (hanswer : ReceivedAnswer P i machineName r reply evs)
    (harchive : CoreCAClient.archiveOf reply = some archive)
    (hpost : ∀ expires time t, post (.redirect true message)
      (.cacheSet i (CertController.cacheKey uid) archive expires time :: .received i reply :: evs) t) :
    Meets i base (FetchTrace P i machineName uid r) (fun _ => True) (.received i reply :: evs) T
      (do
        let now ← clock
        cacheSet (CertController.cacheKey uid) archive (addMinutes now 1)
        return .redirect true message) post := by
  obtain rfl := archiveOf_eq_some harchive
  refine meets_bind (meets_clock trivial fun now _ => ?_)
  apply meets_bind
  have hexpires : ∀ t, now ≤ t → addMinutes now 1 ≤ addMinutes t 1 :=
    fun t ht => Nat.add_le_add_right ht _
  refine meets_cacheSet trivial fun t ht =>
    ⟨.cached ⟨htrace, hanswer.of_ne nofun, hexpires t ht⟩, meets_pure fun _ _ => ?_⟩
  exact hpost _ _ _

/-! ### The page of the certificates -/

theorem meets_validLoop {post : List Certificate → List Event → Time → Prop} (hE : E evs)
    (h : ∀ valid t, T ≤ t → post valid evs t) (rows : List PublicCertificate)
    (valid : List Certificate) : Meets i base L E evs T (CertController.validLoop P rows valid) post := by
  induction rows generalizing valid T with
  | nil => exact meets_pure fun t ht => h valid t ht
  | cons c rows ih =>
    refine meets_bind (meets_clock hE fun t₁ ht₁ => ?_)
    have h₁ : ∀ valid t, t₁ ≤ t → post valid evs t := fun valid t ht => h valid t (ht₁.trans ht)
    split
    · refine meets_bind (meets_clock hE fun t₂ ht₂ => ?_)
      have h₂ : ∀ valid t, t₂ ≤ t → post valid evs t := fun valid t ht => h₁ valid t (ht₂.trans ht)
      split
      · exact ih h₂ _
      · exact ih h₂ _
    · exact ih h₁ _

theorem meets_expiredLoop {post : List Certificate → List Event → Time → Prop} (hE : E evs)
    (h : ∀ expired t, T ≤ t → post expired evs t) (rows : List PublicCertificate)
    (expired : List Certificate) :
    Meets i base L E evs T (CertController.expiredLoop P rows expired) post := by
  induction rows generalizing expired T with
  | nil => exact meets_pure fun t ht => h expired t ht
  | cons c rows ih =>
    refine meets_bind (meets_clock hE fun t₁ ht₁ => ?_)
    have h₁ : ∀ expired t, t₁ ≤ t → post expired evs t := fun expired t ht => h expired t (ht₁.trans ht)
    split
    · exact ih h₁ _
    · exact ih h₁ _

theorem meets_certIndex (hL : ∀ evs, PageTrace i evs → L evs)
    {post : Reply → List Event → Time → Prop}
    (hpost : ∀ data evs t, post (.certificates data) evs t) :
    Meets i base L (fun _ => True) [] T (CertController.index P uid) post := by
  apply meets_bind
  refine meets_bind (meets_readCertificates trivial fun t₁ u₁ _ => ⟨hL _ (.reads [(t₁, u₁)]), ?_⟩)
  refine meets_bind (meets_validLoop trivial (fun valid _ _ => ?_) _ _)
  refine meets_bind (meets_readCertificates trivial fun t₂ u₂ _ =>
    ⟨hL _ (.reads [(t₂, u₂), (t₁, u₁)]), ?_⟩)
  refine meets_bind (meets_readCertificates trivial fun t₃ u₃ _ =>
    ⟨hL _ (.reads [(t₃, u₃), (t₂, u₂), (t₁, u₁)]), ?_⟩)
  refine meets_bind (meets_expiredLoop trivial (fun expired _ _ => ?_) _ _)
  exact meets_pure fun _ _ => meets_pure fun _ _ => hpost _ _ _

/-- A form that is refused is shown again. -/
theorem meets_form {valid : Bool} {action : Action Reply} {post : Reply → List Event → Time → Prop}
    (h : Meets i base L (fun _ => True) [] T action post) (hL : L [])
    (hpost : ∀ data evs t, post (.certificates data) evs t) :
    Meets i base (FormTrace i L) (fun _ => True) [] T
      (if !valid then CertController.index P uid else action) post := by
  split
  · exact meets_certIndex uid (fun _ => .page) hpost
  · refine meets_part [] L (fun _ => True) ?_ hL (fun evs' h => ?_) fun _ _ => trivial
    · exact meets_mono (fun reply evs t hreply _ => by rwa [List.append_nil]) h
    · rw [List.append_nil]
      exact .accepted h

theorem meets_download (d : DownloadCertDetails) (base : List Event) (T : Time) :
    Meets i base (WebTrace P i machineName uid (.download d)) (fun _ => True) [] T
      (CertController.download P machineName uid d)
      fun reply evs _ => WebAnswer i uid (.download d) reply evs := by
  apply meets_form uid ?_ (.call (.running (apiTrace_start P i machineName _)))
  · exact fun _ _ _ => webAnswer_other rfl (by simp)
  · unfold CoreCAClient.downloadPrivateKey
    refine meets_bind (meets_bind ?_)
    refine meets_part [] (CallTrace P i machineName (.downloadPrivateKey ⟨uid, d.password⟩))
      (fun _ => True) ?_ (.running (apiTrace_start P i machineName _)) (fun evs' h => ?_)
      fun _ _ => trivial
    · refine meets_mono ?_ (meets_send machineName _ _ T)
      rintro reply evs' t ⟨evs, rfl, htrace, hanswer⟩ -
      rw [List.append_nil]
      apply meets_pure
      intro t₁ _
      cases harchive : CoreCAClient.archiveOf reply with
      | none => exact meets_pure fun _ _ => webAnswer_other rfl nofun
      | some archive =>
        exact meets_cacheArchive machineName uid htrace hanswer harchive fun _ _ _ =>
            webAnswer_other rfl nofun
    · rw [List.append_nil]
      exact .call h

theorem meets_new (d : RequestNewCertDetails) (base : List Event) (T : Time) :
    Meets i base (WebTrace P i machineName uid (.new d)) (fun _ => True) [] T
      (CertController.new P machineName uid d)
      fun reply evs _ => WebAnswer i uid (.new d) reply evs := by
  apply meets_form uid ?_ (.cipherSuites (.running (apiTrace_start P i machineName _)))
  · exact fun _ _ _ => webAnswer_other rfl (by simp)
  · unfold CoreCAClient.requestNewCertificate
    refine meets_bind (meets_bind (meets_part [] (CallTrace P i machineName .getCipherSuites)
      (fun _ => True) ?_ (.running (apiTrace_start P i machineName _)) (fun evs' h => ?_)
      fun _ _ => trivial))
    · refine meets_mono ?_ (meets_send machineName _ _ T)
      rintro reply evs' t ⟨evs, rfl, rfl, -⟩ -
      cases CoreCAClient.firstCipherSuite reply with
      | none => exact meets_pure fun _ _ => meets_pure fun _ _ => webAnswer_other rfl nofun
      | some suite =>
        apply meets_bind
        refine meets_part [.received i reply]
          (CallTrace P i machineName (.issue (newRequest uid d suite))) (fun _ => True) ?_
          (.running (apiTrace_start P i machineName _)) (fun evs' h => .issue (.call h))
          fun _ _ => trivial
        refine meets_mono ?_ (meets_send machineName _ _ t)
        rintro reply' evs' t' ⟨evs, rfl, htrace, hanswer⟩ -
        apply meets_pure
        intro t₁ _
        cases harchive : CoreCAClient.archiveOf reply' with
        | none => exact meets_pure fun _ _ => webAnswer_other rfl nofun
        | some archive =>
          refine meets_part [.received i reply]
            (FetchTrace P i machineName uid (.issue (newRequest uid d suite))) (fun _ => True) ?_
            (.call (.received htrace hanswer)) (fun evs' h => .issue h) fun _ _ => trivial
          exact meets_mono (fun _ _ _ h _ => h) (meets_cacheArchive machineName uid htrace
            hanswer harchive fun _ _ _ => webAnswer_other rfl nofun)
    · rw [List.append_nil]
      exact .cipherSuites h

theorem meets_revoke (base : List Event) (T : Time) :
    Meets i base (CallTrace P i machineName (.revoke ⟨uid⟩)) (fun _ => True) [] T
      (CertController.revoke P machineName uid)
      fun reply evs _ => WebAnswer i uid .revoke reply evs := by
  unfold CertController.revoke CoreCAClient.revokeCertificate
  refine meets_bind (meets_bind (meets_mono ?_ (meets_send machineName _ base T)))
  rintro reply evs t -
  refine meets_pure fun _ _ => meets_pure fun _ _ => ?_
  split
  · exact webAnswer_other rfl nofun
  · exact webAnswer_other rfl nofun

theorem meets_count {n : ℕ} {L E : List Event → Prop} {evs : List Event}
    {post : ℕ → List Event → Time → Prop} (hE : E evs) (hpost : ∀ t, T ≤ t → post n evs t) :
    Meets i base L E evs T (AdminController.count n) post := by
  unfold AdminController.count
  split
  · exact meets_pure hpost
  · exact meets_throw hE

theorem meets_index (base : List Event) (T : Time) :
    Meets i base (PageTrace i) (fun _ => True) [] T AdminController.index
      fun reply evs _ => WebAnswer i uid .adminIndex reply evs := by
  refine meets_bind (meets_readCertificates trivial fun t₁ u₁ _ => ⟨.reads [(t₁, u₁)], ?_⟩)
  refine meets_bind (meets_count trivial fun _ _ => ?_)
  refine meets_bind (meets_readCertificates trivial fun t₂ u₂ _ =>
    ⟨.reads [(t₂, u₂), (t₁, u₁)], ?_⟩)
  refine meets_bind (meets_count trivial fun _ _ => ?_)
  refine meets_bind (meets_readCertificates trivial fun t₃ u₃ _ =>
    ⟨.reads [(t₃, u₃), (t₂, u₂), (t₁, u₁)], ?_⟩)
  apply meets_pure
  intro _ _
  refine ⟨nofun, fun stats h => ?_⟩
  obtain rfl := Reply.adminStats.inj h
  exact ⟨t₁, t₂, t₃, u₁, u₂, u₃, rfl, rfl⟩

theorem meets_web (r : WebRequest) (base : List Event) (T : Time) :
    Meets i base (WebTrace P i machineName uid r) (fun _ => True) [] T (web P machineName uid r)
      fun reply evs _ => WebAnswer i uid r reply evs := by
  cases r with
  | update d => exact meets_update machineName uid d base T
  | updatePassword d => exact meets_updatePassword machineName uid d base T
  | downloadGet => exact meets_downloadGet uid base T
  | download d => exact meets_download machineName uid d base T
  | new d => exact meets_new machineName uid d base T
  | revoke => exact meets_revoke machineName uid base T
  | certIndex => exact meets_certIndex uid (fun _ h => h) fun _ _ _ => webAnswer_other rfl (by simp)
  | adminIndex => exact meets_index uid base T

end Web

/-! ## The system -/

/-- What an exception leaves of the events of a request. -/
def Thrown : Request → List Event → Prop
  | .api _ _ => Open
  | .web _ _ _ => fun _ => True

theorem meets_action (req : Request) (base : List Event) (T : Time) :
    Meets i base (Trace P i req) (Thrown req) [] T (action P req)
      fun reply evs _ => Answer P i req reply evs := by
  cases req with
  | api machineName r => exact meets_api machineName r base T
  | web machineName uid r => exact meets_web machineName uid r base T

theorem trace_start (P : Platform) (i : ℕ) (req : Request) : Trace P i req [] := by
  cases req with
  | api machineName r => exact apiTrace_start P i machineName r
  | web machineName uid r =>
    cases r with
    | update d => exact UpdateTrace.start
    | updatePassword d => exact .running (apiTrace_start P i machineName _)
    | downloadGet => exact DownloadGetTrace.start
    | download d => exact .page (.reads [])
    | new d => exact .page (.reads [])
    | revoke => exact .running (apiTrace_start P i machineName _)
    | certIndex => exact .reads []
    | adminIndex => exact .reads []

theorem answer_serverError (P : Platform) (i : ℕ) (req : Request) (evs : List Event)
    (h : Thrown req evs) : Answer P i req .serverError evs := by
  cases req with
  | api machineName r => exact apiAnswer_serverError P i machineName r evs h
  | web machineName uid r => exact webAnswer_other rfl nofun

/-- The handlers respect each other: a process finds no event of its own when it arrives, and each
of its operations keeps its events in its trace. -/
def contracts (P : Platform) : Logic (system P) where
  start i s := s.own i = []
  rely i := Rely i
  contract i req e s := ∀ c, Trace P i req ((exec i e c s).2.own i)
  post i req reply s := Trace P i req (s.own i) ∧ Answer P i req reply (s.own i)
  rely_refl := rely_refl
  rely_trans := rely_trans
  start_rely h hr := hr.1.trans h
  env_rely i d s := rely_tick i d s
  exec_rely c hij _ := rely_exec hij _ c _
  safe := by
    intro i req s hs
    have hsafe := safe_answer (meets_action (P := P) (i := i) req [] s.now)
      (fun evs _ _ => answer_serverError P i req evs) (trace_start P i req) hs (le_refl _)
    refine Machine.safe_contract_mono ?_ (Machine.safe_mono ?_ hsafe)
    · intro e s' hkeeps c
      obtain ⟨evs, hown, hevs⟩ := hkeeps c
      rw [hown, List.append_nil]
      exact hevs
    · rintro reply s' ⟨evs, hown, hevs, -, hanswer⟩
      rw [List.append_nil] at hown
      rw [hown]
      exact ⟨hevs, hanswer⟩

end IMoviesCA
