import IMoviesCA.Alone
import IMoviesCA.EmailAddress

/-!
# Certificates for a saved profile

The form of `AccountController.Update` accepts any e-mail address with one `@` inside, and
`AddEmailAddress` of `IssueCertificate` throws on a character outside of ASCII.  So a profile that
was saved can be certified if and only if its address is in ASCII, unless the request fails before,
at the subject (`certifiable_iff`).
-/

namespace IMoviesCA

open IssueController UserDBAuthenticator

variable {P : Platform} {r : CertRequest} {user : User} {i : ℕ} {s s₀ : State}
  {sched : ℕ → ℕ × Choice} {c c' c₂ : Configuration} {uid : String}

/-! ## The stages of a request for a certificate -/

namespace IssueController

/-- The key was generated. -/
def keyed (P : Platform) (machineName : String) (r : CertRequest) (user : User)
    (privKey : AsymmetricAlgorithm) : Program Op Op.Res Reply :=
  match certificateRequest P user privKey r.requestedCipherSuite with
  | none => .done .serverError
  | some req =>
      answer (certificateTransaction (P.pfx (CAConfig.coreCACertPath machineName)) user req >>=
        deliver P r user privKey)

/-- The size of the key for a cipher suite. -/
def keySizeOf (cipherSuite : CipherSuite) : ℕ :=
  match cipherSuite.alg with
  | .RSA => cipherSuite.keySize
  | .ECDSA => 521

/-- The row of the user was read. -/
def found (P : Platform) (machineName : String) (r : CertRequest) (user : Option User) :
    Program Op Op.Res Reply :=
  match user.filter fun user => user.passwordHash == computePasswordHash P r.password with
  | some user => orServerError
      (.generateKey r.requestedCipherSuite.alg (keySizeOf r.requestedCipherSuite))
      (keyed P machineName r user)
  | none => .done .unauthorized

theorem createKey_eq (cipherSuite : CipherSuite) :
    createKey cipherSuite = call (.generateKey cipherSuite.alg (keySizeOf cipherSuite)) := by
  unfold createKey keySizeOf
  cases cipherSuite.alg with
  | RSA => rfl
  | ECDSA => rfl

theorem answer_issueFor (P : Platform) (machineName : String) (r : CertRequest) (user : User) :
    answer (issueFor P machineName r user) = orServerError
      (.generateKey r.requestedCipherSuite.alg (keySizeOf r.requestedCipherSuite))
      (keyed P machineName r user) := by
  have hkey (f : AsymmetricAlgorithm → Action Reply) :
      answer (createKey r.requestedCipherSuite >>= f) = orServerError
        (.generateKey r.requestedCipherSuite.alg (keySizeOf r.requestedCipherSuite))
        fun privKey => answer (f privKey) := by
    rw [createKey_eq]
    exact answer_call _ _
  refine (hkey _).trans ?_
  congr 1
  funext (privKey : AsymmetricAlgorithm)
  unfold keyed
  cases certificateRequest P user privKey r.requestedCipherSuite with
  | none => rfl
  | some req => rfl

/-- A request that passes the checks of `IssueCertificate` goes on with the row of its user. -/
theorem answer_issue (P : Platform) (machineName : String) {r : CertRequest}
    (hvalid : r.isValid = true)
    (hlong : Constants.minPassphraseLength ≤ netLength r.certPassphrase)
    (hsuite : r.requestedCipherSuite.isValidCipherSuite = true) :
    answer (api P machineName (.issue r)) =
      orServerError (.findUser r.uid) (found P machineName r) := by
  show answer (apiController r.isValid (issueCertificate P machineName r)) = _
  rw [apiController, if_pos hvalid, issueCertificate, if_neg (Nat.not_lt.2 hlong), hsuite]
  refine (answer_call_bind _ _ _).trans ?_
  congr 1
  funext (user : Option User)
  show answer (match user.filter _ with | some user => _ | none => _) = found P machineName r user
  unfold found
  split
  · exact answer_issueFor P machineName r _
  · rfl

end IssueController

/-! ## The subject-alternative-name extension -/

/-- A text that is encoded as an IA5 string. -/
def Ascii (text : String) : Prop := ∀ c ∈ text.toList, c.toNat ≤ 0x7F

instance (text : String) : Decidable (Ascii text) :=
  List.decidableBAll (fun c : Char => c.toNat ≤ 0x7F) text.toList

/-- `CertificateRequest` accepts the subject of a user id. -/
def SubjectAccepted (P : Platform) (uid : String) : Prop :=
  (X500.parse P.attributeType ("CN=" ++ uid)).isSome = true

theorem certificateRequest_eq_none_iff {privKey : AsymmetricAlgorithm} {cipherSuite : CipherSuite}
    (hsubject : SubjectAccepted P user.id) :
    certificateRequest P user privKey cipherSuite = none ↔ ¬ Ascii user.email := by
  obtain ⟨subjectName, hname⟩ := Option.isSome_iff_exists.1 hsubject
  have hsubjectOf : subjectOf P user = some subjectName := hname
  by_cases hascii : Ascii user.email
  · have hall : (user.email.toList.all fun c => c.toNat ≤ 0x7F) = true := by simpa [Ascii] using hascii
    simp [certificateRequest, hsubjectOf, addEmailAddress, hall, hascii]
  · have hall : (user.email.toList.all fun c => c.toNat ≤ 0x7F) = false := by simpa [Ascii] using hascii
    simp [certificateRequest, hsubjectOf, addEmailAddress, hall, hascii]

/-- A request that passes every check: the user is there and the password is right, the passphrase
is long enough and the cipher suite is one of those that are offered. -/
structure MayBeIssued (P : Platform) (r : CertRequest) (s : State) (user : User) : Prop where
  valid : r.isValid = true
  long : Constants.minPassphraseLength ≤ netLength r.certPassphrase
  suite : r.requestedCipherSuite.isValidCipherSuite = true
  found : s.users.find? r.uid = some user
  password : user.passwordHash = computePasswordHash P r.password

/-- The request fails while it builds the extension: the subject is accepted and the key was
generated, but the request ends with an exception before it opens its transaction. -/
def FailsAtSan (P : Platform) (machineName : String) (r : CertRequest) (i : ℕ)
    (sched : ℕ → ℕ × Choice) (s : State) : Prop :=
  SubjectAccepted P r.uid ∧ (sched 0).2 = .ok ∧ (sched 1).2 = .ok ∧
    (machine.alone i (answer (api P machineName (.issue r))) sched s).1 = .serverError ∧
    machine.operations i (answer (api P machineName (.issue r))) sched s = 2

/-- The request after its first two operations. -/
theorem alone_issue {machineName : String} (h : MayBeIssued P r s user) (hread : (sched 0).2 = .ok)
    (hkey : (sched 1).2 = .ok) : ∃ privKey s₁,
      machine.alone i (answer (api P machineName (.issue r))) sched s =
        machine.alone i (keyed P machineName r user privKey) (fun n => sched (n + 2)) s₁ ∧
      machine.operations i (answer (api P machineName (.issue r))) sched s =
        machine.operations i (keyed P machineName r user privKey) (fun n => sched (n + 2)) s₁ + 2 := by
  have hfilter : (some user).filter (fun user =>
      user.passwordHash == computePasswordHash P r.password) = some user := by simp [h.password]
  have hfound : found P machineName r (some user) = orServerError
      (.generateKey r.requestedCipherSuite.alg (keySizeOf r.requestedCipherSuite))
      (keyed P machineName r user) := by
    unfold found
    rw [hfilter]
  let e : Op := .generateKey r.requestedCipherSuite.alg (keySizeOf r.requestedCipherSuite)
  let s₁ := ((Op.findUser r.uid).run i (tick (sched 0).1 s)).2
  let s₂ := (e.run i (tick (sched 1).1 s₁)).2
  let privKey : AsymmetricAlgorithm :=
    ⟨r.requestedCipherSuite.alg, keySizeOf r.requestedCipherSuite, s₁.nextKey⟩
  have hv : ((Op.findUser r.uid).run i (tick (sched 0).1 s)).1 = .ok (some user) :=
    congrArg Except.ok h.found
  have hsecond : machine.alone i (found P machineName r (some user)) (fun n => sched (n + 1)) s₁ =
      machine.alone i (keyed P machineName r user privKey) (fun n => sched (n + 2)) s₂ := by
    rw [hfound]
    exact alone_orServerError_of_ok hkey rfl
  have hcount : machine.operations i (found P machineName r (some user)) (fun n => sched (n + 1)) s₁ =
      machine.operations i (keyed P machineName r user privKey) (fun n => sched (n + 2)) s₂ + 1 := by
    rw [hfound]
    exact operations_orServerError_of_ok hkey rfl
  rw [answer_issue P machineName h.valid h.long h.suite]
  exact ⟨privKey, s₂, (alone_orServerError_of_ok hread hv).trans hsecond,
    (operations_orServerError_of_ok hread hv).trans (congrArg Nat.succ hcount)⟩

/-- A request that passes the checks fails at the extension because of a character outside of ASCII,
and only because of it. -/
theorem failsAtSan_iff {machineName : String} (h : MayBeIssued P r s user) :
    FailsAtSan P machineName r i sched s ↔
      SubjectAccepted P r.uid ∧ (sched 0).2 = .ok ∧ (sched 1).2 = .ok ∧ ¬ Ascii user.email := by
  unfold FailsAtSan
  refine and_congr_right fun hsubject => and_congr_right fun hread => and_congr_right fun hkey => ?_
  obtain ⟨privKey, s₁, halone, hoperations⟩ : ∃ privKey s₁, _ ∧ _ :=
    alone_issue (i := i) (P := P) h hread hkey
  have hid : user.id = r.uid := (Table.find?_eq_some_iff.1 h.found).2
  have hrequest : certificateRequest P user privKey r.requestedCipherSuite = none ↔
      ¬ Ascii user.email := certificateRequest_eq_none_iff (hid ▸ hsubject)
  rw [halone, hoperations, ← hrequest]
  unfold keyed
  cases certificateRequest P user privKey r.requestedCipherSuite with
  | none => exact iff_of_true ⟨rfl, rfl⟩ rfl
  | some req =>
    refine iff_of_false ?_ (by simp)
    rintro ⟨-, hcount⟩
    -- the transaction is opened: there is a third operation
    cases hcount

/-! ## After a save -/

/-- Process `i` saves the details of an update. -/
structure SavesProfile (P : Platform) (i : ℕ) (machineName uid : String) (d : UserDetails)
    (c c' : Configuration) : Prop where
  here : ∃ ws k t, c.procs i = some (.web machineName uid (.update d), .op (.commitUsers ws) k) ∧
    c.shared.users.commit ws = some t
  step : (system P).step (.step i .ok) c = some c'

/-- The address of the form is stored. -/
theorem emailOf_of_saves {machineName : String} {d : UserDetails} (h₀ : s₀.history = [])
    (h : (system P).Reaches (.initial s₀) c) (hsave : SavesProfile P i machineName uid d c c') :
    c'.shared.emailOf uid = some d.email := by
  obtain ⟨ws, k, t, hi, hcommit⟩ := hsave.here
  have hreq : c.request i = some (.web machineName uid (.update d)) := by simp [Config.request, hi]
  have htrace := trace_of_reaches h₀ (h.tail ⟨_, hsave.step⟩) (System.request_of_step hsave.step hreq)
  obtain rfl := Option.some.inj ((System.step_op hi).symm.trans hsave.step)
  have hexec : exec i (.commitUsers ws) .ok c.shared =
      (.ok (), { c.shared with users := t }.record (.usersCommitted i ws)) := by
    simp only [exec, Op.run, hcommit]
  have hshared : ((system P).exec i (.commitUsers ws) .ok c.shared).2 =
      { c.shared with users := t }.record (.usersCommitted i ws) := congrArg Prod.snd hexec
  rw [hshared] at htrace ⊢
  have hocc : Occurs (.usersCommitted i ws) c.shared
      ({ c.shared with users := t }.record (.usersCommitted i ws)) := .usersCommitted hcommit
  have hown : ({ c.shared with users := t }.record (.usersCommitted i ws)).own i =
      .usersCommitted i ws :: c.shared.own i := hocc.own
  have hupdate : UpdateTrace P i machineName uid d (.usersCommitted i ws :: c.shared.own i) := by
    rw [← hown]
    exact htrace
  obtain ⟨user, -, -, rfl, rfl, -⟩ := own_of_saved hupdate
  exact (email_of_saved hcommit user.id).trans (if_pos rfl)

/-- After a save, a request of the user that passes every check gets past the extension, as long as
the address is the one of the save, if and only if that address is in ASCII. -/
theorem certifiable_iff (P : Platform) (s₀ : State) (c c' : Configuration) (i : ℕ)
    (machineName uid : String) (d : UserDetails) (h₀ : s₀.history = [])
    (h : (system P).Reaches (.initial s₀) c) (hsave : SavesProfile P i machineName uid d c c') (s : State)
    (hkept : s.emailOf uid = c'.shared.emailOf uid) (r : CertRequest) (user : User) (hr : r.uid = uid)
    (hchecks : MayBeIssued P r s user) (j : ℕ) (machineName' : String) :
    (∀ sched, ¬ FailsAtSan P machineName' r j sched s) ↔ (SubjectAccepted P uid → Ascii d.email) := by
  have hemail : user.email = d.email := by
    have hstored := hkept.trans (emailOf_of_saves h₀ h hsave)
    rw [State.emailOf, ← hr, hchecks.found] at hstored
    exact Option.some.inj hstored
  subst hr
  simp only [failsAtSan_iff hchecks, hemail]
  constructor
  · intro hnone hsubject
    by_contra hascii
    exact hnone (fun _ => (0, .ok)) ⟨hsubject, rfl, rfl, hascii⟩
  · rintro hascii sched ⟨hsubject, -, -, hnot⟩
    exact hnot (hascii hsubject)

section

open Deployment

/-- Details that the form accepts, with a letter in the address that no `IA5String` holds. -/
def zoeDetails : UserDetails := ⟨"Zoë", "Anderson", "zoë@imovies.ch"⟩

/-- An update of `a3` with the given details. -/
def updateOf (d : UserDetails) : List (Act Request Choice ℕ) :=
  .arrive 0 (.web "aslcert01" "a3" (.update d)) :: steps 0 7

/-- Process 0 is about to save, and the save will be carried out. -/
def aboutToSave (d : UserDetails) (c : Configuration) : Bool :=
  match c.procs 0 with
  | some (req, .op (.commitUsers ws) _) =>
      decide (req = .web "aslcert01" "a3" (.update d)) && (c.shared.users.commit ws).isSome
  | _ => false

theorem exists_of_aboutToSave {d : UserDetails} (h : aboutToSave d c = true) : ∃ ws k t,
    c.procs 0 = some (.web "aslcert01" "a3" (.update d), .op (.commitUsers ws) k) ∧
      c.shared.users.commit ws = some t := by
  unfold aboutToSave at h
  split at h
  · rename_i req ws k hprocs
    obtain ⟨hreq, hsome⟩ := Bool.and_eq_true_iff.1 h
    obtain rfl := of_decide_eq_true hreq
    obtain ⟨t, ht⟩ := Option.isSome_iff_exists.1 hsome
    exact ⟨ws, k, t, hprocs, ht⟩
  · cases h

/-- The details of the update are stored, and the request of `a3` for a certificate passes every
check. -/
def savedFor (d : UserDetails) (s : State) : Bool :=
  decide (s.users.find? "a3" = some (AccountController.withDetails andres d))

theorem exists_savesProfile (d : UserDetails) (h : ((system platform).run (updateOf d)
    (.initial (installed users))).any (fun c => aboutToSave d c &&
      ((system platform).step (.step 0 .ok) c).any fun c' => savedFor d c'.shared) = true) :
    ∃ c c' : Configuration, (system platform).Reaches (.initial (installed users)) c ∧
      SavesProfile platform 0 "aslcert01" "a3" d c c' ∧
      c'.shared.users.find? "a3" = some (AccountController.withDetails andres d) := by
  obtain ⟨c, hc, htest⟩ := (Option.any_eq_true _ _).1 h
  obtain ⟨habout, htest⟩ := Bool.and_eq_true_iff.1 htest
  obtain ⟨c', hc', hsaved⟩ := (Option.any_eq_true _ _).1 htest
  exact ⟨c, c', System.reaches_of_run hc, ⟨exists_of_aboutToSave habout, hc'⟩, of_decide_eq_true hsaved⟩

theorem mayBeIssued_of_saved {d : UserDetails} {s : State}
    (h : s.users.find? "a3" = some (AccountController.withDetails andres d)) :
    MayBeIssued platform certRequest s (AccountController.withDetails andres d) where
  valid := by decide
  long := by decide
  suite := by decide
  found := h
  password := by
    show andres.passwordHash = _
    decide +kernel

/-- The form accepts `zoë@imovies.ch`, the update saves it, and then `a3` gets no certificate. -/
theorem saved_not_certifiable : ∃ c c' : Configuration, zoeDetails.isValid = true ∧
    (system platform).Reaches (.initial (installed users)) c ∧
    SavesProfile platform 0 "aslcert01" "a3" zoeDetails c c' ∧
    MayBeIssued platform certRequest c'.shared (AccountController.withDetails andres zoeDetails) ∧
    FailsAtSan platform "aslcert01" certRequest 1 (fun _ => (0, .ok)) c'.shared := by
  obtain ⟨c, c', hreach, hsave, hfind⟩ := exists_savesProfile zoeDetails (by decide +kernel)
  have hchecks := mayBeIssued_of_saved hfind
  have hsubject : SubjectAccepted platform "a3" := by
    unfold SubjectAccepted
    decide +kernel
  exact ⟨c, c', by decide, hreach, hsave, hchecks,
    (failsAtSan_iff hchecks).2 ⟨hsubject, rfl, rfl, by decide⟩⟩

/-- After an update to an address in ASCII, no request of `a3` fails at the extension. -/
theorem certifiable_newEmail : ∃ s : State, s.emailOf "a3" = some newEmail ∧
    ∀ sched, ¬ FailsAtSan platform "aslcert01" certRequest 1 sched s := by
  obtain ⟨c, c', hreach, hsave, hfind⟩ :=
    exists_savesProfile ⟨"Andres Andrea", "Anderson", newEmail⟩ (by decide +kernel)
  refine ⟨c'.shared, by rw [State.emailOf, hfind]; rfl, ?_⟩
  exact (certifiable_iff platform _ c c' 0 "aslcert01" "a3" _ rfl hreach hsave c'.shared rfl certRequest
    _ rfl (mayBeIssued_of_saved hfind) 1 "aslcert01").2 fun _ => by decide

end

end IMoviesCA
