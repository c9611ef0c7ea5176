import IMoviesCA.Attestation
import IMoviesCA.Grants

/-!
# A web server that was taken over

Whoever has taken over the web server can run any program under its database account and send any request
to the CA servers.  The account may change the users, so no password of a user is safe any more; but the
privileges keep it away from the certificates and the archives (`tables_of_granted`), and the backups are
on the CA servers.

What the CA servers rely on is therefore left alone, and their own guarantees stand: a user has at most one
live certificate, certificates are only added and revoked, and whatever is guarded is done by a request that
presented the password of the row that it read (`takenOver_of_reaches`).
-/

namespace IMoviesCA

open CADBModifier UserDBAuthenticator

/-! ## Intrusions -/

/-- What happens on the web server between two operations of the requests: time passes, an operation is
performed under its account, or statements of its account change the rows of `users`. -/
inductive Intrusion
  | tick (d : ℕ)
  | performs (e : Op) (ch : Choice)
  | updatesUsers (users : Table User)

/-- The backup folder is on the CA servers. -/
def Op.onCAServer : Op → Bool
  | writeAllBytes _ _ => true
  | _ => false

/-- The account of the web server may change every column of the users. -/
def mayUpdateUsers : Bool :=
  (columnAccesses .users .update DbTable.users.columns).all fun a =>
    Account.aslweb.priv.any fun g => g.allows a

/-- The history records what the requests do. -/
def Intrusion.run : Intrusion → State → State
  | .tick d, s => IMoviesCA.tick d s
  | .performs e ch, s =>
      if grantedBy Account.priv (.aslweb, e) && !e.onCAServer then
        { (exec 0 e ch s).2 with history := s.history }
      else s
  | .updatesUsers users, s =>
      -- an UPDATE keeps the number of rows
      if mayUpdateUsers && users.rows.length == s.users.rows.length then { s with users := users }
      else s

/-! ## What the privileges keep away -/

theorem eq_nil_of_granted {ω : Type} {f : ω → List Access} {account : Account} {ws : List ω}
    (hrefused : ∀ w, ((f w).all fun a => account.priv.any fun g => g.allows a) = false)
    (h : ((ws.flatMap f).all fun a => account.priv.any fun g => g.allows a) = true) : ws = [] := by
  cases ws with
  | nil => rfl
  | cons w ws =>
    rw [List.flatMap_cons, List.all_append, hrefused w] at h
    cases h

/-- The web server may neither insert certificates nor change them. -/
theorem certificateWrites_of_granted {ws : List CertificateWrite}
    (h : grantedBy Account.priv (.aslweb, .commitCertificates ws) = true) : ws = [] :=
  eq_nil_of_granted (f := certificateAccesses) (fun w => by cases w <;> rfl) h

theorem privateKeyWrites_of_granted {ws : List PrivateKeyWrite}
    (h : grantedBy Account.priv (.aslweb, .commitPrivateKeys ws) = true) : ws = [] :=
  eq_nil_of_granted (f := privateKeyAccesses) (fun w => by cases w <;> rfl) h

/-- An operation that the account of the web server is granted leaves the certificates and the archives as
they are. -/
theorem tables_of_granted {e : Op} (h : grantedBy Account.priv (.aslweb, e) = true) (i : ℕ) (ch : Choice)
    (s : State) : (exec i e ch s).2.publicCertificates = s.publicCertificates ∧
      (exec i e ch s).2.privateCertificates = s.privateCertificates := by
  cases ch with
  | throws written =>
    cases e with
    | writeAllBytes | receive => cases written <;> exact ⟨rfl, rfl⟩
    | _ => exact ⟨rfl, rfl⟩
  | ok =>
    cases e with
    | commitCertificates ws =>
      obtain rfl := certificateWrites_of_granted h
      exact ⟨rfl, rfl⟩
    | commitPrivateKeys ws =>
      obtain rfl := privateKeyWrites_of_granted h
      exact ⟨rfl, rfl⟩
    | commitUsers ws =>
      simp only [exec, Op.run]
      split <;> exact ⟨rfl, rfl⟩
    | _ => exact ⟨rfl, rfl⟩

theorem backupFolder_of_exec {e : Op} (h : e.onCAServer = false) (i : ℕ) (ch : Choice) (s : State) :
    (exec i e ch s).2.backupFolder = s.backupFolder := by
  cases ch with
  | throws written =>
    cases e with
    | writeAllBytes path bytes => cases h
    | receive => cases written <;> rfl
    | _ => rfl
  | ok =>
    cases e with
    | writeAllBytes path bytes => cases h
    | commitUsers ws =>
      simp only [exec, Op.run]
      split <;> rfl
    | commitCertificates ws =>
      simp only [exec, Op.run]
      split <;> rfl
    | commitPrivateKeys ws =>
      simp only [exec, Op.run]
      split <;> rfl
    | _ => rfl

/-- What belongs to the CA servers is as it was. -/
structure Untouched (s s' : State) : Prop where
  history : s'.history = s.history
  publicCertificates : s'.publicCertificates = s.publicCertificates
  privateCertificates : s'.privateCertificates = s.privateCertificates
  backupFolder : s'.backupFolder = s.backupFolder
  now : s.now ≤ s'.now

theorem untouched_refl (s : State) : Untouched s s := ⟨rfl, rfl, rfl, rfl, le_refl _⟩

theorem untouched_run (a : Intrusion) (s : State) : Untouched s (a.run s) := by
  cases a with
  | tick d => exact ⟨rfl, rfl, rfl, rfl, Nat.le_add_right _ _⟩
  | performs e ch =>
    simp only [Intrusion.run]
    split_ifs with hgranted
    · simp only [Bool.and_eq_true, Bool.not_eq_true'] at hgranted
      obtain ⟨hpublic, hprivate⟩ := tables_of_granted hgranted.1 0 ch s
      exact ⟨rfl, hpublic, hprivate, backupFolder_of_exec hgranted.2 0 ch s, (exec_now 0 e ch s).ge⟩
    · exact untouched_refl s
  | updatesUsers users =>
    simp only [Intrusion.run]
    split_ifs
    · exact ⟨rfl, rfl, rfl, rfl, le_refl _⟩
    · exact untouched_refl s

theorem Untouched.rely {s s' : State} (h : Untouched s s') (i : ℕ) : Rely i s s' := by
  refine ⟨?_, h.now⟩
  rw [State.own, State.own, h.history]

theorem ledger_untouched {s s' : State} (h : Ledger s) (hs : Untouched s s') : Ledger s' where
  numbered := by
    rw [hs.history, hs.publicCertificates]
    exact h.numbered
  rows := by
    rw [hs.history, hs.publicCertificates]
    exact h.rows
  snapshot := by
    rw [hs.history, hs.publicCertificates]
    exact h.snapshot
  superseded := by
    rw [hs.publicCertificates]
    intro p hp q hq hu hlt
    exact not_live_mono hs.now (Later.refl p) (h.superseded p hp q hq hu hlt)

/-! ## The servers beside an intruder -/

/-- Both servers, with whoever has taken over the web server. -/
def takenOver (P : Platform) : System Request Op Op.Res State Choice Intrusion Reply :=
  (system P).inEnvironment Intrusion.run

variable {P : Platform} {s₀ : State} {c c' : Configuration}

theorem rely_intrusion (i : ℕ) (a : Intrusion) (s : State) : Rely i s (a.run s) :=
  (untouched_run a s).rely i

/-- The contracts of the requests hold beside the intruder as well. -/
theorem trace_of_takenOver (h₀ : s₀.history = []) (h : (takenOver P).Reaches (.initial s₀) c) {i : ℕ}
    {req : Request} (hi : c.request i = some req) : Trace P i req (c.shared.own i) :=
  trace_inEnvironment rely_intrusion h₀ h hi

theorem trace_of_mem_takenOver (h₀ : s₀.history = []) (h : (takenOver P).Reaches (.initial s₀) c)
    {e : Event} (he : e ∈ c.shared.history) : ∃ req, c.request e.pid = some req ∧
      e ∈ c.shared.own e.pid ∧ Trace P e.pid req (c.shared.own e.pid) :=
  exists_trace_inEnvironment rely_intrusion h₀ h he

/-- A step leaves the CA servers alone or is an event of a request. -/
theorem moves_of_takenOver (h₀ : s₀.history = []) (h : (takenOver P).Reaches (.initial s₀) c)
    {a : Act Request Choice Intrusion} (ha : (takenOver P).step a c = some c') :
    Untouched c.shared c'.shared ∨ ∃ req e, Move P c c' req e := by
  have hreach' : (takenOver P).Reaches (.initial s₀) c' := h.tail ⟨a, ha⟩
  cases System.step_cases ha with
  | arrive => exact Or.inl (untouched_refl _)
  | @step i ch r op k hhere =>
    rcases exec_cases i op ch c.shared with hs | ⟨e, rfl, he⟩
    · left
      show Untouched c.shared (exec i op ch c.shared).2
      rw [hs]
      exact untouched_refl _
    · have hreq : c.request e.pid = some r := by simp [Config.request, hhere]
      refine Or.inr ⟨r, e, hreq, he, ?_⟩
      have htrace := trace_of_takenOver h₀ hreach' (System.request_of_step ha hreq)
      rw [← he.own]
      exact htrace
  | @env a => exact Or.inl (untouched_run a _)

theorem ledger_of_takenOver (h₀ : s₀.history = []) (hempty : s₀.publicCertificates = ∅)
    (h : (takenOver P).Reaches (.initial s₀) c) : Ledger c.shared := by
  induction h with
  | refl => exact ledger_initial h₀ hempty
  | tail hreach hstep ih =>
    obtain ⟨a, ha⟩ := hstep
    rcases moves_of_takenOver h₀ hreach ha with hs | ⟨req, e, hm⟩
    · exact ledger_untouched ih hs
    · exact ledger_move hm ih

/-! ## What changes -/

/-- From `s` to `s'`, what belongs to the CA servers was changed by the events `evs`, newest first, and
by nothing else. -/
structure ChangedBy (evs : List Event) (s s' : State) : Prop where
  history : s'.history = evs ++ s.history
  rows : Extends s.publicCertificates s'.publicCertificates
  publicCertificates : KeepsCertificates evs → s'.publicCertificates = s.publicCertificates
  privateCertificates : KeepsPrivateKeys evs → s'.privateCertificates = s.privateCertificates
  backupFolder : ∀ path, KeepsFile path evs → s'.backupFolder path = s.backupFolder path

theorem Untouched.changedBy {s s' : State} (h : Untouched s s') : ChangedBy [] s s' where
  history := h.history
  rows := by
    rw [h.publicCertificates]
    exact Extends.refl _
  publicCertificates _ := h.publicCertificates
  privateCertificates _ := h.privateCertificates
  backupFolder path _ := congrFun h.backupFolder path

theorem Evolves.changedBy {evs : List Event} {s s' : State} (h : Evolves evs s s') :
    ChangedBy evs s s' where
  history := h.history
  rows := h.extends
  publicCertificates := h.publicCertificates
  privateCertificates := h.privateCertificates
  backupFolder _ := h.backupFolder

theorem ChangedBy.trans {evs evs' : List Event} {s s' s'' : State} (h : ChangedBy evs s s')
    (h' : ChangedBy evs' s' s'') : ChangedBy (evs' ++ evs) s s'' where
  history := by rw [h'.history, h.history, List.append_assoc]
  rows := h.rows.trans h'.rows
  publicCertificates hkeeps := by
    rw [h'.publicCertificates fun i ws t hmem => hkeeps i ws t (List.mem_append_left _ hmem)]
    exact h.publicCertificates fun i ws t hmem => hkeeps i ws t (List.mem_append_right _ hmem)
  privateCertificates hkeeps := by
    rw [h'.privateCertificates fun i ws hmem => hkeeps i ws (List.mem_append_left _ hmem)]
    exact h.privateCertificates fun i ws hmem => hkeeps i ws (List.mem_append_right _ hmem)
  backupFolder path hkeeps := by
    rw [h'.backupFolder path fun i bytes hmem => hkeeps i bytes (List.mem_append_left _ hmem)]
    exact h.backupFolder path fun i bytes hmem => hkeeps i bytes (List.mem_append_right _ hmem)

theorem changedBy_of_step {a : Act Request Choice Intrusion} (ha : (takenOver P).step a c = some c') :
    ∃ evs, ChangedBy evs c.shared c'.shared := by
  cases System.step_cases ha with
  | arrive => exact ⟨[], (untouched_refl _).changedBy⟩
  | @step i ch r op k hhere =>
    obtain ⟨evs, hevs, -⟩ := evolves_exec i op ch c.shared
    exact ⟨evs, hevs.changedBy⟩
  | @env a => exact ⟨[], (untouched_run a _).changedBy⟩

theorem changedBy_of_reaches (h : (takenOver P).Reaches c c') :
    ∃ evs, ChangedBy evs c.shared c'.shared := by
  induction h with
  | refl => exact ⟨[], (untouched_refl _).changedBy⟩
  | tail _ hstep ih =>
    obtain ⟨a, ha⟩ := hstep
    obtain ⟨evs, hevs⟩ := ih
    obtain ⟨evs', hevs'⟩ := changedBy_of_step ha
    exact ⟨evs' ++ evs, hevs.trans hevs'⟩

/-! ## What the CA servers guarantee -/

/-- A request presented this password of this user: it read the row of the user, whose hash was that of
the password. -/
structure Presented (P : Platform) (c : Configuration) (i : ℕ) (r : ApiRequest) (uid password : String) :
    Prop where
  calls : ∃ req machineName, c.request i = some req ∧ Calls req machineName r
  credentials : r.credentials? = some (uid, password)
  authenticated : ∃ user, .userRead i uid (some user) ∈ c.shared.history ∧
    Authenticated P uid password user

theorem presented_of_guarded (h₀ : s₀.history = []) (h : (takenOver P).Reaches (.initial s₀) c)
    {e : Event} (he : e ∈ c.shared.history) (hguarded : e.Guarded) :
    ∃ r uid password, Presented P c e.pid r uid password := by
  obtain ⟨req, hreq, hown, htrace⟩ := trace_of_mem_takenOver h₀ h he
  rcases mem_trace htrace hown with ⟨m, r, evs, hcalls, hapi, hsub, he'⟩ | hweb
  · obtain ⟨uid, password, user, hcredentials, hauth, hread⟩ :=
      authenticated_of_guarded hapi he' hguarded
    exact ⟨r, uid, password, ⟨req, m, hreq, hcalls⟩, hcredentials, user,
      (State.mem_own.1 (hsub hread)).1, hauth⟩
  · generalize hpid : e.pid = i at hweb
    cases hweb <;> cases hguarded

/-- Request `i` has inserted the certificate. -/
def InsertedBy (c : Configuration) (i : ℕ) (p : PublicCertificate) : Prop :=
  ∃ ws time row, .certificatesCommitted i ws time ∈ c.shared.history ∧ insertedRow ws = some row ∧
    row.serialNr = p.serialNr ∧ Later row p

/-- A certificate was inserted by a request that presented the password of its user. -/
theorem presented_of_row (h₀ : s₀.history = []) (hempty : s₀.publicCertificates = ∅)
    (h : (takenOver P).Reaches (.initial s₀) c) {p : PublicCertificate}
    (hp : p ∈ c.shared.publicCertificates.rows) :
    ∃ i r password, Presented P c i (.issue r) p.uid password ∧ InsertedBy c i p := by
  obtain ⟨row, hrow, hlater⟩ := exists_of_forall₂_right (ledger_of_takenOver h₀ hempty h).rows hp
  obtain ⟨e, he, hissued⟩ := List.mem_filterMap.1 (List.mem_reverse.1 hrow)
  obtain ⟨req, hreq, hown, htrace⟩ := trace_of_mem_takenOver h₀ h he
  obtain ⟨ws, time, B, heq, rfl⟩ := issuedBy_of_issued htrace hown State.own_subset hissued
  have huid : p.uid = B.r.uid := hlater.uid.trans B.I.authenticated.1
  have hby : InsertedBy c e.pid p :=
    ⟨B.I.writes, B.I.time, B.I.row, by rwa [← heq], B.I.insertedRow_writes, hlater.serialNr.symm, hlater⟩
  refine ⟨e.pid, B.r, B.r.password, ⟨⟨req, B.machineName, hreq, B.calls⟩, ?_, B.I.user, ?_, ?_⟩, hby⟩
  · rw [huid]
    rfl
  · rw [huid]
    exact B.userRead
  · rw [huid]
    exact B.I.authenticated

/-- Whatever is done on a web server that was taken over, and whatever requests are sent from it: a user
has at most one live certificate, each certificate was inserted by a request that presented the password
of its user, whatever is guarded was done by a request that presented a password, and from any moment
on, the certificates, the archives and the backups are changed by the requests only. -/
theorem takenOver_of_reaches (P : Platform) {s₀ : State} (h₀ : s₀.history = [])
    (hempty : s₀.publicCertificates = ∅) {c : Configuration}
    (h : (takenOver P).Reaches (.initial s₀) c) :
    (∀ p ∈ c.shared.publicCertificates.rows, ∀ q ∈ c.shared.publicCertificates.rows,
      p.uid = q.uid → Live c.shared.now p → Live c.shared.now q → p = q) ∧
    (∀ p ∈ c.shared.publicCertificates.rows,
      ∃ i r password, Presented P c i (.issue r) p.uid password ∧ InsertedBy c i p) ∧
    (∀ e ∈ c.shared.history, e.Guarded → ∃ r uid password, Presented P c e.pid r uid password) ∧
    ∀ c', (takenOver P).Reaches c c' → ∃ evs, ChangedBy evs c.shared c'.shared := by
  have hledger := ledger_of_takenOver h₀ hempty h
  refine ⟨fun p hp q hq => hledger.live_unique hp hq, ?_, ?_, ?_⟩
  · exact fun p hp => presented_of_row h₀ hempty h hp
  · exact fun e he hguarded => presented_of_guarded h₀ h he hguarded
  · exact fun c' h' => changedBy_of_reaches h'

section

open Deployment

/-- The intruder gives the user another password, and has a certificate issued with it. -/
def resetThenIssue : List (Act Request Choice Intrusion) :=
  .env (.updatesUsers ⟨[{ andres with passwordHash := computePasswordHash platform "sunny-harbour-42" }],
      by decide⟩) ::
    .arrive 0 (.api "aslcert01" (.issue { certRequest with password := "sunny-harbour-42" })) ::
    List.replicate 18 (.step 0 .ok)

theorem takenOver_resetThenIssue : ∃ c, (takenOver platform).Reaches (.initial (installed users)) c ∧
    c.shared.publicCertificates.rows.length = 1 ∧
    ∀ p ∈ c.shared.publicCertificates.rows,
      ∃ i r password, Presented platform c i (.issue r) p.uid password ∧ InsertedBy c i p := by
  have hrun : ((takenOver platform).run resetThenIssue (.initial (installed users))).map
      (fun c => c.shared.publicCertificates.rows.length) = some 1 := by decide +kernel
  obtain ⟨c, hc, hone⟩ := Option.map_eq_some_iff.1 hrun
  have hreach := System.reaches_of_run hc
  exact ⟨c, hreach, hone, (takenOver_of_reaches platform rfl rfl hreach).2.1⟩

end

end IMoviesCA
