import IMoviesCA.PasswordChange

/-!
# E-mail addresses

`IssueCertificate` takes the e-mail address from a row that it read before its transaction, and
`AccountController.Update` revokes the certificates of the user before it saves the new address.  A
live certificate carries the stored address as long as no issuance commits with an address that is
no longer stored, and no update saves a new address unless its revocation succeeded and no
certificate was issued to the user since (`liveEmail_of_run`).
-/

namespace IMoviesCA

open IssueController CADBModifier AccountController UserDBAuthenticator

variable {P : Platform} {s₀ : State} {c c' : Configuration} {uid : String}

/-! ## What a revocation leaves -/

/-- No certificate is issued to the user. -/
def NoIssueTo (uid : String) (evs : List Event) : Prop :=
  ∀ e ∈ evs, ∀ row, e.issued = some row → row.uid ≠ uid

theorem NoIssueTo.tail {e : Event} {evs : List Event} (h : NoIssueTo uid (e :: evs)) :
    NoIssueTo uid evs := fun e' he' => h e' (List.mem_cons_of_mem _ he')

/-- A row after a certificate transaction is an old one, or the one that it inserted. -/
theorem row_of_commit {req : Request} {i : ℕ} {ws : List CertificateWrite} {time : Time}
    (hm : Move P c c' req (.certificatesCommitted i ws time)) {t : Table PublicCertificate}
    (hc : c.shared.publicCertificates.commit ws = some t) {q : PublicCertificate}
    (hq : q ∈ t.rows) : (∃ p ∈ c.shared.publicCertificates.rows, q = Table.patched ws p) ∨
      insertedRow ws = some q := by
  rcases (Table.mem_of_commit hc).1 hq with ⟨p, hp, rfl⟩ | hadded
  · exact Or.inl ⟨p, hp, rfl⟩
  · right
    rcases commit_of_move hm with hiss | hrev
    · obtain ⟨⟨m, r, hcall, I, rfl, -, -, -, -⟩⟩ := hiss
      rw [I.added_writes] at hadded
      rw [I.insertedRow_writes, List.mem_singleton.1 hadded]
    · obtain ⟨R⟩ := hrev
      rw [R.added] at hadded
      cases hadded

/-- Since a snapshot, and since a commit, the rows of a user were only revoked, as long as no
certificate is issued to the user. -/
structure Tracked (s : State) : Prop where
  snapshot : ∀ later i t time earlier, s.history = later ++ .certificatesRead i t time :: earlier →
    ∀ p ∈ s.publicCertificates.rows, NoIssueTo p.uid later → ∃ p₀ ∈ t.rows, Later p₀ p
  revoked : ∀ later i ws time earlier,
    s.history = later ++ .certificatesCommitted i ws time :: earlier → time ≤ s.now ∧
      ∀ p ∈ s.publicCertificates.rows,
        NoIssueTo p.uid (later ++ [.certificatesCommitted i ws time]) →
        revocation p.serialNr ∈ ws → p.isRevoked = true

theorem tracked_commit {req : Request} {i : ℕ} {ws : List CertificateWrite} {time : Time}
    {t : Table PublicCertificate} (hm : Move P c c' req (.certificatesCommitted i ws time))
    (hc : c.shared.publicCertificates.commit ws = some t) (htime : time = c.shared.now)
    (h : Tracked c.shared) : Tracked ({ c.shared with publicCertificates := t }.record
      (.certificatesCommitted i ws time)) := by
  have hold : ∀ {q later}, q ∈ t.rows →
      NoIssueTo q.uid (.certificatesCommitted i ws time :: later) →
      ∃ p ∈ c.shared.publicCertificates.rows, q = Table.patched ws p ∧ NoIssueTo p.uid later := by
    intro q later hq hno
    rcases row_of_commit hm hc hq with ⟨p, hp, rfl⟩ | hrow
    · refine ⟨p, hp, rfl, ?_⟩
      rw [(later_patched ws p).uid] at hno
      exact hno.tail
    · exact absurd rfl (hno _ List.mem_cons_self q hrow)
  refine ⟨?_, ?_⟩
  · intro later j S since earlier hhist q hq hno
    cases later with
    | nil => cases (List.cons.inj hhist).1
    | cons e later =>
      obtain ⟨rfl, htail⟩ := List.cons.inj hhist
      obtain ⟨p, hp, rfl, hno'⟩ := hold hq hno
      obtain ⟨p₀, hp₀, hlater⟩ := h.snapshot later j S since earlier htail p hp hno'
      exact ⟨p₀, hp₀, hlater.trans (later_patched ws p)⟩
  · intro later j ws' time' earlier hhist
    cases later with
    | nil =>
      obtain ⟨heq, -⟩ := List.cons.inj hhist
      obtain ⟨-, rfl, rfl⟩ := Event.certificatesCommitted.inj heq
      refine ⟨htime.le, fun q hq hno hmem => ?_⟩
      rw [← heq] at hno
      obtain ⟨p, hp, rfl, -⟩ := hold hq hno
      rw [(later_patched ws p).serialNr] at hmem
      rw [patched_certificate, if_pos hmem]
    | cons e later =>
      obtain ⟨rfl, htail⟩ := List.cons.inj hhist
      obtain ⟨hle, hrev⟩ := h.revoked later j ws' time' earlier htail
      refine ⟨hle, fun q hq hno hmem => ?_⟩
      obtain ⟨p, hp, rfl, hno'⟩ := hold hq hno
      rw [(later_patched ws p).serialNr] at hmem
      exact (later_patched ws p).isRevoked (hrev p hp hno' hmem)

/-- An event that is no commit to `public_certificates`. -/
theorem tracked_other {s : State} {e : Event} {s' : State}
    (hhist : s'.history = e :: s.history)
    (hrows : s'.publicCertificates = s.publicCertificates) (hnow : s'.now = s.now)
    (hcommit : ∀ i ws time, e ≠ .certificatesCommitted i ws time)
    (hread : ∀ i t time, e = .certificatesRead i t time → t = s.publicCertificates) (h : Tracked s) :
    Tracked s' := by
  refine ⟨?_, ?_⟩
  · intro later j S time earlier heq p hp hno
    rw [hhist] at heq
    rw [hrows] at hp
    cases later with
    | nil =>
      obtain ⟨rfl, -⟩ := List.cons.inj heq
      obtain rfl := hread j S time rfl
      exact ⟨p, hp, Later.refl p⟩
    | cons e₁ later =>
      obtain ⟨rfl, htail⟩ := List.cons.inj heq
      exact h.snapshot later j S time earlier htail p hp hno.tail
  · intro later j ws time earlier heq
    rw [hhist] at heq
    rw [hrows, hnow]
    cases later with
    | nil => exact absurd (List.cons.inj heq).1 (hcommit j ws time)
    | cons e₁ later =>
      obtain ⟨rfl, htail⟩ := List.cons.inj heq
      obtain ⟨hle, hrev⟩ := h.revoked later j ws time earlier htail
      exact ⟨hle, fun p hp hno hmem => hrev p hp hno.tail hmem⟩

theorem tracked_move {req : Request} {e : Event} (hm : Move P c c' req e)
    (h : Tracked c.shared) : Tracked c'.shared := by
  have hocc := hm.occurs
  generalize hs : c.shared = s at hocc h
  generalize hs' : c'.shared = s' at hocc
  cases hocc with
  | certificatesCommitted hc =>
    subst hs
    exact tracked_commit hm hc rfl h
  | certificatesRead =>
    exact tracked_other rfl rfl rfl (by simp)
      (fun i t time ht => (Event.certificatesRead.inj ht).2.1.symm) h
  | _ => exact tracked_other (s := s) rfl rfl rfl (by simp) (by simp) h

theorem tracked_of_reaches (h₀ : s₀.history = []) (h : (system P).Reaches (.initial s₀) c) :
    Tracked c.shared := by
  refine invariant_of_moves h₀ ?_ ?_ (fun _ hm => tracked_move hm) h
  · refine ⟨fun later i t time earlier hhist => ?_, fun later i ws time earlier hhist => ?_⟩
    · rw [h₀] at hhist
      cases later <;> cases hhist
    · rw [h₀] at hhist
      cases later <;> cases hhist
  · intro d s hs
    refine ⟨hs.snapshot, fun later i ws time earlier hhist => ?_⟩
    obtain ⟨hle, hrev⟩ := hs.revoked later i ws time earlier hhist
    exact ⟨hle.trans (Nat.le_add_right _ _), hrev⟩

/-- The newest event of a process, in the history. -/
theorem history_of_own {i : ℕ} {e : Event} {evs history : List Event}
    (h : history.filter (fun e => decide (e.pid = i)) = e :: evs) : ∃ later earlier,
      history = later ++ e :: earlier ∧ earlier.filter (fun e => decide (e.pid = i)) = evs := by
  obtain ⟨later, earlier, hhist, -, -, hevs⟩ := List.filter_eq_cons_iff.1 h
  exact ⟨later, earlier, hhist, hevs⟩

/-- Since process `i` read the table, no certificate was issued to the user. -/
def NoIssueSinceRead (s : State) (i : ℕ) (uid : String) : Prop :=
  ∀ later t time earlier, s.history = later ++ .certificatesRead i t time :: earlier →
    NoIssueTo uid later

/-- After a revocation that succeeded no certificate of the user is live, until the next one is
issued. -/
theorem not_live_of_revocation {s : State} (h : Tracked s) {i : ℕ} {user : User}
    {t : Table PublicCertificate} {since : Time} {ws : List CertificateWrite} {time : Time} {e : Event}
    {evs : List Event} (hown : s.own i = e :: (revocationEvents i user t since ws time ++ evs))
    (hws : RevokesAll uid t since ws time) (hno : NoIssueSinceRead s i uid) {p : PublicCertificate}
    (hp : p ∈ s.publicCertificates.rows) (hu : p.uid = uid) : ¬ Live s.now p := by
  obtain ⟨l₁, rest, hhist, hrest⟩ := history_of_own hown
  obtain ⟨l₂, rest', rfl, hrest'⟩ := history_of_own hrest
  obtain ⟨l₃, rest'', rfl, -⟩ := history_of_own hrest'
  have hread : s.history = (l₁ ++ e :: l₂ ++ .certificatesCommitted i ws time :: l₃) ++
      .certificatesRead i t since :: rest'' := by simp [hhist]
  have hcommit : s.history = (l₁ ++ e :: l₂) ++ .certificatesCommitted i ws time ::
      (l₃ ++ .certificatesRead i t since :: rest'') := by simp [hhist]
  have hnone := hno _ _ _ _ hread
  rintro ⟨hrev, hexp⟩
  obtain ⟨p₀, hp₀, hlater⟩ := h.snapshot _ _ _ _ _ hread p hp (by rw [hu]; exact hnone)
  obtain rfl := hlater.eq_of_not_revoked hrev
  have hmem : p ∈ unrevokedCertificates uid t := by
    simp [unrevokedCertificates, hp₀, hu, hrev]
  obtain ⟨hle, hdone⟩ := h.revoked _ _ _ _ _ hcommit
  rcases hws.complete p hmem with hin | hlt
  · have htrue := hdone p hp ?_ hin
    · rw [hrev] at htrue
      cases htrue
    · rw [hu]
      intro e' he'
      apply hnone e'
      rcases List.mem_append.1 he' with he' | he'
      · exact List.mem_append_left _ he'
      · rw [List.mem_singleton.1 he']
        exact List.mem_append_right _ List.mem_cons_self
  · exact absurd hexp (Nat.not_le.2 (lt_of_lt_of_le hlt hle))

/-! ## The stored address -/

/-- The stored e-mail address of a user. -/
def State.emailOf (s : State) (uid : String) : Option String := (s.users.find? uid).map User.email

/-- Every live certificate carries the stored e-mail address of its user. -/
def CarriesEmail (s : State) : Prop :=
  ∀ p ∈ s.publicCertificates.rows, Live s.now p →
    ∃ email, p.certificate.sanEmails = [email] ∧ s.emailOf p.uid = some email

/-- An issuance commits while the address that it read is the stored one. -/
def IssuesCurrentEmail (a : Act Request Choice ℕ) (c _ : Configuration) : Prop :=
  ∀ i req machineName r ws k user, a = .step i .ok →
    c.procs i = some (req, .op (.commitCertificates ws) k) → Calls req machineName (.issue r) →
    .userRead i r.uid (some user) ∈ c.shared.own i → c.shared.emailOf r.uid = some user.email

/-- An update that changes the address saves it after a revocation that succeeded, and before
another certificate is issued to the user. -/
def SavesAfterRevocation (a : Act Request Choice ℕ) (c _ : Configuration) : Prop :=
  ∀ i machineName uid d ws k, a = .step i .ok →
    c.procs i = some (.web machineName uid (.update d), .op (.commitUsers ws) k) →
    c.shared.emailOf uid = some d.email ∨
      ((∃ reply, .received i reply ∈ c.shared.own i ∧ reply.isSuccessStatusCode = true) ∧
        NoIssueSinceRead c.shared i uid)

/-- `ChangePassword` leaves the addresses as they are. -/
theorem email_of_passwordHashChange {t t' : Table User} {user : User} {pwd : String}
    (h : t.commit (passwordHashChange user pwd) = some t') (uid : String) :
    (t'.find? uid).map User.email = (t.find? uid).map User.email := by
  unfold passwordHashChange at h
  split_ifs at h
  · rw [Option.some.inj h]
  · by_cases hu : user.id = uid
    · obtain ⟨u, hfind, hfind'⟩ := mem_of_commit_update h
      rw [← hu, hfind, hfind']
      rfl
    · rw [find?_of_update h hu]

theorem email_of_saved {t t' : Table User} {user : User} {d : UserDetails}
    (h : t.commit (savedDetails user d) = some t') (uid : String) :
    (t'.find? uid).map User.email =
      if user.id = uid then some d.email else (t.find? uid).map User.email := by
  split_ifs with hu
  · obtain ⟨u, -, hfind⟩ := mem_of_commit_update h
    have hid : (withDetails user d).id = uid := hu
    rw [← hid, hfind]
    rfl
  · rw [find?_of_update h hu]

/-! ## Runs -/

/-- The commit of an issuance or of a revocation. -/
theorem carriesEmail_certificates {req : Request} {i : ℕ} {ws : List CertificateWrite} {time : Time}
    {t : Table PublicCertificate} (hm : Move P c c' req (.certificatesCommitted i ws time))
    (hc : c.shared.publicCertificates.commit ws = some t)
    (hissue : ∀ machineName r user, Calls req machineName (.issue r) →
      .userRead i r.uid (some user) ∈ c.shared.own i → c.shared.emailOf r.uid = some user.email)
    (h : CarriesEmail c.shared) : CarriesEmail ({ c.shared with publicCertificates := t }.record
      (.certificatesCommitted i ws time)) := by
  intro q hq hlive
  rcases row_of_commit hm hc hq with ⟨p, hp, rfl⟩ | hrow
  · have hsame := (later_patched ws p).eq_of_not_revoked hlive.1
    rw [hsame] at hlive ⊢
    exact h p hp hlive
  · rcases commit_of_move hm with hiss | hrev
    · obtain ⟨⟨m, r, hcall, I, rfl, -, -, -, huser⟩⟩ := hiss
      rw [I.insertedRow_writes] at hrow
      obtain rfl := Option.some.inj hrow
      refine ⟨I.user.email, I.certificate_spec.2.2, ?_⟩
      have hemail := hissue m r I.user hcall (State.mem_own.2 ⟨huser, rfl⟩)
      rw [← I.authenticated.1] at hemail
      exact hemail
    · obtain ⟨R⟩ := hrev
      rw [R.insertedRow] at hrow
      cases hrow

/-- The save of an update. -/
theorem carriesEmail_saved {s : State} {t : Table User} {user : User} {d : UserDetails} {e : Event}
    (hc : s.users.commit (savedDetails user d) = some t)
    (hsave : s.emailOf user.id = some d.email ∨
      ∀ p ∈ s.publicCertificates.rows, p.uid = user.id → ¬ Live s.now p)
    (h : CarriesEmail s) : CarriesEmail ({ s with users := t }.record e) := by
  intro p hp hlive
  obtain ⟨email, hsan, hemail⟩ := h p hp hlive
  refine ⟨email, hsan, ?_⟩
  show (t.find? p.uid).map User.email = some email
  rw [email_of_saved hc]
  split_ifs with hu
  · rcases hsave with hsame | hdead
    · rw [← hemail, ← hu, hsame]
    · exact absurd hlive (hdead p hp hu.symm)
  · exact hemail

/-- What comes before the save of an update. -/
theorem own_of_saved {i : ℕ} {machineName : String} {d : UserDetails} {ws : List UserWrite}
    {evs : List Event} (h : UpdateTrace P i machineName uid d (.usersCommitted i ws :: evs)) :
    ∃ (user : User) (part : List Event) (reply : Reply), user.id = uid ∧
      ws = savedDetails user d ∧ RevokeTrace i uid part ∧ RevokeAnswer i uid reply part ∧
      evs = .received i reply :: (part ++ [.userRead i uid (some user)]) := by
  generalize hl : Event.usersCommitted i ws :: evs = l at h
  cases h with
  | start => cases hl
  | userRead => cases (List.cons.inj hl).1
  | @call user part hid hpart =>
    have hmem : .usersCommitted i ws ∈ part ++ [.userRead i uid (some user)] := by
      rw [← hl]
      exact List.mem_cons_self
    simp only [List.mem_append, List.mem_singleton, reduceCtorEq, or_false] at hmem
    obtain ⟨evs', -, htrace, hcases⟩ := call_of_callTrace hpart
    rcases hcases _ hmem with hmem | ⟨reply, heq⟩
    · obtain ⟨-, r, hr, -⟩ := usersCommitted_cases htrace hmem
      cases hr
    · cases heq
  | @saved user part reply hid hpart ha =>
    obtain ⟨heq, rfl⟩ := List.cons.inj hl
    exact ⟨user, part, reply, hid, (Event.usersCommitted.inj heq).2, hpart, ha, rfl⟩

theorem carriesEmail_users {req : Request} {i : ℕ} {ws : List UserWrite} {t : Table User}
    (hm : Move P c c' req (.usersCommitted i ws)) (hc : c.shared.users.commit ws = some t)
    (htracked : Tracked c.shared)
    (hsave : ∀ machineName uid d, req = .web machineName uid (.update d) →
      c.shared.emailOf uid = some d.email ∨
        ((∃ reply, .received i reply ∈ c.shared.own i ∧ reply.isSuccessStatusCode = true) ∧
          NoIssueSinceRead c.shared i uid))
    (h : CarriesEmail c.shared) :
    CarriesEmail ({ c.shared with users := t }.record (.usersCommitted i ws)) := by
  have hkeep : (∀ uid, (t.find? uid).map User.email = c.shared.emailOf uid) →
      CarriesEmail ({ c.shared with users := t }.record (.usersCommitted i ws)) := by
    intro hsame p hp hlive
    obtain ⟨email, hsan, hemail⟩ := h p hp hlive
    exact ⟨email, hsan, (hsame p.uid).trans hemail⟩
  rcases mem_trace hm.trace List.mem_cons_self with ⟨m, r, evs, -, htrace, -, he⟩ | hweb
  · obtain ⟨-, r', -, rfl | ⟨user, -, rfl, -⟩⟩ := usersCommitted_cases htrace he
    · obtain rfl : c.shared.users = t := Option.some.inj hc
      exact hkeep fun uid => rfl
    · exact hkeep (email_of_passwordHashChange hc)
  · cases hweb with
    | @saved machineName uid d user' hid' hread =>
      obtain ⟨user, part, reply, rfl, hws, hpart, hanswer, hown⟩ := own_of_saved hm.trace
      rw [hws] at hc
      refine carriesEmail_saved hc ?_ h
      rcases hsave machineName user.id d rfl with hsame | ⟨⟨reply', hreply, hsuccess⟩, hno⟩
      · exact Or.inl hsame
      · right
        intro p hp hu
        obtain rfl : reply' = reply := by
          have hnot : .received i reply' ∉ part := by
            cases hpart <;> simp [revocationEvents]
          have hown' : c.shared.own i =
              .received i reply :: (part ++ [.userRead i user.id (some user)]) := hown
          rw [hown'] at hreply
          simpa [hnot] using hreply
        obtain ⟨user₁, S, since, ws', time, -, hall, rfl⟩ := hanswer hsuccess
        exact not_live_of_revocation htracked hown hall hno hp hu

theorem carriesEmail_move {req : Request} {e : Event} (hm : Move P c c' req e)
    (htracked : Tracked c.shared)
    (hissue : ∀ ws time machineName r user, e = .certificatesCommitted e.pid ws time →
      Calls req machineName (.issue r) → .userRead e.pid r.uid (some user) ∈ c.shared.own e.pid →
      c.shared.emailOf r.uid = some user.email)
    (hsave : ∀ ws machineName uid d, e = .usersCommitted e.pid ws →
      req = .web machineName uid (.update d) → c.shared.emailOf uid = some d.email ∨
        ((∃ reply, .received e.pid reply ∈ c.shared.own e.pid ∧
          reply.isSuccessStatusCode = true) ∧ NoIssueSinceRead c.shared e.pid uid))
    (h : CarriesEmail c.shared) : CarriesEmail c'.shared := by
  have hocc := hm.occurs
  generalize hs : c.shared = s at hocc
  generalize hs' : c'.shared = s' at hocc
  cases hocc with
  | certificatesCommitted hc =>
    subst hs
    exact carriesEmail_certificates hm hc
      (fun m r user hcall hread => hissue _ _ m r user rfl hcall hread) h
  | usersCommitted hc =>
    subst hs
    exact carriesEmail_users hm hc htracked (fun m uid d hreq => hsave _ m uid d rfl hreq) h
  | _ =>
    rw [hs] at h
    exact h

/-- In a run that starts with live certificates for the stored addresses, and in which no issuance
commits with an address that is no longer stored and no update saves a new one too early, every live
certificate carries the stored e-mail address of its user. -/
theorem liveEmail_of_run (P : Platform) {s₀ : State} (h₀ : s₀.history = [])
    (hstart : CarriesEmail s₀) {as : List (Act Request Choice ℕ)} {c : Configuration}
    (hrun : (system P).run as (.initial s₀) = some c)
    (halong : (system P).Along (fun a c c' => IssuesCurrentEmail a c c' ∧
      SavesAfterRevocation a c c') as (.initial s₀)) : CarriesEmail c.shared := by
  refine System.run_induction (I := fun c => CarriesEmail c.shared) hstart ?_ hrun halong
  rintro a b b' hreach hemail ha ⟨hissue, hsave⟩
  rcases moves_of_step h₀ hreach ha with hs | ⟨d, hs⟩ | ⟨req, e, ch, rfl, hm⟩
  · rw [hs]
    exact hemail
  · rw [hs]
    intro p hp hlive
    exact hemail p hp ⟨hlive.1, (Nat.le_add_right _ _).trans hlive.2⟩
  · refine carriesEmail_move hm (tracked_of_reaches h₀ hreach) ?_ ?_ hemail
    · intro ws time m r user he hcall hread
      have hop : e.commitOp = some (.commitCertificates ws) := by
        rw [he]
        rfl
      obtain ⟨rfl, k, hk⟩ := op_of_step ha hm.occurs hop hm.request
      exact hissue e.pid req m r ws k user rfl hk hcall hread
    · rintro ws m uid d he rfl
      have hop : e.commitOp = some (.commitUsers ws) := by
        rw [he]
        rfl
      obtain ⟨rfl, k, hk⟩ := op_of_step ha hm.occurs hop hm.request
      exact hsave e.pid m uid d ws k rfl hk

section

open Deployment

/-- A row of users that was read has the email address that is stored. -/
def readsCurrentEmail (s : State) (e : Event) : Bool :=
  match e with
  | .userRead _ uid (some user) => decide (s.emailOf uid = some user.email)
  | _ => true

/-- The answer of the CA that the web server got is one of success. -/
def isSuccess (e : Event) : Bool :=
  match e with
  | .received _ reply => reply.isSuccessStatusCode
  | _ => false

/-- It is enough that no certificate was ever issued to the user. -/
def checksEmail (a : Act Request Choice ℕ) (c : Configuration) : Bool :=
  match a with
  | .step i _ =>
      match c.procs i with
      | some (_, .op (.commitCertificates _) _) =>
          (c.shared.own i).all (readsCurrentEmail c.shared)
      | some (.web _ uid (.update _), .op (.commitUsers _) _) =>
          (c.shared.own i).any isSuccess &&
            c.shared.history.all fun e => e.issued.all fun row => decide (row.uid ≠ uid)
      | _ => true
  | _ => true

theorem conditions_of_checksEmail (a : Act Request Choice ℕ) (c c' : Configuration)
    (h : checksEmail a c = true) : IssuesCurrentEmail a c c' ∧ SavesAfterRevocation a c c' := by
  refine ⟨?_, ?_⟩
  · rintro i req m r ws k user rfl hk - hread
    simp only [checksEmail, hk, List.all_eq_true] at h
    exact of_decide_eq_true (h _ hread)
  · rintro i m uid d ws k rfl hk
    simp only [checksEmail, hk, Bool.and_eq_true, List.any_eq_true, List.all_eq_true] at h
    obtain ⟨⟨e, he, hsuccess⟩, hnone⟩ := h
    refine Or.inr ⟨?_, ?_⟩
    · cases e with
      | received j reply =>
        obtain rfl : j = i := (State.mem_own.1 he).2
        exact ⟨reply, he, hsuccess⟩
      | _ => cases hsuccess
    · intro later t since earlier hhist e he row hrow
      have hall := hnone e (by rw [hhist]; exact List.mem_append_left _ he)
      rw [hrow] at hall
      exact of_decide_eq_true hall

/-- Another address for `a3`. -/
def newEmail : String := "andres.anderson@imovies.ch"

/-- The form in which `a3` changes the address. -/
def emailUpdate : Request := .web "aslcert01" "a3" (.update ⟨"Andres Andrea", "Anderson", newEmail⟩)

/-- An update, and then a certificate. -/
def updateThenIssue : List (Act Request Choice ℕ) :=
  .arrive 0 emailUpdate :: (steps 0 8 ++ .arrive 1 issueRequest :: steps 1 18)

theorem liveEmail_after_update : ∃ c : Configuration,
    (system platform).run updateThenIssue (.initial (installed users)) = some c ∧
      c.shared.publicCertificates.rows.length = 1 ∧ c.shared.emailOf "a3" = some newEmail ∧
      CarriesEmail c.shared := by
  have hrun : ((system platform).run updateThenIssue (.initial (installed users))).map
      (fun c => decide (c.shared.publicCertificates.rows.length = 1 ∧
        c.shared.emailOf "a3" = some newEmail)) = some true := by decide +kernel
  have halong : (system platform).Along (fun a c c' => IssuesCurrentEmail a c c' ∧
      SavesAfterRevocation a c c') updateThenIssue (.initial (installed users)) :=
    System.along_of_tests conditions_of_checksEmail (by decide +kernel)
  have hstart : CarriesEmail (installed users) := fun p hp => by cases hp
  obtain ⟨c, hc, hcheck⟩ := Option.map_eq_some_iff.1 hrun
  obtain ⟨hlen, hemail⟩ := of_decide_eq_true hcheck
  exact ⟨c, hc, hlen, hemail, liveEmail_of_run platform rfl hstart hc halong⟩

/-- After updates and issuances whose calls all succeeded, and when none of them is in progress,
every live certificate carries the stored address. -/
def LiveEmailsCurrent (P : Platform) (s₀ : State) : Prop :=
  ∀ c : Configuration, (system P).Reaches (.initial s₀) c →
    (∀ j req p, c.procs j = some (req, p) → (∃ reply, p = .done reply) ∧
      ((∃ machineName r, req = .api machineName (.issue r)) ∨
        ∃ machineName uid d, req = .web machineName uid (.update d))) →
    (∀ j reply, .received j reply ∈ c.shared.history → reply.isSuccessStatusCode = true) →
    CarriesEmail c.shared

/-- A certificate is issued after the revocation of the update and before its save. -/
def issueWithinUpdate : List (Act Request Choice ℕ) :=
  .arrive 0 emailUpdate :: .arrive 1 issueRequest :: (steps 0 7 ++ (steps 1 18 ++ steps 0 1))

/-- A live certificate has another address than the stored one. -/
def staleEmail (s : State) : Bool :=
  s.publicCertificates.rows.any fun p => decide (p.isRevoked = false ∧ s.now ≤ p.parse.notAfter ∧
    s.emailOf p.uid ≠ p.certificate.sanEmails.head?)

theorem liveEmail_stale : ¬ LiveEmailsCurrent platform (installed users) := by
  intro hclaim
  have hrun : ((system platform).run issueWithinUpdate (.initial (installed users))).map
      (fun c => ((c.answer 0).any fun a => a.1 = emailUpdate) && delivered c 1 issueRequest &&
        (c.shared.history.all fun e => match e with
          | .received _ reply => reply.isSuccessStatusCode
          | _ => true) && staleEmail c.shared) = some true := by decide +kernel
  obtain ⟨c, hc, hcheck⟩ := Option.map_eq_some_iff.1 hrun
  simp only [Bool.and_eq_true, Option.any_eq_true, decide_eq_true_eq, List.all_eq_true] at hcheck
  obtain ⟨⟨⟨⟨⟨req, reply⟩, hzero, hreq⟩, hone⟩, hsuccess⟩, hstale⟩ := hcheck
  have hzero := Config.procs_of_answer hzero
  obtain rfl : req = emailUpdate := hreq
  obtain ⟨archive, hone⟩ := procs_of_delivered hone
  have hall : ∀ j req p, c.procs j = some (req, p) → (∃ reply, p = .done reply) ∧
      ((∃ machineName r, req = .api machineName (.issue r)) ∨
        ∃ machineName uid d, req = .web machineName uid (.update d)) := by
    intro j req p hp
    rcases procs_cases hc (by decide) hzero hone hp with ⟨-, rfl, rfl⟩ | ⟨-, rfl, rfl⟩
    · exact ⟨⟨_, rfl⟩, Or.inr ⟨_, _, _, rfl⟩⟩
    · exact ⟨⟨_, rfl⟩, Or.inl ⟨_, _, rfl⟩⟩
  have hcarries := hclaim c (System.reaches_of_run hc) hall fun j reply hmem => hsuccess _ hmem
  simp only [staleEmail, List.any_eq_true, decide_eq_true_eq] at hstale
  obtain ⟨p, hp, hrev, hexp, hne⟩ := hstale
  obtain ⟨email, hsan, hemail⟩ := hcarries p hp ⟨hrev, hexp⟩
  rw [hemail, hsan] at hne
  exact hne rfl

end

end IMoviesCA
