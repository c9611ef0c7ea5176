import IMoviesCA.Ledger
import IMoviesCA.Deployment

/-!
# Serial numbers

What the ledger promises of `public_certificates`, in every run that starts with an empty table:
the serial numbers have neither gap nor duplicate and a request whose number is taken never changes
the table (`serialNumbers_of_run`), and every user has at most one live certificate, the one that
was issued last (`liveCertificates_of_reaches`).
-/

namespace IMoviesCA

open CADBModifier

variable {P : Platform} {s₀ : State} {c c' : Configuration}

/-! ## The transactions of the issuances -/

/-- The request asks for a certificate. -/
def Request.issues : Request → Bool
  | .api _ (.issue _) => true
  | .web _ _ (.new _) => true
  | _ => false

/-- The event commits a transaction on `public_certificates`. -/
def Event.commitsCertificates : Event → Bool
  | certificatesCommitted _ _ _ => true
  | _ => false

/-- The committed transactions of the requests for a certificate. -/
def issueCommits (c : Configuration) : List Event :=
  c.shared.history.filter fun e => e.commitsCertificates && (c.request e.pid).any Request.issues

/-- The transaction revokes rows and inserts one. -/
def Event.InsertsOne (e : Event) : Prop :=
  ∃ ws row time, e = .certificatesCommitted e.pid (ws ++ [.insert row]) time ∧ Revocations ws

/-- A commit is that of a request for a certificate exactly when it inserts a row. -/
theorem commit_cases (h₀ : s₀.history = []) (h : (system P).Reaches (.initial s₀) c) {e : Event}
    (he : e ∈ c.shared.history) :
    e.issued.isSome = (e.commitsCertificates && (c.request e.pid).any Request.issues) ∧
      (e.issued.isSome = true → e.InsertsOne) := by
  obtain ⟨req, hreq, hown, htrace⟩ := trace_of_mem_history h₀ h he
  cases e with
  | certificatesCommitted i ws time =>
    have hany : (c.request i).any Request.issues = req.issues := by
      have hreq : c.request i = some req := hreq
      rw [hreq]
      rfl
    change (insertedRow ws).isSome = (c.request i).any Request.issues ∧ _
    rw [hany]
    rcases commit_of_mem_trace htrace hown (fun _ he' _ => State.own_subset he') with hiss | hrev
    · obtain ⟨⟨m, r, hcall, I, rfl, -, -, -, -⟩⟩ := hiss
      have hissues : req.issues = true := by cases hcall <;> rfl
      refine ⟨by rw [I.insertedRow_writes, hissues]; rfl, fun _ => ?_⟩
      exact ⟨I.revocations, I.row, time, rfl, I.revokesAll.revocations⟩
    · obtain ⟨⟨m, r, hcall, user, S, since, -, hws, -⟩⟩ := hrev
      have hnone : insertedRow ws = none := insertedRow_revocations hws.revocations
      have hissues : req.issues = false := by cases hcall <;> rfl
      refine ⟨by rw [hnone, hissues]; rfl, fun hsome => ?_⟩
      have hsome : (insertedRow ws).isSome = true := hsome
      rw [hnone] at hsome
      cases hsome
  | _ => exact ⟨rfl, fun hsome => by cases hsome⟩

/-- As many rows were inserted as requests for a certificate have committed. -/
theorem length_issued (h₀ : s₀.history = []) (h : (system P).Reaches (.initial s₀) c) :
    (issued c.shared.history).length = (issueCommits c).length := by
  rw [issued, List.length_filterMap_eq_countP, issueCommits, ← List.countP_eq_length_filter]
  exact List.countP_congr fun e he => by rw [(commit_cases h₀ h he).1]

/-- Each of them inserted one row. -/
theorem insertsOne_of_mem_issueCommits (h₀ : s₀.history = [])
    (h : (system P).Reaches (.initial s₀) c) {e : Event} (he : e ∈ issueCommits c) :
    e.InsertsOne := by
  obtain ⟨he, hcommit⟩ := List.mem_filter.1 he
  obtain ⟨hissued, hone⟩ := commit_cases h₀ h he
  exact hone (hissued.trans hcommit)

/-! ## A request whose number is taken -/

/-- Process `i` read its number, has not committed it, and the number is taken. -/
def SerialTaken (s : State) (i : ℕ) : Prop :=
  ∃ t time, .certificatesRead i t time ∈ s.history ∧
    (getMaxSerialNr t).serialNr ∈ s.publicCertificates.keys ∧
    ∀ ws time, .certificatesCommitted i ws time ∉ s.history

theorem keys_of_evolves {evs : List Event} {s s' : State} (h : Evolves evs s s') :
    s.publicCertificates.keys ⊆ s'.publicCertificates.keys := by
  induction h with
  | refl => exact List.Subset.refl _
  | tick d h ih => exact ih
  | event h he ih =>
    apply List.Subset.trans ih
    cases he with
    | certificatesCommitted hc => exact Table.keys_subset_of_commit hc
    | _ => exact List.Subset.refl _

theorem not_revoke_of_issue {req : Request} {machineName machineName' : String} {r : CertRequest}
    {r' : RevokeRequest} (h : Calls req machineName (.issue r))
    (h' : Calls req machineName' (.revoke r')) : False := by
  cases h <;> cases h'

/-- The number of a commit is the one that was read, and it was free. -/
theorem not_move_of_taken {i : ℕ} {req : Request} {machineName : String} {r : CertRequest}
    (hcall : Calls req machineName (.issue r)) {t : Table PublicCertificate} {since : Time}
    (hread : .certificatesRead i t since ∈ c.shared.history)
    (hkey : (getMaxSerialNr t).serialNr ∈ c.shared.publicCertificates.keys)
    {ws : List CertificateWrite} {time : Time} :
    ¬ Move P c c' req (.certificatesCommitted i ws time) := by
  intro hm
  rcases commit_of_move hm with hiss | hrev
  · obtain ⟨I⟩ := hiss
    have ht : I.I.snapshot = t :=
      (certificatesRead_unique hm.trace List.mem_cons_self
        (List.mem_cons_of_mem _ (State.mem_own.2 ⟨I.certificatesRead, rfl⟩))
        (List.mem_cons_of_mem _ (State.mem_own.2 ⟨hread, rfl⟩))).1
    have hrow : I.I.row.serialNr = (getMaxSerialNr t).serialNr := by
      rw [← ht]
      rfl
    have hc := hm.occurs.commit.2
    rw [I.writes] at hc
    apply not_mem_keys_of_issue I.I.revokesAll.revocations hc
    rw [hrow]
    exact hkey
  · obtain ⟨R⟩ := hrev
    exact not_revoke_of_issue hcall R.calls

/-- It never commits. -/
theorem not_committed_of_taken (h₀ : s₀.history = []) (h : (system P).Reaches (.initial s₀) c)
    {i : ℕ} {req : Request} {machineName : String} {r : CertRequest}
    (hreq : c.request i = some req) (hcall : Calls req machineName (.issue r))
    (htaken : SerialTaken c.shared i) (h' : (system P).Reaches c c') :
    ∀ ws time, .certificatesCommitted i ws time ∉ c'.shared.history := by
  obtain ⟨t, since, hread, hkey, hnot⟩ := htaken
  induction h' with
  | refl => exact hnot
  | @tail b b' hb hstep ih =>
    obtain ⟨a, ha⟩ := hstep
    have hreach : (system P).Reaches (.initial s₀) b := h.trans hb
    obtain ⟨evs, hevs⟩ := evolves_of_reaches hb
    intro ws time hmem
    rcases moves_of_step h₀ hreach ha with hs | ⟨d, hs⟩ | ⟨req', e, ch, -, hm⟩
    · rw [hs] at hmem
      exact ih ws time hmem
    · rw [hs] at hmem
      exact ih ws time hmem
    · rw [hm.occurs.history] at hmem
      rcases List.mem_cons.1 hmem with rfl | hmem
      · obtain rfl : req' = req :=
          Option.some.inj (hm.request.symm.trans (System.request_of_reaches hb hreq))
        have hread' : .certificatesRead i t since ∈ b.shared.history := by
          rw [hevs.history]
          exact List.mem_append_right _ hread
        exact not_move_of_taken hcall hread' (keys_of_evolves hevs hkey) hm
      · exact ih ws time hmem

/-- A step that changes the table is a commit. -/
theorem committed_of_table_ne {i : ℕ} {ch : Choice}
    (h : (system P).step (.step i ch) c = some c')
    (hne : c'.shared.publicCertificates ≠ c.shared.publicCertificates) :
    ∃ ws time, .certificatesCommitted i ws time ∈ c'.shared.history := by
  cases System.step_cases h with
  | @step _ _ r op k hhere =>
    rcases exec_cases i op ch c.shared with hs | ⟨e, hpid, hocc⟩
    · exact absurd (congrArg State.publicCertificates hs) hne
    · have hhist := hocc.history
      change ∃ ws time, .certificatesCommitted i ws time ∈ (exec i op ch c.shared).2.history
      rw [hhist]
      change (exec i op ch c.shared).2.publicCertificates ≠ _ at hne
      generalize hs' : (exec i op ch c.shared).2 = s' at hocc hne
      generalize c.shared = s at hocc hne
      cases hocc with
      | @certificatesCommitted j ws _ t hc =>
        obtain rfl : j = i := hpid
        exact ⟨ws, _, List.mem_cons_self⟩
      | _ => exact absurd rfl hne

/-- A request whose number is taken changes nothing, before or after. -/
theorem along_of_taken (h₀ : s₀.history = []) {as bs : List (Act Request Choice ℕ)}
    (hrun : (system P).run as (.initial s₀) = some c) {i : ℕ} {req : Request} {machineName : String}
    {r : CertRequest} (hreq : c.request i = some req) (hcall : Calls req machineName (.issue r))
    (htaken : SerialTaken c.shared i) (hbs : (system P).run bs c = some c') :
    (system P).Along (fun a b b' => (∃ ch, a = .step i ch) →
      b'.shared.publicCertificates = b.shared.publicCertificates) (as ++ bs) (.initial s₀) := by
  apply System.along_of_forall
  rintro as₁ a as₂ b b' hsplit hb hstep ⟨ch, rfl⟩
  by_contra hne
  obtain ⟨ws, time, hmem⟩ := committed_of_table_ne hstep hne
  -- the rest of the schedule leads from `b'` to `c'`
  have hrest : (system P).run as₂ b' = some c' := by
    have hall : (system P).run (as ++ bs) (.initial s₀) = some c' := by
      rw [System.run_append, hrun]
      exact hbs
    rw [hsplit, System.run_append, hb] at hall
    simp only [Option.bind_some, System.run, hstep] at hall
    exact hall
  exact not_committed_of_taken h₀ (System.reaches_of_run hrun) hreq hcall htaken
    (System.reaches_of_run hbs) ws time
    (history_subset_of_reaches (System.reaches_of_run hrest) hmem)

/-- A table with the largest number has the next one too, which is 0. -/
theorem wraps_of_read {s : State} (h : Ledger s) {i : ℕ} {t : Table PublicCertificate} {time : Time}
    (hread : .certificatesRead i t time ∈ s.history) (hmax : 0xFFFFFFFFFFFFFFFF ∈ t.keys) :
    (getMaxSerialNr t).serialNr = 0 ∧ 0 ∈ s.publicCertificates.keys := by
  obtain ⟨⟨n, hn, hnum⟩, -⟩ := h.snapshot hread
  have hn64 : n = 2 ^ 64 := by
    have hlt := hnum.mem_keys.1 hmax
    have hle := hnum.le
    have hval : (0xFFFFFFFFFFFFFFFF : UInt64).toNat = 2 ^ 64 - 1 := by decide
    omega
  subst hn64
  rw [getMaxSerialNr_of_numbered hnum]
  refine ⟨by decide, h.numbered.mem_keys.2 ?_⟩
  have hzero : (0 : UInt64).toNat = 0 := rfl
  omega

/-- The committed serial numbers are `0, …, n - 1` for `n` committed issuances, each of which inserted
one row, also when the next number wraps to 0, and a request whose number is taken changes nothing: no
step of it, before or after, changes the table. -/
theorem serialNumbers_of_run (P : Platform) {s₀ : State} (h₀ : s₀.history = [])
    (hempty : s₀.publicCertificates = ∅) {as : List (Act Request Choice ℕ)} {c : Configuration}
    (hrun : (system P).run as (.initial s₀) = some c) :
    (c.shared.publicCertificates.rows.map PublicCertificate.serialNr).Nodup ∧
    (∀ k : UInt64, k ∈ c.shared.publicCertificates.rows.map PublicCertificate.serialNr ↔
      k.toNat < (issueCommits c).length) ∧
    (∀ e ∈ issueCommits c, e.InsertsOne) ∧
    (∀ i t time, .certificatesRead i t time ∈ c.shared.history → 0xFFFFFFFFFFFFFFFF ∈ t.keys →
      (getMaxSerialNr t).serialNr = 0 ∧
        0 ∈ c.shared.publicCertificates.rows.map PublicCertificate.serialNr) ∧
    ∀ i req machineName r, c.request i = some req → Calls req machineName (.issue r) →
      SerialTaken c.shared i → ∀ bs c', (system P).run bs c = some c' →
        (system P).Along (fun a b b' => (∃ ch, a = .step i ch) →
          b'.shared.publicCertificates = b.shared.publicCertificates) (as ++ bs) (.initial s₀) := by
  have hreach := System.reaches_of_run hrun
  have hledger := ledger_of_reaches h₀ hempty hreach
  refine ⟨c.shared.publicCertificates.nodup, fun k => ?_, ?_, ?_, ?_⟩
  · rw [← length_issued h₀ hreach]
    exact hledger.numbered.mem_keys
  · exact fun e he => insertsOne_of_mem_issueCommits h₀ hreach he
  · exact fun i t time hread hmax => wraps_of_read hledger hread hmax
  · exact fun i req machineName r hreq hcall htaken bs c' hbs =>
      along_of_taken h₀ hrun hreq hcall htaken hbs

section

open Deployment

/-- Two requests of one user: the first reads its number, then the second issues. -/
def conflictingRequests : List (Act Request Choice ℕ) :=
  .arrive 0 (.api "aslcert01" (.issue certRequest)) ::
    .arrive 1 (.api "aslcert02" (.issue certRequest)) :: (steps 0 4 ++ steps 1 18)

/-- The number after 0 rows is taken, and was read. -/
def readEmpty : Event → Bool
  | .certificatesRead 0 t _ => t.rows.isEmpty
  | _ => false

theorem getMaxSerialNr_of_isEmpty {t : Table PublicCertificate} (h : t.rows.isEmpty = true) :
    (getMaxSerialNr t).serialNr = 0 := by
  have hrows : t.rows = [] := List.isEmpty_iff.1 h
  rw [getMaxSerialNr, hrows]
  rfl

/-- The number of process 0 is taken at `c`. -/
theorem serialTaken_of_readEmpty (hread : c.shared.history.any readEmpty = true)
    (hkey : 0 ∈ c.shared.publicCertificates.keys)
    (hnot : (c.shared.history.any fun e => e.commitsCertificates && e.pid == 0) = false) :
    SerialTaken c.shared 0 := by
  obtain ⟨e, he, hempty⟩ := List.any_eq_true.1 hread
  cases e with
  | certificatesRead i t since =>
    cases i with
    | zero =>
      refine ⟨t, since, he, ?_, fun ws time hmem => ?_⟩
      · rw [getMaxSerialNr_of_isEmpty hempty]
        exact hkey
      · exact List.any_eq_false.1 hnot _ hmem rfl
    | succ i => cases hempty
  | _ => cases hempty

/-- The second request has the number 0, and the first one, which read it too, changes nothing. -/
theorem serialNumbers_conflict : ∃ c c',
    (system platform).run conflictingRequests (.initial (installed users)) = some c ∧
    (system platform).run (steps 0 5) c = some c' ∧ (issueCommits c).length = 1 ∧
    (∀ k : UInt64, k ∈ c.shared.publicCertificates.rows.map PublicCertificate.serialNr ↔
      k.toNat < (issueCommits c).length) ∧
    SerialTaken c.shared 0 ∧
    (system platform).Along (fun a b b' => (∃ ch, a = .step 0 ch) →
      b'.shared.publicCertificates = b.shared.publicCertificates)
      (conflictingRequests ++ steps 0 5) (.initial (installed users)) := by
  have hrun : ((system platform).run conflictingRequests (.initial (installed users))).any
      (fun c => c.shared.history.any readEmpty && decide (0 ∈ c.shared.publicCertificates.keys) &&
        !(c.shared.history.any fun e => e.commitsCertificates && e.pid == 0) &&
        decide ((issueCommits c).length = 1) &&
        decide (c.request 0 = some (.api "aslcert01" (.issue certRequest))) &&
        ((system platform).run (steps 0 5) c).isSome) = true := by decide +kernel
  obtain ⟨c, hc, hrun⟩ := (Option.any_eq_true _ _).1 hrun
  simp only [Bool.and_eq_true, decide_eq_true_eq, Bool.not_eq_true'] at hrun
  obtain ⟨⟨⟨⟨⟨hread, hkey⟩, hnot⟩, hone⟩, hreq⟩, hrest⟩ := hrun
  obtain ⟨c', hc'⟩ := Option.isSome_iff_exists.1 hrest
  have htaken := serialTaken_of_readEmpty hread hkey hnot
  obtain ⟨-, hserials, -, -, halong⟩ := serialNumbers_of_run platform rfl rfl hc
  exact ⟨c, c', hc, hc', hone, hserials, htaken, halong 0 _ _ _ hreq .api htaken _ _ hc'⟩

end

/-! ## Live certificates -/

/-- The event revokes the certificate with the number. -/
def Event.Revokes (serialNr : UInt64) : Event → Prop
  | .certificatesCommitted _ ws _ => revocation serialNr ∈ ws
  | _ => False

theorem serialNr_of_forall₂ {l l' : List PublicCertificate} (h : List.Forall₂ Later l l') :
    l'.map PublicCertificate.serialNr = l.map PublicCertificate.serialNr := by
  induction h with
  | nil => rfl
  | cons hpq _ ih => rw [List.map_cons, List.map_cons, ih, hpq.serialNr]

/-- The numbers were given out in order. -/
theorem Ledger.pairwise {s : State} (h : Ledger s) :
    (issued s.history).Pairwise fun p q => q.serialNr.toNat < p.serialNr.toNat := by
  have hmap : (issued s.history).reverse.map PublicCertificate.serialNr =
      (List.range (issued s.history).length).map UInt64.ofNat :=
    (serialNr_of_forall₂ h.rows).symm.trans h.numbered.keys
  have hlt : ((List.range (issued s.history).length).map UInt64.ofNat).Pairwise
      fun m n => m.toNat < n.toNat := by
    rw [List.pairwise_map]
    apply List.pairwise_lt_range.imp_of_mem
    intro m n _ hn hmn
    have hle := h.numbered.le
    have hn' := List.mem_range.1 hn
    rw [toNat_ofNat_of_lt (by omega), toNat_ofNat_of_lt (by omega)]
    exact hmn
  rw [← hmap, List.pairwise_map, List.pairwise_reverse] at hlt
  exact hlt

/-- Until another certificate is issued to the user, the last one is the only one that is live. -/
theorem eq_of_live {s : State} (h : Ledger s) {later earlier : List Event} {e : Event}
    {row : PublicCertificate} (hhist : s.history = later ++ e :: earlier)
    (hrow : e.issued = some row)
    (hlater : ∀ e' ∈ later, ∀ row', e'.issued = some row' → row'.uid ≠ row.uid)
    {q : PublicCertificate} (hq : q ∈ s.publicCertificates.rows) (hu : q.uid = row.uid)
    (hlive : Live s.now q) : q = row := by
  have hissued : issued s.history = issued later ++ row :: issued earlier := by
    rw [hhist, issued, List.filterMap_append, ← issued, ← issued, issued_cons_some hrow]
  obtain ⟨r, hr, hrq⟩ := exists_of_forall₂_right h.rows hq
  rw [List.mem_reverse, hissued, List.mem_append, List.mem_cons] at hr
  rcases hr with hr | rfl | hr
  · obtain ⟨e', he', hr'⟩ := List.mem_filterMap.1 hr
    exact absurd (hrq.uid.symm.trans hu) (hlater e' he' r hr')
  · exact hrq.eq_of_not_revoked hlive.1
  · -- an older certificate: the last one superseded it
    exfalso
    have hpair := h.pairwise
    rw [hissued, List.pairwise_append, List.pairwise_cons] at hpair
    have hlt : r.serialNr.toNat < row.serialNr.toNat := hpair.2.1.1 r hr
    have hmem : row ∈ (issued s.history).reverse := by
      rw [List.mem_reverse, hissued]
      exact List.mem_append_right _ List.mem_cons_self
    obtain ⟨p, hp, hrowp⟩ := exists_of_forall₂_left h.rows hmem
    refine h.superseded q hq p hp (hu.trans hrowp.uid.symm) ?_ hlive
    rw [hrq.serialNr, hrowp.serialNr]
    exact hlt

/-- An issued row is in the table, as it was issued, until it is revoked. -/
def Stays (s : State) : Prop :=
  ∀ later e earlier row, s.history = later ++ e :: earlier → e.issued = some row →
    (∀ e' ∈ later, ¬ e'.Revokes row.serialNr) →
    row ∈ s.publicCertificates.rows ∧ row.isRevoked = false

theorem issued_of_move {req : Request} {e : Event} (hm : Move P c c' req e)
    {row : PublicCertificate} (hrow : e.issued = some row) :
    row ∈ c'.shared.publicCertificates.rows ∧ row.isRevoked = false := by
  obtain ⟨ws, time, B, heq, rfl⟩ :=
    issuedBy_of_issued hm.trace List.mem_cons_self (List.Subset.refl _) hrow
  refine ⟨?_, rfl⟩
  have hocc := hm.occurs
  rw [heq] at hocc
  refine (Table.mem_of_commit hocc.commit.2).2 (Or.inr ?_)
  rw [B.I.added_writes]
  exact List.mem_singleton.2 rfl

theorem stays_move {req : Request} {e : Event} (hm : Move P c c' req e) (h : Stays c.shared) :
    Stays c'.shared := by
  intro later e' earlier row hhist hrow hlater
  rw [hm.occurs.history] at hhist
  cases later with
  | nil =>
    obtain ⟨rfl, -⟩ := List.cons.inj hhist
    exact issued_of_move hm hrow
  | cons e₁ later =>
    obtain ⟨rfl, htail⟩ := List.cons.inj hhist
    obtain ⟨hmem, hrev⟩ := h later e' earlier row htail hrow
      fun e' he' => hlater e' (List.mem_cons_of_mem _ he')
    refine ⟨?_, hrev⟩
    have hnot := hlater e List.mem_cons_self
    have hocc := hm.occurs
    generalize c.shared = s at hocc hmem
    generalize c'.shared = s' at hocc
    cases hocc with
    | @certificatesCommitted i ws _ t hc =>
      refine (Table.mem_of_commit hc).2 (Or.inl ⟨row, hmem, ?_⟩)
      rw [patched_certificate]
      exact if_neg hnot
    | _ => exact hmem

theorem stays_of_reaches (h₀ : s₀.history = []) (h : (system P).Reaches (.initial s₀) c) :
    Stays c.shared := by
  refine invariant_of_moves h₀ ?_ (fun d s hs => hs) (fun _ hm => stays_move hm) h
  intro later e earlier row hhist
  rw [h₀] at hhist
  cases later <;> cases hhist

/-- Every user has at most one live certificate.  After the commit of an issuance, and until the
next one of that user, it is the row that was inserted: this row stays in the table and is live up
to its `NotAfter`, unless it is revoked. -/
theorem liveCertificates_of_reaches (P : Platform) {s₀ : State} (h₀ : s₀.history = [])
    (hempty : s₀.publicCertificates = ∅) {c : Configuration}
    (h : (system P).Reaches (.initial s₀) c) :
    (∀ p ∈ c.shared.publicCertificates.rows, ∀ q ∈ c.shared.publicCertificates.rows,
      p.uid = q.uid → Live c.shared.now p → Live c.shared.now q → p = q) ∧
    ∀ later e earlier row, c.shared.history = later ++ e :: earlier → e.issued = some row →
      (∀ e' ∈ later, ∀ row', e'.issued = some row' → row'.uid ≠ row.uid) →
      (∀ q ∈ c.shared.publicCertificates.rows, q.uid = row.uid → Live c.shared.now q → q = row) ∧
      ((∀ e' ∈ later, ¬ e'.Revokes row.serialNr) → row ∈ c.shared.publicCertificates.rows ∧
        (c.shared.now ≤ row.parse.notAfter → Live c.shared.now row)) := by
  have hledger := ledger_of_reaches h₀ hempty h
  refine ⟨?_, ?_⟩
  · intro p hp q hq hu hlivep hliveq
    rcases Nat.lt_trichotomy p.serialNr.toNat q.serialNr.toNat with hlt | heq | hgt
    · exact absurd hlivep (hledger.superseded p hp q hq hu hlt)
    · exact Table.eq_of_key_eq hp hq (UInt64.toNat_inj.1 heq)
    · exact absurd hliveq (hledger.superseded q hq p hp hu.symm hgt)
  · intro later e earlier row hhist hrow hlater
    refine ⟨fun q hq hu hlive => eq_of_live hledger hhist hrow hlater hq hu hlive, fun hnot => ?_⟩
    obtain ⟨hmem, hrev⟩ := stays_of_reaches h₀ h later e earlier row hhist hrow hnot
    exact ⟨hmem, fun hexp => ⟨hrev, hexp⟩⟩

section

open Deployment

/-- A second certificate for the same user. -/
def reissue : List (Act Request Choice ℕ) :=
  .arrive 0 (.api "aslcert01" (.issue certRequest)) :: (steps 0 18 ++
    .arrive 1 (.api "aslcert01" (.issue certRequest)) :: steps 1 19)

theorem liveCertificates_reissue : ∃ c, (system platform).Reaches (.initial (installed users)) c ∧
    c.shared.publicCertificates.rows.length = 2 ∧
    ∀ p ∈ c.shared.publicCertificates.rows, ∀ q ∈ c.shared.publicCertificates.rows,
      p.uid = q.uid → Live c.shared.now p → Live c.shared.now q → p = q := by
  have hlen : ((system platform).run reissue (.initial (installed users))).map
      (fun c => c.shared.publicCertificates.rows.length) = some 2 := by decide +kernel
  obtain ⟨c, hc, htwo⟩ := Option.map_eq_some_iff.1 hlen
  have hreach := System.reaches_of_run hc
  exact ⟨c, hreach, htwo, (liveCertificates_of_reaches platform rfl rfl hreach).1⟩

end

end IMoviesCA
