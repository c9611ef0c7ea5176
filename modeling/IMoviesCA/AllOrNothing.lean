import IMoviesCA.Crl

/-!
# One issuance by itself

What `IssueCertificate` has done when it ends, for every choice of the operation that throws
(`issuance_outcome`).  Its first transaction is atomic and the answer 200 means that every effect is
in place, but an exception after that transaction leaves the certificate behind: the old one is
revoked, and the new key is not stored.
-/

namespace IMoviesCA

open CADBModifier IssueController

variable {P : Platform} {i : ℕ} {s s' : State}

/-! ## The effect of the events -/

/-- The transaction of `AddPrivateKey` stores the archive, whether the user had a row or not. -/
theorem find?_of_keyWrite {t t' : Table PrivateKey} {stored : Bool} {k : PrivateKey}
    (h : t.commit [privateKeyWrite stored k] = some t') : t'.find? k.uid = some k := by
  cases stored with
  | false =>
    refine Table.find?_eq_some_iff.2 ⟨(Table.mem_of_commit h).2 (Or.inr ?_), rfl⟩
    exact List.mem_singleton.2 rfl
  | true =>
    have hkeys : k.uid ∈ t.keys := by
      by_contra hno
      have hnone : t.commit [privateKeyWrite true k] = none := by
        simp [Table.commit, Table.write, privateKeyWrite, hno]
      rw [hnone] at h
      cases h
    obtain ⟨r, hr, hrk⟩ := Table.mem_keys.1 hkeys
    have hfind : t.find? k.uid = some r := Table.find?_eq_some_iff.2 ⟨hr, hrk⟩
    rw [Table.find?_patched_of_commit h hfind]
    have hpatch : Table.patched [privateKeyWrite true k] r =
        if r.uid = k.uid then { r with keyPkcs12 := k.keyPkcs12 } else r := rfl
    have hrk' : r.uid = k.uid := hrk
    rw [hpatch, if_pos hrk']
    congr 1
    cases r; cases k
    simp_all

/-- What the certificate transaction does to the table: the unexpired certificates of the user are
revoked, the new row is added, and the rows of the other users stay as they are. -/
structure CertificateIssued (s s' : State) (uid : String) (row : PublicCertificate) : Prop where
  revoked : ∀ p ∈ s.publicCertificates.rows, p.uid = uid →
    ∃ q ∈ s'.publicCertificates.rows, Later p q ∧
      (q.isRevoked = true ∨ p.parse.notAfter < s'.now)
  others : ∀ p ∈ s.publicCertificates.rows, p.uid ≠ uid → p ∈ s'.publicCertificates.rows
  issued : row ∈ s'.publicCertificates.rows
  uid_eq : row.uid = uid
  not_revoked : row.isRevoked = false

theorem CertificateIssued.later {s₁ : State} {uid : String} {row : PublicCertificate}
    {evs : List Event} (h : CertificateIssued s s₁ uid row) (hevs : Evolves evs s₁ s')
    (hkeep : KeepsCertificates evs) : CertificateIssued s s' uid row := by
  have htable := hevs.publicCertificates hkeep
  refine ⟨?_, ?_, ?_, h.uid_eq, h.not_revoked⟩
  · intro p hp hu
    obtain ⟨q, hq, hlater, hdone⟩ := h.revoked p hp hu
    rw [htable]
    exact ⟨q, hq, hlater, hdone.imp_right fun hlt => lt_of_lt_of_le hlt hevs.now_le⟩
  · rw [htable]
    exact h.others
  · rw [htable]
    exact h.issued

/-- A transaction with nothing in between commits on the table that it read. -/
theorem commit_of_evolves {machineName : String} {r : CertRequest}
    (I : Issuance P machineName r) (h : Evolves (I.committed i) s s') :
    I.snapshot = s.publicCertificates ∧
      s.publicCertificates.commit I.writes = some s'.publicCertificates ∧ I.time ≤ s'.now := by
  obtain ⟨s₁, s₂, h₁, hocc, h₂⟩ := h.last
  obtain ⟨s₃, s₄, h₃, hocc', h₄⟩ := h₁.last
  have hs₃ : s₃.publicCertificates = s.publicCertificates :=
    h₃.publicCertificates (by intro j ws t hmem; simp at hmem)
  have hs₁ : s₁.publicCertificates = s₄.publicCertificates :=
    h₄.publicCertificates (by intro j ws t hmem; cases hmem)
  have hs' : s'.publicCertificates = s₂.publicCertificates :=
    h₂.publicCertificates (by intro j ws t hmem; cases hmem)
  obtain ⟨hsnapshot, -, hs₄⟩ := hocc'.read
  obtain ⟨htime, hc⟩ := hocc.commit
  refine ⟨hsnapshot.trans hs₃, ?_, ?_⟩
  · rw [← hs₃, ← hs₄, ← hs₁, hs']
    exact hc
  · rw [htime, ← hocc.now]
    exact h₂.now_le

/-- The transaction of an issuance, when nothing else happens. -/
theorem certificateIssued_of_committed {machineName : String} {r : CertRequest}
    (I : Issuance P machineName r) (h : Evolves (I.committed i) s s') :
    CertificateIssued s s' r.uid I.row := by
  obtain ⟨hread, hc, htime⟩ := commit_of_evolves I h
  have huid : I.user.id = r.uid := I.authenticated.1
  have hpatched : ∀ p ∈ s.publicCertificates.rows,
      Table.patched I.writes p ∈ s'.publicCertificates.rows := fun p hp =>
    (Table.mem_of_commit hc).2 (Or.inl ⟨p, hp, rfl⟩)
  refine ⟨?_, ?_, ?_, huid, rfl⟩
  · intro p hp hu
    refine ⟨_, hpatched p hp, later_patched _ p, ?_⟩
    cases hrev : p.isRevoked with
    | true => exact Or.inl ((later_patched I.writes p).isRevoked hrev)
    | false =>
      have hmem : p ∈ unrevokedCertificates I.user.id I.snapshot := by
        rw [hread]
        simp [unrevokedCertificates, hp, hu, huid, hrev]
      rcases I.revokesAll.complete p hmem with hin | hlt
      · left
        have hin' : revocation p.serialNr ∈ I.writes := List.mem_append_left _ hin
        rw [patched_certificate, if_pos hin']
      · exact Or.inr (lt_of_lt_of_le hlt htime)
  · intro p hp hu
    have hnot : revocation p.serialNr ∉ I.writes := by
      intro hin
      rcases List.mem_append.1 hin with hin | hin
      · obtain ⟨q, hq, heq, -⟩ := I.revokesAll.sound _ hin
        have hqs : p.serialNr = q.serialNr := (Write.update.inj heq).1
        rw [hread] at hq
        obtain ⟨hqmem, hquid⟩ := List.mem_filter.1 hq
        obtain rfl := Table.eq_of_key_eq hp hqmem hqs
        simp only [Bool.and_eq_true, beq_iff_eq] at hquid
        exact hu (hquid.1.trans huid)
      · cases List.mem_singleton.1 hin
    have := hpatched p hp
    rw [patched_certificate, if_neg hnot] at this
    exact this
  · refine (Table.mem_of_commit hc).2 (Or.inr ?_)
    rw [I.added_writes]
    exact List.mem_singleton.2 rfl

/-! ## The outcomes -/

/-- The three places that an issuance writes are as they were. -/
structure Unchanged (s s' : State) : Prop where
  publicCertificates : s'.publicCertificates = s.publicCertificates
  privateCertificates : s'.privateCertificates = s.privateCertificates
  backupFolder : s'.backupFolder = s.backupFolder

/-- Everything that an answer with an archive promises. -/
structure Complete (P : Platform) (r : CertRequest) (s s' : State) (archive : Pkcs12Archive) :
    Prop where
  certificate : ∃ row, CertificateIssued s s' r.uid row ∧ row.certificate = archive.certificate
  backup : ∃ path bytes, s'.backupFolder path = some bytes ∧
    P.encryptOaepSHA1 (asciiGetBytes (toPem archive.privateKey
      (P.exportPrivateKey archive.privateKey))) = some bytes
  stored : s'.privateCertificates.find? r.uid = some ⟨r.uid, archive⟩

/-- The certificate is issued and revokes the older ones, but its key is not delivered: at most its
backup was begun. -/
structure Undelivered (r : CertRequest) (s s' : State) : Prop where
  certificate : ∃ row, CertificateIssued s s' r.uid row
  privateCertificates : s'.privateCertificates = s.privateCertificates
  backupFolder : ∃ path, ∀ path', path' ≠ path → s'.backupFolder path' = s.backupFolder path'

/-- The certificate transaction of process `i` was committed. -/
def TransactionCommitted (i : ℕ) (s : State) : Prop :=
  ∃ ws time, .certificatesCommitted i ws time ∈ s.history

/-- The event writes one of these places. -/
def Event.Stores : Event → Prop
  | certificatesCommitted _ _ _ => True
  | privateKeysCommitted _ _ => True
  | fileWritten _ _ _ => True
  | _ => False

theorem unchanged_of_evolves {evs : List Event} (h : Evolves evs s s')
    (hkeep : ∀ e ∈ evs, ¬ e.Stores) : Unchanged s s' := by
  refine ⟨?_, ?_, funext fun path => ?_⟩
  · exact h.publicCertificates fun j ws t hmem => hkeep _ hmem trivial
  · exact h.privateCertificates fun j ws hmem => hkeep _ hmem trivial
  · exact h.backupFolder fun j bytes hmem => hkeep _ hmem trivial

theorem complete_of_delivered {machineName : String} {r : CertRequest}
    (I : Issuance P machineName r) {bytes : List UInt8} {stored : Bool}
    (hbytes : I.backup = some bytes) (h : Evolves (I.delivered i bytes stored) s s') :
    Complete P r s s' I.archive := by
  obtain ⟨s₁, s₂, h₁, hocc, h₂⟩ := h.last
  obtain ⟨s₃, s₄, h₃, hocc', h₄⟩ := h₁.last
  have huid : I.user.id = r.uid := I.authenticated.1
  have hlate : Evolves [.privateKeysCommitted i [I.keyWrite stored],
      .fileWritten i I.backupPath bytes] s₃ s' :=
    (((Evolves.event .refl hocc').trans h₄).event hocc).trans h₂
  have hcert : CertificateIssued s s' r.uid I.row :=
    (certificateIssued_of_committed I h₃).later hlate (by intro j ws t hmem; simp at hmem)
  refine ⟨⟨I.row, hcert, rfl⟩, ⟨I.backupPath, bytes, ?_, hbytes⟩, ?_⟩
  · have hs₄ : s₄.backupFolder I.backupPath = some bytes := by
      generalize hp : I.backupPath = path at hocc'
      cases hocc' with
      | fileWritten => exact Function.update_self _ _ _
    have hlate : Evolves [.privateKeysCommitted i [I.keyWrite stored]] s₄ s' :=
      (h₄.event hocc).trans h₂
    rw [hlate.backupFolder (by intro j b hmem; simp at hmem), hs₄]
  · have hs₂ : s₂.privateCertificates.find? I.user.id = some ⟨I.user.id, I.archive⟩ := by
      generalize hw : I.keyWrite stored = w at hocc
      cases hocc with
      | privateKeysCommitted hc =>
        rw [← hw] at hc
        exact find?_of_keyWrite hc
    rw [h₂.privateCertificates (by intro j ws hmem; cases hmem), ← huid]
    exact hs₂

theorem undelivered_of_committed {machineName : String} {r : CertRequest}
    (I : Issuance P machineName r) (h : Evolves (I.committed i) s s') : Undelivered r s s' := by
  refine ⟨⟨I.row, certificateIssued_of_committed I h⟩, ?_, ⟨"", fun path' _ => ?_⟩⟩
  · exact h.privateCertificates (by intro j ws hmem; simp [Issuance.committed] at hmem)
  · exact h.backupFolder (by intro j b hmem; simp [Issuance.committed] at hmem)

theorem undelivered_of_fileWritten {machineName : String} {r : CertRequest}
    (I : Issuance P machineName r) {bytes : List UInt8}
    (h : Evolves (.fileWritten i I.backupPath bytes :: I.committed i) s s') :
    Undelivered r s s' := by
  obtain ⟨s₁, s₂, h₁, hocc, h₂⟩ := h.last
  have hlate : Evolves [.fileWritten i I.backupPath bytes] s₁ s' :=
    (Evolves.event .refl hocc).trans h₂
  have hissued := (certificateIssued_of_committed I h₁).later hlate
    (by intro j ws t hmem; simp at hmem)
  refine ⟨⟨I.row, hissued⟩, ?_, ⟨I.backupPath, fun path' hne => ?_⟩⟩
  · exact h.privateCertificates (by intro j ws hmem; simp [Issuance.committed] at hmem)
  · apply h.backupFolder
    intro j b hmem
    simp only [Issuance.committed, List.mem_cons, Event.fileWritten.injEq, reduceCtorEq,
      List.not_mem_nil, or_false] at hmem
    exact hne hmem.2.1

/-- The outcome of an issuance, whatever throws: with the archive, everything is in place; without
it, nothing has changed unless the certificate transaction was committed, and then the certificate
is issued and its key is not delivered. -/
theorem issuance_outcome (P : Platform) (i : ℕ) (machineName : String) (r : CertRequest)
    (s : State) (hs : s.own i = []) (sched : ℕ → ℕ × Choice) :
    let out := machine.alone i (answer (action P (.api machineName (.issue r)))) sched s
    (∃ archive, out.1 = .ok archive ∧ Complete P r s out.2 archive) ∨
    ((∀ archive, out.1 ≠ .ok archive) ∧
      ((¬ TransactionCommitted i out.2 ∧ Unchanged s out.2) ∨
        (TransactionCommitted i out.2 ∧ Undelivered r s out.2))) := by
  intro out
  obtain ⟨evs, hevs, htrace, hanswer, hown⟩ := trace_of_alone P (.api machineName (.issue r)) hs sched
  have hcommitted : TransactionCommitted i out.2 ↔ ∃ ws t, .certificatesCommitted i ws t ∈ evs := by
    rw [← hown]
    constructor
    · rintro ⟨ws, t, hmem⟩
      exact ⟨ws, t, State.mem_own.2 ⟨hmem, rfl⟩⟩
    · rintro ⟨ws, t, hmem⟩
      exact ⟨ws, t, (State.mem_own.1 hmem).1⟩
  by_cases hok : ∃ archive, out.1 = .ok archive
  · left
    obtain ⟨archive, harchive⟩ := hok
    obtain ⟨I, bytes, stored, hbytes, rfl, rfl⟩ := hanswer.archive archive harchive
    exact ⟨_, harchive, complete_of_delivered I hbytes hevs⟩
  · right
    refine ⟨fun archive harchive => hok ⟨archive, harchive⟩, ?_⟩
    rw [hcommitted]
    have hearly : (∀ e ∈ evs, ¬ e.Stores) → (¬ ∃ ws t, .certificatesCommitted i ws t ∈ evs) ∧
        Unchanged s out.2 := fun hkeep =>
      ⟨fun ⟨ws, t, hmem⟩ => hkeep _ hmem trivial, unchanged_of_evolves hevs hkeep⟩
    cases htrace with
    | start | userRead | keyGenerated | certificatesRead =>
      exact Or.inl (hearly (by simp [Event.Stores]))
    | committed I =>
      exact Or.inr ⟨⟨_, _, List.mem_cons_self⟩, undelivered_of_committed I hevs⟩
    | fileWritten I hbytes =>
      refine Or.inr ⟨⟨I.writes, I.time, ?_⟩, undelivered_of_fileWritten I hevs⟩
      exact List.mem_cons_of_mem _ List.mem_cons_self
    | delivered I hbytes => exact absurd (hanswer.stored fun h => h) hok

section

open Deployment

/-- No operation throws. -/
def noFailure (_ : ℕ) : ℕ × Choice := (0, .ok)

/-- The start of the process that syncs the backup throws, operation number 12 of an issuance. -/
def startFails (n : ℕ) : ℕ × Choice := if n = 12 then (0, .throws none) else (0, .ok)

/-- The state after the first issuance of `a3`. -/
def issuedOnce : State :=
  (machine.alone 0 (answer (action platform (.api "aslcert01" (.issue certRequest)))) noFailure
    (installed users)).2

/-- The second issuance of a user is complete, too: the first certificate is revoked. -/
theorem issuance_outcome_delivered :
    let out := machine.alone 1
      (answer (action platform (.api "aslcert01" (.issue certRequest)))) noFailure issuedOnce
    (issuedOnce.publicCertificates.rows.map fun p => (p.uid, p.isRevoked)) = [("a3", false)] ∧
      (out.2.publicCertificates.rows.map fun p => (p.uid, p.isRevoked)) =
        [("a3", true), ("a3", false)] ∧
      ∃ archive, out.1 = .ok archive ∧ Complete platform certRequest issuedOnce out.2 archive := by
  intro out
  have hown : (issuedOnce.own 1).isEmpty = true := by decide +kernel
  have hsome : (CoreCAClient.archiveOf out.1).isSome = true := by decide +kernel
  obtain ⟨archive, harchive⟩ := Option.isSome_iff_exists.1 hsome
  refine ⟨by decide +kernel, by decide +kernel, ?_⟩
  rcases issuance_outcome platform 1 "aslcert01" certRequest issuedOnce (List.isEmpty_iff.1 hown)
    noFailure with h | ⟨hno, -⟩
  · exact h
  · exact absurd (archiveOf_eq_some harchive) (hno archive)

/-- An issuance is complete, or it has changed nothing. -/
def AllOrNothing (P : Platform) (i : ℕ) (machineName : String) (r : CertRequest) (s : State)
    (sched : ℕ → ℕ × Choice) : Prop :=
  let out := machine.alone i (answer (action P (.api machineName (.issue r)))) sched s
  (∃ archive, out.1 = .ok archive ∧ Complete P r s out.2 archive) ∨
    ((∀ archive, out.1 ≠ .ok archive) ∧ Unchanged s out.2)

/-- The certificate is in the table, and the answer is an error. -/
theorem issuance_not_allOrNothing :
    ¬ AllOrNothing platform 0 "aslcert01" certRequest (installed users) startFails := by
  have herror : (machine.alone 0 (answer (action platform (.api "aslcert01" (.issue certRequest))))
      startFails (installed users)).1 = .serverError := by decide +kernel
  have hrows : (machine.alone 0 (answer (action platform (.api "aslcert01" (.issue certRequest))))
      startFails (installed users)).2.publicCertificates.rows.length = 1 := by decide +kernel
  rintro (⟨archive, harchive, -⟩ | ⟨-, hunchanged⟩)
  · rw [herror] at harchive
    cases harchive
  · rw [hunchanged.publicCertificates] at hrows
    cases hrows

end

end IMoviesCA
