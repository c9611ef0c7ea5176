import IMoviesCA.Crl
import IMoviesCA.Deployment

/-!
# A ledger that only grows

No write of the servers removes a row of `public_certificates`, changes its number, user or
certificate, or takes a revocation back.  The table at a later time therefore extends the one at an
earlier time (`Extends`), and a list that was generated from a later table names every number that
an earlier list named (`certificates_appendOnly`).
-/

namespace IMoviesCA

open CADBModifier

variable {P : Platform} {s₀ : State} {c c' : Configuration}

/-- Process `i` has read the table of the certificates. -/
def HasReadCertificates (c : Configuration) (i : ℕ) : Prop :=
  ∃ t time, .certificatesRead i t time ∈ c.shared.history

/-- `GetCRL`, on the CA server of this machine, answered process `i` with this list. -/
def AnswersCrl (c : Configuration) (i : ℕ) (machineName : String) (crl : X509Crl) : Prop :=
  c.procs i = some (.api machineName .getCRL, .done (.crl crl))

/-- What becomes of the certificates and of the lists from one moment of a run to a later one. -/
structure AppendOnly (c c' : Configuration) : Prop where
  /-- Every row is still there, and at most revoked. -/
  rows : Extends c.shared.publicCertificates c'.shared.publicCertificates
  /-- A list that is generated after this moment names all numbers of one generated before it. -/
  lists : ∀ i j m m' crl crl', AnswersCrl c' i m crl → AnswersCrl c' j m' crl' →
    HasReadCertificates c i → ¬ HasReadCertificates c j → crl.serialNumbers ⊆ crl'.serialNumbers

/-- The table behind a list. -/
theorem crl_of_answers (h₀ : s₀.history = []) (h : (system P).Reaches (.initial s₀) c) {i : ℕ}
    {m : String} {crl : X509Crl} (hcrl : AnswersCrl c i m crl) :
    ∃ now t time, crl = generateCRL P m now t ∧ c.shared.own i = [.certificatesRead i t time] := by
  have hanswer : CrlAnswer P i m (.crl crl) (c.shared.own i) := answer_of_reaches h₀ h hcrl
  exact hanswer crl rfl

theorem hasRead_of_answers (h₀ : s₀.history = []) (h : (system P).Reaches (.initial s₀) c) {i : ℕ}
    {m : String} {crl : X509Crl} (hcrl : AnswersCrl c i m crl) : HasReadCertificates c i := by
  obtain ⟨now, t, time, -, hown⟩ := crl_of_answers h₀ h hcrl
  have hmem : .certificatesRead i t time ∈ c.shared.own i := by
    rw [hown]
    exact List.mem_cons_self
  exact ⟨t, time, (State.mem_own.1 hmem).1⟩

theorem not_hasRead_of_idle (h₀ : s₀.history = []) (h : (system P).Reaches (.initial s₀) c) {j : ℕ}
    (hj : c.procs j = none) : ¬ HasReadCertificates c j := by
  rintro ⟨t, time, ht⟩
  have hown : .certificatesRead j t time ∈ c.shared.own j := State.mem_own.2 ⟨ht, rfl⟩
  rw [own_of_idle h₀ h hj] at hown
  cases hown

/-- A list that is generated after a moment shows a table that extends the one of that moment. -/
theorem extends_of_later_crl (h₀ : s₀.history = []) (h : (system P).Reaches (.initial s₀) c)
    (h' : (system P).Reaches c c') {j : ℕ} {m : String} {crl : X509Crl}
    (hcrl : AnswersCrl c' j m crl) (hnot : ¬ HasReadCertificates c j) :
    ∃ now t, crl = generateCRL P m now t ∧ Extends c.shared.publicCertificates t := by
  obtain ⟨now, t, time, rfl, hown⟩ := crl_of_answers h₀ (h.trans h') hcrl
  have hmem : .certificatesRead j t time ∈ c'.shared.own j := by
    rw [hown]
    exact List.mem_cons_self
  obtain ⟨b, b', req, hb, hm, -⟩ := move_of_mem_history h₀ h h' (State.mem_own.1 hmem).1
    fun hread => hnot ⟨t, time, hread⟩
  refine ⟨now, t, rfl, ?_⟩
  rw [hm.occurs.read.1]
  exact extends_of_reaches hb

/-- A list that was generated before a moment shows a table that the one of that moment extends. -/
theorem extends_of_earlier_crl (h₀ : s₀.history = []) (h : (system P).Reaches (.initial s₀) c)
    (h' : (system P).Reaches c c') {i : ℕ} {m : String} {crl : X509Crl}
    (hcrl : AnswersCrl c' i m crl) (hread : HasReadCertificates c i) :
    ∃ now t, crl = generateCRL P m now t ∧ Extends t c.shared.publicCertificates := by
  obtain ⟨now, t, time, rfl, hown⟩ := crl_of_answers h₀ (h.trans h') hcrl
  obtain ⟨t', time', hread⟩ := hread
  -- The read before the moment is the one of the list.
  obtain ⟨evs, hevs⟩ := evolves_of_reaches h'
  have hmem : .certificatesRead i t' time' ∈ c'.shared.own i := by
    refine State.mem_own.2 ⟨?_, rfl⟩
    rw [hevs.history]
    exact List.mem_append_right _ hread
  rw [hown] at hmem
  obtain rfl : t' = t := (Event.certificatesRead.inj (List.mem_singleton.1 hmem)).2.1
  have hnil : .certificatesRead i t' time' ∉ s₀.history := by
    rw [h₀]
    exact List.not_mem_nil
  obtain ⟨b, b', req, hb, hm, hb'⟩ := move_of_mem_history h₀ .refl h hread hnil
  refine ⟨now, t', rfl, ?_⟩
  rw [hm.occurs.read.1, ← hm.occurs.read.2.2]
  exact extends_of_reaches hb'

theorem serialNumbers_mono {m m' : String} {now now' : Time} {t t' : Table PublicCertificate}
    (h : Extends t t') : (generateCRL P m now t).serialNumbers ⊆
      (generateCRL P m' now' t').serialNumbers := by
  intro n hn
  obtain ⟨p, hp, hrev, rfl⟩ := mem_serialNumbers_generateCRL.1 hn
  obtain ⟨q, hq, hlater⟩ := h p hp
  refine mem_serialNumbers_generateCRL.2 ⟨q, hq, hlater.isRevoked hrev, ?_⟩
  rw [PublicCertificate.getSerialNumber, PublicCertificate.getSerialNumber, hlater.serialNr]

/-- In every run, the table of the certificates and the lists of the revoked ones only grow. -/
theorem certificates_appendOnly (P : Platform) {s₀ : State} (h₀ : s₀.history = [])
    {c c' : Configuration} (h : (system P).Reaches (.initial s₀) c) (h' : (system P).Reaches c c') :
    AppendOnly c c' := by
  refine ⟨extends_of_reaches h', ?_⟩
  intro i j m m' crl crl' hi hj hread hnot
  obtain ⟨now, t, rfl, hearlier⟩ := extends_of_earlier_crl h₀ h h' hi hread
  obtain ⟨now', t', rfl, hlater⟩ := extends_of_later_crl h₀ h h' hj hnot
  exact serialNumbers_mono (hearlier.trans hlater)

section

open Deployment

/-- A certificate is issued, and then a list is generated. -/
def issueThenList : List (Act Request Choice ℕ) :=
  .arrive 0 (.api "aslcert01" (.issue certRequest)) :: (steps 0 18 ++
    .arrive 1 (.api "aslcert01" .getCRL) :: steps 1 2)

/-- The certificate is revoked. -/
def revokeIt : List (Act Request Choice ℕ) :=
  .arrive 2 (.api "aslcert01" (.revoke ⟨"a3"⟩)) :: steps 2 4

/-- A list is generated on this machine. -/
def listOn (machineName : String) : List (Act Request Choice ℕ) :=
  .arrive 3 (.api machineName .getCRL) :: steps 3 2

/-- The list that `GetCRL`, on this machine, answered process `i` with. -/
def crlOf (c : Configuration) (i : ℕ) (machineName : String) : Option X509Crl :=
  match c.answer i with
  | some (.api m .getCRL, .crl crl) => if m = machineName then some crl else none
  | _ => none

theorem answersCrl_of_crlOf {i : ℕ} {m : String} {crl : X509Crl} (h : crlOf c i m = some crl) :
    AnswersCrl c i m crl := by
  unfold crlOf at h
  split at h
  · rename_i hanswer
    split_ifs at h with hm
    obtain rfl := hm
    obtain rfl := Option.some.inj h
    exact Config.procs_of_answer hanswer
  · cases h

/-- The number of the entries in the list of process `i`. -/
def listed (c : Configuration) (i : ℕ) : Option ℕ :=
  (crlOf c i "aslcert01").map fun crl => crl.entries.length

theorem appendOnly_issue_revoke : ∃ c c' : Configuration, AppendOnly c c' ∧
    HasReadCertificates c 1 ∧ ¬ HasReadCertificates c 3 ∧ listed c' 1 = some 0 ∧
    listed c' 3 = some 1 := by
  have hrun : ((system platform).run issueThenList (.initial (installed users))).any (fun c =>
      (listed c 1).isSome && (c.procs 3).isNone &&
        ((system platform).run (revokeIt ++ listOn "aslcert01") c).any fun c' =>
          decide (listed c' 1 = some 0 ∧ listed c' 3 = some 1)) = true := by
    decide +kernel
  obtain ⟨c, hc, hrun⟩ := (Option.any_eq_true _ _).1 hrun
  simp only [Bool.and_eq_true] at hrun
  obtain ⟨⟨hone, hthree⟩, hrun⟩ := hrun
  obtain ⟨c', hc', hlists⟩ := (Option.any_eq_true _ _).1 hrun
  have hreach := System.reaches_of_run hc
  refine ⟨c, c', certificates_appendOnly platform rfl hreach (System.reaches_of_run hc'), ?_,
    not_hasRead_of_idle rfl hreach (Option.isNone_iff_eq_none.1 hthree), of_decide_eq_true hlists⟩
  obtain ⟨n, hn⟩ := Option.isSome_iff_exists.1 hone
  obtain ⟨crl, hcrl, -⟩ := Option.map_eq_some_iff.1 hn
  exact hasRead_of_answers rfl hreach (answersCrl_of_crlOf hcrl)

end

end IMoviesCA
