import IMoviesCA.SharedCrl
import IMoviesCA.CrlRefresh
import IMoviesCA.Lib.Processes

/-!
# From a revocation to nginx

A timer starts `update_crl.sh` again and again on the web server, never twice at a time, while the
CA servers issue and revoke.  An execution chains a list that was generated after the execution was
started, and the table behind a later list extends the one behind an earlier list.

Once a certificate was revoked and an execution that was started later has got its list, the chained
file therefore names the certificate for ever, as long as each execution leaves the file as it was or
ends it with the list that it was served (`chained_of_run`); whether the list is one of the issuer of
the certificate depends on the CA server that the last of them came from.
-/

namespace IMoviesCA

open CADBModifier

/-! ## The web server beside the CA servers -/

/-- The servers and the files of the script; `started` is where the servers were when the running
execution of the script was started. -/
structure RefreshConfiguration where
  servers : Configuration
  files : CrlFiles
  started : Option Configuration

/-- The servers, the timer, the script, and who replaces the other lists. -/
inductive RefreshAction
  | servers (a : Act Request Choice ℕ)
  /-- The lists of the root and of the intermediate CA are replaced. -/
  | lists (rootCrl intermediateCrl : Option (List UInt8))
  /-- The timer elapses; the unit is started unless it is active. -/
  | timer
  /-- The script ends.  The CA server answered it as process `i` on this machine. -/
  | exits (o : RefreshOutcomes) (i : ℕ) (machineName : String)

/-- An answer comes from a request to the CA server that was sent after the script was started. -/
def CaOutcome.cameFrom (i : ℕ) (machineName : String) (started servers : Configuration) :
    CaOutcome → Bool
  | answers reply => (started.procs i).isNone &&
      decide (servers.answer i = some (.api machineName .getCRL, reply))
  | _ => true

section

variable (T : CrlTools) (P : Platform)

/-- One action.  The files of the script change when it ends. -/
def refreshStep : RefreshAction → RefreshConfiguration → Option RefreshConfiguration
  | .servers a, r => ((system P).step a r.servers).map fun c => { r with servers := c }
  | .lists rootCrl intermediateCrl, r =>
      if r.started.isSome then none
      else some { r with files := { r.files with rootCrl, intermediateCrl } }
  | .timer, r =>
      match r.started with
      | none => some { r with started := some r.servers }
      | some _ => some r
  | .exits o i machineName, r =>
      match r.started with
      | none => none
      | some started =>
          if o.ca.cameFrom i machineName started r.servers then
            some ⟨r.servers, UpdateCrl.updateCrl T o r.files, none⟩
          else none

/-- No execution is running. -/
def RefreshConfiguration.initial (s : State) (files : CrlFiles) : RefreshConfiguration :=
  ⟨.initial s, files, none⟩

/-- An execution leaves the chained file as it was, or ends it with the list that it was served. -/
def KeepsChain (a : RefreshAction) (r _ : RefreshConfiguration) : Prop :=
  ∀ o i machineName, a = .exits o i machineName → ChainKept T o r.files

/-- One of the executions gets and chains its list as a whole. -/
def GetsListIn (as : List RefreshAction) (r : RefreshConfiguration) : Prop :=
  ∃ as₁ o i machineName as₂ r₁ root intermediate crl text,
    as = as₁ ++ .exits o i machineName :: as₂ ∧
    Transitions.run (refreshStep T P) as₁ r = some r₁ ∧ r₁.files.rootCrl = some root ∧
    r₁.files.intermediateCrl = some intermediate ∧ GetsList T o root intermediate crl text

/-- The chained file ends with a list of the CA server on some machine, which was generated from a
table that extends this one. -/
def ChainsLater (t : Table PublicCertificate) (files : CrlFiles) : Prop :=
  ∃ root intermediate machineName now t' text,
    T.toPem (T.getEncoded (generateCRL P machineName now t')) = some text ∧
    files.chainedCrl = some (root ++ intermediate ++ text) ∧ Extends t t'

/-- The chained file ends with a list of the CA of some machine, which marks the certificate that was
issued on machine `m` if and only if the two CAs have the same name and its serial number is below
`2 ^ 63`. -/
def ChainMarks (files : CrlFiles) (p : PublicCertificate) (m : String) : Prop :=
  ∃ root intermediate m' crl text, T.toPem (T.getEncoded crl) = some text ∧
    files.chainedCrl = some (root ++ intermediate ++ text) ∧
    crl.issuerDN = (coreCAOf P m').subjectName ∧
    (Marks crl p.certificate ↔ (coreCAOf P m').subjectName = (coreCAOf P m).subjectName ∧
      p.serialNr.toNat < 2 ^ 63)

end

/-! ## Lists of later tables -/

variable {T : CrlTools} {P : Platform} {s₀ : State} {r r' : RefreshConfiguration} {c : Configuration}
  {files : CrlFiles}

/-- The servers have gone on since `c`, where no execution was running. -/
structure WentOn (P : Platform) (c : Configuration) (r : RefreshConfiguration) : Prop where
  servers : (system P).Reaches c r.servers
  started : ∀ started, r.started = some started →
    (system P).Reaches c started ∧ (system P).Reaches started r.servers

theorem wentOn_of_idle (h : r.started = none) : WentOn P r.servers r where
  servers := .refl
  started started hstarted := by
    rw [h] at hstarted
    cases hstarted

theorem wentOn_step {a : RefreshAction} (h : WentOn P c r) (ha : refreshStep T P a r = some r') :
    WentOn P c r' := by
  cases a with
  | servers a =>
    obtain ⟨c', hc', rfl⟩ := Option.map_eq_some_iff.1 ha
    exact ⟨h.servers.tail ⟨a, hc'⟩, fun started hstarted =>
      ⟨(h.started started hstarted).1, (h.started started hstarted).2.tail ⟨a, hc'⟩⟩⟩
  | lists rootCrl intermediateCrl =>
    simp only [refreshStep] at ha
    split_ifs at ha
    obtain rfl := Option.some.inj ha
    exact ⟨h.servers, h.started⟩
  | timer =>
    simp only [refreshStep] at ha
    split at ha <;> obtain rfl := Option.some.inj ha
    · refine ⟨h.servers, fun started hstarted => ?_⟩
      obtain rfl := Option.some.inj hstarted
      exact ⟨h.servers, .refl⟩
    · exact h
  | exits o i machineName =>
    simp only [refreshStep] at ha
    split at ha
    · cases ha
    · split_ifs at ha
      obtain rfl := Option.some.inj ha
      exact ⟨h.servers, fun started hstarted => by cases hstarted⟩

/-- The script changes the files when it ends, and was started before. -/
theorem exits_cases {o : RefreshOutcomes} {i : ℕ} {m : String}
    (ha : refreshStep T P (.exits o i m) r = some r') : ∃ started, r.started = some started ∧
      o.ca.cameFrom i m started r.servers = true ∧ r'.files = UpdateCrl.updateCrl T o r.files := by
  simp only [refreshStep] at ha
  split at ha
  · cases ha
  · rename_i started hstarted
    split_ifs at ha with hcame
    obtain rfl := Option.some.inj ha
    exact ⟨started, hstarted, hcame, rfl⟩

/-- The other actions leave the chained file alone. -/
theorem chainedCrl_of_step {a : RefreshAction} (ha : refreshStep T P a r = some r')
    (hexits : ∀ o i m, a ≠ .exits o i m) : r'.files.chainedCrl = r.files.chainedCrl := by
  cases a with
  | servers a =>
    obtain ⟨c', -, rfl⟩ := Option.map_eq_some_iff.1 ha
    rfl
  | lists rootCrl intermediateCrl =>
    simp only [refreshStep] at ha
    split_ifs at ha
    obtain rfl := Option.some.inj ha
    rfl
  | timer =>
    simp only [refreshStep] at ha
    split at ha <;> obtain rfl := Option.some.inj ha <;> rfl
  | exits o i m => exact absurd rfl (hexits o i m)

/-- The list that an execution was served shows a table that extends the one at its start. -/
theorem later_of_served (h₀ : s₀.history = []) (hc : (system P).Reaches (.initial s₀) c)
    (h : WentOn P c r) {o : RefreshOutcomes} {i : ℕ} {m : String} {started : Configuration}
    (hstarted : r.started = some started) (hcame : o.ca.cameFrom i m started r.servers = true)
    {crl : X509Crl} (hca : o.ca = .answers (.crl crl)) :
    ∃ now t, crl = generateCRL P m now t ∧ Extends c.shared.publicCertificates t := by
  obtain ⟨hbefore, hafter⟩ := h.started started hstarted
  rw [hca] at hcame
  simp only [CaOutcome.cameFrom, Bool.and_eq_true, decide_eq_true_eq, Option.isNone_iff_eq_none]
    at hcame
  have hreach := hc.trans hbefore
  obtain ⟨now, t, hcrl, hextends⟩ := extends_of_later_crl h₀ hreach hafter
    (Config.procs_of_answer hcame.2) (not_hasRead_of_idle h₀ hreach hcame.1)
  exact ⟨now, t, hcrl, (extends_of_reaches hbefore).trans hextends⟩

/-- An execution that keeps the chain keeps a list of a later table in it. -/
theorem chainsLater_step (h₀ : s₀.history = []) (hc : (system P).Reaches (.initial s₀) c)
    (hwent : WentOn P c r) {a : RefreshAction} (ha : refreshStep T P a r = some r')
    (hkeeps : KeepsChain T a r r') (h : ChainsLater T P c.shared.publicCertificates r.files) :
    ChainsLater T P c.shared.publicCertificates r'.files := by
  have hsame : r'.files.chainedCrl = r.files.chainedCrl →
      ChainsLater T P c.shared.publicCertificates r'.files := by
    intro heq
    obtain ⟨root, intermediate, m, now, t, text, htext, hchained, hextends⟩ := h
    exact ⟨root, intermediate, m, now, t, text, htext, heq.trans hchained, hextends⟩
  by_cases hexits : ∃ o i m, a = .exits o i m
  · obtain ⟨o, i, m, rfl⟩ := hexits
    obtain ⟨started, hstarted, hcame, hfiles⟩ := exits_cases ha
    rcases hkeeps o i m rfl with hold | ⟨root, intermediate, crl, text, -, -, hserved, htext, hnew⟩
    · exact hsame (by rw [hfiles, hold])
    · obtain ⟨-, -, hca⟩ := exists_bytes_of_served hserved
      obtain ⟨now, t, rfl, hextends⟩ := later_of_served h₀ hc hwent hstarted hcame hca
      exact ⟨root, intermediate, m, now, t, text, htext, by rw [hfiles, hnew], hextends⟩
  · push Not at hexits
    exact hsame (chainedCrl_of_step ha hexits)

/-- An execution that gets its list chains a list of a later table. -/
theorem chainsLater_of_getsList (h₀ : s₀.history = []) (hc : (system P).Reaches (.initial s₀) c)
    (hwent : WentOn P c r) {o : RefreshOutcomes} {i : ℕ} {m : String}
    (ha : refreshStep T P (.exits o i m) r = some r') {root intermediate text : List UInt8}
    {crl : X509Crl} (hroot : r.files.rootCrl = some root)
    (hintermediate : r.files.intermediateCrl = some intermediate)
    (hgets : GetsList T o root intermediate crl text) :
    ChainsLater T P c.shared.publicCertificates r'.files := by
  obtain ⟨started, hstarted, hcame, hfiles⟩ := exits_cases ha
  obtain ⟨now, t, rfl, hextends⟩ := later_of_served h₀ hc hwent hstarted hcame hgets.answers
  refine ⟨root, intermediate, m, now, t, text, hgets.converts, ?_, hextends⟩
  rw [hfiles, chainedCrl_updateCrl hroot hintermediate, leftover_of_getsList hgets]
  exact Written.apply_of_completes hgets.cat _

/-! ## Every run -/

/-- After a list was chained whose execution was started later, the chained file is never without a
list of a later table. -/
theorem chainsLater_of_run (h₀ : s₀.history = []) (hc : (system P).Reaches (.initial s₀) r.servers)
    (hidle : r.started = none) {bs : List RefreshAction}
    (hrun : Transitions.run (refreshStep T P) bs r = some r')
    (hkept : Transitions.Along (refreshStep T P) (KeepsChain T) bs r) (hgets : GetsListIn T P bs r) :
    ChainsLater T P r.servers.shared.publicCertificates r'.files := by
  obtain ⟨bs₁, o, i, m, bs₂, r₁, root, intermediate, crl, text, rfl, hrun₁, hroot, hintermediate,
    hlist⟩ := hgets
  have hwent₁ : WentOn P r.servers r₁ := Transitions.run_induction
    (fun a r r' hI ha _ => wentOn_step hI ha) (wentOn_of_idle hidle) hrun₁
    (Transitions.along_of_forall (Q := fun _ _ _ => True) (fun _ _ _ => trivial) _ _)
  rw [Transitions.run_append hrun₁] at hrun
  obtain ⟨r₂, hexits, hrun₂⟩ := Option.bind_eq_some_iff.1 hrun
  have hchains := chainsLater_of_getsList h₀ hc hwent₁ hexits hroot hintermediate hlist
  have halong := (Transitions.along_of_append hkept hrun₁ r₂ hexits).2
  refine (Transitions.run_induction (I := fun r' => WentOn P r.servers r' ∧
    ChainsLater T P r.servers.shared.publicCertificates r'.files) ?_
    ⟨wentOn_step hwent₁ hexits, hchains⟩ hrun₂ halong).2
  rintro a b b' ⟨hwent, hlater⟩ ha hkeeps
  exact ⟨wentOn_step hwent ha, chainsLater_step h₀ hc hwent ha hkeeps hlater⟩

theorem servers_of_run {as : List RefreshAction}
    (hrun : Transitions.run (refreshStep T P) as (.initial s₀ files) = some r) :
    (system P).Reaches (.initial s₀) r.servers := by
  have hidle : (RefreshConfiguration.initial s₀ files).started = none := rfl
  have hwent : WentOn P (RefreshConfiguration.initial s₀ files).servers r := Transitions.run_induction
    (fun a r r' hI ha _ => wentOn_step hI ha) (wentOn_of_idle hidle) hrun
    (Transitions.along_of_forall (Q := fun _ _ _ => True) (fun _ _ _ => trivial) _ _)
  exact hwent.servers

/-- In every run: once a certificate was revoked and an execution that was started later has chained
its list, the chained file ends with a list that marks the certificate if and only if it comes from a CA
with the name of the issuer, and the serial number is below `2 ^ 63`, as long as each execution leaves
the file as it was or ends it with the list that it was served. -/
theorem chained_of_run (P : Platform) (T : CrlTools) {s₀ : State} (h₀ : s₀.history = [])
    (hempty : s₀.publicCertificates = ∅) {files : CrlFiles} {as : List RefreshAction}
    {r : RefreshConfiguration}
    (hrun : Transitions.run (refreshStep T P) as (.initial s₀ files) = some r)
    (hidle : r.started = none) {p : PublicCertificate}
    (hp : p ∈ r.servers.shared.publicCertificates.rows) (hrev : p.isRevoked = true) {m : String}
    (hissued : IssuedOn r.servers m p) {bs : List RefreshAction} {r' : RefreshConfiguration}
    (hrun' : Transitions.run (refreshStep T P) bs r = some r')
    (hkept : Transitions.Along (refreshStep T P) (KeepsChain T) bs r) (hgets : GetsListIn T P bs r) :
    ChainMarks T P r'.files p m := by
  have hreach := servers_of_run hrun
  obtain ⟨root, intermediate, m', now, t, text, htext, hchained, hextends⟩ :=
    chainsLater_of_run h₀ hreach hidle hrun' hkept hgets
  refine ⟨root, intermediate, m', _, text, htext, hchained, rfl, ?_⟩
  rw [Marks, mem_serialNumbers_of_extends hextends hp hrev (certifiedRow_of_reaches h₀ hempty hreach hp),
    issuerName_of_issuedOn h₀ hempty hreach hp hissued]
  rfl

section

open Deployment

/-- A schedule of the servers, while the script does not move. -/
theorem run_servers {as : List (Act Request Choice ℕ)} {c c' : Configuration}
    (h : (system P).run as c = some c') (files : CrlFiles) (started : Option Configuration) :
    Transitions.run (refreshStep T P) (as.map .servers) ⟨c, files, started⟩ =
      some ⟨c', files, started⟩ := by
  induction as generalizing c with
  | nil =>
    obtain rfl := Option.some.inj h
    rfl
  | cons a as ih =>
    obtain ⟨c₁, h₁, hrest⟩ := Option.bind_eq_some_iff.1 h
    have hstep : refreshStep T P (.servers a) ⟨c, files, started⟩ = some ⟨c₁, files, started⟩ := by
      simp only [refreshStep, h₁, Option.map_some]
    rw [List.map_cons, Transitions.run_cons hstep]
    exact ih hrest

/-- Every step of the script is carried out with this list. -/
def refreshOf (crl : X509Crl) : RefreshOutcomes where
  ca := .answers (.crl crl)
  web := .passes
  curl := .bytes crl.getEncoded.length
  openssl := .bytes crl.text.length
  cat := .bytes (rootText ++ intermediateText ++ crl.text).length
  rm := true

/-- An execution that gets this list from process 3 on the first machine. -/
def refreshWith (crl : X509Crl) : List RefreshAction :=
  .timer :: ((listOn "aslcert01").map .servers ++ [.exits (refreshOf crl) 3 "aslcert01"])

theorem completes_bytes (text : List UInt8) : (Written.bytes text.length).Completes text :=
  Nat.le_refl _

theorem getsList_refreshOf (crl : X509Crl) :
    GetsList derTools (refreshOf crl) rootText intermediateText crl crl.text where
  answers := rfl
  passes := rfl
  curl := completes_bytes crl.getEncoded
  converts := crl.opensslPem_getEncoded
  openssl := completes_bytes crl.text
  cat := completes_bytes (rootText ++ intermediateText ++ crl.text)

theorem chainKept_refreshOf (crl : X509Crl) :
    ChainKept derTools (refreshOf crl) refreshedFiles := by
  refine Or.inr ⟨rootText, intermediateText, crl, crl.text, rfl, rfl, rfl,
    crl.opensslPem_getEncoded, ?_⟩
  rw [chainedCrl_updateCrl rfl rfl, leftover_of_getsList (getsList_refreshOf crl)]
  exact Written.apply_of_completes (getsList_refreshOf crl).cat _

/-- A certificate is revoked, and the next execution of the script chains a list. -/
theorem chained_of_refresh : ∃ r r' : RefreshConfiguration, ∃ p crl,
    p ∈ r.servers.shared.publicCertificates.rows ∧ p.isRevoked = true ∧
      Transitions.run (refreshStep derTools twoMachines) (refreshWith crl) r = some r' ∧
      ChainMarks derTools twoMachines r'.files p "aslcert01" := by
  have hlists : listsRevoked "aslcert01" (fun _ _ => true) = true := by decide +kernel
  obtain ⟨c, hc, hlists⟩ := (Option.any_eq_true _ _).1 hlists
  obtain ⟨c', hc', hlists⟩ := (Option.any_eq_true _ _).1 hlists
  obtain ⟨crl, hcrl, hlists⟩ := (Option.any_eq_true _ _).1 hlists
  obtain ⟨p, hp, hlists⟩ := List.any_eq_true.1 hlists
  simp only [revokedOnFirst, Bool.and_eq_true, decide_eq_true_eq, Option.isNone_iff_eq_none] at hlists
  obtain ⟨⟨⟨⟨⟨hrev, -⟩, hidle⟩, hreq⟩, hinserts⟩, -⟩ := hlists
  have hcame : (refreshOf crl).ca.cameFrom 3 "aslcert01" c c' = true := by
    have hanswer : c'.answer 3 = some (.api "aslcert01" .getCRL, .crl crl) := by
      rw [Config.answer, answersCrl_of_crlOf hcrl]
      rfl
    simp [refreshOf, CaOutcome.cameFrom, hidle, hanswer]
  have hlist := run_servers (T := derTools) hc' refreshedFiles (some c)
  have hbefore : Transitions.run (refreshStep derTools twoMachines)
      (.timer :: (listOn "aslcert01").map .servers) ⟨c, refreshedFiles, none⟩ =
        some ⟨c', refreshedFiles, some c⟩ := hlist
  have hrun' : Transitions.run (refreshStep derTools twoMachines) (refreshWith crl)
      ⟨c, refreshedFiles, none⟩ =
        some ⟨c', UpdateCrl.updateCrl derTools (refreshOf crl) refreshedFiles, none⟩ := by
    rw [refreshWith, ← List.cons_append, Transitions.run_append hbefore]
    simp only [Transitions.run, refreshStep, hcame, if_true, Option.bind_some]
  have hkept : Transitions.Along (refreshStep derTools twoMachines) (KeepsChain derTools)
      (refreshWith crl) ⟨c, refreshedFiles, none⟩ := by
    rw [refreshWith, ← List.cons_append]
    refine Transitions.along_append (Transitions.along_of_forall_mem ?_ _) fun r hr => ?_
    · rintro a ha b b' o i m rfl
      simp at ha
    · obtain rfl := Option.some.inj (hbefore.symm.trans hr)
      refine fun r' _ => ⟨?_, trivial⟩
      rintro o i m heq
      obtain ⟨rfl, -, -⟩ := RefreshAction.exits.inj heq
      exact chainKept_refreshOf crl
  refine ⟨_, _, p, crl, hp, hrev, hrun', ?_⟩
  exact chained_of_run twoMachines derTools rfl rfl (run_servers hc refreshedFiles none) rfl hp
    hrev (issuedOn_of_inserts hreq hinserts) hrun' hkept
    ⟨_, _, _, _, [], _, _, _, _, _, rfl, hbefore, rfl, rfl, getsList_refreshOf crl⟩

end

end IMoviesCA
