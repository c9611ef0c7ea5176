import IMoviesCA.Lib.Register
import IMoviesCA.Statistics
import IMoviesCA.Deployment

/-!
# The current certificates

What the CA is for: a register of the current certificate of each user.  An issuance gives the user the
next number in place of the current one, a revocation withdraws numbers, and a number is withdrawn when
its certificate expires.

The two servers are that register.  `Ledger.register` reads it off a state, and in every run it does what
the commits of the run did, one after another, and nothing else but let certificates expire
(`register_of_reaches`): in particular no certificate becomes current again.
-/

namespace IMoviesCA

open CADBModifier IssueController

/-! ## The register of a state -/

/-- The number of the certificate of the user that is live. -/
def currentNumber (s : State) (uid : String) : Option ℕ :=
  (s.publicCertificates.rows.find? fun p => p.uid = uid ∧ Live s.now p).map fun p => p.serialNr.toNat

theorem currentNumber_eq_some_iff {s : State} (h : Ledger s) {uid : String} {n : ℕ} :
    currentNumber s uid = some n ↔
      ∃ p ∈ s.publicCertificates.rows, p.uid = uid ∧ Live s.now p ∧ p.serialNr.toNat = n := by
  unfold currentNumber
  constructor
  · intro hn
    obtain ⟨p, hp, rfl⟩ := Option.map_eq_some_iff.1 hn
    have hprop : p.uid = uid ∧ Live s.now p := by simpa using List.find?_some hp
    obtain ⟨hu, hlive⟩ := hprop
    exact ⟨p, List.mem_of_find?_eq_some hp, hu, hlive, rfl⟩
  · rintro ⟨p, hp, rfl, hlive, rfl⟩
    cases hfind : s.publicCertificates.rows.find? fun q => q.uid = p.uid ∧ Live s.now q with
    | none =>
      have hdead : ¬ Live s.now p := by simpa using List.find?_eq_none.1 hfind p hp
      exact absurd hlive hdead
    | some q =>
      have hprop : q.uid = p.uid ∧ Live s.now q := by simpa using List.find?_some hfind
      obtain ⟨hu, hlive'⟩ := hprop
      rw [h.live_unique (List.mem_of_find?_eq_some hfind) hp hu hlive' hlive]
      rfl

theorem Ledger.length_rows {s : State} (h : Ledger s) :
    s.publicCertificates.rows.length = (issued s.history).length :=
  h.numbered.length_rows

theorem Ledger.serialNr_lt {s : State} (h : Ledger s) {p : PublicCertificate}
    (hp : p ∈ s.publicCertificates.rows) : p.serialNr.toNat < s.publicCertificates.rows.length := by
  rw [h.length_rows]
  exact h.numbered.mem_keys.1 (Table.key_mem_keys hp)

theorem currentNumber_lt {s : State} (h : Ledger s) {uid : String} {n : ℕ}
    (hn : currentNumber s uid = some n) : n < s.publicCertificates.rows.length := by
  obtain ⟨p, hp, -, -, rfl⟩ := (currentNumber_eq_some_iff h).1 hn
  exact h.serialNr_lt hp

theorem currentNumber_unique {s : State} (h : Ledger s) {uid uid' : String} {n : ℕ}
    (hn : currentNumber s uid = some n) (hn' : currentNumber s uid' = some n) : uid = uid' := by
  obtain ⟨p, hp, rfl, -, hpn⟩ := (currentNumber_eq_some_iff h).1 hn
  obtain ⟨q, hq, rfl, -, hqn⟩ := (currentNumber_eq_some_iff h).1 hn'
  rw [Table.eq_of_key_eq hp hq (UInt64.toNat_inj.1 (hpn.trans hqn.symm))]

/-- The register that the CA keeps. -/
def Ledger.register {s : State} (h : Ledger s) : Register String where
  next := s.publicCertificates.rows.length
  current := currentNumber s
  lt_next := currentNumber_lt h
  unique := currentNumber_unique h

/-! ## The actions of a commit -/

/-- What a statement on `public_certificates` does to the register. -/
def actionOf : CertificateWrite → Register.Action String
  | .insert row => .issue row.uid
  | .update serialNr _ => .revoke serialNr.toNat

/-- The actions on the register that an event amounts to. -/
def Event.actions : Event → List (Register.Action String)
  | .certificatesCommitted _ ws _ => ws.map actionOf
  | _ => []

/-- The numbers that a write set revokes. -/
def revokedNumbers (ws : List CertificateWrite) : List ℕ :=
  ws.filterMap fun w =>
    match w with
    | .insert _ => none
    | .update serialNr _ => some serialNr.toNat

theorem map_actionOf {ws : List CertificateWrite} (h : Revocations ws) :
    ws.map actionOf = (revokedNumbers ws).map .revoke := by
  induction ws with
  | nil => rfl
  | cons w ws ih =>
    obtain ⟨n, rfl⟩ := h w List.mem_cons_self
    exact congrArg _ (ih fun w' hw' => h w' (List.mem_cons_of_mem _ hw'))

theorem mem_revokedNumbers {ws : List CertificateWrite} {k : UInt64} :
    k.toNat ∈ revokedNumbers ws ↔ revocation k ∈ ws := by
  constructor
  · intro h
    obtain ⟨w, hw, hk⟩ := List.mem_filterMap.1 h
    rcases w with row | ⟨k', ⟨⟩⟩
    · cases hk
    · obtain rfl := UInt64.toNat_inj.1 (Option.some.inj hk)
      exact hw
  · exact fun h => List.mem_filterMap.2 ⟨_, h, rfl⟩

theorem live_patched_iff {now : Time} {ws : List CertificateWrite} {p : PublicCertificate} :
    Live now (Table.patched ws p) ↔ Live now p ∧ p.serialNr.toNat ∉ revokedNumbers ws := by
  rw [mem_revokedNumbers, patched_certificate]
  split_ifs with hmem
  · simp [Live, hmem]
  · simp [hmem]

/-- The current numbers on the rows that a commit has patched. -/
theorem exists_patched_iff {s : State} (h : Ledger s) {ws : List CertificateWrite} {uid : String}
    {n : ℕ} : (∃ q ∈ s.publicCertificates.rows.map (Table.patched ws), q.uid = uid ∧ Live s.now q ∧
      q.serialNr.toNat = n) ↔ currentNumber s uid = some n ∧ n ∉ revokedNumbers ws := by
  rw [currentNumber_eq_some_iff h]
  constructor
  · rintro ⟨q, hq, hu, hlive, rfl⟩
    obtain ⟨p, hp, rfl⟩ := List.mem_map.1 hq
    have hlater := later_patched ws p
    obtain ⟨hlive, hnot⟩ := live_patched_iff.1 hlive
    rw [hlater.serialNr]
    exact ⟨⟨p, hp, hlater.uid.symm.trans hu, hlive, rfl⟩, hnot⟩
  · rintro ⟨⟨p, hp, hu, hlive, rfl⟩, hnot⟩
    have hlater := later_patched ws p
    exact ⟨Table.patched ws p, List.mem_map_of_mem hp, hlater.uid.trans hu,
      live_patched_iff.2 ⟨hlive, hnot⟩, congrArg UInt64.toNat hlater.serialNr⟩

/-! ## One step -/

/-- From `s` to `s'` the events `evs` occurred, newest first, and the register did the actions `as`: those
of the commits, in their order, and expirations of certificates that have expired. -/
structure Follows {s s' : State} (as : List (Register.Action String)) (evs : List Event) (h : Ledger s)
    (h' : Ledger s') : Prop where
  history : s'.history = evs ++ s.history
  register : h'.register = h.register.run as
  done : as.filter Register.Action.isDone = evs.reverse.flatMap Event.actions
  expired : ∀ n, .expire n ∈ as → ∃ p ∈ s'.publicCertificates.rows, p.serialNr.toNat = n ∧
    p.parse.notAfter < s'.now

variable {P : Platform} {s₀ : State} {c c' : Configuration}

theorem follows_refl {s : State} (h : Ledger s) : Follows [] [] h h where
  history := rfl
  register := rfl
  done := rfl
  expired := by rintro n ⟨⟩

theorem Follows.trans {s s' s'' : State} {as as' : List (Register.Action String)} {evs evs' : List Event}
    {h : Ledger s} {h' : Ledger s'} {h'' : Ledger s''} (hf : Follows as evs h h')
    (hf' : Follows as' evs' h' h'') (hext : Extends s'.publicCertificates s''.publicCertificates)
    (hnow : s'.now ≤ s''.now) : Follows (as ++ as') (evs' ++ evs) h h'' where
  history := by rw [hf'.history, hf.history, List.append_assoc]
  register := by rw [hf'.register, hf.register, Register.run_append]
  done := by
    rw [List.filter_append, hf.done, hf'.done, List.reverse_append, List.flatMap_append]
  expired := by
    intro n hn
    rcases List.mem_append.1 hn with hn | hn
    · obtain ⟨p, hp, rfl, hexpired⟩ := hf.expired n hn
      obtain ⟨q, hq, hlater⟩ := hext p hp
      refine ⟨q, hq, congrArg UInt64.toNat hlater.serialNr, ?_⟩
      have hparse : q.parse = p.parse := hlater.certificate
      rw [hparse]
      exact hexpired.trans_le hnow
    · exact hf'.expired n hn

/-- An event that is no commit of certificates. -/
theorem follows_other {s s' : State} {e : Event} (h : Ledger s) (h' : Ledger s') (he : e.actions = [])
    (hhist : s'.history = e :: s.history) (htable : s'.publicCertificates = s.publicCertificates)
    (hnow : s'.now = s.now) : Follows [] [e] h h' where
  history := hhist
  register := by
    refine Register.eq_of_current (congrArg (fun t => t.rows.length) htable) fun uid n => ?_
    show currentNumber s' uid = some n ↔ currentNumber s uid = some n
    rw [currentNumber, currentNumber, htable, hnow]
  done := by simp [he]
  expired := by rintro n ⟨⟩

/-- The numbers of the certificates that expire in the next `d` moments. -/
def expiring (d : ℕ) (s : State) : List ℕ :=
  (s.publicCertificates.rows.filter fun p => Live s.now p ∧ ¬ Live (s.now + d) p).map
    fun p => p.serialNr.toNat

theorem mem_expiring {d : ℕ} {s : State} {n : ℕ} : n ∈ expiring d s ↔
    ∃ p ∈ s.publicCertificates.rows, Live s.now p ∧ ¬ Live (s.now + d) p ∧ p.serialNr.toNat = n := by
  simp [expiring, and_assoc]

theorem currentNumber_tick {d : ℕ} {s : State} (h : Ledger s) {uid : String} {n : ℕ} :
    currentNumber (tick d s) uid = some n ↔ currentNumber s uid = some n ∧ n ∉ expiring d s := by
  rw [currentNumber_eq_some_iff h, currentNumber_eq_some_iff (ledger_tick d h), mem_expiring]
  constructor
  · rintro ⟨p, hp, hu, hlive, rfl⟩
    refine ⟨⟨p, hp, hu, ⟨hlive.1, (Nat.le_add_right _ d).trans hlive.2⟩, rfl⟩, ?_⟩
    rintro ⟨q, hq, -, hnot, hserial⟩
    obtain rfl : q = p := Table.eq_of_key_eq hq hp (UInt64.toNat_inj.1 hserial)
    exact hnot hlive
  · rintro ⟨⟨p, hp, hu, hlive, rfl⟩, hnot⟩
    refine ⟨p, hp, hu, ?_, rfl⟩
    by_contra hdead
    exact hnot ⟨p, hp, hlive, hdead, rfl⟩

theorem follows_tick (d : ℕ) {s : State} (h : Ledger s) (h' : Ledger (tick d s)) :
    Follows ((expiring d s).map .expire) [] h h' where
  history := rfl
  register := by
    obtain ⟨hnext, hcurrent⟩ :=
      Register.run_withdrawals (f := .expire) (fun _ _ => rfl) h.register (expiring d s)
    refine Register.eq_of_current hnext.symm fun uid n => ?_
    rw [hcurrent]
    exact currentNumber_tick h
  done := Register.filter_map_expire _
  expired := by
    intro n hn
    obtain ⟨m, hm, ⟨⟩⟩ := List.mem_map.1 hn
    obtain ⟨p, hp, hlive, hdead, hserial⟩ := mem_expiring.1 hm
    refine ⟨p, hp, hserial, ?_⟩
    by_contra hle
    exact hdead ⟨hlive.1, Nat.le_of_not_lt hle⟩

theorem filter_map_actionOf (ws : List CertificateWrite) :
    (ws.map actionOf).filter Register.Action.isDone = ws.map actionOf := by
  refine List.filter_eq_self.2 fun a ha => ?_
  obtain ⟨w, -, rfl⟩ := List.mem_map.1 ha
  cases w <;> rfl

theorem not_mem_map_actionOf {ws : List CertificateWrite} {n : ℕ} : .expire n ∉ ws.map actionOf := by
  intro ha
  obtain ⟨w, -, hw⟩ := List.mem_map.1 ha
  cases w <;> cases hw

/-- A commit that only revokes. -/
theorem follows_revocations {s : State} {t : Table PublicCertificate} {ws : List CertificateWrite} {i : ℕ}
    (h : Ledger s) (hws : Revocations ws) (hc : s.publicCertificates.commit ws = some t)
    (h' : Ledger ({ s with publicCertificates := t }.record (.certificatesCommitted i ws s.now))) :
    Follows (ws.map actionOf) [.certificatesCommitted i ws s.now] h h' where
  history := rfl
  register := by
    obtain ⟨hnext, hcurrent⟩ :=
      Register.run_withdrawals (f := .revoke) (fun _ _ => rfl) h.register (revokedNumbers ws)
    have hrows : t.rows = s.publicCertificates.rows.map (Table.patched ws) := by
      rw [Table.rows_of_commit hc, added_revocations hws, List.append_nil]
    rw [map_actionOf hws]
    refine Register.eq_of_current ?_ fun uid n => ?_
    · rw [hnext]
      show t.rows.length = s.publicCertificates.rows.length
      rw [hrows, List.length_map]
    · rw [hcurrent]
      refine (currentNumber_eq_some_iff h').trans (Iff.trans ?_ (exists_patched_iff h))
      rw [← hrows]
      rfl
  done := by
    rw [filter_map_actionOf]
    simp [Event.actions]
  expired _ hn := absurd hn not_mem_map_actionOf

/-- What the register does at an issuance, up to the revocations. -/
theorem run_issue {s : State} (h : Ledger s) {ws : List CertificateWrite} (hws : Revocations ws)
    (row : PublicCertificate) :
    (h.register.run ((ws ++ [Write.insert row]).map actionOf)).next = s.publicCertificates.rows.length + 1 ∧
      ∀ uid n, (h.register.run ((ws ++ [Write.insert row]).map actionOf)).current uid = some n ↔
        (uid = row.uid ∧ n = s.publicCertificates.rows.length) ∨
          (uid ≠ row.uid ∧ currentNumber s uid = some n ∧ n ∉ revokedNumbers ws) := by
  obtain ⟨hnext, hcurrent⟩ :=
    Register.run_withdrawals (f := .revoke) (fun _ _ => rfl) h.register (revokedNumbers ws)
  rw [List.map_append, map_actionOf hws, Register.run_append]
  refine ⟨congrArg (· + 1) hnext, fun uid n => Register.update_current_eq_some.trans ?_⟩
  rw [hnext, hcurrent]
  rfl

/-- The table after an issuance: the new row has the next number, and the older certificates of its user
are not live any more. -/
theorem currentNumber_issue {s : State} {t : Table PublicCertificate} {ws : List CertificateWrite}
    {row : PublicCertificate} {i : ℕ} (h : Ledger s)
    (hnumber : row.serialNr.toNat = s.publicCertificates.rows.length)
    (hrows : t.rows = s.publicCertificates.rows.map (Table.patched (ws ++ [Write.insert row])) ++ [row])
    (h' : Ledger ({ s with publicCertificates := t }.record
      (.certificatesCommitted i (ws ++ [Write.insert row]) s.now))) {uid : String} {n : ℕ} :
    currentNumber ({ s with publicCertificates := t }.record
      (.certificatesCommitted i (ws ++ [Write.insert row]) s.now)) uid = some n ↔
        (uid = row.uid ∧ n = s.publicCertificates.rows.length ∧ Live s.now row) ∨
          (uid ≠ row.uid ∧ currentNumber s uid = some n ∧ n ∉ revokedNumbers ws) := by
  have hrevoked : revokedNumbers (ws ++ [Write.insert row]) = revokedNumbers ws := by
    simp [revokedNumbers]
  have hold : ∀ q ∈ s.publicCertificates.rows.map (Table.patched (ws ++ [Write.insert row])),
      q.uid = row.uid → ¬ Live s.now q := by
    intro q hq hu
    obtain ⟨p, hp, rfl⟩ := List.mem_map.1 hq
    refine h'.superseded _ (hrows ▸ List.mem_append_left _ hq) row (hrows ▸ by simp) hu ?_
    rw [(later_patched _ p).serialNr, hnumber]
    exact h.serialNr_lt hp
  rw [currentNumber_eq_some_iff h', ← hrevoked, ← exists_patched_iff h]
  show (∃ q ∈ t.rows, _) ↔ _
  rw [hrows]
  constructor
  · rintro ⟨q, hq, rfl, hlive, rfl⟩
    rcases List.mem_append.1 hq with hq | hq
    · exact Or.inr ⟨fun hu => hold q hq hu hlive, q, hq, rfl, hlive, rfl⟩
    · obtain rfl := List.mem_singleton.1 hq
      exact Or.inl ⟨rfl, hnumber, hlive⟩
  · rintro (⟨rfl, rfl, hlive⟩ | ⟨-, q, hq, hq'⟩)
    · exact ⟨row, by simp, rfl, hlive, hnumber⟩
    · exact ⟨q, List.mem_append_left _ hq, hq'⟩

/-- A commit that issues a certificate, which may have expired by then. -/
theorem follows_issue {s : State} {S t : Table PublicCertificate} {ws : List CertificateWrite}
    {row : PublicCertificate} {i : ℕ} {since : Time} (h : Ledger s)
    (hread : .certificatesRead i S since ∈ s.history)
    (hrow : row.serialNr = (getMaxSerialNr S).serialNr) (hnew : row.isRevoked = false)
    (hws : Revocations ws) (hc : s.publicCertificates.commit (ws ++ [Write.insert row]) = some t)
    (h' : Ledger ({ s with publicCertificates := t }.record
      (.certificatesCommitted i (ws ++ [Write.insert row]) s.now))) :
    ∃ as, Follows as [.certificatesCommitted i (ws ++ [Write.insert row]) s.now] h h' := by
  obtain ⟨-, hlt64, hserial⟩ := snapshot_complete h hread hrow hws hc
  have hnumber : row.serialNr.toNat = s.publicCertificates.rows.length := by
    rw [hserial, toNat_ofNat_of_lt hlt64, h.length_rows]
  have hrows : t.rows =
      s.publicCertificates.rows.map (Table.patched (ws ++ [Write.insert row])) ++ [row] := by
    rw [Table.rows_of_commit hc, added_append hws]
  have hlength : t.rows.length = s.publicCertificates.rows.length + 1 := by
    rw [hrows, List.length_append, List.length_map, List.length_singleton]
  obtain ⟨hnext, hrun⟩ := run_issue h hws row
  by_cases hlive : Live s.now row
  · refine ⟨(ws ++ [Write.insert row]).map actionOf, rfl, ?_, ?_, fun _ hn =>
      absurd hn not_mem_map_actionOf⟩
    · refine Register.eq_of_current (hlength.trans hnext.symm) fun uid n => ?_
      rw [hrun]
      refine (currentNumber_issue h hnumber hrows h').trans ?_
      simp [hlive]
    · rw [filter_map_actionOf]
      simp [Event.actions]
  · refine ⟨(ws ++ [Write.insert row]).map actionOf ++ [.expire row.serialNr.toNat], rfl, ?_, ?_, ?_⟩
    · rw [Register.run_append]
      refine Register.eq_of_current (hlength.trans hnext.symm) fun uid n => ?_
      refine (currentNumber_issue h hnumber hrows h').trans (Iff.trans ?_
        Register.filter_current_eq_some.symm)
      rw [hrun, hnumber]
      constructor
      · rintro (⟨-, -, habsurd⟩ | ⟨hne, hn, hnot⟩)
        · exact absurd habsurd hlive
        · exact ⟨Or.inr ⟨hne, hn, hnot⟩, (currentNumber_lt h hn).ne⟩
      · rintro ⟨⟨-, rfl⟩ | hn, hne⟩
        · exact absurd rfl hne
        · exact Or.inr hn
    · rw [List.filter_append, filter_map_actionOf]
      simp [Event.actions, Register.Action.isDone]
    · intro n hn
      rcases List.mem_append.1 hn with hn | hn
      · exact absurd hn not_mem_map_actionOf
      · obtain ⟨⟩ := List.mem_singleton.1 hn
        refine ⟨row, ?_, rfl, ?_⟩
        · show row ∈ t.rows
          rw [hrows]
          exact List.mem_append_right _ (List.mem_singleton_self row)
        · by_contra hle
          exact hlive ⟨hnew, Nat.le_of_not_lt hle⟩

/-- The register follows the event of a request. -/
theorem follows_move {req : Request} {e : Event} (hm : Move P c c' req e) (h : Ledger c.shared)
    (h' : Ledger c'.shared) : ∃ as, Follows as [e] h h' := by
  have hocc := hm.occurs
  generalize hs : c.shared = s at hocc h
  generalize hs' : c'.shared = s' at hocc h'
  cases hocc with
  | @certificatesCommitted i ws _ t hc =>
    subst hs
    rcases commit_of_move hm with hiss | hrev
    · obtain ⟨⟨m, r, hcall, I, rfl, htime, hread, -, -⟩⟩ := hiss
      exact follows_issue h hread rfl rfl I.revokesAll.revocations hc h'
    · obtain ⟨R⟩ := hrev
      exact ⟨_, follows_revocations h R.revokesAll.revocations hc h'⟩
  | _ => exact ⟨[], follows_other h h' rfl rfl rfl rfl⟩

/-! ## Every run -/

theorem follows_step (h₀ : s₀.history = []) (hreach : (system P).Reaches (.initial s₀) c)
    {a : Act Request Choice ℕ} (ha : (system P).step a c = some c') (h : Ledger c.shared)
    (h' : Ledger c'.shared) : ∃ as evs, Follows as evs h h' := by
  rcases moves_of_step h₀ hreach ha with hs | ⟨d, hs⟩ | ⟨req, e, ch, -, hm⟩
  · generalize c'.shared = s' at hs h'
    subst hs
    exact ⟨[], [], follows_refl h⟩
  · generalize c'.shared = s' at hs h'
    subst hs
    exact ⟨_, [], follows_tick d h h'⟩
  · obtain ⟨as, hfollows⟩ := follows_move hm h h'
    exact ⟨as, [e], hfollows⟩

/-- Whatever interleaves and fails: from any moment of a run to a later one, the register of the current
certificates does the actions of the commits in their order, and besides only lets certificates expire that
have expired.  A certificate that is current and was there before has been current all along. -/
theorem register_of_reaches (P : Platform) {s₀ : State} (h₀ : s₀.history = [])
    (hempty : s₀.publicCertificates = ∅) {c c' : Configuration}
    (h : (system P).Reaches (.initial s₀) c) (h' : (system P).Reaches c c') :
    (∃ as evs, Follows as evs (ledger_of_reaches h₀ hempty h) (ledger_of_reaches h₀ hempty (h.trans h'))) ∧
    ∀ uid n, currentNumber c'.shared uid = some n → n < c.shared.publicCertificates.rows.length →
      currentNumber c.shared uid = some n := by
  have hfollows : ∃ as evs,
      Follows as evs (ledger_of_reaches h₀ hempty h) (ledger_of_reaches h₀ hempty (h.trans h')) := by
    induction h' with
    | refl => exact ⟨[], [], follows_refl _⟩
    | @tail b b' hreach hstep ih =>
      obtain ⟨a, ha⟩ := hstep
      obtain ⟨as, evs, hf⟩ := ih
      obtain ⟨as', evs', hf'⟩ := follows_step h₀ (h.trans hreach) ha
        (ledger_of_reaches h₀ hempty (h.trans hreach))
        (ledger_of_reaches h₀ hempty (h.trans (hreach.tail ⟨a, ha⟩)))
      exact ⟨as ++ as', evs' ++ evs,
        hf.trans hf' (extends_of_reaches (.single ⟨a, ha⟩)) (now_le_of_reaches (.single ⟨a, ha⟩))⟩
  refine ⟨hfollows, fun uid n hn hlt => ?_⟩
  obtain ⟨as, evs, hf⟩ := hfollows
  have hcurrent : (ledger_of_reaches h₀ hempty (h.trans h')).register.current uid = some n := hn
  rw [hf.register] at hcurrent
  exact Register.current_of_run hcurrent hlt

section

open Deployment

/-- A certificate of `a3` is issued. -/
def issueOne : List (Act Request Choice ℕ) :=
  .arrive 0 (.api "aslcert01" (.issue certRequest)) :: steps 0 18

/-- The certificates of `a3` are revoked. -/
def revokeOne : List (Act Request Choice ℕ) := .arrive 1 (.api "aslcert01" (.revoke ⟨"a3"⟩)) :: steps 1 4

theorem register_issueThenRevoke : ∃ (c c' : Configuration) (h : Ledger c.shared) (h' : Ledger c'.shared),
    (∃ as evs, Follows as evs h h') ∧ currentNumber c.shared "a3" = some 0 ∧
      currentNumber c'.shared "a3" = none := by
  have hrun : ((system platform).run issueOne (.initial (installed users))).any (fun c =>
      decide (currentNumber c.shared "a3" = some 0) && ((system platform).run revokeOne c).any fun c' =>
        decide (currentNumber c'.shared "a3" = none)) = true := by decide +kernel
  obtain ⟨c, hc, hrun⟩ := (Option.any_eq_true _ _).1 hrun
  simp only [Bool.and_eq_true] at hrun
  obtain ⟨hzero, hrun⟩ := hrun
  obtain ⟨c', hc', hnone⟩ := (Option.any_eq_true _ _).1 hrun
  exact ⟨c, c', _, _, (register_of_reaches platform rfl rfl (System.reaches_of_run hc)
    (System.reaches_of_run hc')).1, of_decide_eq_true hzero, of_decide_eq_true hnone⟩

end

end IMoviesCA
