import IMoviesCA.Lib.Watch
import IMoviesCA.AppendOnly

/-!
# The dates in a revocation list

The table of the certificates says which of them are revoked, but not since when, and `GenerateCRL`
gives every entry its own reading of the clock as the revocation date.  The entry for a certificate
is therefore dated by the list it is in, and a list carries whole seconds: two lists give the
certificate one date if and only if they were generated within one second (`revocation_dates`).
-/

namespace IMoviesCA

open CADBModifier

variable {P : Platform} {s₀ : State} {c c' : Configuration} {n : UInt64} {time : Time}

/-- A revocation of the certificate with this number was saved at `time`. -/
def RevokedAt (c : Configuration) (n : UInt64) (time : Time) : Prop :=
  ∃ i ws, .certificatesCommitted i ws time ∈ c.shared.history ∧ revocation n ∈ ws

/-- The list has an entry for the certificate with this number, and this is its date. -/
def EntryDate (crl : X509Crl) (n : UInt64) (date : Time) : Prop :=
  (∃ e ∈ crl.entries, e.userCertificate = crlSerialNumber ⟨n⟩) ∧
    ∀ e ∈ crl.entries, e.userCertificate = crlSerialNumber ⟨n⟩ → e.revocationDate = date

/-- Both lists give the certificate one date, between its revocation at `time` and the earlier of the
two lists, in whole seconds. -/
def StableDate (crl crl' : X509Crl) (n : UInt64) (time : Time) : Prop :=
  ∃ date, EntryDate crl n date ∧ EntryDate crl' n date ∧ wholeSeconds time ≤ date ∧
    date ≤ min crl.thisUpdate crl'.thisUpdate

/-- The list was generated at `now`, between these two times, and dates the certificate by that, in
whole seconds. -/
structure DatedByList (crl : X509Crl) (n : UInt64) (now earliest latest : Time) : Prop where
  thisUpdate : crl.thisUpdate = wholeSeconds now
  date : EntryDate crl n (wholeSeconds now)
  earliest_le : earliest ≤ now
  le_latest : now ≤ latest

theorem wholeSeconds_mono : Monotone wholeSeconds :=
  fun _ _ h => Nat.mul_le_mul_right _ (Nat.div_le_div_right h)

theorem EntryDate.unique {crl : X509Crl} {date date' : Time} (h : EntryDate crl n date)
    (h' : EntryDate crl n date') : date = date' := by
  obtain ⟨⟨e, he, hserial⟩, hdate⟩ := h
  rw [← hdate e he hserial, h'.2 e he hserial]

/-- Two lists that date a certificate by themselves agree only if they were generated within one
second. -/
theorem stableDate_iff {crl crl' : X509Crl} {now now' latest : Time}
    (h : DatedByList crl n now time latest) (h' : DatedByList crl' n now' time latest) :
    StableDate crl crl' n time ↔ wholeSeconds now = wholeSeconds now' := by
  constructor
  · rintro ⟨date, hdate, hdate', -, -⟩
    rw [h.date.unique hdate, h'.date.unique hdate']
  · intro heq
    refine ⟨wholeSeconds now, h.date, ?_, wholeSeconds_mono h.earliest_le, le_min ?_ ?_⟩
    · rw [heq]
      exact h'.date
    · exact h.thisUpdate.ge
    · exact heq.le.trans h'.thisUpdate.ge

/-! ## The revocation -/

/-- A committed revocation has revoked its row. -/
theorem exists_revoked_of_commit {t t' : Table PublicCertificate} {ws : List CertificateWrite}
    (h : t.commit ws = some t') (hw : revocation n ∈ ws) :
    ∃ p ∈ t'.rows, p.serialNr = n ∧ p.isRevoked = true := by
  induction ws generalizing t with
  | nil => cases hw
  | cons w ws ih =>
    obtain ⟨t₁, h₁, h₂⟩ := Option.bind_eq_some_iff.1 h
    rcases List.mem_cons.1 hw with rfl | hw
    · -- The row is there and patched, and the other writes do not take that back.
      have hkey : n ∈ t.keys := by
        simp only [Table.write, revocation] at h₁
        split_ifs at h₁ with hkey
        exact hkey
      obtain ⟨p, hp, rfl⟩ := Table.mem_keys.1 hkey
      have hpatched : Table.patchedBy (revocation p.serialNr) p ∈ t₁.rows := by
        rw [Table.rows_of_write h₁]
        exact List.mem_append_left _ (List.mem_map_of_mem hp)
      rw [patchedBy_revocation, if_pos rfl] at hpatched
      obtain ⟨q, hq, hlater⟩ := extends_of_commit h₂ _ hpatched
      exact ⟨q, hq, hlater.serialNr, hlater.isRevoked rfl⟩
    · exact ih h₂ hw

/-- The row of a revocation is revoked from then on, and the clock does not go back. -/
theorem revoked_of_revokedAt (h₀ : s₀.history = []) (h : (system P).Reaches (.initial s₀) c)
    (hrev : RevokedAt c n time) :
    (∃ p ∈ c.shared.publicCertificates.rows, p.serialNr = n ∧ p.isRevoked = true) ∧
      time ≤ c.shared.now := by
  obtain ⟨i, ws, hcommit, hw⟩ := hrev
  have hnew : .certificatesCommitted i ws time ∉ s₀.history := by simp [h₀]
  obtain ⟨b, b', req, -, hm, hb'⟩ := move_of_mem_history h₀ .refl h hcommit hnew
  obtain ⟨rfl, ht⟩ := hm.occurs.commit
  obtain ⟨p, hp, hserial, hrevoked⟩ := exists_revoked_of_commit ht hw
  obtain ⟨q, hq, hlater⟩ := extends_of_reaches hb' p hp
  obtain ⟨evs, hevs⟩ := evolves_of_reaches hb'
  refine ⟨⟨q, hq, hlater.serialNr.trans hserial, hlater.isRevoked hrevoked⟩, ?_⟩
  rw [← hm.occurs.now]
  exact hevs.now_le

/-! ## The lists -/

/-- What an operation may read between these two states. -/
def ReadBetween (s s' : State) : (e : Op) → e.Res → Prop
  | .clock, v => ∀ now : Time, v = .ok now → s.now ≤ now ∧ now ≤ s'.now
  | .readCertificates, v => ∀ t, v = .ok t → Extends s.publicCertificates t
  | _, _ => True

theorem readBetween_exec {b : Configuration} (h : (system P).Reaches c b)
    (h' : (system P).Reaches b c') (i : ℕ) (e : Op) (ch : Choice) :
    ReadBetween c.shared c'.shared e (exec i e ch b.shared).1 := by
  cases e with
  | clock =>
    intro now hnow
    cases ch with
    | ok =>
      obtain rfl := Except.ok.inj hnow
      obtain ⟨evs, hevs⟩ := evolves_of_reaches h
      obtain ⟨evs', hevs'⟩ := evolves_of_reaches h'
      exact ⟨hevs.now_le, hevs'.now_le⟩
    | throws => cases hnow
  | readCertificates =>
    intro t ht
    cases ch with
    | ok =>
      obtain rfl := Except.ok.inj ht
      exact extends_of_reaches h
    | throws => cases ht
  | _ => trivial

/-- `GetCRL` reads the clock and the table once. -/
theorem getCRL_returnsIf (P : Platform) (m : String) (s s' : State) :
    ((system P).handler (.api m .getCRL)).ReturnsIf (ReadBetween s s') fun reply =>
      ∀ crl, reply = .crl crl → ∃ now t, crl = generateCRL P m now t ∧ s.now ≤ now ∧ now ≤ s'.now ∧
        Extends s.publicCertificates t := by
  intro now hnow
  cases now with
  | error fault =>
    intro crl hcrl
    cases hcrl
  | ok now =>
    intro t ht
    cases t with
    | error fault =>
      intro crl hcrl
      cases hcrl
    | ok t =>
      intro crl hcrl
      exact ⟨now, t, (Reply.crl.inj hcrl).symm, (hnow now rfl).1, (hnow now rfl).2, ht t rfl⟩

theorem entryDate_generateCRL {m : String} {now : Time} {t : Table PublicCertificate}
    {p : PublicCertificate} (hp : p ∈ t.rows) (hrev : p.isRevoked = true) :
    EntryDate (generateCRL P m now t) p.serialNr (wholeSeconds now) := by
  constructor
  · exact mem_serialNumbers_generateCRL.2 ⟨p, hp, hrev, rfl⟩
  · intro e he _
    obtain ⟨q, -, rfl⟩ := List.mem_map.1 he
    rfl

/-- A list that is generated after a revocation dates the certificate by itself. -/
theorem datedByList_of_answers (h₀ : s₀.history = []) (h : (system P).Reaches (.initial s₀) c)
    (hrev : RevokedAt c n time) (h' : (system P).Reaches c c') {j : ℕ} {m : String} {crl : X509Crl}
    (hnew : (system P).Unbegun c j (.api m .getCRL)) (hcrl : AnswersCrl c' j m crl) :
    ∃ now, DatedByList crl n now time c'.shared.now := by
  obtain ⟨⟨p, hp, rfl, hrevoked⟩, htime⟩ := revoked_of_revokedAt h₀ h hrev
  obtain ⟨now, t, rfl, hnow, hnow', hextends⟩ :=
    System.returns_between (getCRL_returnsIf P m c.shared c'.shared) h' hnew
      (fun _ hb hb' => readBetween_exec hb hb' j) hcrl crl rfl
  obtain ⟨q, hq, hlater⟩ := hextends p hp
  refine ⟨now, rfl, ?_, htime.trans hnow, hnow'⟩
  rw [← hlater.serialNr]
  exact entryDate_generateCRL hq (hlater.isRevoked hrevoked)

/-- In every run, two lists that are generated after a revocation date the certificate by the second
in which they were generated themselves, and so they give it one date if and only if they were
generated within one second. -/
theorem revocation_dates (P : Platform) {s₀ : State} (h₀ : s₀.history = []) {c c' : Configuration}
    (h : (system P).Reaches (.initial s₀) c) {n : UInt64} {time : Time} (hrev : RevokedAt c n time)
    (h' : (system P).Reaches c c') {j j' : ℕ} {m m' : String} {crl crl' : X509Crl}
    (hnew : (system P).Unbegun c j (.api m .getCRL))
    (hnew' : (system P).Unbegun c j' (.api m' .getCRL)) (hcrl : AnswersCrl c' j m crl)
    (hcrl' : AnswersCrl c' j' m' crl') :
    ∃ now now', DatedByList crl n now time c'.shared.now ∧
      DatedByList crl' n now' time c'.shared.now ∧
        (StableDate crl crl' n time ↔ wholeSeconds now = wholeSeconds now') := by
  obtain ⟨now, hdated⟩ := datedByList_of_answers h₀ h hrev h' hnew hcrl
  obtain ⟨now', hdated'⟩ := datedByList_of_answers h₀ h hrev h' hnew' hcrl'
  exact ⟨now, now', hdated, hdated', stableDate_iff hdated hdated'⟩

section

open Deployment

/-- Two lists are generated, the second after this time. -/
def listTwice (delay : Time) : List (Act Request Choice ℕ) :=
  listOn "aslcert01" ++ .env delay :: .arrive 4 (.api "aslcert01" .getCRL) :: steps 4 2

/-- The certificate with the number 0 was revoked at time 0. -/
def revokedFirst : Event → Bool
  | .certificatesCommitted _ ws time => decide (revocation 0 ∈ ws ∧ time = 0)
  | _ => false

theorem revokedAt_of_revokedFirst (h : c.shared.history.any revokedFirst = true) :
    RevokedAt c 0 0 := by
  obtain ⟨e, he, hcheck⟩ := List.any_eq_true.1 h
  cases e with
  | certificatesCommitted i ws time =>
    obtain ⟨hw, rfl⟩ := of_decide_eq_true hcheck
    exact ⟨i, ws, he, hw⟩
  | _ => cases hcheck

/-- The certificate is issued and revoked at `c`, and then the two lists are generated. -/
structure ListsTwice (c c' : Configuration) (crl crl' : X509Crl) : Prop where
  reaches : (system platform).Reaches (.initial (installed users)) c
  revoked : RevokedAt c 0 0
  later : (system platform).Reaches c c'
  idle : c.procs 3 = none
  idle' : c.procs 4 = none
  answers : AnswersCrl c' 3 "aslcert01" crl
  answers' : AnswersCrl c' 4 "aslcert01" crl'

/-- The two lists are generated after one another, and carry the same time or not. -/
def listsTwice (delay : Time) (same : Bool) : Bool :=
  ((system platform).run (issueThenList ++ revokeIt) (.initial (installed users))).any fun c =>
    c.shared.history.any revokedFirst && (c.procs 3).isNone && (c.procs 4).isNone &&
      ((system platform).run (listTwice delay) c).any fun c' => (crlOf c' 3 "aslcert01").any fun crl =>
        (crlOf c' 4 "aslcert01").any fun crl' => decide (crl.thisUpdate = crl'.thisUpdate) == same

theorem exists_listsTwice (delay : Time) (same : Bool) (h : listsTwice delay same = true) :
    ∃ c c' crl crl', ListsTwice c c' crl crl' ∧ (crl.thisUpdate = crl'.thisUpdate ↔ same) := by
  obtain ⟨c, hc, h⟩ := (Option.any_eq_true _ _).1 h
  simp only [Bool.and_eq_true, Option.isNone_iff_eq_none] at h
  obtain ⟨⟨⟨hrevoked, hidle⟩, hidle'⟩, h⟩ := h
  obtain ⟨c', hc', h⟩ := (Option.any_eq_true _ _).1 h
  obtain ⟨crl, hcrl, h⟩ := (Option.any_eq_true _ _).1 h
  obtain ⟨crl', hcrl', hsame⟩ := (Option.any_eq_true _ _).1 h
  refine ⟨c, c', crl, crl', ⟨System.reaches_of_run hc, revokedAt_of_revokedFirst hrevoked,
    System.reaches_of_run hc', hidle, hidle', answersCrl_of_crlOf hcrl,
    answersCrl_of_crlOf hcrl'⟩, ?_⟩
  rw [← beq_iff_eq.1 hsame, decide_eq_true_eq]

/-- Two lists that are generated half a second apart, within one second. -/
theorem revocation_dates_twice : ∃ c c' crl crl', ListsTwice c c' crl crl' ∧
    StableDate crl crl' 0 0 := by
  obtain ⟨c, c', crl, crl', h, hsame⟩ :=
    exists_listsTwice (ticksPerSecond / 2) true (by decide +kernel)
  obtain ⟨now, now', hdated, hdated', hstable⟩ := revocation_dates platform rfl h.reaches h.revoked
    h.later (Or.inl h.idle) (Or.inl h.idle') h.answers h.answers'
  refine ⟨c, c', crl, crl', h, hstable.2 ?_⟩
  rw [← hdated.thisUpdate, ← hdated'.thisUpdate, hsame]

/-- A list that is generated a minute after the other moves the revocation to its own time. -/
theorem revocation_date_moves : ¬ ∀ (P : Platform) (s₀ : State) (c c' : Configuration) (n : UInt64)
    (time : Time) (j j' : ℕ) (m m' : String) (crl crl' : X509Crl), s₀.history = [] →
    (system P).Reaches (.initial s₀) c → RevokedAt c n time → (system P).Reaches c c' →
    (system P).Unbegun c j (.api m .getCRL) → (system P).Unbegun c j' (.api m' .getCRL) →
    AnswersCrl c' j m crl → AnswersCrl c' j' m' crl' → crl.thisUpdate ≠ crl'.thisUpdate →
      StableDate crl crl' n time := by
  intro hclaim
  obtain ⟨c, c', crl, crl', h, hsame⟩ :=
    exists_listsTwice (addMinutes 0 1) false (by decide +kernel)
  have hne : crl.thisUpdate ≠ crl'.thisUpdate := fun heq => by
    cases hsame.1 heq
  have hstable := hclaim platform _ c c' 0 0 3 4 _ _ crl crl' rfl h.reaches h.revoked h.later
    (Or.inl h.idle) (Or.inl h.idle') h.answers h.answers' hne
  obtain ⟨now, hdated⟩ := datedByList_of_answers rfl h.reaches h.revoked h.later (Or.inl h.idle)
    h.answers
  obtain ⟨now', hdated'⟩ := datedByList_of_answers rfl h.reaches h.revoked h.later (Or.inl h.idle')
    h.answers'
  refine hne ?_
  rw [hdated.thisUpdate, hdated'.thisUpdate]
  exact (stableDate_iff hdated hdated').1 hstable

end

end IMoviesCA
