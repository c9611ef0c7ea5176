import Mathlib.Data.Set.List
import IMoviesCA.Alone
import IMoviesCA.Ledger
import IMoviesCA.Deployment

/-!
# Revocations are complete

`RevokeAllCertificatesOfUser` skips the certificates that have expired, and `FetchCertificatesData`
of the web server lists those that have not, each by its own reading of the clock.  A revocation
revokes every certificate that it read and that expires after its commit, and changes no other row
(`RevokedAll`).  No certificate that it read is listed as valid afterwards, and another revocation
changes none of them, at any later time.  So does every transaction on the table: also an issuance, and
a request that the web server sends (`revocation_complete`).
-/

namespace IMoviesCA

open CADBModifier

/-! ## The loop -/

/-- The loop has chosen `revoked` among the rows `ps`: none of them had expired at `since`, and the
others had by `time`. -/
structure Chooses (ps : List PublicCertificate) (revoked : List UInt64) (since time : Time) :
    Prop where
  sound : ∀ n ∈ revoked, ∃ p ∈ ps, since ≤ p.parse.notAfter ∧ p.serialNr = n
  complete : ∀ p ∈ ps, p.serialNr ∈ revoked ∨ p.parse.notAfter < time

namespace Chooses

variable {ps : List PublicCertificate} {p : PublicCertificate} {revoked : List UInt64}
  {since time time' : Time}

theorem nil (since time : Time) : Chooses [] [] since time := by
  constructor
  · intro n hn
    cases hn
  · intro p hp
    cases hp

theorem later (h : Chooses ps revoked since time) (hle : time ≤ time') :
    Chooses ps revoked since time' :=
  ⟨h.sound, fun p hp => (h.complete p hp).imp_right fun hlt => lt_of_lt_of_le hlt hle⟩

theorem skip (h : Chooses ps revoked since time) (hexpired : p.parse.notAfter < time) :
    Chooses (ps ++ [p]) revoked since time := by
  constructor
  · intro n hn
    obtain ⟨q, hq, hsince, hserial⟩ := h.sound n hn
    exact ⟨q, List.mem_append_left _ hq, hsince, hserial⟩
  · intro q hq
    rcases List.mem_append.1 hq with hq | hq
    · exact h.complete q hq
    · obtain rfl := List.mem_singleton.1 hq
      exact Or.inr hexpired

theorem revoke (h : Chooses ps revoked since time) (hsince : since ≤ p.parse.notAfter) :
    Chooses (ps ++ [p]) (revoked ++ [p.serialNr]) since time := by
  constructor
  · intro n hn
    rcases List.mem_append.1 hn with hn | hn
    · obtain ⟨q, hq, hq', hserial⟩ := h.sound n hn
      exact ⟨q, List.mem_append_left _ hq, hq', hserial⟩
    · exact ⟨p, List.mem_append_right _ (List.mem_singleton.2 rfl), hsince,
        (List.mem_singleton.1 hn).symm⟩
  · intro q hq
    rcases List.mem_append.1 hq with hq | hq
    · exact (h.complete q hq).imp_left fun hmem => List.mem_append_left _ hmem
    · obtain rfl := List.mem_singleton.1 hq
      exact Or.inl (List.mem_append_right _ (List.mem_singleton.2 rfl))

end Chooses

/-! ## The table after a revocation -/

/-- What a transaction that revokes the certificates of a user, and read the table `t₀` at `since`,
has done to the rows of the table `t` when it commits `t'` at `time`. -/
structure RevokedRows (uid : String) (t₀ : Table PublicCertificate) (since : Time)
    (t t' : Table PublicCertificate) (time : Time) : Prop where
  revoked : ∀ p ∈ t₀.rows, p.uid = uid → time ≤ p.parse.notAfter →
    ∃ q ∈ t'.rows, Later p q ∧ q.isRevoked = true
  expired : ∀ q ∈ t.rows, q.uid = uid → q.parse.notAfter < since → q ∈ t'.rows
  others : ∀ q ∈ t.rows, q.uid ≠ uid → q ∈ t'.rows

/-- A revocation of the certificates of a user, which read the table `t₀` at `since`, has changed
the table `t` into `t'` at `time`. -/
structure RevokedAll (uid : String) (t₀ : Table PublicCertificate) (since : Time)
    (t t' : Table PublicCertificate) (time : Time) : Prop
    extends RevokedRows uid t₀ since t t' time where
  keys : t'.keys = t.keys

variable {uid : String} {t₀ t t' : Table PublicCertificate} {revoked : List UInt64}
  {since time : Time}

theorem revocations_map (revoked : List UInt64) : Revocations (revoked.map revocation) := by
  intro w hw
  obtain ⟨n, -, rfl⟩ := List.mem_map.1 hw
  exact ⟨n, rfl⟩

theorem revocation_mem_map {n : UInt64} : revocation n ∈ revoked.map revocation ↔ n ∈ revoked := by
  constructor
  · intro h
    obtain ⟨m, hm, heq⟩ := List.mem_map.1 h
    exact (Write.update.inj heq).1 ▸ hm
  · exact List.mem_map_of_mem

theorem mem_unrevokedCertificates {p : PublicCertificate} :
    p ∈ unrevokedCertificates uid t ↔ p ∈ t.rows ∧ p.uid = uid ∧ p.isRevoked = false := by
  simp [unrevokedCertificates]

/-- The rows that the loop has chosen can be revoked. -/
theorem exists_commit_chosen (h : Chooses (unrevokedCertificates uid t₀) revoked since time) :
    ∃ t, t₀.commit (revoked.map revocation) = some t := by
  apply Table.exists_commit_updates
  intro w hw
  obtain ⟨n, hn, rfl⟩ := List.mem_map.1 hw
  obtain ⟨p, hp, -, rfl⟩ := h.sound n hn
  exact ⟨_, _, rfl, Table.key_mem_keys (mem_unrevokedCertificates.1 hp).1⟩

/-- The writes of a transaction that revoke are those of the rows that the loop has chosen. -/
def RevokesChosen (ws : List CertificateWrite) (revoked : List UInt64) : Prop :=
  ∀ n, revocation n ∈ ws ↔ n ∈ revoked

/-- A row that the loop has not chosen stays as it is. -/
theorem mem_of_not_chosen {ws : List CertificateWrite} (hws : RevokesChosen ws revoked)
    (h : t.commit ws = some t') {q : PublicCertificate} (hq : q ∈ t.rows)
    (hnot : q.serialNr ∉ revoked) : q ∈ t'.rows := by
  refine (Table.mem_of_commit h).2 (Or.inl ⟨q, hq, ?_⟩)
  rw [patched_certificate, if_neg fun hin => hnot ((hws _).1 hin)]

/-- The rows that the loop has chosen are unrevoked certificates of the user. -/
theorem chosen_spec (hchosen : Chooses (unrevokedCertificates uid t₀) revoked since time)
    (hextends : Extends t₀ t) {q : PublicCertificate} (hq : q ∈ t.rows)
    (hin : q.serialNr ∈ revoked) : q.uid = uid ∧ since ≤ q.parse.notAfter ∧
      ∃ p ∈ t₀.rows, Later p q ∧ p.isRevoked = false := by
  obtain ⟨p, hp, hsince, hserial⟩ := hchosen.sound _ hin
  obtain ⟨hmem, huid, hrev⟩ := mem_unrevokedCertificates.1 hp
  obtain ⟨q', hq', hlater⟩ := hextends p hmem
  obtain rfl : q' = q := Table.eq_of_key_eq hq' hq (hlater.serialNr.trans hserial)
  refine ⟨hlater.uid.trans huid, ?_, p, hmem, hlater, hrev⟩
  rw [PublicCertificate.parse, hlater.certificate]
  exact hsince

theorem revokedRows_of_commit {ws : List CertificateWrite}
    (hchosen : Chooses (unrevokedCertificates uid t₀) revoked since time) (hextends : Extends t₀ t)
    (hws : RevokesChosen ws revoked) (h : t.commit ws = some t') :
    RevokedRows uid t₀ since t t' time := by
  constructor
  · intro p hp huid htime
    obtain ⟨r, hr, hlater⟩ := hextends p hp
    have hpatched := later_patched ws r
    refine ⟨_, (Table.mem_of_commit h).2 (Or.inl ⟨r, hr, rfl⟩), hlater.trans hpatched, ?_⟩
    cases hrev : p.isRevoked with
    | true => exact hpatched.isRevoked (hlater.isRevoked hrev)
    | false =>
      have hmem := mem_unrevokedCertificates.2 ⟨hp, huid, hrev⟩
      have hin := (hchosen.complete p hmem).resolve_right (Nat.not_lt.2 htime)
      rw [patched_certificate, if_pos ((hws _).2 (hlater.serialNr ▸ hin))]
  · intro q hq _ hlt
    apply mem_of_not_chosen hws h hq
    intro hin
    exact absurd (chosen_spec hchosen hextends hq hin).2.1 (Nat.not_le.2 hlt)
  · intro q hq huid
    apply mem_of_not_chosen hws h hq
    intro hin
    exact huid (chosen_spec hchosen hextends hq hin).1

theorem revokedAll_of_commit (hchosen : Chooses (unrevokedCertificates uid t₀) revoked since time)
    (hextends : Extends t₀ t) (h : t.commit (revoked.map revocation) = some t') :
    RevokedAll uid t₀ since t t' time where
  toRevokedRows := revokedRows_of_commit hchosen hextends (fun _ => revocation_mem_map) h
  keys := keys_of_revocations (revocations_map revoked) h

/-! ## Later on -/

/-- The certificates of the user with these numbers are revoked or have expired. -/
def NoneLive (uid : String) (keys : List UInt64) (time : Time) (t : Table PublicCertificate) : Prop :=
  ∀ q ∈ t.rows, q.uid = uid → q.serialNr ∈ keys → q.isRevoked = true ∨ q.parse.notAfter < time

theorem exists_later_of_mem_keys (hextends : Extends t t') {q : PublicCertificate}
    (hq : q ∈ t'.rows) (hkey : q.serialNr ∈ t.keys) : ∃ p ∈ t.rows, Later p q := by
  obtain ⟨p, hp, hserial⟩ := Table.mem_keys.1 hkey
  obtain ⟨q', hq', hlater⟩ := hextends p hp
  obtain rfl : q' = q := Table.eq_of_key_eq hq' hq (hlater.serialNr.trans hserial)
  exact ⟨p, hp, hlater⟩

theorem RevokedRows.noneLive (h : RevokedRows uid t₀ since t t' time) (hextends : Extends t₀ t') :
    NoneLive uid t₀.keys time t' := by
  intro q hq huid hkey
  obtain ⟨p, hp, hlater⟩ := exists_later_of_mem_keys hextends hq hkey
  rcases Nat.lt_or_ge p.parse.notAfter time with hlt | hge
  · right
    rw [PublicCertificate.parse, hlater.certificate]
    exact hlt
  · left
    obtain ⟨q', hq', hlater', hrev⟩ := h.revoked p hp (hlater.uid.symm.trans huid) hge
    obtain rfl : q' = q :=
      Table.eq_of_key_eq hq' hq (hlater'.serialNr.trans hlater.serialNr.symm)
    exact hrev

theorem NoneLive.later {keys : List UInt64} (h : NoneLive uid keys time t) (hkeys : keys ⊆ t.keys)
    (hextends : Extends t t') : NoneLive uid keys time t' := by
  intro q hq huid hkey
  obtain ⟨p, hp, hlater⟩ := exists_later_of_mem_keys hextends hq (hkeys hkey)
  have hcert : q.parse = p.parse := hlater.certificate
  rw [hcert]
  exact (h p hp (hlater.uid.symm.trans huid) (hlater.serialNr ▸ hkey)).imp_left hlater.isRevoked

/-- A later revocation chooses none of them. -/
theorem NoneLive.not_chosen {keys : List UInt64} {time' : Time} (h : NoneLive uid keys time t₀)
    (hextends : Extends t₀ t) (hle : time ≤ since)
    (hchosen : Chooses (unrevokedCertificates uid t₀) revoked since time') {q : PublicCertificate}
    (hq : q ∈ t.rows) (hkey : q.serialNr ∈ keys) : q.serialNr ∉ revoked := by
  intro hin
  obtain ⟨huid, hsince, p, hp, hlater, hrev⟩ := chosen_spec hchosen hextends hq hin
  rcases h p hp (hlater.uid.symm.trans huid) (hlater.serialNr ▸ hkey) with hrev' | hlt
  · rw [hrev] at hrev'
    cases hrev'
  · rw [PublicCertificate.parse, hlater.certificate] at hsince
    exact absurd hlt (Nat.not_lt.2 (hle.trans hsince))

/-! ## Alone -/

section Alone

variable {i : ℕ} {sched : ℕ → ℕ × Choice} {s s' : State}

theorem tick_tick (d d' : ℕ) (s : State) : tick d' (tick d s) = tick (d + d') s := by
  simp [tick, Nat.add_assoc]

theorem of_alone_clock {now : Time} (h : machine.alone i clock.run sched s = (.ok now, s')) :
    s' = tick (sched 0).1 s ∧ now = s'.now := by
  obtain ⟨hnow, rfl⟩ := Prod.mk.inj (of_alone_call (fun _ => rfl) h)
  exact ⟨rfl, (Except.ok.inj hnow).symm⟩

theorem of_alone_readCertificates
    (h : machine.alone i readCertificates.run sched s = (.ok t, s')) :
    t = s.publicCertificates ∧ s'.publicCertificates = s.publicCertificates ∧ s.now ≤ s'.now := by
  obtain ⟨ht, rfl⟩ := Prod.mk.inj (of_alone_call (fun _ => rfl) h)
  exact ⟨(Except.ok.inj ht).symm, rfl, Nat.le_add_right _ _⟩

theorem chooses_of_alone {rest : List PublicCertificate} :
    ∀ {done : List PublicCertificate} {revoked revoked' : List UInt64} {sched : ℕ → ℕ × Choice}
      {s s' : State}, Chooses done revoked since s.now → since ≤ s.now →
      machine.alone i (revokeLoop rest revoked).run sched s = (.ok revoked', s') →
      Chooses (done ++ rest) revoked' since s'.now ∧ ∃ d, s' = tick d s := by
  induction rest with
  | nil =>
    intro done revoked revoked' sched s s' hchosen _ h
    obtain ⟨hrevoked, rfl⟩ := Prod.mk.inj h
    obtain rfl := Except.ok.inj hrevoked
    rw [List.append_nil]
    exact ⟨hchosen, 0, rfl⟩
  | cons p rest ih =>
    intro done revoked revoked' sched s s' hchosen hsince h
    obtain ⟨now, s₁, n, hclock, hrest⟩ := of_alone_bind h
    obtain ⟨rfl, rfl⟩ := of_alone_clock hclock
    have hle : s.now ≤ (tick (sched 0).1 s).now := Nat.le_add_right _ _
    have hlater := hchosen.later hle
    rw [List.append_cons]
    split_ifs at hrest with hexpired
    · obtain ⟨hall, d, rfl⟩ := ih (hlater.skip hexpired) (hsince.trans hle) hrest
      exact ⟨hall, _, tick_tick _ _ _⟩
    · have hvalid := hsince.trans (hle.trans (Nat.le_of_not_gt hexpired))
      obtain ⟨hall, d, rfl⟩ := ih (hlater.revoke hvalid) (hsince.trans hle) hrest
      exact ⟨hall, _, tick_tick _ _ _⟩

/-- What a revocation that ran alone has chosen and committed. -/
theorem chooses_of_revokeAll {user : User} {ws : List CertificateWrite}
    (h : machine.alone i (revokeAllCertificatesOfUser user .autocommit).run sched s = (.ok ws, s')) :
    ∃ revoked, Chooses (unrevokedCertificates user.id s.publicCertificates) revoked s.now s'.now ∧
      s.publicCertificates.commit (revoked.map revocation) = some s'.publicCertificates := by
  obtain ⟨t, s₁, n₁, hread, h⟩ := of_alone_bind h
  obtain ⟨rfl, htable, hnow⟩ := of_alone_readCertificates hread
  obtain ⟨revoked, s₂, n₂, hloop, h⟩ := of_alone_bind h
  obtain ⟨hchosen, d, rfl⟩ := chooses_of_alone (.nil s.now s₁.now) hnow hloop
  obtain ⟨u, s₃, n₃, hsave, h⟩ := of_alone_bind h
  obtain ⟨-, rfl⟩ := Prod.mk.inj h
  have hcommit := of_alone_call (fun _ => rfl) hsave
  simp only [Op.run] at hcommit
  split at hcommit
  · rename_i t' ht'
    obtain ⟨-, rfl⟩ := Prod.mk.inj hcommit
    refine ⟨revoked, hchosen.later (Nat.le_add_right _ _), ?_⟩
    have hsame : (tick ((fun k => sched (k + n₁)) (0 + n₂)).1 (tick d s₁)).publicCertificates =
        s.publicCertificates := htable
    rw [hsame] at ht'
    exact ht'
  · cases hcommit

theorem exists_alone_revokeLoop (rest : List PublicCertificate) :
    ∀ (revoked : List UInt64) (sched : ℕ → ℕ × Choice) (s : State), (∀ n, (sched n).2 = .ok) →
      ∃ revoked' s', machine.alone i (revokeLoop rest revoked).run sched s = (.ok revoked', s') := by
  induction rest with
  | nil => exact fun revoked sched s _ => ⟨revoked, s, rfl⟩
  | cons p rest ih =>
    intro revoked sched s hok
    have hclock := alone_call (i := i) (e := .clock) (s := s)
      (f := fun now : Time => if now > p.parse.notAfter then revokeLoop rest revoked
        else revokeLoop rest (revoked ++ [p.serialNr])) (hok 0) rfl
    show ∃ revoked' s', machine.alone i (call .clock >>= _).run sched s = _
    rw [hclock]
    split_ifs
    · exact ih _ _ _ fun n => hok (n + 1)
    · exact ih _ _ _ fun n => hok (n + 1)

/-- When no operation fails, a revocation is carried out. -/
theorem exists_alone_revokeAll (user : User) (s : State) (hok : ∀ n, (sched n).2 = .ok) :
    ∃ ws s', machine.alone i (revokeAllCertificatesOfUser user .autocommit).run sched s =
      (.ok ws, s') := by
  let s₁ := (Op.run i .readCertificates (tick (sched 0).1 s)).2
  obtain ⟨revoked, s₂, hloop⟩ := exists_alone_revokeLoop (i := i)
    (unrevokedCertificates user.id s.publicCertificates) [] (fun n => sched (n + 1)) s₁
    fun n => hok (n + 1)
  obtain ⟨hchosen, d, rfl⟩ := chooses_of_alone (.nil s₁.now s₁.now) le_rfl hloop
  obtain ⟨n, hn⟩ := alone_bind_of_ok (f := fun revoked : List UInt64 => do
    saveChanges (revoked.map revocation) .autocommit
    return revoked.map revocation) hloop
  have hread := alone_call (i := i) (e := .readCertificates) (s := s)
    (f := fun t : Table PublicCertificate => do
      let revoked ← revokeLoop (unrevokedCertificates user.id t) []
      saveChanges (revoked.map revocation) .autocommit
      return revoked.map revocation) (hok 0) rfl
  obtain ⟨t, ht⟩ := exists_commit_chosen hchosen
  have ht' : (tick (sched (0 + n + 1)).1 (tick d s₁)).publicCertificates.commit
      (revoked.map revocation) = some t := ht
  have hcommit := congrArg Prod.fst (Op.run_commitCertificates (i := i) ht')
  have hrest (k : ℕ) : ((fun k => sched (k + n + 1)) k).2 = .ok := hok _
  exact ⟨_, _, (hread.trans hn).trans (alone_call (hrest 0) hcommit)⟩

/-- The page lists certificates of the user that are neither revoked nor past the time at which it
was requested. -/
theorem valid_of_alone (P : Platform) {rest : List PublicCertificate} :
    ∀ {valid valid' : List Certificate} {sched : ℕ → ℕ × Choice} {s s' : State},
      machine.alone i (CertController.validLoop P rest valid).run sched s = (.ok valid', s') →
      ∃ ps : List PublicCertificate, valid' = valid ++ ps.map (.ofPublicCertificate P) ∧
        ∀ p ∈ ps, p ∈ rest ∧ p.isRevoked = false ∧ s.now ≤ p.parse.notAfter := by
  induction rest with
  | nil =>
    intro valid valid' sched s s' h
    obtain ⟨hvalid, -⟩ := Prod.mk.inj h
    obtain rfl := Except.ok.inj hvalid
    exact ⟨[], by simp, by simp⟩
  | cons p rest ih =>
    intro valid valid' sched s s' h
    have hcons : ∀ {s₁ : State}, s.now ≤ s₁.now → (∀ ps : List PublicCertificate,
        (∀ q ∈ ps, q ∈ rest ∧ q.isRevoked = false ∧ s₁.now ≤ q.parse.notAfter) →
        ∀ q ∈ ps, q ∈ p :: rest ∧ q.isRevoked = false ∧ s.now ≤ q.parse.notAfter) := by
      intro s₁ hle ps hps q hq
      obtain ⟨hmem, hrev, hafter⟩ := hps q hq
      exact ⟨List.mem_cons_of_mem _ hmem, hrev, hle.trans hafter⟩
    obtain ⟨now, s₁, n, hclock, h⟩ := of_alone_bind h
    obtain ⟨rfl, rfl⟩ := of_alone_clock hclock
    have hle : s.now ≤ (tick (sched 0).1 s).now := Nat.le_add_right _ _
    split_ifs at h
    · obtain ⟨now, s₂, n', hclock', h⟩ := of_alone_bind h
      obtain ⟨rfl, rfl⟩ := of_alone_clock hclock'
      have hle' := hle.trans (Nat.le_add_right _ ((fun k => sched (k + n)) 0).1)
      split_ifs at h with hvalid
      · obtain ⟨ps, rfl, hps⟩ := ih h
        refine ⟨p :: ps, by simp, ?_⟩
        intro q hq
        rcases List.mem_cons.1 hq with rfl | hq
        · exact ⟨List.mem_cons_self, hvalid.2, hle'.trans hvalid.1⟩
        · exact hcons hle' ps hps q hq
      · obtain ⟨ps, rfl, hps⟩ := ih h
        exact ⟨ps, rfl, hcons hle' ps hps⟩
    · obtain ⟨ps, rfl, hps⟩ := ih h
      exact ⟨ps, rfl, hcons hle ps hps⟩

theorem valid_of_fetch {P : Platform} {data : CertificatesData}
    (h : machine.alone i (CertController.fetchCertificatesData P uid).run sched s =
      (.ok data, s')) :
    ∃ ps : List PublicCertificate, data.valid = ps.map (.ofPublicCertificate P) ∧
        ∀ p ∈ ps, p ∈ s.publicCertificates.rows ∧ p.uid = uid ∧ p.isRevoked = false ∧
          s.now ≤ p.parse.notAfter := by
  obtain ⟨t, s₁, n₁, hread, h⟩ := of_alone_bind h
  obtain ⟨rfl, -, hnow⟩ := of_alone_readCertificates hread
  obtain ⟨valid, s₂, n₂, hloop, h⟩ := of_alone_bind h
  obtain ⟨t₂, s₃, n₃, -, h⟩ := of_alone_bind h
  obtain ⟨t₃, s₄, n₄, -, h⟩ := of_alone_bind h
  obtain ⟨expired, s₅, n₅, -, h⟩ := of_alone_bind h
  obtain ⟨hdata, -⟩ := Prod.mk.inj h
  obtain rfl := Except.ok.inj hdata
  obtain ⟨ps, hvalid, hps⟩ := valid_of_alone P hloop
  refine ⟨ps, hvalid, ?_⟩
  intro p hp
  obtain ⟨hmem, hrev, hafter⟩ := hps p hp
  obtain ⟨hrow, huid⟩ := List.mem_filter.1 hmem
  exact ⟨hrow, by simpa using huid, hrev, hnow.trans hafter⟩

end Alone

/-- No certificate of the user has been issued since the table was `t₀`. -/
def NotIssued (uid : String) (t₀ t : Table PublicCertificate) : Prop :=
  ∀ q ∈ t.rows, q.uid = uid → q.serialNr ∈ t₀.keys

/-- In every state after `s`, the certificates of the user that were in the table `t₀` are not listed
as valid, and another revocation leaves them as they are; without a new certificate the list is
empty, and the revocation changes nothing. -/
structure Settled (P : Platform) (uid : String) (t₀ : Table PublicCertificate) (s : State) : Prop where
  valid : ∀ {evs s₁}, Evolves evs s s₁ → ∀ {i sched data s₂},
    machine.alone i (CertController.fetchCertificatesData P uid).run sched s₁ = (.ok data, s₂) →
    (∃ ps : List PublicCertificate, data.valid = ps.map (.ofPublicCertificate P) ∧
      ∀ p ∈ ps, p ∈ s₁.publicCertificates.rows ∧ p.uid = uid ∧ p.serialNr ∉ t₀.keys) ∧
    (NotIssued uid t₀ s₁.publicCertificates → data.valid = [])
  again : ∀ {evs s₁}, Evolves evs s s₁ → ∀ {user : User} {i sched ws s₂}, user.id = uid →
    machine.alone i (revokeAllCertificatesOfUser user .autocommit).run sched s₁ = (.ok ws, s₂) →
    (∀ q ∈ s₁.publicCertificates.rows, q.serialNr ∈ t₀.keys → q ∈ s₂.publicCertificates.rows) ∧
    (NotIssued uid t₀ s₁.publicCertificates → s₂.publicCertificates = s₁.publicCertificates)

theorem keys_subset_of_extends (h : Extends t t') : t.keys ⊆ t'.keys := by
  intro k hk
  obtain ⟨p, hp, rfl⟩ := Table.mem_keys.1 hk
  obtain ⟨q, hq, hlater⟩ := h p hp
  exact Table.mem_keys.2 ⟨q, hq, hlater.serialNr⟩

theorem settled_of_noneLive (P : Platform) {s : State}
    (h : NoneLive uid t₀.keys time s.publicCertificates)
    (hextends : Extends t₀ s.publicCertificates) (htime : time ≤ s.now) : Settled P uid t₀ s := by
  have hlater : ∀ {evs s₁}, Evolves evs s s₁ →
      NoneLive uid t₀.keys time s₁.publicCertificates ∧ time ≤ s₁.now := by
    intro evs s₁ hevs
    exact ⟨h.later (keys_subset_of_extends hextends) hevs.extends, htime.trans hevs.now_le⟩
  constructor
  · intro evs s₁ hevs i sched data s₂ hfetch
    obtain ⟨hnone, hle⟩ := hlater hevs
    obtain ⟨ps, hvalid, hps⟩ := valid_of_fetch hfetch
    have hnew : ∀ p ∈ ps,
        p ∈ s₁.publicCertificates.rows ∧ p.uid = uid ∧ p.serialNr ∉ t₀.keys := by
      intro p hp
      obtain ⟨hrow, huid, hrev, hafter⟩ := hps p hp
      refine ⟨hrow, huid, fun hkey => ?_⟩
      rcases hnone p hrow huid hkey with hrev' | hlt
      · rw [hrev] at hrev'
        cases hrev'
      · exact absurd hlt (Nat.not_lt.2 (hle.trans hafter))
    refine ⟨⟨ps, hvalid, hnew⟩, fun hissued => ?_⟩
    have hnil : ps = [] := List.eq_nil_iff_forall_not_mem.2 fun p hp =>
      (hnew p hp).2.2 (hissued p (hnew p hp).1 (hnew p hp).2.1)
    rw [hvalid, hnil]
    rfl
  · intro evs s₁ hevs user i sched ws s₂ huid hrevoke
    subst huid
    obtain ⟨hnone, hle⟩ := hlater hevs
    obtain ⟨revoked, hchosen, hcommit⟩ := chooses_of_revokeAll hrevoke
    have hnot : ∀ q ∈ s₁.publicCertificates.rows, q.serialNr ∈ t₀.keys → q.serialNr ∉ revoked :=
      fun q hq => hnone.not_chosen (Extends.refl _) hle hchosen hq
    refine ⟨fun q hq hkey =>
      mem_of_not_chosen (fun _ => revocation_mem_map) hcommit hq (hnot q hq hkey), fun hissued => ?_⟩
    have hnil : revoked = [] := by
      apply List.eq_nil_iff_forall_not_mem.2
      intro n hn
      obtain ⟨p, hp, -, rfl⟩ := hchosen.sound n hn
      obtain ⟨hmem, huid, -⟩ := mem_unrevokedCertificates.1 hp
      exact hnot p hmem (hissued p hmem huid) hn
    rw [hnil] at hcommit
    exact (Option.some.inj hcommit).symm

/-! ## The stages of the request -/

namespace RevokeController

/-- The loop, and then the commit of the revocations. -/
def looping : List PublicCertificate → List UInt64 → Program Op Op.Res Reply
  | [], revoked =>
      orServerError (.commitCertificates (revoked.map revocation)) fun _ => .done .noContent
  | pubCert :: rest, revoked => orServerError .clock fun (now : Time) =>
      if now > pubCert.parse.notAfter then looping rest revoked
      else looping rest (revoked ++ [pubCert.serialNr])

/-- The user was found. -/
def reading (user : User) : Program Op Op.Res Reply :=
  orServerError .readCertificates fun t => looping (unrevokedCertificates user.id t) []

/-- The row of the user was read. -/
def found : Option User → Program Op Op.Res Reply
  | some user => reading user
  | none => .done (.badRequest none)

/-- The request, from its first access on. -/
def finding (r : RevokeRequest) : Program Op Op.Res Reply := orServerError (.findUser r.uid) found

theorem answer_revokeLoop {f : List UInt64 → Action Reply}
    (hf : ∀ revoked, answer (f revoked) = looping [] revoked) (rest : List PublicCertificate)
    (revoked : List UInt64) : answer (revokeLoop rest revoked >>= f) = looping rest revoked := by
  induction rest generalizing revoked with
  | nil => exact hf revoked
  | cons p rest ih =>
    refine answer_call_bind_eq fun now => ?_
    split_ifs
    · exact ih revoked
    · exact ih _

theorem answer_revokeCertificate (r : RevokeRequest) :
    answer (revokeCertificate r) = finding r := by
  refine answer_call_eq fun user => ?_
  cases user with
  | none => rfl
  | some user =>
    refine answer_call_bind_eq fun t => ?_
    show answer ((revokeLoop _ _ >>= _) >>= _) = _
    rw [LawfulMonad.bind_assoc]
    exact answer_revokeLoop (fun _ => answer_call_bind _ _ _) _ _

theorem answer_api (P : Platform) (machineName : String) (r : RevokeRequest) :
    answer (api P machineName (.revoke r)) =
      if r.isValid then finding r else .done (.badRequest none) := by
  show answer (apiController r.isValid (revokeCertificate r)) = _
  unfold apiController
  split_ifs
  · exact answer_revokeCertificate r
  · rfl

/-- The programs of a request. -/
inductive Stage (uid : String) : Program Op Op.Res Reply → Prop
  | finding : Stage uid (finding ⟨uid⟩)
  | reading {user : User} (h : user.id = uid) : Stage uid (reading user)
  | looping (rest : List PublicCertificate) (revoked : List UInt64) :
      Stage uid (looping rest revoked)
  | ended (reply : Reply) : Stage uid (.done reply)

theorem stage_start (P : Platform) (machineName uid : String) :
    Stage uid (answer (api P machineName (.revoke ⟨uid⟩))) := by
  rw [answer_api]
  split_ifs
  · exact .finding
  · exact .ended _

/-- An operation of a request goes on with a value, or ends the request. -/
theorem stage_orServerError {uid : String} {e : Op} {k : e.Val → Program Op Op.Res Reply} {i : ℕ}
    {ch : Choice} {s : State} (he : e.Throws) (h : ∀ v s', e.run i s = (.ok v, s') → Stage uid (k v)) :
    ∀ {e' k'}, orServerError e k = .op e' k' → Stage uid (k' (exec i e' ch s).1) := by
  rintro e' k' hop
  obtain ⟨rfl, hk⟩ := Program.op.inj hop
  obtain rfl := eq_of_heq hk
  cases ch with
  | throws written =>
    rw [exec, he written]
    exact .ended _
  | ok =>
    cases hx : e.run i s with
    | mk x s' =>
      have hexec : exec i e .ok s = (x, s') := hx
      rw [hexec]
      cases x with
      | ok v => exact h v s' hx
      | error f => exact .ended _

theorem stage_op {uid : String} {e : Op} {k : e.Res → Program Op Op.Res Reply} {i : ℕ}
    {ch : Choice} {s : State} (h : Stage uid (.op e k)) : Stage uid (k (exec i e ch s).1) := by
  generalize hp : Program.op e k = p at h
  cases h with
  | finding =>
    refine stage_orServerError (fun _ => rfl) ?_ hp.symm
    intro user s' hrun
    obtain ⟨huser, -⟩ := Prod.mk.inj hrun
    cases user with
    | none => exact .ended _
    | some user => exact .reading (Table.find?_eq_some_iff.1 (Except.ok.inj huser)).2
  | reading => exact stage_orServerError (fun _ => rfl) (fun t _ _ => .looping _ _) hp.symm
  | looping rest revoked =>
    cases rest with
    | nil => exact stage_orServerError (fun _ => rfl) (fun _ _ _ => .ended _) hp.symm
    | cons p rest =>
      have hnext (now : Time) : Stage uid (if now > p.parse.notAfter then looping rest revoked
          else looping rest (revoked ++ [p.serialNr])) := by
        split_ifs
        · exact .looping _ _
        · exact .looping _ _
      exact stage_orServerError (e := .clock) (fun _ => rfl) (fun now _ _ => hnext now) hp.symm
  | ended => cases hp

end RevokeController

open RevokeController

/-! ## Runs -/

variable {P : Platform} {s₀ : State} {i : ℕ} {b b₁ c c' : Configuration}

/-- Process `i` carries out a revocation of the certificates of a user: it reads the table in `b`,
and its commit leads from `c` to `c'`. -/
structure Revocation (P : Platform) (i : ℕ) (uid : String) (b c c' : Configuration) : Prop where
  read : ∃ machineName k ch b₁, b.procs i = some (.api machineName (.revoke ⟨uid⟩),
    .op .readCertificates k) ∧ (system P).step (.step i ch) b = some b₁ ∧ (system P).Reaches b₁ c
  commit : ∃ ch, (system P).step (.step i ch) c = some c'
  answered : ∃ machineName, c'.procs i = some (.api machineName (.revoke ⟨uid⟩), .done .noContent)

/-- What the process has done since it read the table `t₀`, at `since`. -/
inductive Loops (uid : String) (t₀ : Table PublicCertificate) (since time : Time) :
    Program Op Op.Res Reply → Prop
  | looping {done rest : List PublicCertificate} {revoked : List UInt64}
      (hrows : unrevokedCertificates uid t₀ = done ++ rest)
      (h : Chooses done revoked since time) : Loops uid t₀ since time (looping rest revoked)
  | ended (reply : Reply) : Loops uid t₀ since time (.done reply)

theorem Loops.later {p : Program Op Op.Res Reply} {time' : Time} (h : Loops uid t₀ since time p)
    (hle : time ≤ time') : Loops uid t₀ since time' p := by
  cases h with
  | looping hrows h => exact .looping hrows (h.later hle)
  | ended reply => exact .ended reply

/-- An operation of the loop. -/
theorem loops_exec {p : Program Op Op.Res Reply} {e : Op} {k : e.Res → Program Op Op.Res Reply}
    {ch : Choice} {s : State} (h : Loops uid t₀ since s.now p) (hp : p = .op e k)
    (hsince : since ≤ s.now) : Loops uid t₀ since (exec i e ch s).2.now (k (exec i e ch s).1) := by
  rw [exec_now]
  cases h with
  | ended reply => cases hp
  | @looping done rest revoked hrows hchosen =>
    cases rest with
    | nil =>
      obtain ⟨rfl, hk⟩ := Program.op.inj hp
      obtain rfl := eq_of_heq hk
      cases hx : (exec i (.commitCertificates (revoked.map revocation)) ch s).1 with
      | ok v => exact .ended _
      | error f => exact .ended _
    | cons p rest =>
      obtain ⟨rfl, hk⟩ := Program.op.inj hp
      obtain rfl := eq_of_heq hk
      cases ch with
      | throws written => exact .ended _
      | ok =>
        show Loops uid t₀ since s.now (if s.now > p.parse.notAfter then looping rest revoked
          else looping rest (revoked ++ [p.serialNr]))
        rw [List.append_cons] at hrows
        split_ifs with hexpired
        · exact .looping hrows (hchosen.skip hexpired)
        · exact .looping hrows (hchosen.revoke (hsince.trans (Nat.le_of_not_gt hexpired)))

/-- The process is in its loop, or has ended. -/
def IsLooping (uid : String) (t₀ : Table PublicCertificate) (since : Time) (i : ℕ) (req : Request)
    (c : Configuration) : Prop :=
  since ≤ c.shared.now ∧ ∃ p, c.procs i = some (req, p) ∧ Loops uid t₀ since c.shared.now p

theorem isLooping_of_reaches {req : Request} (h : IsLooping uid t₀ since i req c)
    (hreach : (system P).Reaches c c') : IsLooping uid t₀ since i req c' := by
  induction hreach with
  | refl => exact h
  | @tail c₁ c₂ _ hstep ih =>
    obtain ⟨hsince, p, hp, hloops⟩ := ih
    obtain ⟨a, ha⟩ := hstep
    obtain ⟨evs, hevs⟩ := evolves_step ha
    refine ⟨hsince.trans hevs.now_le, ?_⟩
    by_cases hi : a.process = some i
    · cases System.step_cases ha with
      | arrive hidle =>
        obtain rfl := Option.some.inj hi
        rw [hp] at hidle
        cases hidle
      | @step j ch r e k hhere =>
        obtain rfl := Option.some.inj hi
        rw [hp] at hhere
        obtain ⟨rfl, hop⟩ := Prod.mk.inj (Option.some.inj hhere)
        exact ⟨_, Function.update_self _ _ _, loops_exec hloops hop hsince⟩
      | env => cases hi
    · exact ⟨p, (System.procs_of_step ha hi).trans hp, hloops.later hevs.now_le⟩

theorem looping_ne_done (rest : List PublicCertificate) (revoked : List UInt64) (reply : Reply) :
    looping rest revoked ≠ .done reply := by
  intro h
  cases rest with
  | nil => cases h
  | cons p rest => cases h

/-- The read of the table starts the loop. -/
theorem isLooping_of_read {machineName : String} {ch : Choice}
    {k : Op.Res .readCertificates → Program Op Op.Res Reply}
    (h : (system P).Reaches (.initial s₀) b)
    (hb : b.procs i = some (.api machineName (.revoke ⟨uid⟩), .op .readCertificates k))
    (hstep : (system P).step (.step i ch) b = some b₁) :
    IsLooping uid b.shared.publicCertificates b.shared.now i
      (.api machineName (.revoke ⟨uid⟩)) b₁ := by
  have hstage : Stage uid (.op .readCertificates k) :=
    System.program_of_reaches (stage_start P machineName uid) (fun _ _ _ _ _ hq => stage_op hq) h hb
  cases System.step_cases hstep with
  | @step _ _ req e k' hhere =>
    rw [hb] at hhere
    obtain ⟨rfl, hop⟩ := Prod.mk.inj (Option.some.inj hhere)
    obtain ⟨rfl, hk⟩ := Program.op.inj hop
    obtain rfl := eq_of_heq hk
    have hnow : (exec i .readCertificates ch b.shared).2.now = b.shared.now := exec_now _ _ _ _
    refine ⟨hnow.ge, _, Function.update_self _ _ _, ?_⟩
    show Loops uid _ _ (exec i .readCertificates ch b.shared).2.now
      (k (exec i .readCertificates ch b.shared).1)
    rw [hnow]
    generalize hp : Program.op Op.readCertificates k = p at hstage
    cases hstage with
    | finding => cases hp
    | @reading user huid =>
      subst huid
      obtain ⟨-, hk⟩ := Program.op.inj hp
      obtain rfl := eq_of_heq hk
      cases ch with
      | ok => exact .looping (List.nil_append _).symm (.nil _ _)
      | throws written => exact .ended _
    | looping rest revoked =>
      cases rest with
      | nil => cases hp
      | cons => cases hp
    | ended => cases hp

theorem exec_commitCertificates (i : ℕ) (ws : List CertificateWrite) (ch : Choice) (s : State) :
    s.publicCertificates.commit ws =
        some (exec i (.commitCertificates ws) ch s).2.publicCertificates ∨
      ∃ f, (exec i (.commitCertificates ws) ch s).1 = .error f := by
  cases ch with
  | throws written => exact Or.inr ⟨_, rfl⟩
  | ok =>
    cases hcommit : s.publicCertificates.commit ws with
    | none =>
      right
      simp only [exec, Op.run, hcommit]
      exact ⟨_, rfl⟩
    | some t =>
      left
      simp only [exec, Op.run, hcommit]
      rfl

/-- The commit of the revocations is what the request is answered with 204 for. -/
theorem commit_of_answered {req : Request} {ch : Choice} (h : IsLooping uid t₀ since i req c)
    (hstep : (system P).step (.step i ch) c = some c')
    (hanswered : c'.procs i = some (req, .done .noContent)) :
    ∃ revoked, Chooses (unrevokedCertificates uid t₀) revoked since c'.shared.now ∧
      c.shared.publicCertificates.commit (revoked.map revocation) =
        some c'.shared.publicCertificates := by
  obtain ⟨-, p, hp, hloops⟩ := h
  cases System.step_cases hstep with
  | @step _ _ r e k hhere =>
    rw [hp] at hhere
    obtain ⟨rfl, rfl⟩ := Prod.mk.inj (Option.some.inj hhere)
    simp only [Function.update_self] at hanswered
    obtain ⟨-, hdone⟩ := Prod.mk.inj (Option.some.inj hanswered)
    have hdone' : k (exec i e ch c.shared).1 = .done .noContent := hdone
    have hnow : (exec i e ch c.shared).2.now = c.shared.now := exec_now _ _ _ _
    show ∃ revoked, Chooses _ revoked since (exec i e ch c.shared).2.now ∧
      _ = some (exec i e ch c.shared).2.publicCertificates
    rw [hnow]
    generalize hq : Program.op e k = q at hloops
    cases hloops with
    | ended reply => cases hq
    | @looping done rest revoked hrows hchosen =>
      cases rest with
      | nil =>
        obtain ⟨rfl, hk⟩ := Program.op.inj hq
        obtain rfl := eq_of_heq hk
        rw [List.append_nil] at hrows
        rw [hrows]
        rcases exec_commitCertificates i (revoked.map revocation) ch c.shared with
          hcommit | ⟨f, hf⟩
        · exact ⟨revoked, hchosen, hcommit⟩
        · rw [hf] at hdone'
          cases hdone'
      | cons p rest =>
        obtain ⟨rfl, hk⟩ := Program.op.inj hq
        obtain rfl := eq_of_heq hk
        cases ch with
        | throws written => cases hdone'
        | ok =>
          have hnext : (if c.shared.now > p.parse.notAfter then looping rest revoked
            else looping rest (revoked ++ [p.serialNr])) = .done .noContent := hdone'
          split_ifs at hnext
          · exact absurd hnext (looping_ne_done _ _ _)
          · exact absurd hnext (looping_ne_done _ _ _)

/-- What a revocation that ran alone has done, and what holds from then on. -/
structure CompleteAlone (P : Platform) (user : User) (s s' : State) : Prop where
  effect : RevokedAll user.id s.publicCertificates s.now s.publicCertificates s'.publicCertificates
    s'.now
  settled : Settled P user.id s.publicCertificates s'

theorem completeAlone_of_revokeAll (P : Platform) {user : User} {sched : ℕ → ℕ × Choice}
    {s s' : State} {ws : List CertificateWrite}
    (h : machine.alone i (revokeAllCertificatesOfUser user .autocommit).run sched s =
      (.ok ws, s')) : CompleteAlone P user s s' := by
  obtain ⟨revoked, hchosen, hcommit⟩ := chooses_of_revokeAll h
  have heffect := revokedAll_of_commit hchosen (Extends.refl _) hcommit
  have hextends := extends_of_commit hcommit
  exact ⟨heffect, settled_of_noneLive P (heffect.noneLive hextends) hextends le_rfl⟩

/-- What a revocation that was interleaved with other requests has done, and what holds from then
on. -/
structure CompleteInRun (P : Platform) (uid : String) (b c c' : Configuration) : Prop where
  effect : RevokedAll uid b.shared.publicCertificates b.shared.now c.shared.publicCertificates
    c'.shared.publicCertificates c'.shared.now
  settled : Settled P uid b.shared.publicCertificates c'.shared
  /-- The certificates that were in the table at the read stay as they are in any other revocation
  that reads after the commit. -/
  again : ∀ j b₂ c₂ c₂', (system P).Reaches c' b₂ → Revocation P j uid b₂ c₂ c₂' →
    ∀ q ∈ c₂.shared.publicCertificates.rows, q.serialNr ∈ b.shared.publicCertificates.keys →
      q ∈ c₂'.shared.publicCertificates.rows

/-- What a revocation has chosen and committed. -/
theorem chooses_of_revocation (h : (system P).Reaches (.initial s₀) b)
    (hr : Revocation P i uid b c c') : (system P).Reaches b c ∧ (system P).Reaches c c' ∧
      ∃ revoked, Chooses (unrevokedCertificates uid b.shared.publicCertificates) revoked
        b.shared.now c'.shared.now ∧ c.shared.publicCertificates.commit (revoked.map revocation) =
          some c'.shared.publicCertificates := by
  obtain ⟨machineName, k, ch, b₁, hb, hread, hreach⟩ := hr.read
  obtain ⟨ch', hcommit⟩ := hr.commit
  obtain ⟨machineName', hanswered⟩ := hr.answered
  have hloops := isLooping_of_reaches (isLooping_of_read h hb hread) hreach
  refine ⟨.head ⟨_, hread⟩ hreach, .single ⟨_, hcommit⟩, commit_of_answered hloops hcommit ?_⟩
  have hreq : c.request i = some (.api machineName (.revoke ⟨uid⟩)) := by
    obtain ⟨-, p, hp, -⟩ := hloops
    simp [Config.request, hp]
  have hreq' := System.request_of_step hcommit hreq
  rw [Config.request, hanswered] at hreq'
  obtain rfl : machineName' = machineName := by simpa using hreq'
  exact hanswered

theorem completeInRun_of_revocation (h : (system P).Reaches (.initial s₀) b)
    (hr : Revocation P i uid b c c') : CompleteInRun P uid b c c' := by
  obtain ⟨hbc, hcc', revoked, hchosen, hcommit⟩ := chooses_of_revocation h hr
  have heffect := revokedAll_of_commit hchosen (extends_of_reaches hbc) hcommit
  have hextends := extends_of_reaches (hbc.trans hcc')
  have hnone := heffect.noneLive hextends
  refine ⟨heffect, settled_of_noneLive P hnone hextends le_rfl, ?_⟩
  intro j b₂ c₂ c₂' hlater hr₂ q hq hkey
  have hreach₂ := ((h.trans hbc).trans hcc').trans hlater
  obtain ⟨hbc₂, -, revoked₂, hchosen₂, hcommit₂⟩ := chooses_of_revocation hreach₂ hr₂
  have hnone₂ := hnone.later (keys_subset_of_extends hextends) (extends_of_reaches hlater)
  obtain ⟨evs, hevs⟩ := evolves_of_reaches hlater
  exact mem_of_not_chosen (fun _ => revocation_mem_map) hcommit₂ hq
    (hnone₂.not_chosen (extends_of_reaches hbc₂) hevs.now_le hchosen₂ hq hkey)

/-! ## Every transaction -/

/-- Process `i` reads the table in `b` and commits a transaction on it from `c` to `c'`, whatever its
request: a revocation or an issuance, by itself or in a request to the web server. -/
structure Transaction (P : Platform) (i : ℕ) (req : Request) (b c c' : Configuration) : Prop where
  read : ∃ k b₁, b.procs i = some (req, .op .readCertificates k) ∧
    (system P).step (.step i .ok) b = some b₁ ∧ (system P).Reaches b₁ c
  commit : ∃ ws k, c.procs i = some (req, .op (.commitCertificates ws) k) ∧
    (system P).step (.step i .ok) c = some c' ∧
    c.shared.publicCertificates.commit ws = some c'.shared.publicCertificates

/-- What a transaction has done, and what holds from then on. -/
structure CompleteTransaction (P : Platform) (uid : String) (b c c' : Configuration) : Prop where
  effect : RevokedRows uid b.shared.publicCertificates b.shared.now c.shared.publicCertificates
    c'.shared.publicCertificates c'.shared.now
  /-- It inserts at most the certificate that it issues. -/
  keys : c'.shared.publicCertificates.keys = c.shared.publicCertificates.keys ∨
    ∃ row ∈ c'.shared.publicCertificates.rows, row.uid = uid ∧
      c'.shared.publicCertificates.keys = c.shared.publicCertificates.keys ++ [row.serialNr]
  settled : Settled P uid b.shared.publicCertificates c'.shared
  /-- The certificates that were in the table at the read stay as they are in any other transaction
  that reads after the commit. -/
  again : ∀ j req b₂ c₂ c₂', (system P).Reaches c' b₂ → req.user? = some uid →
    Transaction P j req b₂ c₂ c₂' → ∀ q ∈ c₂.shared.publicCertificates.rows,
      q.serialNr ∈ b.shared.publicCertificates.keys → q ∈ c₂'.shared.publicCertificates.rows

theorem RevokesAll.chooses {ws : List CertificateWrite} (h : RevokesAll uid t₀ since ws time) :
    ∃ revoked, ws = revoked.map revocation ∧
      Chooses (unrevokedCertificates uid t₀) revoked since time := by
  have hrange : ws ∈ Set.range (List.map revocation) := by
    rw [Set.range_list_map]
    intro w hw
    obtain ⟨p, -, rfl, -⟩ := h.sound w hw
    exact ⟨_, rfl⟩
  obtain ⟨revoked, rfl⟩ := hrange
  refine ⟨revoked, rfl, ?_, ?_⟩
  · intro n hn
    obtain ⟨p, hp, heq, hsince⟩ := h.sound _ (List.mem_map_of_mem hn)
    exact ⟨p, hp, hsince, (Write.update.inj heq).1.symm⟩
  · exact fun p hp => (h.complete p hp).imp_left revocation_mem_map.1

/-- The statements of a transaction: those of the loop, and at most one that inserts a row. -/
structure Writes (uid : String) (t₀ : Table PublicCertificate) (since time : Time)
    (ws : List CertificateWrite) (revoked : List UInt64) : Prop where
  chosen : Chooses (unrevokedCertificates uid t₀) revoked since time
  revokes : RevokesChosen ws revoked
  added : Table.added ws = [] ∨ ∃ row : PublicCertificate, row.uid = uid ∧ Table.added ws = [row]

theorem RevokesAll.writes {ws : List CertificateWrite} (h : RevokesAll uid t₀ since ws time) :
    ∃ revoked, Writes uid t₀ since time ws revoked := by
  obtain ⟨revoked, rfl, hchosen⟩ := h.chooses
  exact ⟨revoked, hchosen, fun n => revocation_mem_map,
    Or.inl (added_revocations (revocations_map revoked))⟩

theorem Issuance.writes_spec {machineName : String} {r : CertRequest}
    (I : Issuance P machineName r) :
    ∃ revoked, Writes I.user.id I.snapshot I.since I.time I.writes revoked := by
  obtain ⟨revoked, hrevoked, hchosen⟩ := I.revokesAll.chooses
  have hws : I.writes = revoked.map revocation ++ [.insert I.row] := by
    rw [Issuance.writes, hrevoked]
  rw [hws]
  refine ⟨revoked, hchosen, fun n => ?_, Or.inr ⟨I.row, rfl, ?_⟩⟩
  · rw [List.mem_append, List.mem_singleton]
    constructor
    · rintro (hin | hin)
      · exact revocation_mem_map.1 hin
      · cases hin
    · exact fun hin => Or.inl (revocation_mem_map.2 hin)
  · exact added_append (revocations_map revoked) I.row

/-- The transaction of a request for a revocation is the end of it. -/
theorem revocation_of_transaction {machineName : String} (h : (system P).Reaches (.initial s₀) b)
    (ht : Transaction P i (.api machineName (.revoke ⟨uid⟩)) b c c') : Revocation P i uid b c c' := by
  obtain ⟨k, b₁, hb, hread, hreach⟩ := ht.read
  obtain ⟨ws, k', hc, hstep, hcommit⟩ := ht.commit
  refine ⟨⟨machineName, k, .ok, b₁, hb, hread, hreach⟩, ⟨.ok, hstep⟩, machineName, ?_⟩
  obtain ⟨-, p, hp, hloops⟩ := isLooping_of_reaches (isLooping_of_read h hb hread) hreach
  obtain ⟨-, hop⟩ := Prod.mk.inj (Option.some.inj (hc.symm.trans hp))
  have hk : k' (exec i (.commitCertificates ws) .ok c.shared).1 = .done .noContent := by
    cases hloops with
    | ended reply => cases hop
    | @looping done rest revoked =>
      cases rest with
      | nil =>
        obtain ⟨hws, hk⟩ := Program.op.inj hop
        obtain rfl := Op.commitCertificates.inj hws
        obtain rfl := eq_of_heq hk
        simp only [exec, Op.run, hcommit]
      | cons p rest => cases hop
  rw [Option.some.inj (hstep.symm.trans (System.step_op hc))]
  exact (Function.update_self _ _ _).trans (by rw [← hk]; rfl)

section Every

variable {req : Request} (h₀ : s₀.history = [])
include h₀

/-- The commit of a transaction is an event of its request. -/
theorem move_of_commit (h : (system P).Reaches (.initial s₀) c) {ws : List CertificateWrite}
    {k : Op.Res (.commitCertificates ws) → Program Op Op.Res Reply}
    (hc : c.procs i = some (req, .op (.commitCertificates ws) k))
    (hstep : (system P).step (.step i .ok) c = some c')
    (hcommit : c.shared.publicCertificates.commit ws = some c'.shared.publicCertificates) :
    Move P c c' req (.certificatesCommitted i ws c.shared.now) := by
  have hc' := Option.some.inj (hstep.symm.trans (System.step_op hc))
  have hshared : c'.shared = (Op.run i (.commitCertificates ws) c.shared).2 :=
    congrArg Config.shared hc'
  have hocc : Occurs (.certificatesCommitted i ws c.shared.now) c.shared c'.shared := by
    rw [hshared, Op.run, hcommit]
    exact .certificatesCommitted hcommit
  have hreq : c.request i = some req := by simp [Config.request, hc]
  refine ⟨hreq, hocc, ?_⟩
  have htrace := trace_of_reaches h₀ (h.tail ⟨_, hstep⟩) (System.request_of_step hstep hreq)
  have hown := hocc.own
  exact hown ▸ htrace

/-- What a transaction has chosen and committed. -/
theorem writes_of_transaction (h : (system P).Reaches (.initial s₀) b)
    (huser : req.user? = some uid) (ht : Transaction P i req b c c') :
    (system P).Reaches b c ∧ (system P).Reaches c c' ∧ ∃ revoked ws,
      Writes uid b.shared.publicCertificates b.shared.now c'.shared.now ws revoked ∧
      c.shared.publicCertificates.commit ws = some c'.shared.publicCertificates := by
  obtain ⟨k, b₁, hb, hread, hreach⟩ := ht.read
  obtain ⟨ws, k', hc, hstep, hcommit⟩ := ht.commit
  have hbc : (system P).Reaches b c := .head ⟨_, hread⟩ hreach
  have hm := move_of_commit h₀ (h.trans hbc) hc hstep hcommit
  refine ⟨hbc, .single ⟨_, hstep⟩, ?_⟩
  rw [hm.occurs.now]
  -- the request has read the table once
  have hmem : .certificatesRead i b.shared.publicCertificates b.shared.now ∈ c.shared.history := by
    apply history_subset_of_reaches hreach
    rw [Option.some.inj (hread.symm.trans (System.step_op hb))]
    exact List.mem_cons_self
  have hsame : ∀ {S u}, .certificatesRead i S u ∈ c.shared.history →
      S = b.shared.publicCertificates ∧ u = b.shared.now := fun hS =>
    certificatesRead_unique hm.trace List.mem_cons_self
      (List.mem_cons_of_mem _ (State.mem_own.2 ⟨hS, rfl⟩))
      (List.mem_cons_of_mem _ (State.mem_own.2 ⟨hmem, rfl⟩))
  rcases commit_of_move hm with hiss | hrev
  · obtain ⟨⟨m, r, hcalls, I, rfl, htime, hsnapshot, -, -⟩⟩ := hiss
    obtain ⟨revoked, hws⟩ := I.writes_spec
    obtain ⟨heq, hsince⟩ := hsame hsnapshot
    have hr : I.user.id = uid :=
      I.authenticated.1.trans (Option.some.inj ((hcalls.user? rfl).symm.trans huser))
    rw [hr, heq, hsince, ← htime] at hws
    exact ⟨revoked, _, hws, hcommit⟩
  · obtain ⟨R⟩ := hrev
    obtain ⟨revoked, hws⟩ := R.revokesAll.writes
    obtain ⟨heq, hsince⟩ := hsame R.certificatesRead
    have hr : R.r.uid = uid := Option.some.inj ((R.calls.user? rfl).symm.trans huser)
    rw [hr, heq, hsince] at hws
    exact ⟨revoked, ws, hws, hcommit⟩

theorem complete_of_transaction (h : (system P).Reaches (.initial s₀) b)
    (huser : req.user? = some uid) (ht : Transaction P i req b c c') :
    CompleteTransaction P uid b c c' := by
  obtain ⟨hbc, hcc', revoked, ws, hws, hcommit⟩ := writes_of_transaction h₀ h huser ht
  have heffect := revokedRows_of_commit hws.chosen (extends_of_reaches hbc) hws.revokes hcommit
  have hextends := extends_of_reaches (hbc.trans hcc')
  have hnone := heffect.noneLive hextends
  refine ⟨heffect, ?_, settled_of_noneLive P hnone hextends le_rfl, ?_⟩
  · rw [Table.keys_of_commit hcommit, Table.insertedKeys]
    rcases hws.added with hadded | ⟨row, hrow, hadded⟩
    · left
      rw [hadded, List.map_nil, List.append_nil]
    · refine Or.inr ⟨row, (Table.mem_of_commit hcommit).2 (Or.inr ?_), hrow, ?_⟩
      · rw [hadded]
        exact List.mem_singleton.2 rfl
      · rw [hadded]
        rfl
  · intro j req₂ b₂ c₂ c₂' hlater huser₂ ht₂ q hq hkey
    have hreach₂ := ((h.trans hbc).trans hcc').trans hlater
    obtain ⟨hbc₂, -, revoked₂, ws₂, hws₂, hcommit₂⟩ :=
      writes_of_transaction h₀ hreach₂ huser₂ ht₂
    have hnone₂ := hnone.later (keys_subset_of_extends hextends) (extends_of_reaches hlater)
    exact mem_of_not_chosen hws₂.revokes hcommit₂ hq (hnone₂.not_chosen (extends_of_reaches hbc₂)
      (now_le_of_reaches hlater) hws₂.chosen hq hkey)

end Every

/-- A revocation is complete and touches nothing else, and from then on the web server lists none of
the revoked certificates as valid: alone, in every state, and interleaved with other requests.  The
same holds of every transaction on `public_certificates`, also of an issuance and of a request to the
web server. -/
theorem revocation_complete (P : Platform) :
    (∀ (user : User) (i : ℕ) (sched : ℕ → ℕ × Choice) (s : State),
      ((∀ n, (sched n).2 = .ok) → ∃ ws s',
        machine.alone i (revokeAllCertificatesOfUser user .autocommit).run sched s = (.ok ws, s')) ∧
      (∀ ws s', machine.alone i (revokeAllCertificatesOfUser user .autocommit).run sched s =
        (.ok ws, s') → CompleteAlone P user s s')) ∧
    (∀ (uid : String) (i : ℕ) (s₀ : State) (b c c' : Configuration),
      (system P).Reaches (.initial s₀) b → Revocation P i uid b c c' →
        CompleteInRun P uid b c c') ∧
    ∀ (uid : String) (i : ℕ) (req : Request) (s₀ : State) (b c c' : Configuration),
      s₀.history = [] → (system P).Reaches (.initial s₀) b → req.user? = some uid →
        Transaction P i req b c c' → CompleteTransaction P uid b c c' := by
  refine ⟨fun user i sched s => ⟨exists_alone_revokeAll user s, fun ws s' h => ?_⟩, ?_, ?_⟩
  · exact completeAlone_of_revokeAll P h
  · exact fun uid i s₀ b c c' h hr => completeInRun_of_revocation h hr
  · exact fun uid i req s₀ b c c' h₀ h huser ht => complete_of_transaction h₀ h huser ht

section

open Deployment

/-- A certificate of `a3` is issued, and a second request comes, which goes on for `n` operations. -/
def issueThen (req : Request) (n : ℕ) : List (Act Request Choice ℕ) :=
  .arrive 0 (.api "aslcert01" (.issue certRequest)) ::
    (steps 0 18 ++ .arrive 1 req :: steps 1 n)

/-- Process 1 is about to read the table. -/
def readsCertificates (req : Request) (c : Configuration) : Bool :=
  match c.procs 1 with
  | some (r, .op .readCertificates _) => r = req
  | _ => false

theorem exists_of_readsCertificates {req : Request} (h : readsCertificates req c = true) :
    ∃ k, c.procs 1 = some (req, .op .readCertificates k) := by
  unfold readsCertificates at h
  split at h
  · rename_i r k hprocs
    obtain rfl := of_decide_eq_true h
    exact ⟨k, hprocs⟩
  · cases h

/-- Process 1 is about to commit to the table. -/
def commitsToTable (req : Request) (c : Configuration) : Bool :=
  match c.procs 1 with
  | some (r, .op (.commitCertificates ws) _) =>
      r = req && (c.shared.publicCertificates.commit ws).isSome
  | _ => false

theorem commit_of_commitsToTable {req : Request} (h : commitsToTable req c = true)
    (hstep : (system P).step (.step 1 .ok) c = some c') :
    ∃ ws k, c.procs 1 = some (req, .op (.commitCertificates ws) k) ∧
      (system P).step (.step 1 .ok) c = some c' ∧
      c.shared.publicCertificates.commit ws = some c'.shared.publicCertificates := by
  unfold commitsToTable at h
  split at h
  · rename_i r ws k hprocs
    obtain ⟨hr, hsome⟩ := Bool.and_eq_true_iff.1 h
    obtain rfl := of_decide_eq_true hr
    obtain ⟨t, ht⟩ := Option.isSome_iff_exists.1 hsome
    refine ⟨ws, k, hprocs, hstep, ?_⟩
    have hshared : c'.shared = (Op.run 1 (.commitCertificates ws) c.shared).2 :=
      congrArg Config.shared (Option.some.inj (hstep.symm.trans (System.step_op hprocs)))
    simp only [hshared, Op.run, ht]
    rfl
  · cases h

/-- The request reads the table after `n` operations and commits to it `m` operations later; the rows
are revoked as `before` says at the read, and as `after` says after the commit. -/
def commitsAfter (req : Request) (n m : ℕ) (before after : List Bool) : Bool :=
  ((system platform).run (issueThen req n) (.initial (installed users))).any fun b =>
    readsCertificates req b && b.shared.publicCertificates.rows.map (·.isRevoked) = before &&
      ((system platform).step (.step 1 .ok) b).any fun b₁ =>
        ((system platform).run (steps 1 m) b₁).any fun c => commitsToTable req c &&
          ((system platform).step (.step 1 .ok) c).any fun c' =>
            c'.shared.publicCertificates.rows.map (·.isRevoked) = after

/-- The transaction of a request that comes after an issuance. -/
def CommitsAfter (req : Request) (before after : List Bool) (b c c' : Configuration) : Prop :=
  (system platform).Reaches (.initial (installed users)) b ∧ Transaction platform 1 req b c c' ∧
    b.shared.publicCertificates.rows.map (·.isRevoked) = before ∧
    c'.shared.publicCertificates.rows.map (·.isRevoked) = after

theorem exists_of_commitsAfter (req : Request) (n m : ℕ) (before after : List Bool)
    (h : commitsAfter req n m before after = true) :
    ∃ b c c', CommitsAfter req before after b c c' := by
  obtain ⟨b, hb, h⟩ := (Option.any_eq_true _ _).1 h
  simp only [Bool.and_eq_true] at h
  obtain ⟨⟨hreads, hbefore⟩, h⟩ := h
  obtain ⟨k, hk⟩ := exists_of_readsCertificates hreads
  obtain ⟨b₁, hb₁, h⟩ := (Option.any_eq_true _ _).1 h
  obtain ⟨c, hc, h⟩ := (Option.any_eq_true _ _).1 h
  obtain ⟨hcommits, h⟩ := Bool.and_eq_true_iff.1 h
  obtain ⟨c', hc', hafter⟩ := (Option.any_eq_true _ _).1 h
  exact ⟨b, c, c', System.reaches_of_run hb,
    ⟨⟨k, b₁, hk, hb₁, System.reaches_of_run hc⟩, commit_of_commitsToTable hcommits hc'⟩,
    of_decide_eq_true hbefore, of_decide_eq_true hafter⟩

/-- The certificate of the first request is revoked: by a request for it, of which nothing is listed as
valid any more, by a second issuance, and by the form of the web server. -/
theorem revocation_of_issued :
    (∃ b c c', Revocation platform 1 "a3" b c c' ∧ CompleteInRun platform "a3" b c c' ∧
      b.shared.publicCertificates.rows.map (·.isRevoked) = [false] ∧
      c'.shared.publicCertificates.rows.map (·.isRevoked) = [true]) ∧
    (∃ b c c', CommitsAfter (.api "aslcert01" (.issue certRequest)) [false] [true, false] b c c' ∧
      CompleteTransaction platform "a3" b c c') ∧
    ∃ b c c', CommitsAfter (.web "aslcert01" "a3" .revoke) [false] [true] b c c' ∧
      CompleteTransaction platform "a3" b c c' := by
  obtain ⟨-, hrevocations, htransactions⟩ := revocation_complete platform
  refine ⟨?_, ?_, ?_⟩
  · obtain ⟨b, c, c', h⟩ := exists_of_commitsAfter (.api "aslcert01" (.revoke ⟨"a3"⟩)) 1 1 [false]
      [true] (by decide +kernel)
    obtain ⟨hreach, ht, hbefore, hafter⟩ := h
    have hr := revocation_of_transaction hreach ht
    exact ⟨b, c, c', hr, hrevocations "a3" 1 _ b c c' hreach hr, hbefore, hafter⟩
  · obtain ⟨b, c, c', h⟩ := exists_of_commitsAfter (.api "aslcert01" (.issue certRequest)) 3 6 [false]
      [true, false] (by decide +kernel)
    exact ⟨b, c, c', h, htransactions "a3" 1 _ _ b c c' rfl h.1 rfl h.2.1⟩
  · obtain ⟨b, c, c', h⟩ := exists_of_commitsAfter (.web "aslcert01" "a3" .revoke) 2 1 [false] [true]
      (by decide +kernel)
    exact ⟨b, c, c', h, htransactions "a3" 1 _ _ b c c' rfl h.1 rfl h.2.1⟩

end

end IMoviesCA
