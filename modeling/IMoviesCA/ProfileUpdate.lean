import Mathlib.Algebra.BigOperators.Group.Finset.Basic
import IMoviesCA.Revocation
import IMoviesCA.PasswordChange

/-!
# A profile update and its two remote steps

`AccountController.Update` has the CA revoke the certificates of the user, and then saves.  It does
not look at the answer of the CA, and no transaction spans the two.  What it leaves is all or nothing
if and only if the two steps agree (`update_allOrNothing_iff`).
-/

namespace IMoviesCA

open CADBModifier RevokeController

variable {uid : String} {i : ℕ} {s s' s₀ : State} {sched : ℕ → ℕ × Choice}

/-! ## The clock of a schedule -/

/-- The clock at operation `n` of what runs alone from the time `now`. -/
def clockAt (sched : ℕ → ℕ × Choice) (now : Time) (n : ℕ) : Time :=
  now + ∑ k ∈ Finset.range (n + 1), (sched k).1

theorem clockAt_zero (sched : ℕ → ℕ × Choice) (now : Time) :
    clockAt sched now 0 = now + (sched 0).1 := by
  simp [clockAt]

theorem clockAt_succ (sched : ℕ → ℕ × Choice) (now : Time) (n : ℕ) :
    clockAt sched now (n + 1) = clockAt (fun k => sched (k + 1)) (now + (sched 0).1) n := by
  rw [clockAt, clockAt, Finset.sum_range_succ', Nat.add_comm (Finset.sum _ _), Nat.add_assoc]

/-- The clock goes on from where a program has stopped. -/
theorem clockAt_operations {α : Type} (p : Program Op Op.Res α) :
    ∀ (sched : ℕ → ℕ × Choice) (s : State) (n : ℕ),
      clockAt sched s.now (n + machine.operations i p sched s) =
        clockAt (fun k => sched (k + machine.operations i p sched s))
          (machine.alone i p sched s).2.now n := by
  induction p with
  | done a => exact fun _ _ _ => rfl
  | op e k ih =>
    intro sched s n
    have hnow : (exec i e (sched 0).2 (tick (sched 0).1 s)).2.now = s.now + (sched 0).1 :=
      exec_now i e _ _
    have hrest := ih (exec i e (sched 0).2 (tick (sched 0).1 s)).1 (fun k => sched (k + 1))
      (exec i e (sched 0).2 (tick (sched 0).1 s)).2 n
    rw [hnow] at hrest
    exact (clockAt_succ sched s.now _).trans hrest

/-- Each of the certificates has expired when the clock is read for it. -/
def AllExpired (ps : List PublicCertificate) (sched : ℕ → ℕ × Choice) (now : Time) : Prop :=
  ∀ k (h : k < ps.length), ps[k].parse.notAfter < clockAt sched now k

theorem allExpired_cons {p : PublicCertificate} {ps : List PublicCertificate} {now : Time} :
    AllExpired (p :: ps) sched now ↔ p.parse.notAfter < now + (sched 0).1 ∧
      AllExpired ps (fun k => sched (k + 1)) (now + (sched 0).1) := by
  unfold AllExpired
  simp only [List.length_cons, Nat.forall_lt_succ_left', List.getElem_cons_zero,
    List.getElem_cons_succ, clockAt_zero, clockAt_succ]

/-! ## The revocation by itself -/

/-- The first operations of a schedule are carried out. -/
def Succeeds (n : ℕ) (sched : ℕ → ℕ × Choice) : Prop := ∀ k < n, (sched k).2 = .ok

theorem succeeds_succ {n : ℕ} :
    Succeeds (n + 1) sched ↔ (sched 0).2 = .ok ∧ Succeeds n fun k => sched (k + 1) :=
  Nat.forall_lt_succ_left

theorem not_succeeds_of_throws {n : ℕ} {written : Option ℕ}
    (h : (sched 0).2 = .throws written) : ¬ Succeeds (n + 1) sched := by
  intro hok
  have hzero := hok 0 (Nat.succ_pos n)
  rw [h] at hzero
  cases hzero

/-- The CA carries out the request: the request is valid, the user is there, and no operation fails.
They are the two reads, a reading of the clock for each certificate, and the commit. -/
structure CarriedOut (uid : String) (sched : ℕ → ℕ × Choice) (s : State) : Prop where
  valid : (⟨uid⟩ : RevokeRequest).isValid = true
  found : (s.users.find? uid).isSome
  succeeds : Succeeds ((unrevokedCertificates uid s.publicCertificates).length + 3) sched

/-- What a request to revoke the certificates of a user answers and leaves.  It is carried out if
`ok`, and then it revokes nothing if `idle`. -/
inductive RevokeOutcome (uid : String) (s : State) (ok idle : Prop) : Reply → State → Prop
  | carriedOut {revoked : List UInt64} {s' : State} (hok : ok) (hidle : revoked = [] ↔ idle)
      (husers : s'.users = s.users)
      (hchosen : Chooses (unrevokedCertificates uid s.publicCertificates) revoked s.now s'.now)
      (hcommit : s.publicCertificates.commit (revoked.map revocation) = some s'.publicCertificates) :
      RevokeOutcome uid s ok idle .noContent s'
  | failed {reply : Reply} {s' : State} (hok : ¬ ok) (hreply : reply.isSuccessStatusCode = false)
      (husers : s'.users = s.users) (htable : s'.publicCertificates = s.publicCertificates) :
      RevokeOutcome uid s ok idle reply s'

namespace RevokeOutcome

variable {ok ok' idle idle' : Prop} {reply : Reply}

theorem users (h : RevokeOutcome uid s ok idle reply s') : s'.users = s.users := by
  cases h with
  | carriedOut _ _ husers => exact husers
  | failed _ _ husers => exact husers

theorem congr (h : RevokeOutcome uid s ok idle reply s') (hok : ok ↔ ok') (hidle : idle ↔ idle') :
    RevokeOutcome uid s ok' idle' reply s' := by
  obtain rfl := propext hok
  obtain rfl := propext hidle
  exact h

end RevokeOutcome

/-- The save at the end of the loop. -/
theorem outcome_saving {revoked : List UInt64} (sched : ℕ → ℕ × Choice)
    (husers : s.users = s₀.users) (htable : s.publicCertificates = s₀.publicCertificates)
    (hchosen : Chooses (unrevokedCertificates uid s₀.publicCertificates) revoked s₀.now s.now) :
    RevokeOutcome uid s₀ (Succeeds 1 sched) (revoked = [] ∧ AllExpired [] sched s.now)
      (machine.alone i (looping [] revoked) sched s).1
      (machine.alone i (looping [] revoked) sched s).2 := by
  cases hch : (sched 0).2 with
  | throws written =>
    rw [looping, alone_orServerError_of_throws (fun _ => rfl) hch]
    exact .failed (not_succeeds_of_throws hch) rfl husers htable
  | ok =>
    have hlater := hchosen.later (Nat.le_add_right s.now (sched 0).1)
    obtain ⟨t, ht⟩ := exists_commit_chosen hchosen
    have htick : (tick (sched 0).1 s).publicCertificates.commit (revoked.map revocation) =
        some t := by
      show s.publicCertificates.commit _ = some t
      rw [htable]
      exact ht
    have hrun := Op.run_commitCertificates (i := i) htick
    rw [looping, alone_orServerError_of_ok hch (congrArg Prod.fst hrun), hrun]
    have hok : Succeeds 1 sched := succeeds_succ.2 ⟨hch, fun k hk => absurd hk (Nat.not_lt_zero k)⟩
    have hidle : revoked = [] ↔ revoked = [] ∧ AllExpired [] sched s.now :=
      ⟨fun h => ⟨h, fun k hk => absurd hk (Nat.not_lt_zero k)⟩, And.left⟩
    exact .carriedOut hok hidle husers hlater ht

theorem outcome_looping {rest : List PublicCertificate} :
    ∀ {done : List PublicCertificate} {revoked : List UInt64} (sched : ℕ → ℕ × Choice) {s : State},
      s.users = s₀.users → s.publicCertificates = s₀.publicCertificates → s₀.now ≤ s.now →
      unrevokedCertificates uid s₀.publicCertificates = done ++ rest →
      Chooses done revoked s₀.now s.now →
      RevokeOutcome uid s₀ (Succeeds (rest.length + 1) sched)
        (revoked = [] ∧ AllExpired rest sched s.now)
        (machine.alone i (looping rest revoked) sched s).1
        (machine.alone i (looping rest revoked) sched s).2 := by
  induction rest with
  | nil =>
    intro done revoked sched s husers htable hnow hrows hchosen
    rw [List.append_nil] at hrows
    rw [← hrows] at hchosen
    exact outcome_saving sched husers htable hchosen
  | cons p rest ih =>
    intro done revoked sched s husers htable hnow hrows hchosen
    have hle : s.now ≤ (tick (sched 0).1 s).now := Nat.le_add_right _ _
    have hlater := hchosen.later hle
    rw [List.append_cons] at hrows
    cases hch : (sched 0).2 with
    | throws written =>
      have halone : machine.alone i (looping (p :: rest) revoked) sched s = _ :=
        alone_orServerError_of_throws (fun _ => rfl) hch
      rw [halone]
      exact .failed (not_succeeds_of_throws hch) rfl husers htable
    | ok =>
      have halone : machine.alone i (looping (p :: rest) revoked) sched s =
          machine.alone i (if (tick (sched 0).1 s).now > p.parse.notAfter then looping rest revoked
            else looping rest (revoked ++ [p.serialNr])) (fun n => sched (n + 1))
            (tick (sched 0).1 s) := alone_orServerError_of_ok hch rfl
      have hok : Succeeds (rest.length + 1) (fun n => sched (n + 1)) ↔
          Succeeds ((p :: rest).length + 1) sched :=
        ⟨fun h => succeeds_succ.2 ⟨hch, h⟩, fun h => (succeeds_succ.1 h).2⟩
      rw [halone]
      split_ifs with hexpired
      · have hrest := ih (fun n => sched (n + 1)) (s := tick (sched 0).1 s) husers htable
          (hnow.trans hle) hrows (hlater.skip hexpired)
        refine hrest.congr hok ?_
        rw [allExpired_cons]
        exact and_congr_right fun _ => (and_iff_right hexpired).symm
      · have hsince := hnow.trans (hle.trans (Nat.le_of_not_gt hexpired))
        have hrest := ih (fun n => sched (n + 1)) (s := tick (sched 0).1 s) husers htable
          (hnow.trans hle) hrows (hlater.revoke hsince)
        refine hrest.congr hok ?_
        rw [allExpired_cons]
        constructor
        · rintro ⟨hnil, -⟩
          exact absurd hnil (List.append_ne_nil_of_right_ne_nil _ (List.cons_ne_nil _ _))
        · rintro ⟨-, hlt, -⟩
          exact absurd hlt hexpired

theorem outcome_reading (user : User) (sched : ℕ → ℕ × Choice) (husers : s.users = s₀.users)
    (htable : s.publicCertificates = s₀.publicCertificates) (hnow : s₀.now ≤ s.now) :
    RevokeOutcome user.id s₀
      (Succeeds ((unrevokedCertificates user.id s₀.publicCertificates).length + 2) sched)
      (AllExpired (unrevokedCertificates user.id s₀.publicCertificates) (fun k => sched (k + 1))
        (s.now + (sched 0).1))
      (machine.alone i (reading user) sched s).1 (machine.alone i (reading user) sched s).2 := by
  cases hch : (sched 0).2 with
  | throws written =>
    have halone : machine.alone i (reading user) sched s = _ :=
      alone_orServerError_of_throws (fun _ => rfl) hch
    rw [halone]
    exact .failed (not_succeeds_of_throws hch) rfl husers htable
  | ok =>
    let s₁ := (Op.readCertificates.run i (tick (sched 0).1 s)).2
    have halone : machine.alone i (reading user) sched s =
        machine.alone i (looping (unrevokedCertificates user.id s.publicCertificates) [])
          (fun n => sched (n + 1)) s₁ := alone_orServerError_of_ok hch rfl
    have hnow₁ : s₀.now ≤ s₁.now := hnow.trans (Nat.le_add_right _ _)
    rw [halone, htable]
    have hrest := outcome_looping (i := i) (fun n => sched (n + 1)) (s := s₁) husers htable hnow₁
      (List.nil_append (unrevokedCertificates user.id s₀.publicCertificates)).symm (.nil _ _)
    refine hrest.congr ?_ ?_
    · exact ⟨fun h => succeeds_succ.2 ⟨hch, h⟩, fun h => (succeeds_succ.1 h).2⟩
    · exact and_iff_right rfl

theorem outcome_of_revoke (P : Platform) (machineName uid : String) (sched : ℕ → ℕ × Choice)
    (s : State) : RevokeOutcome uid s (CarriedOut uid sched s)
      (AllExpired (unrevokedCertificates uid s.publicCertificates) (fun k => sched (k + 2))
        (clockAt sched s.now 1))
      (machine.alone i (answer (api P machineName (.revoke ⟨uid⟩))) sched s).1
      (machine.alone i (answer (api P machineName (.revoke ⟨uid⟩))) sched s).2 := by
  rw [answer_api]
  split_ifs with hvalid
  · cases hch : (sched 0).2 with
    | throws written =>
      have halone : machine.alone i (finding ⟨uid⟩) sched s = _ :=
        alone_orServerError_of_throws (fun _ => rfl) hch
      rw [halone]
      exact .failed (fun h => not_succeeds_of_throws hch h.succeeds) rfl rfl rfl
    | ok =>
      let s₁ := ((Op.findUser uid).run i (tick (sched 0).1 s)).2
      have halone : machine.alone i (finding ⟨uid⟩) sched s =
          machine.alone i (found (s.users.find? uid)) (fun n => sched (n + 1)) s₁ :=
        alone_orServerError_of_ok hch rfl
      have hnow₁ : s.now ≤ s₁.now := Nat.le_add_right _ _
      rw [halone]
      cases hfind : s.users.find? uid with
      | none =>
        refine .failed (fun h => ?_) rfl rfl rfl
        have hsome := h.found
        rw [hfind] at hsome
        cases hsome
      | some user =>
        obtain rfl : user.id = uid := (Table.find?_eq_some_iff.1 hfind).2
        have husers : s₁.users = s.users := rfl
        have htable : s₁.publicCertificates = s.publicCertificates := rfl
        have hrest := outcome_reading (i := i) user (fun n => sched (n + 1)) husers htable hnow₁
        refine hrest.congr ?_ ?_
        · constructor
          · exact fun h => ⟨hvalid, by rw [hfind]; rfl, succeeds_succ.2 ⟨hch, h⟩⟩
          · exact fun h => (succeeds_succ.1 h.succeeds).2
        · rw [clockAt_succ, clockAt_zero]
          rfl
  · exact .failed (fun h => hvalid h.valid) rfl rfl rfl

/-- A commit of revocations leaves the table as it is if and only if there are none. -/
theorem commit_eq_self_iff {t t' : Table PublicCertificate} {revoked : List UInt64} {since time : Time}
    (hchosen : Chooses (unrevokedCertificates uid t) revoked since time)
    (h : t.commit (revoked.map revocation) = some t') : t' = t ↔ revoked = [] := by
  constructor
  · rintro rfl
    rw [List.eq_nil_iff_forall_not_mem]
    intro n hn
    obtain ⟨p, hp, -, rfl⟩ := hchosen.sound n hn
    obtain ⟨hmem, -, hrev⟩ := mem_unrevokedCertificates.1 hp
    have hpatched : Table.patched (revoked.map revocation) p ∈ t'.rows :=
      (Table.mem_of_commit h).2 (Or.inl ⟨p, hmem, rfl⟩)
    have hsame := Table.eq_of_key_eq hpatched hmem (later_patched _ p).serialNr
    rw [patched_certificate, if_pos (revocation_mem_map.2 hn)] at hsame
    rw [← hsame] at hrev
    cases hrev
  · rintro rfl
    exact (Option.some.inj h).symm

/-! ## The stages of an update -/

namespace AccountController

/-- The details are saved. -/
def saving (user : User) (d : UserDetails) : Program Op Op.Res Reply :=
  orServerError (.commitUsers [allColumns (withDetails user d)]) fun _ =>
    .done (.redirect true "Account information updated successfully.")

/-- The CA has answered. -/
def receiving (user : User) (d : UserDetails) (response : Reply) : Program Op Op.Res Reply :=
  orServerError (.receive response) fun _ => saving user d

variable (P : Platform) (machineName : String)

/-- The email address is about to change: the certificates are to be revoked first. -/
def sending (user : User) (d : UserDetails) : Program Op Op.Res Reply :=
  orServerError (.mayThrow .sendRequest) fun _ =>
    answer (api P machineName (.revoke ⟨user.id⟩)) >>= receiving user d

/-- The rows with the address of the form were counted. -/
def counted (user : User) (d : UserDetails) (count : ℕ) : Program Op Op.Res Reply :=
  if count = 0 ∨ user.email = d.email then sending P machineName user d
  else .done (.redirect false "Updating account information failed.")

/-- The row of the user was read. -/
def found (d : UserDetails) : Option User → Program Op Op.Res Reply
  | none => .done (.redirect false "Updating account information failed.")
  | some user => orServerError (.countEmail d.email) (counted P machineName user d)

theorem answer_update (uid : String) (d : UserDetails) : answer (update P machineName uid d) =
    if d.isValid then orServerError (.findUser uid) (found P machineName d) else .done .view := by
  unfold update
  cases d.isValid with
  | false => rfl
  | true =>
    refine answer_call_eq fun user => ?_
    cases user with
    | none => rfl
    | some user =>
      refine answer_call_eq fun (count : ℕ) => ?_
      show answer (if count = 0 ∨ user.email = d.email then _ else _) = _
      unfold counted
      split_ifs
      · show answer (((mayThrow .sendRequest >>= _) >>= _) >>= _) = _
        rw [LawfulMonad.bind_assoc, LawfulMonad.bind_assoc]
        refine answer_call_eq fun _ => ?_
        show answer ((ExceptT.lift _ >>= _) >>= _) = _
        rw [LawfulMonad.bind_assoc, answer_lift]
        congr 1
        funext response
        refine answer_call_eq fun _ => ?_
        exact answer_call _ _
      · rfl

end AccountController

open AccountController

/-! ## All or nothing -/

/-- The answer reports success. -/
def Reply.reportsSuccess : Reply → Bool
  | .redirect success _ => success
  | _ => false

/-- All unexpired certificates of the user are revoked. -/
def NoneUnexpired (uid : String) (t : Table PublicCertificate) (now : Time) : Prop :=
  ∀ p ∈ t.rows, p.uid = uid → now ≤ p.parse.notAfter → p.isRevoked = true

/-- Success is reported, the details are stored and the unexpired certificates are revoked, or
success is not reported and neither a user nor a certificate has changed. -/
def UpdateAllOrNothing (uid : String) (d : UserDetails) (s : State) (reply : Reply) (s' : State) :
    Prop :=
  (reply.reportsSuccess = true ∧
    (∃ user, s.users.find? uid = some user ∧ s'.users.find? uid = some (withDetails user d)) ∧
    NoneUnexpired uid s'.publicCertificates s'.now) ∨
  (reply.reportsSuccess = false ∧ s'.users = s.users ∧ s'.publicCertificates = s.publicCertificates)

theorem nothing_iff {d : UserDetails} {reply : Reply} (hreply : reply.reportsSuccess = false)
    (husers : s'.users = s.users) :
    UpdateAllOrNothing uid d s reply s' ↔ s'.publicCertificates = s.publicCertificates := by
  constructor
  · rintro (⟨htrue, -⟩ | ⟨-, -, htable⟩)
    · rw [hreply] at htrue
      cases htrue
    · exact htable
  · exact fun htable => Or.inr ⟨hreply, husers, htable⟩

theorem all_iff {d : UserDetails} {reply : Reply} {user : User} (hreply : reply.reportsSuccess = true)
    (hfind : s.users.find? uid = some user)
    (hstored : s'.users.find? uid = some (withDetails user d)) :
    UpdateAllOrNothing uid d s reply s' ↔ NoneUnexpired uid s'.publicCertificates s'.now := by
  constructor
  · rintro (⟨-, -, hnone⟩ | ⟨hfalse, -⟩)
    · exact hnone
    · rw [hreply] at hfalse
      cases hfalse
  · exact fun hnone => Or.inl ⟨hreply, ⟨user, hfind, hstored⟩, hnone⟩

/-! ## The two remote steps -/

/-- The update gets as far as the request to the CA: the form is valid, the user is found, the
address is free or that of the user, and the first three operations do not fail. -/
structure Sends (uid : String) (d : UserDetails) (sched : ℕ → ℕ × Choice) (s : State) (user : User) :
    Prop where
  valid : d.isValid = true
  found : s.users.find? uid = some user
  free : s.users.rows.countP (fun u => u.email = d.email) = 0 ∨ user.email = d.email
  find : (sched 0).2 = .ok
  count : (sched 1).2 = .ok
  send : (sched 2).2 = .ok

/-- The state in which the CA starts with the request. -/
def sendState (i : ℕ) (uid : String) (sched : ℕ → ℕ × Choice) (s : State) : State :=
  tick (sched 2).1 (tick (sched 1).1 ((Op.findUser uid).run i (tick (sched 0).1 s)).2)

section

variable (P : Platform) (machineName : String) (i : ℕ) (uid : String) (sched : ℕ → ℕ × Choice)
  (s : State)

/-- What the CA makes of the request, and the state that it leaves. -/
def revocationCall : Reply × State :=
  machine.alone i (answer (api P machineName (.revoke ⟨uid⟩))) (fun k => sched (k + 3))
    (sendState i uid sched s)

/-- The operations up to the answer of the CA. -/
def answerIndex : ℕ :=
  machine.operations i (answer (api P machineName (.revoke ⟨uid⟩))) (fun k => sched (k + 3))
    (sendState i uid sched s) + 3

/-- The two remote steps agree.  When an answer arrives, of the CA or of its `nginx`, and the save does
not throw, the CA has carried out the revocation, or the user has no certificate to revoke.  When no
answer arrives or the save throws, the CA has not carried it out, or the certificates had expired. -/
def StepsAgree : Prop :=
  let n := answerIndex P machineName i uid sched s
  if (sched n).2 ≠ .throws none ∧ (sched (n + 1)).2 = .ok then
    CarriedOut uid (fun k => sched (k + 3)) s ∨
      NoneUnexpired uid s.publicCertificates (clockAt sched s.now (n + 1))
  else CarriedOut uid (fun k => sched (k + 3)) s →
    AllExpired (unrevokedCertificates uid s.publicCertificates) (fun k => sched (k + 5))
      (clockAt sched s.now 4)

end

section

variable {P : Platform} {machineName : String} {user : User} {d : UserDetails}
  {sched : ℕ → ℕ × Choice}

/-- An update that sends the request goes on with the answer of the CA. -/
theorem alone_of_sends (h : Sends uid d sched s user) :
    machine.alone i (answer (AccountController.update P machineName uid d)) sched s =
      machine.alone i (receiving user d (revocationCall P machineName i uid sched s).1)
        (fun k => sched (k + answerIndex P machineName i uid sched s))
        (revocationCall P machineName i uid sched s).2 := by
  obtain rfl : user.id = uid := (Table.find?_eq_some_iff.1 h.found).2
  have hfind : machine.alone i (orServerError (.findUser user.id)
      (AccountController.found P machineName d)) sched s =
        machine.alone i (AccountController.found P machineName d (s.users.find? user.id))
          (fun n => sched (n + 1)) ((Op.findUser user.id).run i (tick (sched 0).1 s)).2 :=
    alone_orServerError_of_ok h.find rfl
  have hcount : machine.alone i (AccountController.found P machineName d (some user))
      (fun n => sched (n + 1)) ((Op.findUser user.id).run i (tick (sched 0).1 s)).2 =
        machine.alone i (counted P machineName user d
          (s.users.rows.countP fun u => u.email = d.email)) (fun n => sched (n + 2))
          (tick (sched 1).1 ((Op.findUser user.id).run i (tick (sched 0).1 s)).2) :=
    alone_orServerError_of_ok h.count rfl
  have hsend : machine.alone i (sending P machineName user d) (fun n => sched (n + 2))
      (tick (sched 1).1 ((Op.findUser user.id).run i (tick (sched 0).1 s)).2) =
        machine.alone i (answer (api P machineName (.revoke ⟨user.id⟩)) >>= receiving user d)
          (fun n => sched (n + 3)) (sendState i user.id sched s) :=
    alone_orServerError_of_ok h.send rfl
  rw [answer_update, if_pos h.valid, hfind, h.found, hcount, counted, if_pos h.free, hsend]
  exact Machine.alone_bind _ _ _ _ _ _

/-- An operation that throws ends the update. -/
theorem nothing_of_throws {e : Op} {k : e.Val → Program Op Op.Res Reply} {s₁ : State}
    {written : Option ℕ} (he : e.Throws) (hthrows : (sched 0).2 = .throws written)
    (hleft : ∀ s, e.leftBehind i written s = s) (husers : s₁.users = s.users)
    (htable : s₁.publicCertificates = s.publicCertificates) :
    UpdateAllOrNothing uid d s (machine.alone i (orServerError e k) sched s₁).1
      (machine.alone i (orServerError e k) sched s₁).2 := by
  rw [alone_orServerError_of_throws he hthrows, hleft]
  exact Or.inr ⟨rfl, husers, htable⟩

/-- Without the request to the CA, nothing happens and no success is reported. -/
theorem allOrNothing_of_not_sends (h : ∀ user, ¬ Sends uid d sched s user) :
    UpdateAllOrNothing uid d s
      (machine.alone i (answer (AccountController.update P machineName uid d)) sched s).1
      (machine.alone i (answer (AccountController.update P machineName uid d)) sched s).2 := by
  rw [answer_update]
  split_ifs with hvalid
  · cases hch₀ : (sched 0).2 with
    | throws written => exact nothing_of_throws (fun _ => rfl) hch₀ (fun _ => rfl) rfl rfl
    | ok =>
      have hfind : machine.alone i (orServerError (.findUser uid)
          (AccountController.found P machineName d)) sched s =
            machine.alone i (AccountController.found P machineName d (s.users.find? uid))
              (fun n => sched (n + 1)) ((Op.findUser uid).run i (tick (sched 0).1 s)).2 :=
        alone_orServerError_of_ok hch₀ rfl
      rw [hfind]
      cases hfound : s.users.find? uid with
      | none => exact Or.inr ⟨rfl, rfl, rfl⟩
      | some user =>
        cases hch₁ : (sched 1).2 with
        | throws written => exact nothing_of_throws (fun _ => rfl) hch₁ (fun _ => rfl) rfl rfl
        | ok =>
          have hcount : machine.alone i (AccountController.found P machineName d (some user))
              (fun n => sched (n + 1)) ((Op.findUser uid).run i (tick (sched 0).1 s)).2 =
                machine.alone i (counted P machineName user d
                  (s.users.rows.countP fun u => u.email = d.email)) (fun n => sched (n + 2))
                  (tick (sched 1).1 ((Op.findUser uid).run i (tick (sched 0).1 s)).2) :=
            alone_orServerError_of_ok hch₁ rfl
          rw [hcount, counted]
          split_ifs with hfree
          · cases hch₂ : (sched 2).2 with
            | throws written => exact nothing_of_throws (fun _ => rfl) hch₂ (fun _ => rfl) rfl rfl
            | ok => exact absurd ⟨hvalid, hfound, hfree, hch₀, hch₁, hch₂⟩ (h user)
          · exact Or.inr ⟨rfl, rfl, rfl⟩
  · exact Or.inr ⟨rfl, rfl, rfl⟩

/-- An answer arrives, of the CA or of its `nginx`. -/
theorem exec_receive_of_ne {ch : Choice} (hch : ch ≠ .throws none) (i : ℕ) (response : Reply)
    (s : State) : ∃ r, exec i (.receive response) ch s = (.ok r, s.record (.received i r)) := by
  match ch, hch with
  | .ok, _ => exact ⟨response, rfl⟩
  | .throws (some _), _ => exact ⟨.badGateway, rfl⟩

/-- The update goes on to the save, whatever the answer says. -/
theorem allOrNothing_saving {s₂ : State} (hfind : s.users.find? uid = some user)
    (husers : s₂.users = s.users) :
    UpdateAllOrNothing uid d s (machine.alone i (saving user d) sched s₂).1
      (machine.alone i (saving user d) sched s₂).2 ↔
      if (sched 0).2 = .ok then NoneUnexpired uid s₂.publicCertificates (clockAt sched s₂.now 0)
      else s₂.publicCertificates = s.publicCertificates := by
  obtain rfl : user.id = uid := (Table.find?_eq_some_iff.1 hfind).2
  cases hch : (sched 0).2 with
  | throws written =>
    have halone : machine.alone i (saving user d) sched s₂ = _ :=
      alone_orServerError_of_throws (fun _ => rfl) hch
    rw [halone, if_neg (by rintro ⟨⟩)]
    exact nothing_iff rfl husers
  | ok =>
    have hkey : user.id ∈ s.users.keys := by
      rw [Table.mem_keys]
      exact ⟨user, (Table.find?_eq_some_iff.1 hfind).1, rfl⟩
    obtain ⟨t, ht⟩ : ∃ t, s.users.commit [allColumns (withDetails user d)] = some t := by
      apply Table.exists_commit_updates
      intro w hw
      obtain rfl := List.mem_singleton.1 hw
      exact ⟨_, _, rfl, hkey⟩
    have hcommit : (tick (sched 0).1 s₂).users.commit [allColumns (withDetails user d)] = some t := by
      show s₂.users.commit _ = some t
      rw [husers]
      exact ht
    have hrun := Op.run_commitUsers (i := i) hcommit
    have hsave : machine.alone i (saving user d) sched s₂ = _ :=
      alone_orServerError_of_ok hch (congrArg Prod.fst hrun)
    rw [hsave, hrun, if_pos rfl, clockAt_zero]
    obtain ⟨u, hu, hstored⟩ := mem_of_commit_update ht
    obtain rfl : user = u := Option.some.inj (hfind.symm.trans hu)
    exact all_iff rfl hfind hstored

/-- After the CA has come to an answer. -/
theorem allOrNothing_receiving {response : Reply} {s₁ : State}
    (hfind : s.users.find? uid = some user) (husers : s₁.users = s.users) :
    UpdateAllOrNothing uid d s (machine.alone i (receiving user d response) sched s₁).1
      (machine.alone i (receiving user d response) sched s₁).2 ↔
      if (sched 0).2 ≠ .throws none ∧ (sched 1).2 = .ok then
        NoneUnexpired uid s₁.publicCertificates (clockAt sched s₁.now 1)
      else s₁.publicCertificates = s.publicCertificates := by
  by_cases hch : (sched 0).2 = .throws none
  · have hexec : exec i (.receive response) (sched 0).2 (tick (sched 0).1 s₁) =
        (.error .external, tick (sched 0).1 s₁) := by
      rw [hch]
      rfl
    have halone : machine.alone i (receiving user d response) sched s₁ =
        (.serverError, tick (sched 0).1 s₁) := (Machine.alone_op hexec).trans rfl
    rw [halone, if_neg (fun h => h.1 hch)]
    exact nothing_iff rfl husers
  · obtain ⟨r, hexec⟩ := exec_receive_of_ne hch i response (tick (sched 0).1 s₁)
    have halone : machine.alone i (receiving user d response) sched s₁ =
        machine.alone i (saving user d) (fun n => sched (n + 1))
          ((tick (sched 0).1 s₁).record (.received i r)) := (Machine.alone_op hexec).trans rfl
    have husers₂ : ((tick (sched 0).1 s₁).record (.received i r)).users = s.users := husers
    rw [halone, allOrNothing_saving hfind husers₂, clockAt_succ]
    simp only [hch, not_false_eq_true, ne_eq, true_and]
    exact Iff.rfl

/-- The clock at the save goes on from the answer of the CA. -/
theorem clockAt_answerIndex (P : Platform) (machineName : String) (n : ℕ) :
    clockAt (fun k => sched (k + answerIndex P machineName i uid sched s))
        (revocationCall P machineName i uid sched s).2.now n =
      clockAt sched s.now (n + answerIndex P machineName i uid sched s) := by
  have hcall := clockAt_operations (i := i) (answer (api P machineName (.revoke ⟨uid⟩)))
    (fun k => sched (k + 3)) (sendState i uid sched s) n
  have hstart : clockAt sched s.now (n + answerIndex P machineName i uid sched s) =
      clockAt (fun k => sched (k + 3)) (sendState i uid sched s).now
        (n + machine.operations i (answer (api P machineName (.revoke ⟨uid⟩)))
          (fun k => sched (k + 3)) (sendState i uid sched s)) := by
    rw [answerIndex, ← Nat.add_assoc, clockAt_succ, clockAt_succ, clockAt_succ]
    rfl
  rw [hstart, hcall]
  rfl

theorem now_le_clockAt (P : Platform) (machineName : String) (n : ℕ) :
    (revocationCall P machineName i uid sched s).2.now ≤
      clockAt sched s.now (n + answerIndex P machineName i uid sched s) := by
  rw [← clockAt_answerIndex]
  exact Nat.le_add_right _ _

/-- What the request to the CA leads to. -/
theorem outcome_of_revocationCall (P : Platform) (machineName : String) (i : ℕ) (uid : String)
    (sched : ℕ → ℕ × Choice) (s : State) :
    RevokeOutcome uid (sendState i uid sched s) (CarriedOut uid (fun k => sched (k + 3)) s)
      (AllExpired (unrevokedCertificates uid s.publicCertificates) (fun k => sched (k + 5))
        (clockAt sched s.now 4))
      (revocationCall P machineName i uid sched s).1
      (revocationCall P machineName i uid sched s).2 := by
  have houtcome := outcome_of_revoke (i := i) P machineName uid (fun k => sched (k + 3))
    (sendState i uid sched s)
  refine houtcome.congr ⟨?_, ?_⟩ ?_
  · exact fun h => ⟨h.valid, h.found, h.succeeds⟩
  · exact fun h => ⟨h.valid, h.found, h.succeeds⟩
  · have htime : clockAt sched s.now 4 =
        clockAt (fun k => sched (k + 3)) (sendState i uid sched s).now 1 := by
      rw [clockAt_succ, clockAt_succ, clockAt_succ]
      rfl
    rw [htime]
    exact Iff.rfl

/-- After the answer and the save, no unexpired certificate is left if and only if the CA has carried
out the revocation, or there was none. -/
theorem noneUnexpired_iff {ok idle : Prop} {reply : Reply} {time : Time}
    (h : RevokeOutcome uid s ok idle reply s') (hle : s'.now ≤ time) :
    NoneUnexpired uid s'.publicCertificates time ↔
      ok ∨ NoneUnexpired uid s.publicCertificates time := by
  cases h with
  | failed hok hreply husers htable => rw [htable, or_iff_right hok]
  | carriedOut hok hidle husers hchosen hcommit =>
    refine iff_of_true ?_ (Or.inl hok)
    intro q hq huid hafter
    have hall : RevokedAll uid s.publicCertificates s.now s.publicCertificates
        s'.publicCertificates s'.now := revokedAll_of_commit hchosen (Extends.refl _) hcommit
    have hkey : q.serialNr ∈ s.publicCertificates.keys := by
      rw [← hall.keys]
      exact Table.key_mem_keys hq
    rcases hall.noneLive (extends_of_commit hcommit) q hq huid hkey with hrev | hexpired
    · exact hrev
    · exact absurd (hexpired.trans_le (hle.trans hafter)) (lt_irrefl _)

/-- The table is as before if and only if the CA has not carried out the revocation, or has revoked
nothing. -/
theorem unchanged_iff {ok idle : Prop} {reply : Reply} (h : RevokeOutcome uid s ok idle reply s') :
    s'.publicCertificates = s.publicCertificates ↔ (ok → idle) := by
  cases h with
  | failed hok hreply husers htable => exact iff_of_true htable fun h => absurd h hok
  | carriedOut hok hidle husers hchosen hcommit =>
    rw [commit_eq_self_iff hchosen hcommit, hidle]
    exact ⟨fun h _ => h, fun h => h hok⟩

/-- An update is all or nothing if and only if the two remote steps agree, once it gets as far as the
request to the CA. -/
theorem update_allOrNothing_iff (P : Platform) (machineName uid : String) (d : UserDetails) (i : ℕ)
    (sched : ℕ → ℕ × Choice) (s : State) :
    UpdateAllOrNothing uid d s
        (machine.alone i (answer (AccountController.update P machineName uid d)) sched s).1
        (machine.alone i (answer (AccountController.update P machineName uid d)) sched s).2 ↔
      ∀ user, Sends uid d sched s user → StepsAgree P machineName i uid sched s := by
  by_cases hsends : ∃ user, Sends uid d sched s user
  · obtain ⟨user, hsends⟩ := hsends
    have hcall := outcome_of_revocationCall P machineName i uid sched s
    have hagree : (∀ user, Sends uid d sched s user → StepsAgree P machineName i uid sched s) ↔
        StepsAgree P machineName i uid sched s := ⟨fun h => h user hsends, fun h _ _ => h⟩
    rw [hagree, alone_of_sends hsends, allOrNothing_receiving hsends.found hcall.users, StepsAgree,
      clockAt_answerIndex, Nat.zero_add, Nat.add_comm _ 1]
    split_ifs with hsaved
    · exact noneUnexpired_iff (s := sendState i uid sched s) hcall (now_le_clockAt P machineName 1)
    · exact unchanged_iff (s := sendState i uid sched s) hcall
  · have hnot : ∀ user, ¬ Sends uid d sched s user := fun user h => hsends ⟨user, h⟩
    exact ⟨fun _ user h => absurd h (hnot user), fun _ => allOrNothing_of_not_sends hnot⟩

end

section

open Deployment

/-- The state after a certificate was issued to `a3`. -/
def certified : State :=
  (machine.alone 0 (answer (api platform "aslcert01" (.issue certRequest))) (fun _ => (0, .ok))
    (installed users)).2

/-- Details with another email address. -/
def newDetails : UserDetails where
  email := "andres@imovies.ch"
  firstName := "Andres"
  lastName := "Anderson"

/-- The answer to an update, and the state that it leaves, when operation `n` throws. -/
def updateThrowingAt (n : ℕ) : Reply × State :=
  machine.alone 1 (answer (AccountController.update platform "aslcert01" "a3" newDetails))
    (fun k => (0, if k = n then .throws none else .ok)) certified

/-- When the CA fails to commit, the update reports success and the certificate stays live.  When the
save fails, the certificate is revoked for nothing. -/
theorem update_not_allOrNothing :
    ¬ UpdateAllOrNothing "a3" newDetails certified (updateThrowingAt 6).1 (updateThrowingAt 6).2 ∧
    ¬ UpdateAllOrNothing "a3" newDetails certified (updateThrowingAt 8).1 (updateThrowingAt 8).2 := by
  constructor
  · have hlive : (updateThrowingAt 6).2.publicCertificates.rows.any (fun p => p.uid == "a3" &&
        decide ((updateThrowingAt 6).2.now ≤ p.parse.notAfter) && !p.isRevoked) = true := by
      decide +kernel
    have hsuccess : (updateThrowingAt 6).1.reportsSuccess = true := by decide +kernel
    obtain ⟨p, hp, hlive⟩ := List.any_eq_true.1 hlive
    simp only [Bool.and_eq_true, beq_iff_eq, decide_eq_true_eq, Bool.not_eq_true'] at hlive
    rintro (⟨-, -, hnone⟩ | ⟨hfalse, -⟩)
    · have hrev := hnone p hp hlive.1.1 hlive.1.2
      rw [hlive.2] at hrev
      cases hrev
    · rw [hsuccess] at hfalse
      cases hfalse
  · have hrevoked : (updateThrowingAt 8).2.publicCertificates.rows.any (·.isRevoked) = true := by
      decide +kernel
    have hbefore : certified.publicCertificates.rows.any (·.isRevoked) = false := by decide +kernel
    have hfailure : (updateThrowingAt 8).1.reportsSuccess = false := by decide +kernel
    rintro (⟨htrue, -⟩ | ⟨-, -, htable⟩)
    · rw [hfailure] at htrue
      cases htrue
    · rw [htable, hbefore] at hrevoked
      cases hrevoked

end

end IMoviesCA
