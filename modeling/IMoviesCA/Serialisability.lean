import IMoviesCA.ChangePassword
import IMoviesCA.Lib.Serial
import Mathlib.Data.List.Permutation

/-!
# Password changes one after another

`PasswordRegister` is the object that `ChangePassword` implements: the stored hash of one user, and
what a request answers and leaves when nothing else is in between.  A request is settled by its
read, when that decides the answer, and by its commit, when it changes the hash
(`Stage`, `stage_of_step`).

`ChangePassword` reads a snapshot and writes without looking at the old hash.  As long as every
commit that changes the hash still finds the one of the old password, the requests of a run are
serialisable (`serialisable_of_run`).
-/

namespace IMoviesCA

open UserDBAuthenticator ChangePasswordController

/-! ## The object -/

/-- What a password change answers and leaves, on the stored hash of its user. -/
inductive HashChange (P : Platform) (r : PasswordChangeRequest) :
    Option String → Reply → Option String → Prop
  | failed {h : Option String} (hvalid : r.isValid = true) : HashChange P r h .serverError h
  | invalid {h : Option String} (hinvalid : r.isValid = false) :
      HashChange P r h (.badRequest none) h
  | unauthorized {h : Option String} (hvalid : r.isValid = true)
      (hh : h ≠ some (computePasswordHash P r.oldPassword)) : HashChange P r h .unauthorized h
  | refused {h : Option String} (hvalid : r.isValid = true)
      (hh : h = some (computePasswordHash P r.oldPassword))
      (hpolicy : meetsPasswordPolicy P r.newPassword = false) :
      HashChange P r h (.badRequest none) h
  | changed {h : Option String} (hvalid : r.isValid = true)
      (hh : h = some (computePasswordHash P r.oldPassword))
      (hpolicy : meetsPasswordPolicy P r.newPassword = true) :
      HashChange P r h .noContent (some (computePasswordHash P r.newPassword))

/-- The stored hash of the user `uid`, and the requests to change it. -/
inductive PasswordRegister (P : Platform) (uid : String) (i : ℕ) :
    Request → Option String → Reply → Option String → Prop
  | change {machineName : String} {r : PasswordChangeRequest} {h h' : Option String} {reply : Reply}
      (huid : r.uid = uid) (hr : HashChange P r h reply h') :
      PasswordRegister P uid i (.api machineName (.changePassword r)) h reply h'

/-- The reply comes with no effect. -/
def Effectless (P : Platform) (r : PasswordChangeRequest) (reply : Reply) : Prop :=
  ∀ h h', HashChange P r h reply h' → h' = h

/-! ## Alone -/

section Alone

variable {P : Platform} {i : ℕ}

/-- One operation that has a value. -/
theorem alone_orServerError_of_run {e : Op} {k : e.Val → Program Op Op.Res Reply} {s s' : State}
    {v : e.Val} (h : e.run i s = (.ok v, s')) :
    machine.alone i (orServerError e k) (fun _ => (0, .ok)) s =
      machine.alone i (k v) (fun _ => (0, .ok)) s' :=
  (Machine.alone_op h).trans rfl

theorem alone_closing (reply : Reply) (s : State) :
    ∃ s', machine.alone i (closing reply) (fun _ => (0, .ok)) s = (reply, s') ∧
      s'.users = s.users := ⟨_, rfl, rfl⟩

theorem alone_executing {r : PasswordChangeRequest} {user : User} {s : State} {t : Table User}
    (h : s.users.commit (passwordHashChange user (computePasswordHash P r.newPassword)) = some t) :
    ∃ s', machine.alone i (executing P r user) (fun _ => (0, .ok)) s = (.noContent, s') ∧
      s'.users = t := by
  have hexecute : (Op.executeUsers (passwordHashChange user
      (computePasswordHash P r.newPassword))).run i s = (.ok (), s) := by
    show (executed s.users _, s) = _
    rw [executed, h]
    rfl
  have hcommit := Op.run_commitUsers (i := i) h
  exact ⟨_, (alone_orServerError_of_run hexecute).trans (alone_orServerError_of_run hcommit), rfl⟩

/-- The change of a row that is there can be committed. -/
theorem exists_commit_passwordHashChange {t : Table User} {user : User} {uid : String}
    (hfind : t.find? uid = some user) (pwd : String) :
    ∃ t', t.commit (passwordHashChange user pwd) = some t' := by
  unfold passwordHashChange
  split_ifs
  · exact ⟨t, rfl⟩
  · have hkey : user.id ∈ t.keys := Table.key_mem_keys (Table.find?_eq_some_iff.1 hfind).1
    rw [← Option.isSome_iff_exists]
    simp [Table.commit, Table.write, hkey]

/-- Up to the read of the row a valid request leaves the state as it is. -/
theorem serves_of_decided {machineName : String} {r : PasswordChangeRequest} {s s' : State}
    {reply : Reply} (hvalid : r.isValid = true)
    (h : machine.alone i (decided P r (s.users.find? r.uid)) (fun _ => (0, .ok))
      (s.record (.userRead i r.uid (s.users.find? r.uid))) = (reply, s')) :
    (system P).Serves i (.api machineName (.changePassword r)) s reply s' := by
  have hhandler : (system P).handler (.api machineName (.changePassword r)) =
      answer (api P machineName (.changePassword r)) := rfl
  unfold System.Serves
  rw [hhandler, answer_api, if_pos hvalid]
  refine ⟨fun _ => (0, .ok), ?_⟩
  refine (alone_orServerError_of_run (e := .mayThrow .beginTransaction) rfl).trans ?_
  exact (alone_orServerError_of_run (e := .findUser r.uid) rfl).trans h

/-- A request that is refused after the read of the row. -/
theorem serves_of_closing {machineName : String} {r : PasswordChangeRequest} {s : State}
    {reply : Reply} (hvalid : r.isValid = true)
    (h : decided P r (s.users.find? r.uid) = closing reply) :
    ∃ s', (system P).Serves i (.api machineName (.changePassword r)) s reply s' ∧
      s'.passwordHashOf r.uid = s.passwordHashOf r.uid := by
  obtain ⟨s', halone, hs'⟩ := alone_closing (i := i) reply
    (s.record (.userRead i r.uid (s.users.find? r.uid)))
  rw [← h] at halone
  refine ⟨s', serves_of_decided hvalid halone, ?_⟩
  rw [State.passwordHashOf, hs']
  rfl

/-- Each step of the object is one that the request can make alone. -/
theorem serves_of_hashChange {machineName : String} {r : PasswordChangeRequest} {s : State}
    {reply : Reply} {h' : Option String} (h : HashChange P r (s.passwordHashOf r.uid) reply h') :
    ∃ s', (system P).Serves i (.api machineName (.changePassword r)) s reply s' ∧
      s'.passwordHashOf r.uid = h' := by
  have hhandler : (system P).handler (.api machineName (.changePassword r)) =
      answer (api P machineName (.changePassword r)) := rfl
  cases h with
  | failed hvalid =>
    refine ⟨s, ⟨fun _ => (0, .throws none), ?_⟩, rfl⟩
    rw [hhandler, answer_api, if_pos hvalid]
    rfl
  | invalid hinvalid =>
    refine ⟨s, ⟨fun _ => (0, .ok), ?_⟩, rfl⟩
    rw [hhandler, answer_api, if_neg (by simp [hinvalid])]
    rfl
  | unauthorized hvalid hh => exact serves_of_closing hvalid (decided_of_unauthenticated P r hh)
  | refused hvalid hh hpolicy =>
    obtain ⟨user, hfind, hpassword⟩ := Option.map_eq_some_iff.1 hh
    apply serves_of_closing hvalid
    rw [hfind, decided_of_authenticated P r hpassword, if_neg (by simp [hpolicy])]
  | changed hvalid hh hpolicy =>
    obtain ⟨user, hfind, hpassword⟩ := Option.map_eq_some_iff.1 hh
    have hdecided : decided P r (s.users.find? r.uid) = executing P r user := by
      rw [hfind, decided_of_authenticated P r hpassword, if_pos hpolicy]
    obtain ⟨t, ht⟩ :=
      exists_commit_passwordHashChange hfind (computePasswordHash P r.newPassword)
    have hrecorded :
        (s.record (.userRead i r.uid (s.users.find? r.uid))).users.commit
          (passwordHashChange user (computePasswordHash P r.newPassword)) = some t := ht
    obtain ⟨s', halone, hs'⟩ := alone_executing (i := i) hrecorded
    rw [← hdecided] at halone
    refine ⟨s', serves_of_decided hvalid halone, ?_⟩
    rw [State.passwordHashOf, hs']
    exact passwordHashIn_of_commit hfind ht

end Alone

/-! ## The stages of a request -/

section Stages

variable {P : Platform} {uid : String}

/-- The request to change a password. -/
def changes (machineName : String) (r : PasswordChangeRequest) : Request :=
  .api machineName (.changePassword r)

/-- What is settled when the row of `user` was read and the new password is accepted: the answer,
when its hash is the one that is stored, and nothing otherwise. -/
def readVerdict (P : Platform) (machineName : String) (r : PasswordChangeRequest) (user : User) :
    Option (Request × Reply) :=
  if user.passwordHash = computePasswordHash P r.newPassword then
    some (changes machineName r, .noContent)
  else none

/-- The rest of the program of a request, and what is settled of it. -/
inductive Stage (P : Platform) (uid : String) :
    Option (Request × Program Op Op.Res Reply) → Option (Request × Reply) → Prop
  | idle : Stage P uid none none
  | opening {m : String} {r : PasswordChangeRequest} (huid : r.uid = uid) (hvalid : r.isValid = true) :
      Stage P uid (some (changes m r,
        orServerError (.mayThrow .beginTransaction) fun _ => reading P r)) none
  | reading {m : String} {r : PasswordChangeRequest} (huid : r.uid = uid) (hvalid : r.isValid = true) :
      Stage P uid (some (changes m r, reading P r)) none
  | executing {m : String} {r : PasswordChangeRequest} {user : User} (huid : r.uid = uid)
      (hvalid : r.isValid = true) (hid : user.id = uid)
      (hpassword : user.passwordHash = computePasswordHash P r.oldPassword)
      (hpolicy : meetsPasswordPolicy P r.newPassword = true) :
      Stage P uid (some (changes m r, executing P r user)) (readVerdict P m r user)
  | committing {m : String} {r : PasswordChangeRequest} {user : User} (huid : r.uid = uid)
      (hvalid : r.isValid = true) (hid : user.id = uid)
      (hpassword : user.passwordHash = computePasswordHash P r.oldPassword)
      (hpolicy : meetsPasswordPolicy P r.newPassword = true) :
      Stage P uid (some (changes m r, committing P r user)) (readVerdict P m r user)
  | closing {m : String} {r : PasswordChangeRequest} {reply : Reply} (huid : r.uid = uid)
      (hvalid : r.isValid = true) (heffect : Effectless P r reply) :
      Stage P uid (some (changes m r, closing reply)) (some (changes m r, reply))
  | ended {m : String} {r : PasswordChangeRequest} {reply : Reply} :
      Stage P uid (some (changes m r, .done reply)) (some (changes m r, reply))

/-- A commit that changes the hash finds the one of the old password. -/
def CommitsCurrentPassword (P : Platform) (a : Act Request Choice ℕ) (c _ : Configuration) : Prop :=
  ∀ i m r ws k, a = .step i .ok → c.procs i = some (.api m (.changePassword r), .op (.commitUsers ws) k) →
    ws ≠ [] → c.shared.passwordHashOf r.uid = some (computePasswordHash P r.oldPassword)

theorem effectless_unauthorized (r : PasswordChangeRequest) : Effectless P r .unauthorized := by
  intro h h' hr
  cases hr
  rfl

theorem effectless_badRequest (r : PasswordChangeRequest) : Effectless P r (.badRequest none) := by
  intro h h' hr
  cases hr <;> rfl

/-- A change to a password with the same hash. -/
theorem effectless_noContent {r : PasswordChangeRequest}
    (hsame : computePasswordHash P r.oldPassword = computePasswordHash P r.newPassword) :
    Effectless P r .noContent := by
  intro h h' hr
  cases hr with
  | changed _ hh => rw [hh, hsame]

/-- A request that fails leaves the hash as it is, whatever was settled. -/
theorem advance_serverError {m : String} {r : PasswordChangeRequest} {i : ℕ} (huid : r.uid = uid)
    (hvalid : r.isValid = true) {o : Option (Request × Reply)} {h : Option String}
    (ho : o = none ∨ ∃ reply, o = some (changes m r, reply) ∧ Effectless P r reply) :
    Advance (PasswordRegister P uid) i o (some (changes m r, .serverError)) h h := by
  rcases ho with rfl | ⟨reply, rfl, heffect⟩
  · exact .settles (.change huid (.failed hvalid))
  · refine .exchanges ?_
    rintro t t' ⟨-, hr⟩
    obtain rfl := heffect _ _ hr
    exact .change huid (.failed hvalid)

theorem readVerdict_cases {m : String} {r : PasswordChangeRequest} {user : User}
    (hpassword : user.passwordHash = computePasswordHash P r.oldPassword) :
    readVerdict P m r user = none ∨ ∃ reply, readVerdict P m r user = some (changes m r, reply) ∧
      Effectless P r reply := by
  unfold readVerdict
  split_ifs with hsame
  · exact Or.inr ⟨_, rfl, effectless_noContent (hpassword.symm.trans hsame)⟩
  · exact Or.inl rfl

/-- One operation of a request: it fails, or the request goes on with its value. -/
theorem stage_of_op {m : String} {r : PasswordChangeRequest} {e : Op}
    {k : e.Val → Program Op Op.Res Reply} {b b' : Configuration} {i : ℕ} {ch : Choice}
    {o : Option (Request × Reply)} (he : e.Throws) (huid : r.uid = uid) (hvalid : r.isValid = true)
    (hb : b.procs i = some (changes m r, orServerError e k))
    (ha : (system P).step (.step i ch) b = some b')
    (ho : o = none ∨ ∃ reply, o = some (changes m r, reply) ∧ Effectless P r reply)
    (h : ch = .ok → ∀ v s', e.run i b.shared = (.ok v, s') →
      ∃ o', Stage P uid (some (changes m r, k v)) o' ∧ Advance (PasswordRegister P uid) i o o'
        (b.shared.passwordHashOf uid) (s'.passwordHashOf uid)) :
    ∃ o', Stage P uid (b'.procs i) o' ∧ Advance (PasswordRegister P uid) i o o'
      (b.shared.passwordHashOf uid) (b'.shared.passwordHashOf uid) := by
  rw [System.step_op hb] at ha
  obtain rfl := Option.some.inj ha
  dsimp only
  have hexec : (system P).exec i e ch b.shared = exec i e ch b.shared := rfl
  rw [Function.update_self, hexec]
  cases hx : exec i e ch b.shared with
  | mk x s' =>
    cases x with
    | ok v =>
      cases ch with
      | ok => exact h rfl v s' hx
      | throws written =>
        rw [exec, he written] at hx
        cases hx
    | error f =>
      refine ⟨_, .ended, ?_⟩
      have hhash : s'.passwordHashOf uid = b.shared.passwordHashOf uid := by
        rw [State.passwordHashOf, users_of_error hx]
        rfl
      dsimp only
      rw [hhash]
      exact advance_serverError huid hvalid ho

/-- The read of the row settles the request, unless it will change the hash. -/
theorem stage_of_read {m : String} {r : PasswordChangeRequest} {i : ℕ} {s : State}
    (huid : r.uid = uid) (hvalid : r.isValid = true) :
    ∃ o', Stage P uid (some (changes m r, decided P r (s.users.find? r.uid))) o' ∧
      Advance (PasswordRegister P uid) i none o' (s.passwordHashOf uid) (s.passwordHashOf uid) := by
  subst huid
  by_cases hauth : s.passwordHashOf r.uid = some (computePasswordHash P r.oldPassword)
  · obtain ⟨user, hfind, hpassword⟩ := Option.map_eq_some_iff.1 hauth
    rw [hfind, decided_of_authenticated P r hpassword]
    split_ifs with hpolicy
    · have hid : user.id = r.uid := (Table.find?_eq_some_iff.1 hfind).2
      refine ⟨_, .executing rfl hvalid hid hpassword hpolicy, ?_⟩
      unfold readVerdict
      split_ifs with hsame
      · have hkept : HashChange P r (s.passwordHashOf r.uid) .noContent (s.passwordHashOf r.uid) := by
          have hchanged := HashChange.changed hvalid hauth hpolicy
          rw [← hsame, hpassword, ← hauth] at hchanged
          exact hchanged
        exact .settles (.change rfl hkept)
      · exact .stays
    · refine ⟨_, .closing rfl hvalid (effectless_badRequest r), .settles (.change rfl ?_)⟩
      exact .refused hvalid hauth (by simpa using hpolicy)
  · rw [decided_of_unauthenticated P r hauth]
    exact ⟨_, .closing rfl hvalid (effectless_unauthorized r),
      .settles (.change rfl (.unauthorized hvalid hauth))⟩

/-- The commit settles a request that changes the hash. -/
theorem stage_of_commit {m : String} {r : PasswordChangeRequest} {user : User} {i : ℕ} {s s' : State}
    {v : (Op.commitUsers (passwordHashChange user (computePasswordHash P r.newPassword))).Val}
    (huid : r.uid = uid) (hvalid : r.isValid = true) (hid : user.id = uid)
    (hpolicy : meetsPasswordPolicy P r.newPassword = true)
    (hrun : (Op.commitUsers (passwordHashChange user (computePasswordHash P r.newPassword))).run i s =
      (.ok v, s'))
    (hcurrent : passwordHashChange user (computePasswordHash P r.newPassword) ≠ [] →
      s.passwordHashOf uid = some (computePasswordHash P r.oldPassword)) :
    Advance (PasswordRegister P uid) i (readVerdict P m r user) (some (changes m r, .noContent))
      (s.passwordHashOf uid) (s'.passwordHashOf uid) := by
  simp only [Op.run] at hrun
  split at hrun
  · rename_i t hcommit
    obtain ⟨-, rfl⟩ := Prod.mk.inj hrun
    show Advance _ i _ _ _ (passwordHashIn t uid)
    unfold readVerdict
    split_ifs with hsame
    · rw [passwordHashChange, if_pos hsame] at hcommit
      obtain rfl : s.users = t := Option.some.inj hcommit
      exact .stays
    · rw [passwordHashChange, if_neg hsame] at hcommit hcurrent
      obtain ⟨u, -, hu⟩ := mem_of_commit_update hcommit
      have hnew : passwordHashIn t uid = some (computePasswordHash P r.newPassword) := by
        rw [passwordHashIn, ← hid, hu]
        rfl
      rw [hnew]
      exact .settles (.change huid (.changed hvalid (hcurrent (by simp)) hpolicy))
  · cases hrun

/-- A request arrives. -/
theorem stage_of_arrive {m : String} {r : PasswordChangeRequest} {b b' : Configuration} {i : ℕ}
    {o : Option (Request × Reply)} (huid : r.uid = uid)
    (ha : (system P).step (.arrive i (changes m r)) b = some b') (h : Stage P uid (b.procs i) o) :
    ∃ o', Stage P uid (b'.procs i) o' ∧ Advance (PasswordRegister P uid) i o o'
      (b.shared.passwordHashOf uid) (b'.shared.passwordHashOf uid) := by
  cases System.step_cases ha with
  | arrive hidle =>
    rw [hidle] at h
    cases h
    dsimp only
    rw [Function.update_self]
    have hhandler : (system P).handler (changes m r) = answer (api P m (.changePassword r)) := rfl
    rw [hhandler, answer_api]
    split_ifs with hvalid
    · exact ⟨none, .opening huid hvalid, .stays⟩
    · exact ⟨_, .ended, .settles (.change huid (.invalid (by simpa using hvalid)))⟩

/-- One action of a process, in a run in which only this user's password is changed. -/
theorem stage_of_step {a : Act Request Choice ℕ} {b b' : Configuration} {i : ℕ}
    {o : Option (Request × Reply)} (hi : a.process = some i) (ha : (system P).step a b = some b')
    (harrive : ∀ req, a = .arrive i req → ∃ m r, req = changes m r ∧ r.uid = uid)
    (hcurrent : CommitsCurrentPassword P a b b') (h : Stage P uid (b.procs i) o) :
    ∃ o', Stage P uid (b'.procs i) o' ∧ Advance (PasswordRegister P uid) i o o'
      (b.shared.passwordHashOf uid) (b'.shared.passwordHashOf uid) := by
  cases a with
  | arrive j req =>
    obtain rfl := Option.some.inj hi
    obtain ⟨m, r, rfl, huid⟩ := harrive req rfl
    exact stage_of_arrive huid ha h
  | step j ch =>
    obtain rfl := Option.some.inj hi
    generalize hb : b.procs j = proc at h
    cases h with
    | idle =>
      simp only [System.step, hb] at ha
      cases ha
    | opening huid hvalid =>
      refine stage_of_op (fun _ => rfl) huid hvalid hb ha (Or.inl rfl) fun _ v s' hrun => ?_
      obtain ⟨-, rfl⟩ := Prod.mk.inj hrun
      exact ⟨_, .reading huid hvalid, .stays⟩
    | reading huid hvalid =>
      refine stage_of_op (fun _ => rfl) huid hvalid hb ha (Or.inl rfl) fun _ v s' hrun => ?_
      obtain ⟨hv, rfl⟩ := Prod.mk.inj hrun
      obtain rfl := Except.ok.inj hv
      exact stage_of_read huid hvalid
    | executing huid hvalid hid hpassword hpolicy =>
      refine stage_of_op (fun _ => rfl) huid hvalid hb ha (readVerdict_cases hpassword)
        fun _ v s' hrun => ?_
      obtain ⟨-, rfl⟩ := Prod.mk.inj hrun
      exact ⟨_, .committing huid hvalid hid hpassword hpolicy, .stays⟩
    | @committing m r user huid hvalid hid hpassword hpolicy =>
      refine stage_of_op (fun _ => rfl) huid hvalid hb ha (readVerdict_cases hpassword)
        fun hch v s' hrun => ?_
      subst hch
      refine ⟨_, .ended, stage_of_commit huid hvalid hid hpolicy hrun fun hne => ?_⟩
      rw [← huid]
      exact hcurrent j m r _ _ rfl hb hne
    | closing huid hvalid heffect =>
      refine stage_of_op (fun _ => rfl) huid hvalid hb ha (Or.inr ⟨_, rfl, heffect⟩) fun _ v s' hrun => ?_
      obtain ⟨-, rfl⟩ := Prod.mk.inj hrun
      exact ⟨_, .ended, .stays⟩
    | ended =>
      simp only [System.step, hb] at ha
      cases ha
  | env d => cases hi

end Stages

/-! ## Runs -/

/-- Two requests with the same old password, and no other one, are not both answered with 204
unless one of them keeps the hash. -/
def NotBothAccepted (P : Platform) (c : Configuration) : Prop :=
  ∀ i j m m' r r', i ≠ j → r.uid = r'.uid → r.oldPassword = r'.oldPassword →
    c.procs i = some (changes m r, .done .noContent) →
    c.procs j = some (changes m' r', .done .noContent) →
    (∀ n, c.procs n ≠ none → n = i ∨ n = j) →
    computePasswordHash P r.newPassword = computePasswordHash P r.oldPassword ∨
      computePasswordHash P r'.newPassword = computePasswordHash P r'.oldPassword

/-- What one expects of any number of password changes of one user. -/
structure SerialisableChanges (P : Platform) (uid : String) (s₀ : State) (c : Configuration) :
    Prop where
  serialisable : (system P).Serialisable (fun s => s.passwordHashOf uid) s₀ c
  notBothAccepted : NotBothAccepted P c

variable {P : Platform} {uid : String} {s₀ : State} {c : Configuration}

theorem oldHash_of_accepted {r : PasswordChangeRequest} {s s' : State} (h : Accepted P r s s') :
    s.passwordHashOf r.uid = some (computePasswordHash P r.oldPassword) := by
  obtain ⟨-, user, hfind, hpassword, -⟩ := changed_of_accepted h
  rw [State.passwordHashOf, hfind, Option.map_some, hpassword]

theorem accepted_of_serves {i : ℕ} {m : String} {r : PasswordChangeRequest} {s s' : State}
    (h : (system P).Serves i (changes m r) s .noContent s') : Accepted P r s s' := by
  obtain ⟨sched, halone⟩ := h
  exact ⟨i, m, sched, halone⟩

/-- The first of two accepted changes with the same old password kept the hash. -/
theorem keepsHash_of_serial {i j : ℕ} {m m' : String} {r r' : PasswordChangeRequest} {s' : State}
    (huid : r.uid = r'.uid) (hold : r.oldPassword = r'.oldPassword)
    (h : Serial (system P).Serves [(i, changes m r, .noContent), (j, changes m' r', .noContent)]
      s₀ s') : computePasswordHash P r.newPassword = computePasswordHash P r.oldPassword := by
  cases h with
  | cons hfirst hrest =>
    cases hrest with
    | cons hsecond =>
      have hnew := (passwordHashOf_of_accepted (accepted_of_serves hfirst)).2
      have hcurrent := oldHash_of_accepted (accepted_of_serves hsecond)
      rw [← huid, ← hold, hnew] at hcurrent
      exact Option.some.inj hcurrent

theorem notBothAccepted_of_serialisable
    (h : (system P).Serialisable (fun s => s.passwordHashOf uid) s₀ c) : NotBothAccepted P c := by
  intro i j m m' r r' hij huid hold hi hj honly
  obtain ⟨order, s', hserial, hnodup, hprocs, -⟩ := h
  have hmem : ∀ e, e ∈ order ↔
      e ∈ [(i, changes m r, Reply.noContent), (j, changes m' r', Reply.noContent)] := by
    rintro ⟨n, req, a⟩
    have hdone : (n, req, a) ∈ order ↔ c.procs n = some (req, .done a) := by
      rw [hprocs]
      simp
    rw [hdone]
    simp only [List.mem_cons, List.not_mem_nil, or_false, Prod.mk.injEq]
    constructor
    · intro hn
      rcases honly n (by simp [hn]) with rfl | rfl
      · rw [hi] at hn
        simp_all
      · rw [hj] at hn
        simp_all
    · rintro (⟨rfl, rfl, rfl⟩ | ⟨rfl, rfl, rfl⟩)
      · exact hi
      · exact hj
  have hperm : order.Perm [(i, changes m r, .noContent), (j, changes m' r', .noContent)] := by
    refine (List.perm_ext_iff_of_nodup (List.Nodup.of_map _ hnodup) ?_).2 hmem
    simp [hij]
  rcases List.perm_pair.1 hperm with rfl | rfl
  · exact Or.inl (keepsHash_of_serial huid hold hserial)
  · exact Or.inr (keepsHash_of_serial huid.symm hold.symm hserial)

/-- In a run of password changes of one user in which every commit that changes the hash finds the
one of the old password, the requests are serialisable. -/
theorem serialisable_of_run (P : Platform) (uid : String) {s₀ : State}
    {as : List (Act Request Choice ℕ)} {c : Configuration}
    (hrun : (system P).run as (.initial s₀) = some c)
    (harrive : ∀ i req, .arrive i req ∈ as →
      ∃ m r, req = .api m (.changePassword r) ∧ r.uid = uid)
    (hended : ∀ i req p, c.procs i = some (req, p) → ∃ reply, p = .done reply)
    (halong : (system P).Along (CommitsCurrentPassword P) as (.initial s₀)) :
    SerialisableChanges P uid s₀ c := by
  suffices h : (system P).Serialisable (fun s => s.passwordHashOf uid) s₀ c from
    ⟨h, notBothAccepted_of_serialisable h⟩
  obtain ⟨order, verdict, hlin, hstage⟩ := System.linearises_of_run
    (fun s : State => s.passwordHashOf uid) (PasswordRegister P uid) (Stage P uid) .idle
    (fun _ _ => rfl)
    (fun a b b' i o hi ha hQ hs =>
      stage_of_step hi ha (fun req hreq => harrive i req (hreq ▸ hQ.1)) hQ.2 hs)
    hrun (halong.mem fun a ha => ha)
  have hsim : ∀ {e : ℕ × Request × Reply} {t : State} {h' : Option String}, e ∈ order →
      PasswordRegister P uid e.1 e.2.1 (t.passwordHashOf uid) e.2.2 h' →
      ∃ t', (system P).Serves e.1 e.2.1 t e.2.2 t' ∧ t'.passwordHashOf uid = h' := by
    rintro ⟨i, req, reply⟩ t h' - hchange
    cases hchange with
    | change huid hr =>
      subst huid
      exact serves_of_hashChange hr
  obtain ⟨s', hserial, hview⟩ := hlin.serial.simulates hsim
  refine ⟨order, s', hserial, hlin.nodup, ?_, hview⟩
  intro i req p
  have hi := hstage i
  constructor
  · intro hp
    obtain ⟨reply, rfl⟩ := hended i req p hp
    rw [hp] at hi
    generalize hv : verdict i = v at hi
    cases hi with
    | ended => exact ⟨_, rfl, (hlin.mem_iff i _).2 hv⟩
  · rintro ⟨reply, rfl, hmem⟩
    rw [(hlin.mem_iff i _).1 hmem] at hi
    generalize hp : c.procs i = proc at hi
    cases proc with
    | none => cases hi
    | some proc =>
      obtain ⟨req', p⟩ := proc
      obtain ⟨reply', rfl⟩ := hended i req' p hp
      cases hi
      rfl

section

open Deployment

/-- A password change is about to be committed for the old password that is stored. -/
def checksCurrentPassword (P : Platform) (a : Act Request Choice ℕ) (c : Configuration) : Bool :=
  match a with
  | .step i .ok =>
      match c.procs i with
      | some (.api _ (.changePassword r), .op (.commitUsers ws) _) => ws.isEmpty ||
          decide (c.shared.passwordHashOf r.uid = some (computePasswordHash P r.oldPassword))
      | _ => true
  | _ => true

theorem commitsCurrentPassword_of_checks {P : Platform} (a : Act Request Choice ℕ)
    (c c' : Configuration) (h : checksCurrentPassword P a c = true) :
    CommitsCurrentPassword P a c c' := by
  rintro i m r ws k rfl hk hne
  simp only [checksCurrentPassword, hk, Bool.or_eq_true, List.isEmpty_iff] at h
  exact of_decide_eq_true (h.resolve_left hne)

/-- Two requests with the same old and new password; the second one reads after the first one
commits. -/
def changesInTurn : List (Act Request Choice ℕ) :=
  .arrive 0 changeRequest :: .arrive 1 changeRequest :: (steps 0 1 ++ steps 1 1 ++ steps 0 3 ++ steps 1 2)

/-- The same two requests; both read before either commits. -/
def changesAtOnce : List (Act Request Choice ℕ) :=
  .arrive 0 changeRequest :: .arrive 1 changeRequest :: (steps 0 2 ++ steps 1 2 ++ steps 0 2 ++ steps 1 2)

theorem arrive_of_mem {as : List (Act Request Choice ℕ)}
    (h : ∀ a ∈ as, a = .arrive 0 changeRequest ∨ a = .arrive 1 changeRequest ∨ ∃ i, a = .step i .ok)
    (i : ℕ) (req : Request) (hi : .arrive i req ∈ as) :
    ∃ m r, req = .api m (.changePassword r) ∧ r.uid = "a3" := by
  rcases h _ hi with heq | heq | ⟨j, heq⟩
  · exact ⟨_, _, (Act.arrive.inj heq).2, rfl⟩
  · exact ⟨_, _, (Act.arrive.inj heq).2, rfl⟩
  · cases heq

theorem serialisable_in_turn : ∃ c : Configuration,
    (c.procs 0).map Prod.snd = some (.done .noContent) ∧
    (c.procs 1).map Prod.snd = some (.done .unauthorized) ∧
      SerialisableChanges platform "a3" (installed users) c := by
  have hrun : ((system platform).run changesInTurn (.initial (installed users))).map (fun c =>
      decide (c.answer 0 = some (changeRequest, .noContent)) &&
        decide (c.answer 1 = some (changeRequest, .unauthorized))) = some true := by decide +kernel
  have halong : (system platform).Along (CommitsCurrentPassword platform) changesInTurn
      (.initial (installed users)) :=
    System.along_of_tests commitsCurrentPassword_of_checks (by decide +kernel)
  obtain ⟨c, hc, hcheck⟩ := Option.map_eq_some_iff.1 hrun
  rw [Bool.and_eq_true] at hcheck
  have hzero := Config.procs_of_answer (of_decide_eq_true hcheck.1)
  have hone := Config.procs_of_answer (of_decide_eq_true hcheck.2)
  have hended := ended_of_two hc (by decide) hzero hone
  refine ⟨c, by rw [hzero]; rfl, by rw [hone]; rfl, ?_⟩
  exact serialisable_of_run platform "a3" hc
    (arrive_of_mem (by simp [changesInTurn, steps])) hended halong

/-- Two requests with the same old password are both answered with 204. -/
theorem both_accepted : ¬ ∀ (P : Platform) (uid : String) (s₀ : State)
    (as : List (Act Request Choice ℕ)) (c : Configuration),
    (system P).run as (.initial s₀) = some c →
    (∀ i req, .arrive i req ∈ as → ∃ m r, req = .api m (.changePassword r) ∧ r.uid = uid) →
    (∀ i req p, c.procs i = some (req, p) → ∃ reply, p = .done reply) →
      SerialisableChanges P uid s₀ c := by
  intro hclaim
  have hrun : ((system platform).run changesAtOnce (.initial (installed users))).map (fun c =>
      noContent c 0 && noContent c 1) = some true := by decide +kernel
  obtain ⟨c, hc, hcheck⟩ := Option.map_eq_some_iff.1 hrun
  rw [Bool.and_eq_true] at hcheck
  have hzero := Config.procs_of_answer (of_decide_eq_true hcheck.1)
  have hone := Config.procs_of_answer (of_decide_eq_true hcheck.2)
  have hended := ended_of_two hc (by decide) hzero hone
  have hclaimed := hclaim platform "a3" (installed users) changesAtOnce c hc
    (arrive_of_mem (by simp [changesAtOnce, steps])) hended
  have hne : computePasswordHash platform "sunny-harbour-42" ≠
      computePasswordHash platform "Astrid" := by decide
  have hkeeps := hclaimed.notBothAccepted 0 1 _ _ passwordRequest passwordRequest (by decide) rfl rfl
    hzero hone fun n hn => eq_or_eq_of_procs hc (by decide) hn
  rcases hkeeps with h | h
  · exact hne h
  · exact hne h

end

end IMoviesCA
