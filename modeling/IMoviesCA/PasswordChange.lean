import IMoviesCA.StoredKey

/-!
# Password changes

`ChangePassword` writes the one column that it changed.  `AccountController.Update` writes every
column of the row as it read it, after a call to the CA, and so it can bring an old password back.
As long as every save finds the password hash that its request had read, no password change is lost
(`passwordChange_kept`).
-/

namespace IMoviesCA

open UserDBAuthenticator AccountController

variable {P : Platform} {s₀ : State} {c c' : Configuration} {uid pwd : String}

/-! ## The writes of `users` -/

/-- The stored password hash of a user. -/
def State.passwordHashOf (s : State) (uid : String) : Option String :=
  (s.users.find? uid).map User.passwordHash

/-- A commit of `ChangePassword` that changes the password of a user. -/
def Event.ChangesPassword (uid : String) : Event → Prop
  | .usersCommitted _ ws => ∃ pwd, .update uid (.passwordHash pwd) ∈ ws
  | _ => False

/-- The row of the user has the password hash: it was written, or it was read. -/
def Event.ShowsPassword (uid pwd : String) : Event → Prop
  | .usersCommitted _ ws => .update uid (.passwordHash pwd) ∈ ws
  | .userRead _ uid' user => uid' = uid ∧ user.map User.passwordHash = some pwd
  | _ => False

/-- Process `i` is about to save the form of `AccountController.Update`, and had read `user`. -/
def SavesDetails (c : Configuration) (i : ℕ) (user : User) : Prop :=
  ∃ machineName uid d ws k, c.procs i = some (.web machineName uid (.update d), .op (.commitUsers ws) k) ∧
    (c.shared.own i).getLast? = some (.userRead i uid (some user))

/-- A save that is carried out finds the password hash that its request had read. -/
def SavesCurrentHash (a : Act Request Choice ℕ) (c _ : Configuration) : Prop :=
  ∀ i user, a = .step i .ok → SavesDetails c i user →
    c.shared.passwordHashOf user.id = some user.passwordHash

theorem mem_of_commit_update {t t' : Table User} {uid : String} {patch : UserPatch}
    (h : t.commit [.update uid patch] = some t') : ∃ u, t.find? uid = some u ∧
      t'.find? uid = some (Record.patch patch u) := by
  cases hfind : t.find? uid with
  | none =>
    have hkey : uid ∉ t.keys := Table.find?_eq_none_iff.1 hfind
    simp [Table.commit, Table.write, hkey] at h
  | some u =>
    refine ⟨u, rfl, ?_⟩
    rw [Table.find?_patched_of_commit h hfind]
    have hkey : Record.key u = uid := (Table.find?_eq_some_iff.1 hfind).2
    simp [Table.patchedBy, hkey]

theorem find?_of_update {t t' : Table User} {uid uid' : String} {patch : UserPatch}
    (h : t.commit [.update uid patch] = some t') (hne : uid ≠ uid') : t'.find? uid' = t.find? uid' := by
  apply Table.find?_of_commit h
  intro w hw
  obtain rfl := List.mem_singleton.1 hw
  exact hne

/-- A save that finds the password hash that was read leaves every password as it is. -/
theorem passwordHashOf_saved {s : State} {t : Table User} {user : User} {d : UserDetails}
    (h : s.users.commit (savedDetails user d) = some t)
    (hcurrent : s.passwordHashOf user.id = some user.passwordHash) (uid : String) :
    (t.find? uid).map User.passwordHash = s.passwordHashOf uid := by
  by_cases hu : user.id = uid
  · subst hu
    obtain ⟨u, -, hu'⟩ := mem_of_commit_update h
    rw [hcurrent]
    show (t.find? (withDetails user d).id).map User.passwordHash = some user.passwordHash
    rw [hu']
    rfl
  · rw [find?_of_update h hu]
    rfl

theorem getLast?_of_cons {α : Type} {a b : α} {l : List α} (hne : a ≠ b)
    (h : (a :: l).getLast? = some b) : l.getLast? = some b := by
  cases l with
  | nil => exact absurd (Option.some.inj h) hne
  | cons a' l => exact h

/-- What a commit to `users` does to the stored password of a user. -/
theorem passwordHashOf_commit {req : Request} {i : ℕ} {ws : List UserWrite} {t : Table User}
    (hm : Move P c c' req (.usersCommitted i ws)) (hc : c.shared.users.commit ws = some t)
    (hsave : ∀ machineName uid d user, req = .web machineName uid (.update d) →
      (c.shared.own i).getLast? = some (.userRead i uid (some user)) →
      c.shared.passwordHashOf user.id = some user.passwordHash) (uid : String) :
    (∃ pwd, ws = [.update uid (.passwordHash pwd)] ∧
      (t.find? uid).map User.passwordHash = some pwd) ∨
    ((t.find? uid).map User.passwordHash = c.shared.passwordHashOf uid ∧
      ∀ pwd, .update uid (.passwordHash pwd) ∉ ws) := by
  rcases mem_trace hm.trace List.mem_cons_self with ⟨m, r, evs, -, htrace, -, he⟩ | hweb
  · obtain ⟨-, r', -, rfl | ⟨user, -, rfl, -⟩⟩ := usersCommitted_cases htrace he
    · obtain rfl : c.shared.users = t := Option.some.inj hc
      exact Or.inr ⟨rfl, fun pwd => List.not_mem_nil⟩
    · unfold passwordHashChange at hc ⊢
      by_cases hsame : user.passwordHash = computePasswordHash P r'.newPassword
      · rw [if_pos hsame] at hc ⊢
        obtain rfl : c.shared.users = t := Option.some.inj hc
        exact Or.inr ⟨rfl, fun pwd => List.not_mem_nil⟩
      · rw [if_neg hsame] at hc ⊢
        by_cases hu : user.id = uid
        · subst hu
          obtain ⟨u, -, hu'⟩ := mem_of_commit_update hc
          refine Or.inl ⟨_, rfl, ?_⟩
          rw [hu']
          rfl
        · refine Or.inr ⟨?_, ?_⟩
          · rw [find?_of_update hc hu]
            rfl
          · intro pwd hmem
            obtain ⟨hid, -⟩ := Write.update.inj (List.mem_singleton.1 hmem)
            exact hu hid.symm
  · cases hweb with
    | @saved machineName uid' d user hid hread =>
      have hlast := getLast?_of_cons (by simp) hread
      refine Or.inr ⟨passwordHashOf_saved hc (hsave _ _ _ _ rfl hlast) uid, fun pwd hmem => ?_⟩
      cases (List.mem_singleton.1 hmem)

/-! ## Runs -/

/-- Since an event that shows a password hash, it is the stored one, unless the password was
changed again. -/
def PasswordsKept (s : State) : Prop :=
  ∀ uid pwd later e earlier, s.history = later ++ e :: earlier → e.ShowsPassword uid pwd →
    (∀ e' ∈ later, ¬ e'.ChangesPassword uid) → s.passwordHashOf uid = some pwd

/-- A save by this event finds the password hash that its request had read. -/
def FindsCurrentHash (c : Configuration) (req : Request) (e : Event) : Prop :=
  ∀ ws machineName uid d user, e = .usersCommitted e.pid ws →
    req = .web machineName uid (.update d) →
    (c.shared.own e.pid).getLast? = some (.userRead e.pid uid (some user)) →
    c.shared.passwordHashOf user.id = some user.passwordHash

theorem passwordHashOf_of_shows {req : Request} {e : Event} (hm : Move P c c' req e)
    (hsave : FindsCurrentHash c req e) (hshows : e.ShowsPassword uid pwd) :
    c'.shared.passwordHashOf uid = some pwd := by
  have hocc := hm.occurs
  generalize hs' : c'.shared = s' at hocc
  generalize hs : c.shared = s at hocc
  cases hocc with
  | @usersCommitted i ws _ t hc =>
    subst hs
    have hcases := passwordHashOf_commit hm hc
      (fun m uid d user hreq hread => hsave ws m uid d user rfl hreq hread) uid
    show (t.find? uid).map User.passwordHash = some pwd
    rcases hcases with ⟨pwd', rfl, hpwd⟩ | ⟨-, hnot⟩
    · obtain ⟨-, heq⟩ := Write.update.inj (List.mem_singleton.1 hshows)
      rw [hpwd, UserPatch.passwordHash.inj heq]
    · exact absurd hshows (hnot pwd)
  | userRead =>
    obtain ⟨rfl, hpwd⟩ := hshows
    exact hpwd
  | _ => cases hshows

theorem passwordHashOf_of_move {req : Request} {e : Event} (hm : Move P c c' req e)
    (hsave : FindsCurrentHash c req e) (hnot : ¬ e.ChangesPassword uid) :
    c'.shared.passwordHashOf uid = c.shared.passwordHashOf uid := by
  have hocc := hm.occurs
  generalize hs' : c'.shared = s' at hocc
  generalize hs : c.shared = s at hocc
  cases hocc with
  | @usersCommitted i ws _ t hc =>
    subst hs
    rcases passwordHashOf_commit hm hc
      (fun m uid d user hreq hread => hsave ws m uid d user rfl hreq hread) uid with
      ⟨pwd', rfl, -⟩ | ⟨hsame, -⟩
    · exact absurd ⟨pwd', List.mem_singleton.2 rfl⟩ hnot
    · exact hsame
  | _ => rfl

theorem passwordsKept_move {req : Request} {e : Event} (hm : Move P c c' req e)
    (hsave : FindsCurrentHash c req e) (h : PasswordsKept c.shared) :
    PasswordsKept c'.shared := by
  intro uid pwd later e₁ earlier hhist hshows hlater
  rw [hm.occurs.history] at hhist
  cases later with
  | nil =>
    obtain ⟨rfl, -⟩ := List.cons.inj hhist
    exact passwordHashOf_of_shows hm hsave hshows
  | cons e₂ later =>
    obtain ⟨rfl, htail⟩ := List.cons.inj hhist
    rw [passwordHashOf_of_move hm hsave (hlater _ List.mem_cons_self)]
    exact h uid pwd later e₁ earlier htail hshows fun e' he' =>
      hlater e' (List.mem_cons_of_mem _ he')

theorem passwordsKept_of_run (h₀ : s₀.history = []) {as : List (Act Request Choice ℕ)}
    (hrun : (system P).run as (.initial s₀) = some c)
    (halong : (system P).Along SavesCurrentHash as (.initial s₀)) : PasswordsKept c.shared := by
  refine System.run_induction (I := fun c => PasswordsKept c.shared) ?_ ?_ hrun halong
  · intro uid pwd later e earlier hhist
    have hnil : s₀.history = later ++ e :: earlier := hhist
    rw [h₀] at hnil
    cases later <;> cases hnil
  · intro a b b' hreach hkept ha hcurrent
    rcases moves_of_step h₀ hreach ha with hs | ⟨d, hs⟩ | ⟨req, e, ch, rfl, hm⟩
    · rw [hs]
      exact hkept
    · rw [hs]
      exact hkept
    · refine passwordsKept_move hm ?_ hkept
      rintro ws m uid d user he rfl hread
      have hop : e.commitOp = some (.commitUsers ws) := by
        rw [he]
        rfl
      obtain ⟨rfl, k, hk⟩ := op_of_step ha hm.occurs hop hm.request
      exact hcurrent e.pid user rfl ⟨m, uid, d, ws, k, hk, hread⟩

/-! ## Answered changes -/

/-- `ChangePassword` answered process `i` with 204: its own request, or its call of the CA. -/
inductive Answered204 (c : Configuration) (i : ℕ) : PasswordChangeRequest → Prop
  | api {machineName : String} {r : PasswordChangeRequest}
      (h : c.procs i = some (.api machineName (.changePassword r), .done .noContent)) :
      Answered204 c i r
  | web {machineName uid : String} {d : UpdatePasswordDetails}
      (h : c.request i = some (.web machineName uid (.updatePassword d)))
      (hreceived : .received i .noContent ∈ c.shared.own i) :
      Answered204 c i ⟨uid, d.oldPassword, d.newPassword⟩

theorem events_of_answered (h₀ : s₀.history = []) (h : (system P).Reaches (.initial s₀) c) {i : ℕ}
    {r : PasswordChangeRequest} (hdone : Answered204 c i r) :
    ∃ user, Authenticated P r.uid r.oldPassword user ∧
      passwordChangeEvents P i r user ⊆ c.shared.own i := by
  cases hdone with
  | @api m r hi =>
    have hanswer : ChangePasswordAnswer P i r .noContent (c.shared.own i) :=
      answer_of_reaches h₀ h hi
    obtain ⟨user, huser, hevs⟩ := hanswer rfl
    refine ⟨user, huser, ?_⟩
    rw [hevs]
    exact List.Subset.refl _
  | @web m uid d hreq hreceived =>
    have htrace : CallTrace P i m (.changePassword ⟨uid, d.oldPassword, d.newPassword⟩)
        (c.shared.own i) := trace_of_reaches h₀ h hreq
    generalize c.shared.own i = evs at htrace hreceived
    cases htrace with
    | running htrace => cases htrace <;> simp [passwordChangeEvents] at hreceived
    | @received evs reply htrace hanswer =>
      have hnot : .received i .noContent ∉ evs := by
        cases htrace <;> simp [passwordChangeEvents]
      obtain rfl : Reply.noContent = reply := by
        rcases List.mem_cons.1 hreceived with heq | hmem
        · exact (Event.received.inj heq).2
        · exact absurd hmem hnot
      obtain ⟨user, huser, hevs⟩ := hanswer.of_ne (by simp) rfl
      refine ⟨user, huser, ?_⟩
      rw [hevs]
      exact List.subset_cons_self _ _

/-- In a run in which every save finds the password hash that its request had read, an answered
password change is not lost: there is an event of the request from which on the new password is the
stored one, unless the password was changed again. -/
theorem passwordChange_kept (P : Platform) {s₀ : State} (h₀ : s₀.history = [])
    {as : List (Act Request Choice ℕ)} {c : Configuration}
    (hrun : (system P).run as (.initial s₀) = some c)
    (halong : (system P).Along SavesCurrentHash as (.initial s₀)) {i : ℕ}
    {r : PasswordChangeRequest} (hdone : Answered204 c i r) :
    ∃ later e earlier, c.shared.history = later ++ e :: earlier ∧ e.pid = i ∧
      e.ShowsPassword r.uid (computePasswordHash P r.newPassword) ∧
      ((∀ e' ∈ later, ¬ e'.ChangesPassword r.uid) →
        c.shared.passwordHashOf r.uid = some (computePasswordHash P r.newPassword)) := by
  have hreach := System.reaches_of_run hrun
  obtain ⟨user, ⟨hid, -⟩, hevs⟩ := events_of_answered h₀ hreach hdone
  -- The change shows in its write, or, when the password was the old one, in its read.
  have hshows : ∃ e ∈ c.shared.history, e.pid = i ∧
      e.ShowsPassword r.uid (computePasswordHash P r.newPassword) := by
    by_cases hsame : user.passwordHash = computePasswordHash P r.newPassword
    · have hmem := State.mem_own.1 (hevs (List.mem_cons_of_mem _ List.mem_cons_self))
      exact ⟨_, hmem.1, rfl, rfl, congrArg some hsame⟩
    · have hmem := State.mem_own.1 (hevs List.mem_cons_self)
      refine ⟨_, hmem.1, rfl, ?_⟩
      show _ ∈ passwordHashChange user _
      rw [passwordHashChange, if_neg hsame, hid]
      exact List.mem_singleton.2 rfl
  obtain ⟨e, he, hpid, hshow⟩ := hshows
  obtain ⟨later, earlier, hhist⟩ := List.append_of_mem he
  exact ⟨later, e, earlier, hhist, hpid, hshow,
    passwordsKept_of_run h₀ hrun halong r.uid _ later e earlier hhist hshow⟩

section

open Deployment

/-- `Update` is about to save the hash that is stored. -/
def checksCurrentHash (a : Act Request Choice ℕ) (c : Configuration) : Bool :=
  match a with
  | .step i _ =>
      match c.procs i, (c.shared.own i).getLast? with
      | some (.web _ _ (.update _), .op (.commitUsers _) _), some (.userRead _ _ (some user)) =>
          decide (c.shared.passwordHashOf user.id = some user.passwordHash)
      | _, _ => true
  | _ => true

theorem savesCurrentHash_of_checks (a : Act Request Choice ℕ) (c c' : Configuration)
    (h : checksCurrentHash a c = true) : SavesCurrentHash a c c' := by
  rintro i user rfl ⟨m, uid, d, ws, k, hk, hread⟩
  simp only [checksCurrentHash, hk, hread] at h
  exact of_decide_eq_true h

/-- The form with the details of `a3`. -/
def updateRequest : Request :=
  .web "aslcert01" "a3" (.update ⟨"Andres", "Anderson", "anderson@imovies.ch"⟩)

/-- `a3` changes her password. -/
def passwordRequest : PasswordChangeRequest := ⟨"a3", "Astrid", "sunny-harbour-42"⟩

/-- The same as a request to the CA. -/
def changeRequest : Request := .api "aslcert01" (.changePassword passwordRequest)

/-- The process ended with 204. -/
def noContent (c : Configuration) (i : ℕ) : Bool :=
  c.answer i = some (changeRequest, .noContent)

/-- An update, and then a password change. -/
def updateThenChange : List (Act Request Choice ℕ) :=
  .arrive 0 updateRequest :: (steps 0 8 ++ .arrive 1 changeRequest :: steps 1 4)

theorem passwordChange_kept_after_update : ∃ c : Configuration, Answered204 c 1 passwordRequest ∧
    ∃ later e earlier, c.shared.history = later ++ e :: earlier ∧ e.pid = 1 ∧
      ((∀ e' ∈ later, ¬ e'.ChangesPassword "a3") → c.shared.passwordHashOf "a3" =
        some (computePasswordHash platform "sunny-harbour-42")) := by
  have hrun : ((system platform).run updateThenChange (.initial (installed users))).map
      (fun c => noContent c 1) = some true := by decide +kernel
  have halong : (system platform).Along SavesCurrentHash updateThenChange
      (.initial (installed users)) :=
    System.along_of_tests savesCurrentHash_of_checks (by decide +kernel)
  obtain ⟨c, hc, hdone⟩ := Option.map_eq_some_iff.1 hrun
  have hanswered : Answered204 c 1 passwordRequest :=
    .api (Config.procs_of_answer (of_decide_eq_true hdone))
  obtain ⟨later, e, earlier, hhist, hpid, -, hkept⟩ :=
    passwordChange_kept platform rfl hc halong hanswered
  exact ⟨c, hanswered, later, e, earlier, hhist, hpid, hkept⟩

/-- After every run whose only password change was answered with 204, the new password is stored. -/
def PasswordChangesKept (P : Platform) (s₀ : State) : Prop :=
  ∀ (c : Configuration) i machineName r, (system P).Reaches (.initial s₀) c →
    c.procs i = some (.api machineName (.changePassword r), .done .noContent) →
    (∀ j req p, c.procs j = some (req, p) →
      (∃ reply, p = .done reply) ∧ (j = i ∨ ∃ machineName uid d, req = .web machineName uid (.update d))) →
    c.shared.passwordHashOf r.uid = some (computePasswordHash P r.newPassword)

/-- The update reads the row before the password change and saves it afterwards. -/
def updateAcrossChange : List (Act Request Choice ℕ) :=
  .arrive 0 updateRequest :: .arrive 1 changeRequest :: (steps 0 1 ++ (steps 1 4 ++ steps 0 7))

theorem passwordChange_lost : ¬ PasswordChangesKept platform (installed users) := by
  intro hclaim
  have hrun : ((system platform).run updateAcrossChange (.initial (installed users))).map
      (fun c => noContent c 1 && ((c.answer 0).any fun a => a.1 = updateRequest) &&
        decide (c.shared.passwordHashOf "a3" = some andres.passwordHash)) = some true := by
    decide +kernel
  obtain ⟨c, hc, hcheck⟩ := Option.map_eq_some_iff.1 hrun
  simp only [Bool.and_eq_true, decide_eq_true_eq, Option.any_eq_true] at hcheck
  obtain ⟨⟨hone, ⟨req, reply⟩, hzero, hreq⟩, hold⟩ := hcheck
  have hone := Config.procs_of_answer (of_decide_eq_true hone)
  have hzero := Config.procs_of_answer hzero
  obtain rfl : req = updateRequest := hreq
  have hall : ∀ j req p, c.procs j = some (req, p) → (∃ reply, p = .done reply) ∧
      (j = 1 ∨ ∃ machineName uid d, req = .web machineName uid (.update d)) := by
    intro j req p hp
    rcases procs_cases hc (by decide) hzero hone hp with ⟨-, rfl, rfl⟩ | ⟨rfl, -, rfl⟩
    · exact ⟨⟨_, rfl⟩, Or.inr ⟨_, _, _, rfl⟩⟩
    · exact ⟨⟨_, rfl⟩, Or.inl rfl⟩
  have hnew := hclaim c 1 "aslcert01" passwordRequest (System.reaches_of_run hc) hone hall
  have hne : computePasswordHash platform "sunny-harbour-42" ≠ andres.passwordHash := by decide
  have heq := Option.some.inj (hnew.symm.trans hold)
  exact hne heq

end

end IMoviesCA
