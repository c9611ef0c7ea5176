import IMoviesCA.Lib.Lines
import IMoviesCA.Alone
import IMoviesCA.ChangePassword

/-!
# The policy of a password change

`PasswordPolicyValidator` searches the whole list as one text.  For a password without a line break
this is a search in every line (`isValidPassword_iff`), and so a change is accepted for a user whose
old password is right and a new one that is long enough and occurs in no line; it then sets that one
password hash, and in every other case `users` is as before (`changePassword_endToEnd`).
-/

namespace IMoviesCA

open UserDBAuthenticator ChangePasswordController

variable {P : Platform} {r : PasswordChangeRequest} {t : Table User} {i : ℕ} {s : State}
  {sched : ℕ → ℕ × Choice}

/-! ## The lines of the list -/

/-- The characters at which lines end. -/
def isLineBreak (c : Char) : Bool := c = '\n' || c = '\r'

/-- The lines of a text. -/
def linesOf (text : String) : List String :=
  (text.toList.splitOnP isLineBreak).map String.ofList

/-- A text without line breaks. -/
def SingleLine (text : String) : Prop := ∀ c ∈ text.toList, isLineBreak c = false

instance (text : String) : Decidable (SingleLine text) :=
  List.decidableBAll (fun c => isLineBreak c = false) text.toList

/-- The search in the whole list is a search in each of its lines. -/
theorem isValidPassword_iff {password : String} (h : SingleLine password) :
    isValidPassword P password = true ↔
      ∀ line ∈ linesOf P.passwordList, ¬ password.toList <:+: line.toList := by
  rw [isValidPassword, Bool.not_eq_true', decide_eq_false_iff_not, Lines.infix_iff_exists_splitOnP h]
  simp [linesOf]

theorem singleLine_of_line {line text : String} (h : line ∈ linesOf text) : SingleLine line := by
  obtain ⟨l, hl, rfl⟩ := List.mem_map.1 h
  rw [SingleLine, String.toList_ofList]
  exact Lines.eq_false_of_mem_splitOnP hl

/-! ## The outcome -/

/-- The row of the user with the hash of the new password. -/
def withPassword (P : Platform) (r : PasswordChangeRequest) (user : User) : User :=
  if user.id = r.uid then { user with passwordHash := computePasswordHash P r.newPassword } else user

/-- The user is there and the old password is right. -/
def OldPasswordRight (P : Platform) (r : PasswordChangeRequest) (t : Table User) : Prop :=
  ∃ user, t.find? r.uid = some user ∧ user.passwordHash = computePasswordHash P r.oldPassword

/-- What `ChangePassword` answers, and the rows that it leaves.  It fails only if `throws`. -/
inductive PolicyOutcome (P : Platform) (r : PasswordChangeRequest) (t : Table User) (throws : Prop) :
    Reply → List User → Prop
  | failed (h : throws) : PolicyOutcome P r t throws .serverError t.rows
  | unauthorized (h : ¬ OldPasswordRight P r t) : PolicyOutcome P r t throws .unauthorized t.rows
  | refused (h : OldPasswordRight P r t) (hpolicy : meetsPasswordPolicy P r.newPassword = false) :
      PolicyOutcome P r t throws (.badRequest none) t.rows
  | changed (h : OldPasswordRight P r t) (hpolicy : meetsPasswordPolicy P r.newPassword = true) :
      PolicyOutcome P r t throws .noContent (t.rows.map (withPassword P r))

/-- An operation that keeps `users` and does not fail by itself, and then the rest. -/
theorem policyOutcome_of_op {throws : Prop} {e : Op} {k : e.Val → Program Op Op.Res Reply} {v : e.Val}
    (he : e.Throws) (hs : s.users = t) (hthrows : (sched 0).2 ≠ .ok → throws)
    (hleft : ∀ written s, e.leftBehind i written s = s)
    (hv : (e.run i (tick (sched 0).1 s)).1 = .ok v)
    (h : PolicyOutcome P r t throws
      (machine.alone i (k v) (fun n => sched (n + 1)) (e.run i (tick (sched 0).1 s)).2).1
      (machine.alone i (k v) (fun n => sched (n + 1)) (e.run i (tick (sched 0).1 s)).2).2.users.rows) :
    PolicyOutcome P r t throws (machine.alone i (orServerError e k) sched s).1
      (machine.alone i (orServerError e k) sched s).2.users.rows := by
  cases hch : (sched 0).2 with
  | ok =>
    rw [alone_orServerError_of_ok hch hv]
    exact h
  | throws written =>
    have hfails : throws := hthrows (by simp [hch])
    rw [alone_orServerError_of_throws he hch, hleft]
    show PolicyOutcome P r t throws .serverError s.users.rows
    rw [hs]
    exact .failed hfails

/-- The statement of a change sets one password hash. -/
theorem exists_commit_change {user : User} (hfind : t.find? r.uid = some user) :
    ∃ t', t.commit (passwordHashChange user (computePasswordHash P r.newPassword)) = some t' ∧
      t'.rows = t.rows.map (withPassword P r) := by
  obtain ⟨hmem, rid⟩ := Table.find?_eq_some_iff.1 hfind
  have hid : user.id = r.uid := rid
  unfold passwordHashChange
  split_ifs with hsame
  · refine ⟨t, rfl, ?_⟩
    have hself : ∀ u ∈ t.rows, withPassword P r u = u := by
      intro u hu
      unfold withPassword
      split_ifs with huid
      · obtain rfl : u = user := Table.eq_of_key_eq hu hmem (huid.trans hid.symm)
        rw [← hsame]
      · rfl
    exact (List.map_id' t.rows).symm.trans (List.map_congr_left fun u hu => (hself u hu).symm)
  · obtain ⟨t', ht', -⟩ := Table.exists_write_update (k := user.id) (Table.key_mem_keys hmem)
      (.passwordHash (computePasswordHash P r.newPassword))
    have hcommit : t.commit [.update user.id (.passwordHash (computePasswordHash P r.newPassword))] =
        some t' := by
      rw [Table.commit, ht']
      rfl
    refine ⟨t', hcommit, ?_⟩
    rw [Table.rows_of_commit hcommit, hid]
    exact List.append_nil _

theorem policyOutcome_closing {throws : Prop} {reply : Reply} (hs : s.users = t)
    (hthrows : (sched 0).2 ≠ .ok → throws) (h : PolicyOutcome P r t throws reply t.rows) :
    PolicyOutcome P r t throws (machine.alone i (closing reply) sched s).1
      (machine.alone i (closing reply) sched s).2.users.rows := by
  refine policyOutcome_of_op (v := ()) (fun _ => rfl) hs hthrows (fun _ _ => rfl) rfl ?_
  show PolicyOutcome P r t throws reply s.users.rows
  rw [hs]
  exact h

theorem policyOutcome_executing {throws : Prop} {user : User} (hs : s.users = t)
    (hthrows : ∀ n, (sched n).2 ≠ .ok → throws) (hfind : t.find? r.uid = some user)
    (hold : user.passwordHash = computePasswordHash P r.oldPassword)
    (hpolicy : meetsPasswordPolicy P r.newPassword = true) :
    PolicyOutcome P r t throws (machine.alone i (executing P r user) sched s).1
      (machine.alone i (executing P r user) sched s).2.users.rows := by
  obtain ⟨t', hcommit, hrows⟩ := exists_commit_change (P := P) hfind
  have hexecuted : executed s.users (passwordHashChange user (computePasswordHash P r.newPassword)) =
      .ok () := by
    simp [executed, hs, hcommit]
  refine policyOutcome_of_op (v := ()) (fun _ => rfl) hs (hthrows 0) (fun _ _ => rfl) hexecuted ?_
  let s₁ := ((Op.executeUsers (passwordHashChange user (computePasswordHash P r.newPassword))).run i
    (tick (sched 0).1 s)).2
  have hs₁ : s₁.users = t := hs
  have hcommit₁ : (tick (sched 1).1 s₁).users.commit
      (passwordHashChange user (computePasswordHash P r.newPassword)) = some t' := by
    show s.users.commit _ = some t'
    rw [hs]
    exact hcommit
  have hrun := Op.run_commitUsers (i := i) hcommit₁
  refine policyOutcome_of_op (v := ()) (fun _ => rfl) hs₁ (hthrows 1) (fun _ _ => rfl)
    (congrArg Prod.fst hrun) ?_
  show PolicyOutcome P r t throws .noContent
    ((Op.commitUsers (passwordHashChange user (computePasswordHash P r.newPassword))).run i
      (tick (sched 1).1 s₁)).2.users.rows
  rw [hrun]
  show PolicyOutcome P r t throws .noContent t'.rows
  rw [hrows]
  exact .changed ⟨user, hfind, hold⟩ hpolicy

/-- A password change by itself. -/
theorem policyOutcome_of_alone (P : Platform) (r : PasswordChangeRequest) (i : ℕ)
    (sched : ℕ → ℕ × Choice) (s : State) :
    PolicyOutcome P r s.users (∃ n, (sched n).2 ≠ .ok)
      (machine.alone i (answer (changePassword P r)) sched s).1
      (machine.alone i (answer (changePassword P r)) sched s).2.users.rows := by
  rw [answer_changePassword]
  refine policyOutcome_of_op (v := ()) (fun _ => rfl) rfl (fun h => ⟨0, h⟩) (fun _ _ => rfl) rfl ?_
  refine policyOutcome_of_op (v := s.users.find? r.uid) (fun _ => rfl) rfl (fun h => ⟨1, h⟩)
    (fun _ _ => rfl) rfl ?_
  by_cases hauth : OldPasswordRight P r s.users
  · obtain ⟨user, hfind, hold⟩ := hauth
    rw [hfind, decided_of_authenticated P r hold]
    split_ifs with hpolicy
    · exact policyOutcome_executing rfl (fun n h => ⟨n + 2, h⟩) hfind hold hpolicy
    · refine policyOutcome_closing rfl (fun h => ⟨2, h⟩) (.refused ⟨user, hfind, hold⟩ ?_)
      simpa using hpolicy
  · have hnot : (s.users.find? r.uid).map User.passwordHash ≠
        some (computePasswordHash P r.oldPassword) := by
      intro hmap
      obtain ⟨user, hfind, hold⟩ := Option.map_eq_some_iff.1 hmap
      exact hauth ⟨user, hfind, hold⟩
    rw [decided_of_unauthenticated P r hnot]
    exact policyOutcome_closing rfl (fun h => ⟨2, h⟩) (.unauthorized hauth)

/-! ## End to end -/

/-- The change is to be accepted. -/
structure Acceptable (P : Platform) (r : PasswordChangeRequest) (t : Table User) : Prop where
  right : OldPasswordRight P r t
  long : Constants.minPasswordLength ≤ netLength r.newPassword
  unlisted : ∀ line ∈ linesOf P.passwordList, ¬ r.newPassword.toList <:+: line.toList

theorem acceptable_iff (h : SingleLine r.newPassword) : Acceptable P r t ↔
    OldPasswordRight P r t ∧ meetsPasswordPolicy P r.newPassword = true := by
  rw [meetsPasswordPolicy, Bool.and_eq_true, isValidPassword_iff h, decide_eq_true_eq]
  constructor
  · exact fun h => ⟨h.right, h.unlisted, h.long⟩
  · exact fun ⟨right, unlisted, long⟩ => ⟨right, long, unlisted⟩

/-- What a change answers and leaves, end to end: 204, 400 or 401, or 500 if an operation throws. -/
structure EndToEnd (P : Platform) (r : PasswordChangeRequest) (t : Table User) (throws : Prop)
    (reply : Reply) (rows : List User) : Prop where
  status : reply ∈ [.noContent, .badRequest none, .unauthorized] ∨ throws ∧ reply = .serverError
  accepts : reply ≠ .serverError → (reply = .noContent ↔ Acceptable P r t)
  changed : reply = .noContent → rows = t.rows.map (withPassword P r)
  unchanged : reply ≠ .noContent → rows = t.rows

theorem endToEnd_of_outcome {throws : Prop} {reply : Reply} {rows : List User}
    (hline : SingleLine r.newPassword) (h : PolicyOutcome P r t throws reply rows) :
    EndToEnd P r t throws reply rows := by
  have hacceptable := acceptable_iff (P := P) (t := t) hline
  cases h with
  | failed hthrows => exact ⟨Or.inr ⟨hthrows, rfl⟩, by simp, by simp, by simp⟩
  | unauthorized hauth => exact ⟨by simp, by simp [hacceptable, hauth], by simp, by simp⟩
  | refused hauth hpolicy => exact ⟨by simp, by simp [hacceptable, hpolicy], by simp, by simp⟩
  | changed hauth hpolicy => exact ⟨by simp, by simp [hacceptable, hauth, hpolicy], by simp, by simp⟩

/-- A password change accepts exactly what it should, sets one password hash, and otherwise leaves
`users` as it is.  A line of the list is never accepted. -/
theorem changePassword_endToEnd (P : Platform) (r : PasswordChangeRequest) (i : ℕ)
    (sched : ℕ → ℕ × Choice) (s : State) :
    (SingleLine r.newPassword → EndToEnd P r s.users (∃ n, (sched n).2 ≠ .ok)
      (machine.alone i (answer (changePassword P r)) sched s).1
      (machine.alone i (answer (changePassword P r)) sched s).2.users.rows) ∧
    (r.newPassword ∈ linesOf P.passwordList →
      (machine.alone i (answer (changePassword P r)) sched s).1 ≠ .noContent) ∧
    (∀ machineName, r.isValid = true →
      answer (api P machineName (.changePassword r)) = answer (changePassword P r)) := by
  have houtcome := policyOutcome_of_alone P r i sched s
  refine ⟨fun hline => endToEnd_of_outcome hline houtcome, fun hlisted hreply => ?_, ?_⟩
  · have hend := endToEnd_of_outcome (singleLine_of_line hlisted) houtcome
    have hacceptable := (hend.accepts (by simp [hreply])).1 hreply
    exact hacceptable.unlisted _ hlisted (List.infix_refl _)
  · intro machineName hvalid
    rw [answer_api, if_pos hvalid, answer_changePassword]

section

open Deployment

/-- The change of `a3` is accepted. -/
theorem changePassword_sunnyHarbour : ∃ reply rows,
    EndToEnd hashing passwordRequest users (∃ n : ℕ, ((fun _ => (0, .ok)) n : ℕ × Choice).2 ≠ .ok)
      reply rows ∧ reply = .noContent :=
  ⟨_, _, (changePassword_endToEnd hashing passwordRequest 0 (fun _ => (0, .ok)) (installed users)).1
    (by decide), by decide +kernel⟩

end

end IMoviesCA
