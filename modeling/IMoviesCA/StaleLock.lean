import IMoviesCA.BackupLock

/-!
# A lock file that stays

Only the execution that created the lock file, or one that was interrupted, removes it, and a failing
`rm` ends the script.  As long as no `rm` of an execution that has created the file fails, and no
signal ends such an execution without its trap, the lock file is there only while one of them is still
running, however the executions overlap and whatever else arrives.  A lock file that no running
execution has stays: without a signal every later execution gives up with code 1, and no dump and no
archive is made any more (`staleLock`).
-/

namespace IMoviesCA

variable {D : Type} {isDbServer : Bool}

/-! ## While executions come to their `rm` -/

/-- No `rm` fails for an execution that has created the lock file, and no signal ends one without its
trap, from the `touch` on. -/
structure Unlocking (a : BackupAction D) (c _c' : BackupConfiguration D) : Prop where
  rm : ∀ i outcome exitCode, a = .act i (.next outcome) →
    c.locals i = .running (.rmLock exitCode) true → outcome = .success
  untrapped : ∀ i number next holds, a = .act i (.signal (.untrapped number)) →
    c.locals i = .running next holds → holds = false ∧ next ≠ .touchLock

/-- Who has created the lock file comes to its removal before it ends.  Who was ended by a signal has
not created it. -/
def Execution.Unlocks : Execution → Prop
  | running next holds => holds = true → next.holdsLock = some true
  | orphaned command holds _ => holds = false ∧ command ≠ .touchLock
  | _ => True

/-- The lock file is there only while an execution that has created it is running. -/
structure LockHeld (c : BackupConfiguration D) : Prop where
  holder : c.shared.lock = true → ∃ i, (c.locals i).holds = true
  unlocks : ∀ i, (c.locals i).Unlocks

theorem lockHeld_initial {s : BackupState D} (hs : s.lock = false) :
    LockHeld ((runSh D isDbServer).initial s) :=
  ⟨fun h => absurd (hs.symm.trans h) (by simp), fun _ => trivial⟩

/-- An execution moves: it keeps what it holds, or removes the lock file, or creates it. -/
theorem LockHeld.update {c : BackupConfiguration D} (h : LockHeld c) {i : ℕ} {x : Execution}
    {s : BackupState D} (hlock : s.lock = true → x.holds = true ∨
      c.shared.lock = true ∧ (c.locals i).holds = x.holds) (hx : x.Unlocks) :
    LockHeld ⟨s, Function.update c.locals i x⟩ := by
  constructor
  · intro hs
    rcases hlock hs with hholds | ⟨hc, hsame⟩
    · exact ⟨i, by simpa using hholds⟩
    · obtain ⟨j, hj⟩ := h.holder hc
      refine ⟨j, ?_⟩
      by_cases hij : j = i
      · subst hij
        simpa [← hsame] using hj
      · simpa [Function.update_of_ne hij] using hj
  · intro j
    by_cases hij : j = i
    · subst hij
      simpa using hx
    · simpa [Function.update_of_ne hij] using h.unlocks j

theorem lockHeld_command {c : BackupConfiguration D} (h : LockHeld c) {i : ℕ} {next : Command}
    {holds : Bool} (hi : c.locals i = .running next holds) {outcome : CommandOutcome}
    (hrm : ∀ exitCode, next = .rmLock exitCode → holds = true → outcome = .success) :
    LockHeld ⟨(next.run isDbServer i outcome holds c.shared).1,
      Function.update c.locals i (next.run isDbServer i outcome holds c.shared).2⟩ := by
  have hunlocks : holds = true → next.holdsLock = some true := by
    have := h.unlocks i
    rwa [hi] at this
  cases holds with
  | true =>
    cases next with
    | setTrap | testLock | touchLock | exit => cases hunlocks rfl
    | createBackup =>
      refine h.update (fun hlock => Or.inl ?_) ?_
      all_goals cases outcome <;> cases isDbServer <;> simp [Command.run, postBackup,
        Execution.holds, Execution.Unlocks, Command.holdsLock]
    | dump db =>
      refine h.update (fun _ => Or.inl rfl) ?_
      cases db <;> exact fun _ => rfl
    | rmLock exitCode =>
      rw [hrm exitCode rfl rfl]
      exact h.update (fun hlock => by cases hlock) fun hfalse => by cases hfalse
  | false =>
    apply h.update
    · intro hlock
      rw [hi]
      cases next with
      | testLock =>
        right
        refine ⟨hlock, ?_⟩
        simp only [Command.run]
        split_ifs <;> rfl
      | touchLock =>
        cases outcome with
        | success => exact Or.inl rfl
        | failure | notOpened => exact Or.inr ⟨hlock, rfl⟩
      | rmLock exitCode =>
        cases outcome with
        | success => cases hlock
        | failure | notOpened => exact Or.inr ⟨hlock, rfl⟩
      | setTrap | createBackup => cases outcome <;> exact Or.inr ⟨hlock, rfl⟩
      | dump | exit => exact Or.inr ⟨hlock, rfl⟩
    · cases next with
      | exit => trivial
      | testLock =>
        simp only [Command.run]
        split_ifs <;> exact fun hfalse => by cases hfalse
      | dump => exact fun hfalse => by cases hfalse
      | setTrap | touchLock | createBackup | rmLock =>
        cases outcome <;> simp [Command.run, Execution.Unlocks, Command.holdsLock]

/-- A command of a shell that a signal has ended does not create the lock file. -/
theorem lockHeld_orphan {c : BackupConfiguration D} (h : LockHeld c) {i : ℕ} {command : Command}
    {holds : Bool} {exitCode : ℕ} (hi : c.locals i = .orphaned command holds exitCode)
    (outcome : CommandOutcome) :
    LockHeld ⟨(command.run isDbServer i outcome holds c.shared).1,
      Function.update c.locals i (.exited exitCode)⟩ := by
  have hunlocks := h.unlocks i
  rw [hi] at hunlocks
  obtain ⟨rfl, htouch⟩ := hunlocks
  refine h.update (fun hlock => Or.inr ⟨?_, by rw [hi]; rfl⟩) trivial
  cases command with
  | touchLock => exact absurd rfl htouch
  | rmLock =>
    cases outcome with
    | success => cases hlock
    | failure | notOpened => exact hlock
  | createBackup => cases outcome <;> exact hlock
  | setTrap | testLock | dump | exit => exact hlock

theorem lockHeld_signal {c : BackupConfiguration D} (h : LockHeld c) {i : ℕ} {next : Command}
    {holds : Bool} (hi : c.locals i = .running next holds) (signal : Signal)
    (hsignal : signal.isTrapped = false → holds = false ∧ next ≠ .touchLock) :
    LockHeld ⟨c.shared, Function.update c.locals i (next.interrupted signal holds)⟩ := by
  have hunlocks : holds = true → next.holdsLock = some true := by
    have := h.unlocks i
    rwa [hi] at this
  unfold Command.interrupted
  split_ifs with htrapped
  · exact h.update (fun hlock => Or.inr ⟨hlock, by rw [hi]; rfl⟩) fun _ => rfl
  · have hfree : holds = false ∧ next ≠ .touchLock := by
      by_cases hset : next = .setTrap
      · subst hset
        cases holds with
        | true => cases hunlocks rfl
        | false => exact ⟨rfl, by simp⟩
      · exact hsignal (by simpa [hset] using htrapped)
    obtain ⟨rfl, htouch⟩ := hfree
    unfold Command.killed
    split_ifs
    · exact h.update (fun hlock => Or.inr ⟨hlock, by rw [hi]; rfl⟩) ⟨rfl, htouch⟩
    · exact h.update (fun hlock => Or.inr ⟨hlock, by rw [hi]; rfl⟩) trivial

/-- Only a failing `rm`, or a signal that is not trapped, leaves a lock file that no running execution
has. -/
theorem lockHeld_step {a : BackupAction D} {c c' : BackupConfiguration D} (h : LockHeld c)
    (ha : (runSh D isDbServer).step a c = some c') (hunlocking : Unlocking a c c') : LockHeld c' := by
  cases Processes.step_cases ha with
  | env => exact ⟨h.holder, h.unlocks⟩
  | @act i b s x hnext =>
    have hdoes := does_of_next hnext
    generalize hi : c.locals i = y at hdoes
    cases hdoes with
    | start =>
      refine h.update (fun hlock => Or.inr ⟨hlock, ?_⟩) fun hholds => by cases hholds
      rw [hi]
      rfl
    | next outcome next holds =>
      refine lockHeld_command h hi ?_
      rintro exitCode rfl rfl
      exact hunlocking.rm i outcome exitCode rfl hi
    | orphan outcome command holds exitCode => exact lockHeld_orphan h hi outcome
    | signal signal next holds =>
      refine lockHeld_signal h hi signal fun huntrapped => ?_
      cases signal with
      | untrapped number => exact hunlocking.untrapped i number next holds rfl hi
      | INT | TERM => cases huntrapped

/-! ## A stale lock -/

/-- There is a lock file, and no execution is running. -/
def Stale (c : BackupConfiguration D) : Prop :=
  c.shared.lock = true ∧ ∀ i, (c.locals i).isRunning = false

theorem not_stale_of_lockHeld {c : BackupConfiguration D} (h : LockHeld c) : ¬ Stale c := by
  rintro ⟨hlock, hidle⟩
  obtain ⟨i, hi⟩ := h.holder hlock
  have hnot := hidle i
  generalize c.locals i = x at hi hnot
  cases x with
  | running | orphaned => cases hnot
  | notStarted | exited => cases hi

/-- The action is no signal. -/
def NoSignal (a : BackupAction D) (_c _c' : BackupConfiguration D) : Prop :=
  ∀ i signal, a ≠ .act i (.signal signal)

/-- An execution on its way to give up. -/
inductive GivingUp : Execution → Prop
  | setTrap : GivingUp (.running .setTrap false)
  | testLock : GivingUp (.running .testLock false)
  | exit : GivingUp (.running (.exit 1) false)
  | exited : GivingUp (.exited 1)

/-- Since `c` the executions do nothing but give up. -/
structure Blocked (c c' : BackupConfiguration D) : Prop where
  lock : c'.shared.lock = true
  directory : c'.shared.directory = c.shared.directory
  archives : c'.shared.archives = c.shared.archives
  locals : ∀ i, c'.locals i = c.locals i ∨ GivingUp (c'.locals i)

theorem blocked_of_stale {c : BackupConfiguration D} (h : Stale c) : Blocked c c :=
  ⟨h.1, rfl, rfl, fun _ => Or.inl rfl⟩

theorem Blocked.update {c c' : BackupConfiguration D} (h : Blocked c c') (i : ℕ) {x : Execution}
    (hx : GivingUp x) : Blocked c ⟨c'.shared, Function.update c'.locals i x⟩ := by
  refine ⟨h.lock, h.directory, h.archives, fun j => ?_⟩
  by_cases hij : j = i
  · subst hij
    exact Or.inr (by simpa using hx)
  · simpa [Function.update_of_ne hij] using h.locals j

theorem blocked_step {a : BackupAction D} {c b b' : BackupConfiguration D} (hc : Stale c)
    (h : Blocked c b) (ha : (runSh D isDbServer).step a b = some b') (hsignal : NoSignal a b b') :
    Blocked c b' := by
  cases Processes.step_cases ha with
  | env => exact ⟨h.lock, h.directory, h.archives, h.locals⟩
  | @act i act s x hnext =>
    have hdoes := does_of_next hnext
    have hi := h.locals i
    generalize hb : b.locals i = y at hdoes hi
    cases hdoes with
    | start => exact h.update i .setTrap
    | signal signal next holds => exact absurd rfl (hsignal i signal)
    | orphan outcome command holds exitCode =>
      rcases hi with hsame | hgiving
      · have hidle := hc.2 i
        rw [← hsame] at hidle
        cases hidle
      · cases hgiving
    | next outcome next holds =>
      rcases hi with hsame | hgiving
      · have hidle := hc.2 i
        rw [← hsame] at hidle
        cases hidle
      · cases hgiving with
        | setTrap => cases outcome <;> exact h.update i (by constructor)
        | testLock =>
          have hrun : Command.testLock.run isDbServer i outcome false b.shared =
              (b.shared, .running (.exit 1) false) := by simp [Command.run, h.lock]
          rw [hrun]
          exact h.update i .exit
        | exit => exact h.update i .exited

/-- From no lock file, and as long as every execution that has created it comes to a successful `rm`,
there is a lock file only while such an execution is running.  From a stale lock on, and as long as no
signal arrives, the lock file stays, no dump and no archive is made, and every execution that ends has
code 1. -/
theorem staleLock (D : Type) (isDbServer : Bool) {s₀ : BackupState D} (h₀ : s₀.lock = false) :
    (∀ as c, (runSh D isDbServer).run as ((runSh D isDbServer).initial s₀) = some c →
      (runSh D isDbServer).Along Unlocking as ((runSh D isDbServer).initial s₀) →
        (c.shared.lock = true → ∃ i, (c.locals i).holds = true) ∧ ¬ Stale c) ∧
    ∀ as c, (runSh D isDbServer).run as ((runSh D isDbServer).initial s₀) = some c → Stale c →
      ∀ bs c', (runSh D isDbServer).run bs c = some c' → (runSh D isDbServer).Along NoSignal bs c →
        c'.shared.lock = true ∧ c'.shared.directory = c.shared.directory ∧
          c'.shared.archives = c.shared.archives ∧
          ∀ i exitCode, c'.locals i = .exited exitCode → c.locals i = .exited exitCode ∨ exitCode = 1 := by
  constructor
  · intro as c hrun halong
    have hheld : LockHeld c := Transitions.run_induction (fun a c c' hI ha hQ => lockHeld_step hI ha hQ)
      (lockHeld_initial h₀) hrun halong
    exact ⟨hheld.holder, not_stale_of_lockHeld hheld⟩
  · intro as c _ hstale bs c' hrun halong
    have hblocked : Blocked c c' := Transitions.run_induction
      (fun a b b' hI ha hQ => blocked_step hstale hI ha hQ) (blocked_of_stale hstale) hrun halong
    refine ⟨hblocked.lock, hblocked.directory, hblocked.archives, fun i exitCode hi => ?_⟩
    rcases hblocked.locals i with hsame | hgiving
    · exact Or.inl (hsame.symm.trans hi)
    · rw [hi] at hgiving
      cases hgiving
      exact Or.inr rfl

section

/-- An execution whose `rm` fails. -/
def rmFails : List (BackupAction Unit) :=
  .act 0 .start :: (List.replicate 4 (.act 0 (.next .success)) ++
    [.act 0 (.next .failure), .act 0 (.next .success)])

/-- An execution that is terminated during its backup, and whose trap dies of its message. -/
def trapKilled : List (BackupAction Unit) :=
  .act 0 .start :: (List.replicate 3 (.act 0 (.next .success)) ++
    [.act 0 (.signal .TERM), .act 0 (.signal (.untrapped 13)), .act 0 (.next .notOpened)])

/-- The lock file is there, and the execution has ended. -/
def leavesLock (c : BackupConfiguration Unit) : Bool :=
  c.shared.lock && !(c.locals 0).isRunning

theorem stale_of_leavesLock {as : List (BackupAction Unit)} {c : BackupConfiguration Unit}
    (hrun : (runSh Unit false).run as ((runSh Unit false).initial unlockedState) = some c)
    (hone : ∀ a ∈ as, ∀ i b, a = .act i b → i = 0) (h : leavesLock c = true) : Stale c := by
  simp only [leavesLock, Bool.and_eq_true, Bool.not_eq_true'] at h
  refine ⟨h.1, fun i => ?_⟩
  by_cases hi : i = 0
  · rw [hi, h.2]
  · have hothers : ∀ a ∈ as, ∀ b, a ≠ .act i b := fun a ha b heq => hi (hone a ha i b heq)
    rw [Processes.locals_of_run hrun hothers]
    rfl

/-- The next execution. -/
def nextExecution : List (BackupAction Unit) :=
  .act 1 .start :: List.replicate 3 (.act 1 (.next .success))

theorem noSignal_nextExecution (c : BackupConfiguration Unit) :
    (runSh Unit false).Along NoSignal nextExecution c := by
  refine Transitions.along_of_forall_mem ?_ c
  rintro a ha c c' i signal rfl
  simp [nextExecution] at ha

/-- The run leaves a stale lock, and the next execution leaves it and the archives as they are. -/
def LeavesStaleLock (as : List (BackupAction Unit)) : Prop :=
  ∃ c c', (runSh Unit false).run as ((runSh Unit false).initial unlockedState) = some c ∧ Stale c ∧
    (runSh Unit false).run nextExecution c = some c' ∧ c'.shared.lock = true ∧
      c'.shared.archives = c.shared.archives

theorem staleLock_nextExecution : LeavesStaleLock rmFails ∧ LeavesStaleLock trapKilled := by
  have hruns : ([rmFails, trapKilled].all fun as =>
      (((runSh Unit false).run as ((runSh Unit false).initial unlockedState)).bind fun c =>
        if leavesLock c then ((runSh Unit false).run nextExecution c) else none).isSome) = true := by
    decide
  have hone : ∀ as ∈ [rmFails, trapKilled], ∀ a ∈ as, ∀ i b, a = .act i b → i = 0 := by
    rintro as has a ha i b rfl
    simp only [List.mem_cons, List.not_mem_nil, or_false] at has
    rcases has with rfl | rfl
    · simp [rmFails] at ha
      omega
    · simp [trapKilled] at ha
      omega
  have hboth : ∀ as ∈ [rmFails, trapKilled], LeavesStaleLock as := by
    intro as has
    obtain ⟨c', hc'⟩ := Option.isSome_iff_exists.1 (List.all_eq_true.1 hruns as has)
    obtain ⟨c, hc, hrun⟩ := Option.bind_eq_some_iff.1 hc'
    split_ifs at hrun with hleaves
    have hstale := stale_of_leavesLock hc (hone as has) hleaves
    have hunlocked : unlockedState.lock = false := rfl
    obtain ⟨hlock, -, harchives, -⟩ := (staleLock Unit false hunlocked).2 as c hc hstale
      nextExecution c' hrun (noSignal_nextExecution c)
    exact ⟨c, c', hc, hstale, hrun, hlock, harchives⟩
  exact ⟨hboth _ (by simp), hboth _ (by simp)⟩

end

end IMoviesCA
