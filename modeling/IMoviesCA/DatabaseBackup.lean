import IMoviesCA.BackupRun

/-!
# The dumps in an archive

On a database server `run.sh` dumps the databases in `post_backup`, after `borg create` has archived
the directory of the dumps.  An archive therefore holds the files that the directory held when its
execution started (`archivesOf_of_run`): the dumps of an earlier execution, or none at all.  It shows
the databases as they were during its execution if and only if those files do
(`archive_current_iff`).
-/

namespace IMoviesCA

variable {D : Type} {isDbServer : Bool} {i : ℕ} {b₀ c c' : BackupConfiguration D}

/-! ## How far an execution has come -/

/-- The archives of an execution. -/
def BackupState.archivesOf (s : BackupState D) (i : ℕ) : List (ℕ × BackupDirectory D) :=
  s.archives.filter fun a => a.1 = i

/-- The commands before the archive is made. -/
def Command.beforeBackup : Command → Bool
  | setTrap => true
  | testLock => true
  | touchLock => true
  | createBackup => true
  | _ => false

/-- The commands with which an execution goes on to success. -/
def Command.afterBackup : Command → Bool
  | dump _ => true
  | rmLock exitCode => exitCode == 0
  | exit exitCode => exitCode == 0
  | _ => false

/-- The execution has created its archive, and succeeds or has succeeded. -/
def Execution.hasBackup : Execution → Bool
  | running next _ => next.afterBackup
  | exited exitCode => exitCode == 0
  | _ => false

/-- What execution `i` has done since it was started in the state `s₀`. -/
structure Progress (s₀ : BackupState D) (i : ℕ) (s : BackupState D) (x : Execution) : Prop where
  started : x ≠ .notStarted
  shell : ∀ command holds exitCode, x ≠ .orphaned command holds exitCode
  before : ∀ next holds, x = .running next holds → next.beforeBackup = true →
    s.directory = s₀.directory ∧ s.archivesOf i = s₀.archivesOf i
  after : x.hasBackup = true → s.archivesOf i = (i, s₀.directory) :: s₀.archivesOf i

theorem archivesOf_cons_self (s : BackupState D) (directory : BackupDirectory D) :
    BackupState.archivesOf { s with archives := (i, directory) :: s.archives } i =
      (i, directory) :: s.archivesOf i := by
  simp [BackupState.archivesOf]

/-- An execution leaves the archives of the others alone. -/
theorem archivesOf_of_does {j : ℕ} (hij : i ≠ j) {a : BackupAct} {s s' : BackupState D}
    {x x' : Execution} (h : a.Does isDbServer j s x s' x') : s'.archivesOf i = s.archivesOf i := by
  cases h with
  | start => rfl
  | signal => rfl
  | next outcome next | orphan outcome next =>
    cases next with
    | createBackup =>
      cases outcome with
      | success => simp [Command.run, BackupState.archivesOf, hij.symm]
      | failure | notOpened => rfl
    | touchLock | rmLock => cases outcome <;> rfl
    | setTrap | testLock | dump | exit => rfl

/-- The next command of execution `i`. -/
theorem progress_next {s₀ s : BackupState D} {next : Command} {holds : Bool}
    (h : Progress s₀ i s (.running next holds)) (outcome : CommandOutcome) :
    Progress s₀ i (next.run isDbServer i outcome holds s).1
      (next.run isDbServer i outcome holds s).2 := by
  cases next with
  | setTrap =>
    have hbefore := h.before _ _ rfl rfl
    cases outcome <;> constructor <;>
      simp [Command.run, Command.beforeBackup, Command.afterBackup, Execution.hasBackup, hbefore]
  | testLock =>
    have hbefore := h.before _ _ rfl rfl
    cases hlock : s.lock <;> constructor <;>
      simp [Command.run, Command.beforeBackup, Command.afterBackup, Execution.hasBackup, hlock, hbefore]
  | touchLock =>
    have hbefore := h.before _ _ rfl rfl
    cases outcome <;> constructor <;>
      simp [Command.run, Command.beforeBackup, Command.afterBackup, Execution.hasBackup, hbefore]
    exact hbefore.2
  | createBackup =>
    obtain ⟨hdirectory, harchives⟩ := h.before _ _ rfl rfl
    cases outcome with
    | success =>
      have hcreated : BackupState.archivesOf { s with archives := (i, s.directory) :: s.archives } i =
          (i, s₀.directory) :: s₀.archivesOf i := by
        rw [archivesOf_cons_self, hdirectory, harchives]
      cases isDbServer <;> constructor <;>
        simp [Command.run, postBackup, Command.beforeBackup, hcreated]
    | failure | notOpened =>
      constructor <;> simp [Command.run, Command.beforeBackup, Command.afterBackup, Execution.hasBackup]
  | dump db =>
    have hafter : BackupState.archivesOf _ i = _ := h.after rfl
    cases db <;> constructor <;>
      simp [Command.run, afterDump, Command.beforeBackup, Execution.hasBackup, Command.afterBackup]
    all_goals exact hafter
  | rmLock exitCode =>
    have hafter := h.after
    cases outcome with
    | success =>
      constructor <;> simp [Command.run, Command.beforeBackup]
      exact hafter
    | failure | notOpened =>
      constructor <;> simp [Command.run, Command.beforeBackup, Command.afterBackup, Execution.hasBackup]
  | exit exitCode =>
    have hafter := h.after
    constructor <;> simp [Command.run]
    exact hafter

theorem progress_step {s₀ : BackupState D} (h : Progress s₀ i c.shared (c.locals i))
    {a : BackupAction D} (ha : (runSh D isDbServer).step a c = some c')
    (halone : Uninterrupted a c c') : Progress s₀ i c'.shared (c'.locals i) := by
  cases Processes.step_cases ha with
  | env => exact ⟨h.started, h.shell, h.before, h.after⟩
  | @act j a s x hnext =>
    generalize hx : c.locals j = y at hnext
    have hdoes := does_of_next hnext
    by_cases hij : i = j
    · subst hij
      dsimp only
      rw [Function.update_self]
      rw [hx] at h
      cases hdoes with
      | start => exact absurd rfl h.started
      | signal signal => exact absurd rfl (halone.noSignal i signal)
      | next outcome next holds => exact progress_next h outcome
      | orphan outcome command holds exitCode => exact absurd rfl (h.shell command holds exitCode)
    · -- Another execution moves, so this one is not running.
      have hidle := halone.alone j a rfl i hij
      dsimp only
      rw [Function.update_of_ne hij]
      refine ⟨h.started, h.shell, ?_, ?_⟩
      · intro next holds hi
        rw [hi] at hidle
        cases hidle
      · rw [archivesOf_of_does hij hdoes]
        exact h.after

/-! ## What the archive shows -/

/-- `b` is a configuration of the execution `i` that starts in `b₀`: the execution is running. -/
def During (i : ℕ) (b₀ : BackupConfiguration D) (as : List (BackupAction D))
    (b : BackupConfiguration D) : Prop :=
  ∃ as₁ as₂, as = as₁ ++ as₂ ∧ (runSh D true).run (.act i .start :: as₁) b₀ = some b ∧
    (b.locals i).isRunning = true

/-- There is a dump of each database, and it shows a state that the database had during the
execution. -/
def ShowsCurrent (i : ℕ) (b₀ : BackupConfiguration D) (as : List (BackupAction D))
    (directory : BackupDirectory D) : Prop :=
  ∀ db, ∃ b, During i b₀ as b ∧ directory db = some (.complete (b.shared.databases db))

/-- An execution that succeeds creates one archive, of the directory as it was when the execution was
started. -/
theorem archivesOf_of_run {as : List (BackupAction D)}
    (hrun : (runSh D isDbServer).run (.act i .start :: as) b₀ = some c)
    (halong : (runSh D isDbServer).Along Uninterrupted (.act i .start :: as) b₀)
    (hexit : c.locals i = .exited 0) :
    c.shared.archivesOf i = (i, b₀.shared.directory) :: b₀.shared.archivesOf i := by
  obtain ⟨b₁, hstart, hrest⟩ := Option.bind_eq_some_iff.1 hrun
  have hprogress : Progress b₀.shared i b₁.shared (b₁.locals i) := by
    cases Processes.step_cases hstart with
    | @act j a s x hnext =>
      generalize b₀.locals i = y at hnext
      cases does_of_next hnext with
      | start =>
        dsimp only
        rw [Function.update_self]
        exact ⟨by simp, by simp, fun _ _ _ _ => ⟨rfl, rfl⟩, fun h => by cases h⟩
  have hend : Progress b₀.shared i c.shared (c.locals i) :=
    Transitions.run_induction
      (I := fun c : BackupConfiguration D => Progress b₀.shared i c.shared (c.locals i))
      (fun _ _ _ h ha halone => progress_step h ha halone) hprogress hrest (halong b₁ hstart).2
  rw [hexit] at hend
  exact hend.after rfl

/-! ## Where the files come from -/

/-- Whether the dump succeeds, if it opens its file. -/
def CommandOutcome.opened : CommandOutcome → Option Bool
  | success => some true
  | failure => some false
  | notOpened => none

/-- Whether the action is a dump that opens the file of the database, and whether it succeeds. -/
def dumps (db : Database) (a : BackupAction D) (c : BackupConfiguration D) : Option Bool :=
  match a with
  | .act i (.next outcome) =>
      if (c.locals i).command = some (.dump db) then outcome.opened else none
  | _ => none

/-- The configuration in which the last dump of the database that opened its file was made, and
whether it succeeded. -/
def lastDump (db : Database) :
    List (BackupAction D) → BackupConfiguration D → Option (BackupConfiguration D × Bool)
  | [], _ => none
  | a :: as, c =>
      ((runSh D true).step a c).bind fun c₁ =>
        (lastDump db as c₁).or ((dumps db a c).map fun success => (c, success))

/-- The file that such a dump leaves. -/
def dumpFile (db : Database) (b : BackupConfiguration D × Bool) : Option (Dump D) :=
  some (if b.2 then .complete (b.1.shared.databases db) else .broken)

/-- What a command makes of a file. -/
theorem directory_of_command (next : Command) (outcome : CommandOutcome) (holds : Bool)
    (s : BackupState D) (db : Database) :
    (next.run isDbServer i outcome holds s).1.directory db =
      if next = .dump db then outcome.dump (s.databases db) (s.directory db) else s.directory db := by
  cases next with
  | dump db' =>
    by_cases hdb : db' = db
    · subst hdb
      simp [Command.run]
    · simp [Command.run, hdb, Function.update_of_ne (Ne.symm hdb)]
  | createBackup | touchLock | rmLock => cases outcome <;> simp [Command.run]
  | setTrap | testLock | exit => simp [Command.run]

theorem dump_eq_elim (outcome : CommandOutcome) (db : Database) (c : BackupConfiguration D)
    (file : Option (Dump D)) : outcome.dump (c.shared.databases db) file =
      (outcome.opened.map fun success => (c, success)).elim file (dumpFile db) := by
  cases outcome <;> rfl

theorem directory_of_step {a : BackupAction D} (ha : (runSh D true).step a c = some c')
    (db : Database) : c'.shared.directory db =
      (((dumps db a c).map fun success => (c, success)).elim (c.shared.directory db) (dumpFile db)) := by
  cases Processes.step_cases ha with
  | env => rfl
  | @act j a s x hnext =>
    generalize hx : c.locals j = y at hnext
    cases does_of_next hnext with
    | start => rfl
    | signal => rfl
    | next outcome next | orphan outcome next =>
      rw [directory_of_command]
      simp only [dumps, hx, Execution.command, Option.some.injEq]
      split_ifs
      · exact dump_eq_elim outcome db c _
      · rfl

/-- A file is the one of the last dump that opened it, as nothing else writes it. -/
theorem directory_of_run {as : List (BackupAction D)} (hrun : (runSh D true).run as c = some c')
    (db : Database) :
    c'.shared.directory db = (lastDump db as c).elim (c.shared.directory db) (dumpFile db) := by
  induction as generalizing c with
  | nil =>
    obtain rfl := Option.some.inj hrun
    rfl
  | cons a as ih =>
    obtain ⟨c₁, h₁, hrest⟩ := Option.bind_eq_some_iff.1 hrun
    rw [ih hrest, directory_of_step h₁, lastDump, h₁, Option.bind_some]
    cases lastDump db as c₁ with
    | none => rfl
    | some b => rfl

/-- For each database, the last dump of an earlier execution that opened its file has succeeded, and
the database has the state of that dump at a moment of this execution too. -/
def DumpStillCurrent (s₀ : BackupState D) (as₁ : List (BackupAction D)) (i : ℕ)
    (b₀ : BackupConfiguration D) (as₂ : List (BackupAction D)) : Prop :=
  ∀ db, ∃ b b', lastDump db as₁ ((runSh D true).initial s₀) = some (b, true) ∧
    During i b₀ as₂ b' ∧ b'.shared.databases db = b.shared.databases db

theorem showsCurrent_directory_iff {s₀ : BackupState D} (h₀ : ∀ db, s₀.directory db = none)
    {as₁ as₂ : List (BackupAction D)}
    (hrun₁ : (runSh D true).run as₁ ((runSh D true).initial s₀) = some b₀) :
    ShowsCurrent i b₀ as₂ b₀.shared.directory ↔ DumpStillCurrent s₀ as₁ i b₀ as₂ := by
  refine forall_congr' fun db => ?_
  have hfile : b₀.shared.directory db =
      (lastDump db as₁ ((runSh D true).initial s₀)).elim none (dumpFile db) := by
    rw [directory_of_run hrun₁ db, ← h₀ db]
    rfl
  rw [hfile]
  constructor
  · rintro ⟨b', hduring, hdump⟩
    cases hlast : lastDump db as₁ ((runSh D true).initial s₀) with
    | none =>
      rw [hlast] at hdump
      cases hdump
    | some b =>
      obtain ⟨b, success⟩ := b
      rw [hlast] at hdump
      cases success with
      | true =>
        have hstate := Dump.complete.inj (Option.some.inj hdump)
        exact ⟨b, b', rfl, hduring, hstate.symm⟩
      | false => cases hdump
  · rintro ⟨b, b', hlast, hduring, hstate⟩
    refine ⟨b', hduring, ?_⟩
    rw [hlast, hstate]
    rfl

/-- After any sequence of uninterrupted executions and changes, the archive of an execution that
succeeds shows the databases during that execution if and only if the last dumps of the executions
before it still do. -/
theorem archive_current_iff (D : Type) (s₀ : BackupState D) (h₀ : ∀ db, s₀.directory db = none)
    (as₁ as₂ : List (BackupAction D)) (i : ℕ) (b₀ c : BackupConfiguration D)
    (hrun₁ : (runSh D true).run as₁ ((runSh D true).initial s₀) = some b₀)
    (hrun₂ : (runSh D true).run (.act i .start :: as₂) b₀ = some c)
    (halong : (runSh D true).Along Uninterrupted (as₁ ++ .act i .start :: as₂)
      ((runSh D true).initial s₀)) (hexit : c.locals i = .exited 0) :
    ∃ directory, c.shared.archivesOf i = (i, directory) :: b₀.shared.archivesOf i ∧
      (ShowsCurrent i b₀ as₂ directory ↔ DumpStillCurrent s₀ as₁ i b₀ as₂) :=
  ⟨b₀.shared.directory,
    archivesOf_of_run hrun₂ (Transitions.along_of_append halong hrun₁) hexit,
    showsCurrent_directory_iff h₀ hrun₁⟩

/-- Executions do not change the databases. -/
theorem databases_of_run {as : List (BackupAction D)} (has : ∀ a ∈ as, ∀ e, a ≠ .env e)
    (hrun : (runSh D isDbServer).run as c = some c') : c'.shared.databases = c.shared.databases := by
  induction as generalizing c with
  | nil =>
    obtain rfl := Option.some.inj hrun
    rfl
  | cons a as ih =>
    obtain ⟨c₁, h₁, hrest⟩ := Option.bind_eq_some_iff.1 hrun
    rw [ih (fun a' ha' => has a' (List.mem_cons_of_mem _ ha')) hrest]
    cases Processes.step_cases h₁ with
    | @env e => exact absurd rfl (has _ List.mem_cons_self e)
    | @act j a s x hnext =>
      generalize c.locals j = y at hnext
      cases does_of_next hnext with
      | start => rfl
      | signal => rfl
      | next outcome next | orphan outcome next =>
        cases next with
        | createBackup | touchLock | rmLock => cases outcome <;> rfl
        | setTrap | testLock | dump | exit => rfl

section

/-- A database server after the installation: both databases in the state 0, and no dump. -/
def installedDbServer : BackupState ℕ where
  lock := false
  databases _ := 0
  directory _ := none
  archives := []

/-- The steps of execution `i` after it was started. -/
def executionSteps (i : ℕ) : List (BackupAction ℕ) := List.replicate 8 (.act i (.next .success))

/-- A first execution. -/
def firstExecution : List (BackupAction ℕ) := .act 0 .start :: executionSteps 0

/-- A second execution, which cannot open the files of its dumps. -/
def thenUnopened : List (BackupAction ℕ) :=
  firstExecution ++ .act 1 .start :: (List.replicate 4 (.act 1 (.next .success)) ++
    List.replicate 2 (.act 1 (.next .notOpened)) ++ List.replicate 2 (.act 1 (.next .success)))

/-- A first execution, and a change of the database after it. -/
def thenChange : List (BackupAction ℕ) := firstExecution ++ [.env (.imovies, 1)]

/-- The configurations before and after the last execution. -/
def lastExecution (as : List (BackupAction ℕ))
    (test : BackupConfiguration ℕ → BackupConfiguration ℕ → Bool) : Bool :=
  Transitions.tests (runSh ℕ true).step (uninterruptedTest 3)
      (as ++ .act 2 .start :: executionSteps 2)
      ((runSh ℕ true).initial installedDbServer) &&
    ((runSh ℕ true).run as ((runSh ℕ true).initial installedDbServer)).any fun b₀ =>
      ((runSh ℕ true).run (.act 2 .start :: executionSteps 2) b₀).any fun c =>
        decide (c.locals 2 = .exited 0) && test b₀ c

theorem exists_lastExecution {as : List (BackupAction ℕ)}
    {test : BackupConfiguration ℕ → BackupConfiguration ℕ → Bool}
    (h : lastExecution as test = true) : ∃ b₀ c,
      (runSh ℕ true).run as ((runSh ℕ true).initial installedDbServer) = some b₀ ∧
      (runSh ℕ true).run (.act 2 .start :: executionSteps 2) b₀ = some c ∧
      (runSh ℕ true).Along Uninterrupted (as ++ .act 2 .start :: executionSteps 2)
        ((runSh ℕ true).initial installedDbServer) ∧ c.locals 2 = .exited 0 ∧ test b₀ c = true := by
  obtain ⟨htests, h⟩ := Bool.and_eq_true_iff.1 h
  obtain ⟨b₀, hb₀, h⟩ := (Option.any_eq_true _ _).1 h
  obtain ⟨c, hc, h⟩ := (Option.any_eq_true _ _).1 h
  obtain ⟨hexit, htest⟩ := Bool.and_eq_true_iff.1 h
  exact ⟨b₀, c, hb₀, hc, uninterrupted_of_tests htests, of_decide_eq_true hexit, htest⟩

/-- Nothing has changed since the first execution, whose dumps the second one has left. -/
theorem archive_current_unchanged : ∃ (b₀ c : BackupConfiguration ℕ) (directory : BackupDirectory ℕ),
    c.shared.archivesOf 2 = (2, directory) :: b₀.shared.archivesOf 2 ∧
      ShowsCurrent 2 b₀ (executionSteps 2) directory := by
  have hlastExecution : lastExecution thenUnopened (fun b₀ _ =>
      decide (∀ db ∈ [Database.imovies, .imoviesCa], b₀.shared.databases db = 0)) = true := by
    decide +kernel
  have hlast : ([Database.imovies, .imoviesCa].all fun db =>
      (lastDump db thenUnopened ((runSh ℕ true).initial installedDbServer)).any fun b =>
        b.2 && decide (b.1.shared.databases db = 0)) = true := by decide +kernel
  have hall : ∀ db : Database, db ∈ [Database.imovies, .imoviesCa] := by
    intro db
    cases db <;> decide
  obtain ⟨b₀, c, hb₀, hc, halong, hexit, htest⟩ := exists_lastExecution hlastExecution
  obtain ⟨directory, harchive, hiff⟩ := archive_current_iff ℕ installedDbServer (fun _ => rfl)
    thenUnopened (executionSteps 2) 2 b₀ c hb₀ hc halong hexit
  refine ⟨b₀, c, directory, harchive, hiff.2 fun db => ?_⟩
  obtain ⟨⟨b, success⟩, hb, hdumped⟩ :=
    (Option.any_eq_true _ _).1 (List.all_eq_true.1 hlast db (hall db))
  obtain ⟨hsuccess, hstate⟩ := Bool.and_eq_true_iff.1 hdumped
  obtain rfl : success = true := hsuccess
  -- The state at the start of the third execution.
  obtain ⟨b₁, hstart, -⟩ := Option.bind_eq_some_iff.1 hc
  have hrun₁ : (runSh ℕ true).run [.act 2 .start] b₀ = some b₁ := by
    show ((runSh ℕ true).step _ b₀).bind _ = _
    rw [hstart]
    rfl
  refine ⟨b, b₁, hb, ⟨[], executionSteps 2, rfl, hrun₁, ?_⟩, ?_⟩
  · cases Processes.step_cases hstart with
    | @act j a s x hnext =>
      generalize b₀.locals 2 = y at hnext
      cases does_of_next hnext with
      | start => simp [Execution.isRunning]
  · rw [databases_of_run (by simp) hrun₁, of_decide_eq_true htest db (hall db),
      of_decide_eq_true hstate]

/-- The archive of a later execution has the dump of the first one. -/
theorem archive_late : ¬ ∀ (D : Type) (s₀ : BackupState D) (as₁ as₂ : List (BackupAction D)) (i : ℕ)
    (b₀ c : BackupConfiguration D) (directory : BackupDirectory D),
    (∀ db, s₀.directory db = none) →
    (runSh D true).run as₁ ((runSh D true).initial s₀) = some b₀ →
    (runSh D true).run (.act i .start :: as₂) b₀ = some c →
    (runSh D true).Along Uninterrupted (as₁ ++ .act i .start :: as₂) ((runSh D true).initial s₀) →
    c.locals i = .exited 0 →
    c.shared.archivesOf i = (i, directory) :: b₀.shared.archivesOf i →
      ShowsCurrent i b₀ as₂ directory := by
  intro hclaim
  have hlastExecution : lastExecution thenChange (fun b₀ _ =>
      decide (b₀.shared.databases .imovies = 1 ∧
        b₀.shared.directory .imovies = some (.complete 0))) = true := by decide +kernel
  obtain ⟨b₀, c, hb₀, hc, halong, hexit, htest⟩ := exists_lastExecution hlastExecution
  obtain ⟨hchanged, hold⟩ := of_decide_eq_true htest
  have harchive := archivesOf_of_run hc (Transitions.along_of_append halong hb₀) hexit
  obtain ⟨b, ⟨as₁, as₂, has, hb, -⟩, hdump⟩ :=
    hclaim ℕ installedDbServer thenChange (executionSteps 2) 2 b₀ c _ (fun _ => rfl) hb₀ hc halong
      hexit harchive .imovies
  have hacts : ∀ a ∈ .act 2 .start :: as₁, ∀ e, a ≠ .env e := by
    intro a ha e
    have hmem : a ∈ .act 2 .start :: executionSteps 2 := by
      rw [has]
      rcases List.mem_cons.1 ha with rfl | ha
      · exact List.mem_cons_self
      · exact List.mem_cons_of_mem _ (List.mem_append_left _ ha)
    rcases List.mem_cons.1 hmem with rfl | hmem
    · simp
    · rw [List.eq_of_mem_replicate hmem]
      simp
  rw [hold, databases_of_run hacts hb, hchanged] at hdump
  simp at hdump

end

end IMoviesCA
