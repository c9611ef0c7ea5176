import IMoviesCA.Lib.Processes

/-!
# The backup script

`run.sh` as a process: the timer starts it, and `BackupPrivateKey` starts it for every certificate
that is issued.  An execution is at the command that it carries out next.  Bash runs the trap for
INT and TERM after the command that was running, so such a signal leads from any command, those of the
trap among them, to the trap; before the trap is set it ends the execution.  A signal that the script
does not trap ends it too, and the program that it was running goes on by itself.  One of these is the
PIPE that a message leads to once nobody reads the log, the message of the trap among them.

`unlock` is the `rm` of the lock file here, as `pre_unlock` and `pre_backup` are empty.  The messages
themselves, and the test of `$?` after a command, touch nothing that the executions share.
-/

namespace IMoviesCA

/-- The databases that a database server dumps. -/
inductive Database
  | imovies
  | imoviesCa
  deriving DecidableEq, Repr

/-- What `mysqldump` leaves in a file: the state of the database, or what it wrote before it failed. -/
inductive Dump (D : Type)
  | complete (d : D)
  | broken
  deriving DecidableEq, Repr

/-- The backup directory of a server; `none` is a file that is not there. -/
abbrev BackupDirectory (D : Type) : Type := Database → Option (Dump D)

/-- What the executions share: the lock file, the databases, the backup directory and the archives
in the repository, each with the execution that created it, newest first. -/
structure BackupState (D : Type) where
  lock : Bool
  databases : Database → D
  directory : BackupDirectory D
  archives : List (ℕ × BackupDirectory D)

/-- The commands of `run.sh`. -/
inductive Command
  /-- Everything up to the trap; a redirection that fails ends the script. -/
  | setTrap
  | testLock
  | touchLock
  | createBackup
  | dump (db : Database)
  /-- `unlock`, and the code of the `exit` after it. -/
  | rmLock (exitCode : ℕ)
  | exit (exitCode : ℕ)
  deriving DecidableEq, Repr

/-- The commands that are programs of their own, and not built into the shell. -/
def Command.isProgram : Command → Bool
  | touchLock => true
  | createBackup => true
  | dump _ => true
  | rmLock _ => true
  | _ => false

/-- An execution, and whether it has created the lock file and not removed it. -/
inductive Execution
  | notStarted
  | running (next : Command) (holds : Bool)
  /-- A signal has ended the shell.  The command goes on, and fails if it was not started yet. -/
  | orphaned (command : Command) (holds : Bool) (exitCode : ℕ)
  | exited (exitCode : ℕ)
  deriving DecidableEq, Repr

/-- The command that the execution carries out next, or that it has left behind. -/
def Execution.command : Execution → Option Command
  | running next _ => some next
  | orphaned command _ _ => some command
  | _ => none

/-- The signals that reach the shell. -/
inductive Signal
  | INT
  | TERM
  /-- HUP, KILL, PIPE or another signal that ends a program and that the script does not trap. -/
  | untrapped (number : ℕ)
  deriving DecidableEq, Repr

/-- The number of a signal: the code of a program that it ended is 128 more. -/
def Signal.number : Signal → ℕ
  | INT => 2
  | TERM => 15
  | untrapped number => number

/-- `trap ... INT TERM`. -/
def Signal.isTrapped : Signal → Bool
  | untrapped _ => false
  | _ => true

/-- How a command ends: with success, or without.  A dump may fail to open its file, and every other
command just fails then. -/
inductive CommandOutcome
  | success
  | failure
  | notOpened
  deriving DecidableEq, Repr

/-- What happens to an execution: it is started, its next command is carried out, or a signal
arrives. -/
inductive BackupAct
  | start
  | next (outcome : CommandOutcome)
  | signal (signal : Signal)
  deriving DecidableEq, Repr

variable {D : Type}

/-- The first command after the backup was created. -/
def postBackup (isDbServer : Bool) : Command := if isDbServer then .dump .imovies else .rmLock 0

/-- The command after a dump. -/
def afterDump : Database → Command
  | .imovies => .dump .imoviesCa
  | .imoviesCa => .rmLock 0

/-- What a dump of the state `d` makes of its file. -/
def CommandOutcome.dump (d : D) (file : Option (Dump D)) : CommandOutcome → Option (Dump D)
  | success => some (.complete d)
  | failure => some .broken
  | notOpened => file

/-- Carry out a command.  An archive that a failing `borg create` leaves behind belongs to no
execution that succeeds, and is left out. -/
def Command.run (isDbServer : Bool) (i : ℕ) (outcome : CommandOutcome) (holds : Bool)
    (s : BackupState D) : Command → BackupState D × Execution
  | setTrap => (s, if outcome = .success then .running .testLock holds else .exited 1)
  | testLock => (s, if s.lock then .running (.exit 1) holds else .running .touchLock holds)
  | touchLock =>
      if outcome = .success then ({ s with lock := true }, .running .createBackup true)
      else (s, .running (.exit 1) holds)
  | createBackup =>
      if outcome = .success then
        ({ s with archives := (i, s.directory) :: s.archives },
          .running (postBackup isDbServer) holds)
      else (s, .running (.rmLock 2) holds)
  | dump db =>
      ({ s with directory :=
          Function.update s.directory db (outcome.dump (s.databases db) (s.directory db)) },
        .running (afterDump db) holds)
  | rmLock exitCode =>
      if outcome = .success then ({ s with lock := false }, .running (.exit exitCode) false)
      else (s, .running (.exit 1) holds)
  | exit exitCode => (s, .exited exitCode)

/-- The signal ends the shell. -/
def Command.killed (signal : Signal) (holds : Bool) (next : Command) : Execution :=
  if next.isProgram then .orphaned next holds (128 + signal.number)
  else .exited (128 + signal.number)

/-- `trap 'echo Interrupted.; unlock; exit 2' INT TERM`. -/
def Command.interrupted (signal : Signal) (holds : Bool) (next : Command) : Execution :=
  if signal.isTrapped ∧ next ≠ .setTrap then .running (.rmLock 2) holds else next.killed signal holds

/-- Any number of executions of `run.sh` on one server, beside changes of the databases. -/
def runSh (D : Type) (isDbServer : Bool) :
    Processes (BackupState D) Execution BackupAct (Database × D) where
  idle := .notStarted
  next i a s x :=
    match a, x with
    | .start, .notStarted => some (s, .running .setTrap false)
    | .next outcome, .running next holds => some (next.run isDbServer i outcome holds s)
    | .next outcome, .orphaned command holds exitCode =>
        some ((command.run isDbServer i outcome holds s).1, .exited exitCode)
    | .signal signal, .running next holds => some (s, next.interrupted signal holds)
    | _, _ => none
  env e s := { s with databases := Function.update s.databases e.1 e.2 }

/-- What an action does to an execution, as a case distinction. -/
inductive BackupAct.Does (isDbServer : Bool) (i : ℕ) (s : BackupState D) :
    BackupAct → Execution → BackupState D → Execution → Prop
  | start : Does isDbServer i s .start .notStarted s (.running .setTrap false)
  | next (outcome : CommandOutcome) (next : Command) (holds : Bool) :
      Does isDbServer i s (.next outcome) (.running next holds)
        (next.run isDbServer i outcome holds s).1 (next.run isDbServer i outcome holds s).2
  | orphan (outcome : CommandOutcome) (command : Command) (holds : Bool) (exitCode : ℕ) :
      Does isDbServer i s (.next outcome) (.orphaned command holds exitCode)
        (command.run isDbServer i outcome holds s).1 (.exited exitCode)
  | signal (signal : Signal) (next : Command) (holds : Bool) :
      Does isDbServer i s (.signal signal) (.running next holds) s (next.interrupted signal holds)

theorem does_of_next {isDbServer : Bool} {i : ℕ} {a : BackupAct} {s s' : BackupState D}
    {x x' : Execution} (h : (runSh D isDbServer).next i a s x = some (s', x')) :
    a.Does isDbServer i s x s' x' := by
  simp only [runSh] at h
  split at h
  · obtain ⟨rfl, rfl⟩ := Prod.mk.inj (Option.some.inj h)
    exact .start
  · rename_i outcome next holds
    have hrun := Option.some.inj h
    rw [show s' = _ from (congrArg Prod.fst hrun).symm, show x' = _ from (congrArg Prod.snd hrun).symm]
    exact .next outcome next holds
  · rename_i outcome command holds exitCode
    obtain ⟨rfl, rfl⟩ := Prod.mk.inj (Option.some.inj h)
    exact .orphan outcome command holds exitCode
  · rename_i signal next holds
    obtain ⟨rfl, rfl⟩ := Prod.mk.inj (Option.some.inj h)
    exact .signal signal next holds
  · cases h

/-! ## One execution after another -/

/-- A step of an execution, or of the database and the directory. -/
abbrev BackupAction (D : Type) := Processes.Action BackupAct (Database × D)

/-- The lock, the directory and the archives, and the executions of the script. -/
abbrev BackupConfiguration (D : Type) := Processes.Config (BackupState D) Execution

/-- The execution has been started, and it or its last command is still running. -/
def Execution.isRunning : Execution → Bool
  | running _ _ => true
  | orphaned _ _ _ => true
  | _ => false

/-- The action is no signal, and no other execution is running. -/
structure Uninterrupted (a : BackupAction D) (c _c' : BackupConfiguration D) : Prop where
  noSignal : ∀ i signal, a ≠ .act i (.signal signal)
  alone : ∀ i b, a = .act i b → ∀ j, j ≠ i → (c.locals j).isRunning = false

/-- The test of an action, when only the first `n` executions are ever started. -/
def uninterruptedTest (n : ℕ) (a : BackupAction D) (c : BackupConfiguration D) : Bool :=
  match a with
  | .act _ (.signal _) => false
  | .act i _ => decide (i < n) && (List.range n).all fun j => j = i || !(c.locals j).isRunning
  | .env _ => true

/-- Who is not among the first `n` executions is not started by them. -/
theorem notStarted_of_step {isDbServer : Bool} {n : ℕ} {a : BackupAction D}
    {c c' : BackupConfiguration D} (hidle : ∀ j, n ≤ j → c.locals j = .notStarted)
    (hacts : ∀ i b, a = .act i b → i < n) (ha : (runSh D isDbServer).step a c = some c') (j : ℕ)
    (hj : n ≤ j) : c'.locals j = .notStarted := by
  rw [Processes.locals_of_step ha]
  · exact hidle j hj
  · rintro b rfl
    exact absurd (hacts j b rfl) (Nat.not_lt.2 hj)

/-- A test that admits the first `n` executions only may look at these. -/
theorem along_of_firstTests {isDbServer : Bool} {n : ℕ}
    {Q : BackupAction D → BackupConfiguration D → BackupConfiguration D → Prop}
    {test : BackupAction D → BackupConfiguration D → Bool}
    (htest : ∀ a c c', (∀ j, n ≤ j → c.locals j = .notStarted) → test a c = true →
      (∀ i b, a = .act i b → i < n) ∧ Q a c c') {as : List (BackupAction D)} {s : BackupState D}
    (h : Transitions.tests (runSh D isDbServer).step test as ((runSh D isDbServer).initial s) = true) :
    (runSh D isDbServer).Along Q as ((runSh D isDbServer).initial s) := by
  refine Transitions.along_of_invariant
    (I := fun c : BackupConfiguration D => ∀ j, n ≤ j → c.locals j = .notStarted) ?_
    (fun _ _ => rfl) (Transitions.along_of_tests h)
  intro a c c' hidle ha hpasses
  obtain ⟨hacts, hQ⟩ := htest a c c' hidle hpasses
  exact ⟨notStarted_of_step hidle hacts ha, hQ⟩

theorem uninterrupted_of_tests {isDbServer : Bool} {n : ℕ} {as : List (BackupAction D)}
    {s : BackupState D} (h : Transitions.tests (runSh D isDbServer).step (uninterruptedTest n) as
      ((runSh D isDbServer).initial s) = true) :
    (runSh D isDbServer).Along Uninterrupted as ((runSh D isDbServer).initial s) := by
  refine along_of_firstTests (n := n) (fun a c c' hidle htest => ?_) h
  cases a with
  | env e => exact ⟨by simp, by simp, by simp⟩
  | act i b =>
    have hb : (∀ signal, b ≠ .signal signal) ∧ i < n ∧
        ∀ j < n, j ≠ i → (c.locals j).isRunning = false := by
      cases b with
      | signal => cases htest
      | start | next =>
        simpa [uninterruptedTest, or_iff_not_imp_left] using htest
    obtain ⟨hsignal, hi, hothers⟩ := hb
    refine ⟨fun i' b' heq => ?_, ?_, ?_⟩
    · obtain ⟨rfl, -⟩ := Processes.Action.act.inj heq
      exact hi
    · rintro i' signal heq
      exact hsignal signal (Processes.Action.act.inj heq).2
    · rintro i' b' heq j hj
      obtain ⟨rfl, -⟩ := Processes.Action.act.inj heq
      rcases Nat.lt_or_ge j n with hjn | hjn
      · exact hothers j hjn hj
      · rw [hidle j hjn]
        rfl

end IMoviesCA
