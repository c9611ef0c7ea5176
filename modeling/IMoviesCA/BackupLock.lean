import IMoviesCA.BackupRun

/-!
# The lock of the backup script

`run.sh` tests for the lock file and creates it with two commands, and its trap removes the file
whether or not the execution has created it.  So two executions that test before either of them
creates the file both go on, and a signal to an execution that does not hold the lock takes it away
from the one that does.

In a run in which an execution finds no lock file only while no other is about to create it, and in
which INT and TERM reach only executions that hold the lock, one execution at most holds the lock and
nobody else removes it; every other action can be continued to a run in which this fails
(`backups_exclude`).
-/

namespace IMoviesCA

variable {D : Type} {isDbServer : Bool}

/-! ## What is to hold -/

/-- The execution is between creating the lock file and removing it. -/
def Execution.holds : Execution → Bool
  | running _ holds => holds
  | orphaned _ holds _ => holds
  | _ => false

/-- The execution has found no lock file, and is about to create it. -/
def Execution.touches : Execution → Bool
  | running .touchLock _ => true
  | _ => false

/-- The action removes the lock file. -/
def RemovesLock (a : BackupAction D) (c : BackupConfiguration D) (i : ℕ) : Prop :=
  a = .act i (.next .success) ∧ c.shared.lock = true ∧
    ∃ exitCode, (c.locals i).command = some (.rmLock exitCode)

/-- One execution at most holds the lock, and no one else removes it. -/
structure Exclusive (a : BackupAction D) (c c' : BackupConfiguration D) : Prop where
  holders : ∀ i j, (c'.locals i).holds = true → (c'.locals j).holds = true → i = j
  removes : ∀ i, RemovesLock a c i → ∀ j, (c.locals j).holds = true → j = i

/-- An execution that tests finds a lock file, or no other is about to create it; INT and TERM reach
an execution that holds the lock, or has not yet set its trap. -/
structure Careful (a : BackupAction D) (c _c' : BackupConfiguration D) : Prop where
  tests : ∀ i outcome holds, a = .act i (.next outcome) →
    c.locals i = .running .testLock holds → c.shared.lock = false →
      ∀ j, (c.locals j).touches = false
  signals : ∀ i signal, a = .act i (.signal signal) → signal.isTrapped = true →
    (c.locals i).holds = true ∨ ∃ holds, c.locals i = .running .setTrap holds

/-! ## The invariant -/

/-- Whose turn it is: the execution that has found no lock file, or the one that holds it. -/
inductive LockTurn
  | nobody
  | tester (i : ℕ)
  | holder (i : ℕ)
  deriving DecidableEq

/-- Whether the lock is held at a command. -/
def Command.holdsLock : Command → Option Bool
  | setTrap => some false
  | testLock => some false
  | touchLock => some false
  | createBackup => some true
  | dump _ => some true
  | rmLock _ => some true
  | exit _ => none

/-- Whether an execution holds the lock is what its next command tells. -/
def Execution.WellHeld : Execution → Prop
  | running next holds => ∀ b, next.holdsLock = some b → holds = b
  | orphaned command holds _ => ∀ b, command.holdsLock = some b → holds = b
  | _ => True

/-- The lock file belongs to the execution whose turn it is. -/
structure Owned (c : BackupConfiguration D) (turn : LockTurn) : Prop where
  holds : ∀ i, (c.locals i).holds = true ↔ turn = .holder i
  touches : ∀ i, (c.locals i).touches = true ↔ turn = .tester i
  lock : ∀ i, turn = .holder i → c.shared.lock = true
  wellHeld : ∀ i, (c.locals i).WellHeld

theorem owned_initial (s : BackupState D) : Owned ((runSh D isDbServer).initial s) .nobody := by
  refine ⟨fun i => ?_, fun i => ?_, fun i h => ?_, fun i => trivial⟩
  · simp [Processes.initial, runSh, Execution.holds]
  · simp [Processes.initial, runSh, Execution.touches]
  · cases h

/-- Execution `i` moves, and the turn of the others stays. -/
theorem Owned.update {c : BackupConfiguration D} {turn turn' : LockTurn} (h : Owned c turn) {i : ℕ}
    {x : Execution} {s : BackupState D} (hholds : x.holds = true ↔ turn' = .holder i)
    (htouches : x.touches = true ↔ turn' = .tester i)
    (hothers : ∀ j, j ≠ i → (turn = .holder j ↔ turn' = .holder j) ∧
      (turn = .tester j ↔ turn' = .tester j))
    (hlock : ∀ j, turn' = .holder j → s.lock = true) (hwell : x.WellHeld) :
    Owned ⟨s, Function.update c.locals i x⟩ turn' := by
  refine ⟨fun j => ?_, fun j => ?_, hlock, fun j => ?_⟩
  all_goals
    dsimp only
    by_cases hj : j = i
  · rw [hj, Function.update_self]
    exact hholds
  · rw [Function.update_of_ne hj]
    exact (h.holds j).trans (hothers j hj).1
  · rw [hj, Function.update_self]
    exact htouches
  · rw [Function.update_of_ne hj]
    exact (h.touches j).trans (hothers j hj).2
  · rw [hj, Function.update_self]
    exact hwell
  · rw [Function.update_of_ne hj]
    exact h.wellHeld j

/-- A step of an execution that neither takes nor leaves the lock. -/
theorem Owned.keep {c : BackupConfiguration D} {turn : LockTurn} (h : Owned c turn) {i : ℕ}
    {x : Execution} {s : BackupState D} (hholds : x.holds = (c.locals i).holds)
    (htouches : x.touches = (c.locals i).touches) (hlock : s.lock = c.shared.lock)
    (hwell : x.WellHeld) : Owned ⟨s, Function.update c.locals i x⟩ turn := by
  refine h.update ?_ ?_ (fun j _ => ⟨Iff.rfl, Iff.rfl⟩) ?_ hwell
  · rw [hholds]
    exact h.holds i
  · rw [htouches]
    exact h.touches i
  · intro j hj
    rw [hlock]
    exact h.lock j hj

/-- An execution whose turn it was and that neither holds the lock nor goes for it. -/
theorem Owned.leave {c : BackupConfiguration D} {turn : LockTurn} (h : Owned c turn) {i : ℕ}
    {x : Execution} {s : BackupState D} (hturn : turn = .holder i ∨ turn = .tester i)
    (hholds : x.holds = false) (htouches : x.touches = false) (hwell : x.WellHeld) :
    Owned ⟨s, Function.update c.locals i x⟩ .nobody := by
  refine h.update ?_ ?_ (fun j hj => ?_) (fun j hj => by cases hj) hwell
  · simp [hholds]
  · simp [htouches]
  · rcases hturn with rfl | rfl
    · simp [hj.symm]
    · simp [hj.symm]

/-- An execution ends, and it is no longer its turn. -/
theorem Owned.exit {c : BackupConfiguration D} {turn : LockTurn} (h : Owned c turn) {i : ℕ}
    {s : BackupState D} (exitCode : ℕ) (hlock : s.lock = false → c.shared.lock = false ∨
      (c.locals i).holds = true) :
    ∃ turn', Owned ⟨s, Function.update c.locals i (.exited exitCode)⟩ turn' := by
  by_cases hturn : turn = .holder i ∨ turn = .tester i
  · exact ⟨.nobody, h.leave hturn rfl rfl trivial⟩
  · obtain ⟨hholder, htester⟩ := not_or.1 hturn
    refine ⟨turn, h.update ?_ ?_ (fun j _ => ⟨Iff.rfl, Iff.rfl⟩) ?_ trivial⟩
    · simp [Execution.holds, hholder]
    · simp [Execution.touches, htester]
    · intro j hj
      by_contra hfree
      rcases hlock (by simpa using hfree) with hc | hi
      · rw [h.lock j hj] at hc
        cases hc
      · exact hholder ((h.holds i).1 hi)

/-- It is nobody's turn when there is no lock file and no execution is about to create it. -/
theorem Owned.nobody {c : BackupConfiguration D} {turn : LockTurn} (h : Owned c turn)
    (hlock : c.shared.lock = false) (htests : ∀ j, (c.locals j).touches = false) :
    turn = .nobody := by
  cases turn with
  | nobody => rfl
  | tester j =>
    have hj := (h.touches j).2 rfl
    rw [htests j] at hj
    cases hj
  | holder j =>
    have hj := h.lock j rfl
    rw [hlock] at hj
    cases hj

theorem owned_testLock {c : BackupConfiguration D} {turn : LockTurn} (h : Owned c turn) {i : ℕ}
    (hi : c.locals i = .running .testLock false) (outcome : CommandOutcome)
    (htests : c.shared.lock = false → ∀ j, (c.locals j).touches = false) :
    ∃ turn', Owned ⟨(Command.testLock.run isDbServer i outcome false c.shared).1,
      Function.update c.locals i
        (Command.testLock.run isDbServer i outcome false c.shared).2⟩ turn' := by
  cases hlock : c.shared.lock with
  | true =>
    refine ⟨turn, h.keep ?_ ?_ rfl ?_⟩
    all_goals simp [Command.run, Execution.holds, Execution.touches, Execution.WellHeld,
      Command.holdsLock, hi, hlock]
  | false =>
    have hfree := h.nobody hlock (htests hlock)
    refine ⟨.tester i, h.update ?_ ?_ (fun j hj => ?_) (fun j hj => by cases hj) ?_⟩
    · simp [Command.run, Execution.holds, hlock]
    · simp [Command.run, Execution.touches, hlock]
    · simp [hfree, hj.symm]
    · simp [Command.run, Execution.WellHeld, Command.holdsLock, hlock]

/-- The execution that creates the lock file takes the lock. -/
theorem owned_touchLock {c : BackupConfiguration D} {turn : LockTurn} (h : Owned c turn) {i : ℕ}
    (hi : c.locals i = .running .touchLock false) (outcome : CommandOutcome) :
    ∃ turn', Owned ⟨(Command.touchLock.run isDbServer i outcome false c.shared).1,
      Function.update c.locals i
        (Command.touchLock.run isDbServer i outcome false c.shared).2⟩ turn' := by
  have hturn : turn = .tester i := (h.touches i).1 (by rw [hi]; rfl)
  by_cases houtcome : outcome = .success
  · refine ⟨.holder i, h.update ?_ ?_ (fun j hj => ?_) (fun j hj => ?_) ?_⟩
    · simp [Command.run, Execution.holds, houtcome]
    · simp [Command.run, Execution.touches, houtcome]
    · simp [hturn, hj.symm]
    · simp [Command.run, houtcome]
    · simp [Command.run, Execution.WellHeld, Command.holdsLock, houtcome]
  · refine ⟨.nobody, h.leave (Or.inr hturn) ?_ ?_ ?_⟩
    all_goals simp [Command.run, Execution.holds, Execution.touches, Execution.WellHeld,
      Command.holdsLock, houtcome]

theorem owned_rmLock {c : BackupConfiguration D} {turn : LockTurn} (h : Owned c turn) {i : ℕ}
    {exitCode : ℕ} (hi : c.locals i = .running (.rmLock exitCode) true) (outcome : CommandOutcome) :
    ∃ turn', Owned ⟨((Command.rmLock exitCode).run isDbServer i outcome true c.shared).1,
      Function.update c.locals i
        ((Command.rmLock exitCode).run isDbServer i outcome true c.shared).2⟩ turn' := by
  have hturn : turn = .holder i := (h.holds i).1 (by rw [hi]; rfl)
  by_cases houtcome : outcome = .success
  · refine ⟨.nobody, h.leave (Or.inl hturn) ?_ ?_ ?_⟩
    all_goals simp [Command.run, Execution.holds, Execution.touches, Execution.WellHeld,
      Command.holdsLock, houtcome]
  · have hrun : (Command.rmLock exitCode).run isDbServer i outcome true c.shared =
        (c.shared, .running (.exit 1) true) := by simp [Command.run, houtcome]
    rw [hrun]
    refine ⟨turn, h.keep ?_ ?_ rfl ?_⟩
    all_goals simp [Execution.holds, Execution.touches, Execution.WellHeld, Command.holdsLock, hi]

/-- A command that is carried out with care leaves at most one execution with a turn. -/
theorem owned_command {c : BackupConfiguration D} {turn : LockTurn} (h : Owned c turn) {i : ℕ}
    {next : Command} {holds : Bool} (hi : c.locals i = .running next holds) (outcome : CommandOutcome)
    (htests : next = .testLock → c.shared.lock = false → ∀ j, (c.locals j).touches = false) :
    ∃ turn', Owned ⟨(next.run isDbServer i outcome holds c.shared).1,
      Function.update c.locals i (next.run isDbServer i outcome holds c.shared).2⟩ turn' := by
  have hwell := h.wellHeld i
  rw [hi] at hwell
  cases next with
  | setTrap =>
    obtain rfl : holds = false := hwell _ rfl
    refine ⟨turn, h.keep ?_ ?_ rfl ?_⟩
    all_goals cases outcome <;> simp [Command.run, Execution.holds, Execution.touches,
      Execution.WellHeld, Command.holdsLock, hi]
  | testLock =>
    obtain rfl : holds = false := hwell _ rfl
    exact owned_testLock h hi outcome (htests rfl)
  | touchLock =>
    obtain rfl : holds = false := hwell _ rfl
    exact owned_touchLock h hi outcome
  | createBackup =>
    obtain rfl : holds = true := hwell _ rfl
    refine ⟨turn, h.keep ?_ ?_ ?_ ?_⟩
    all_goals cases outcome <;> cases isDbServer <;> simp [Command.run, postBackup, Execution.holds,
      Execution.touches, Execution.WellHeld, Command.holdsLock, hi]
  | dump db =>
    obtain rfl : holds = true := hwell _ rfl
    refine ⟨turn, h.keep ?_ ?_ rfl ?_⟩
    all_goals cases db <;> simp [Command.run, afterDump, Execution.holds, Execution.touches,
      Execution.WellHeld, Command.holdsLock, hi]
  | rmLock exitCode =>
    obtain rfl : holds = true := hwell _ rfl
    exact owned_rmLock h hi outcome
  | exit exitCode =>
    cases holds with
    | true =>
      have hturn : turn = .holder i := (h.holds i).1 (by rw [hi]; rfl)
      exact ⟨.nobody, h.leave (Or.inl hturn) rfl rfl trivial⟩
    | false => exact ⟨turn, h.keep (by rw [hi]; rfl) (by rw [hi]; rfl) rfl trivial⟩

/-- A command that goes on without its shell. -/
theorem owned_orphan {c : BackupConfiguration D} {turn : LockTurn} (h : Owned c turn) {i : ℕ}
    {command : Command} {holds : Bool} {exitCode : ℕ}
    (hi : c.locals i = .orphaned command holds exitCode) (outcome : CommandOutcome) :
    ∃ turn', Owned ⟨(command.run isDbServer i outcome holds c.shared).1,
      Function.update c.locals i (.exited exitCode)⟩ turn' := by
  have hwell := h.wellHeld i
  rw [hi] at hwell
  refine h.exit exitCode fun hlock => ?_
  cases command with
  | rmLock exitCode' =>
    obtain rfl : holds = true := hwell _ rfl
    right
    rw [hi]
    rfl
  | touchLock =>
    left
    cases outcome with
    | success => cases hlock
    | failure | notOpened => exact hlock
  | createBackup =>
    left
    cases outcome <;> exact hlock
  | setTrap | testLock | dump | exit => exact Or.inl hlock

/-- A signal that ends the shell leaves the lock to the command that goes on, if there is one. -/
theorem owned_killed {c : BackupConfiguration D} {turn : LockTurn} (h : Owned c turn) {i : ℕ}
    {next : Command} {holds : Bool} (hi : c.locals i = .running next holds) (signal : Signal) :
    ∃ turn', Owned ⟨c.shared, Function.update c.locals i (next.killed signal holds)⟩ turn' := by
  have hwell := h.wellHeld i
  rw [hi] at hwell
  cases next with
  | setTrap | testLock | exit => exact h.exit _ Or.inl
  | touchLock =>
    obtain rfl : holds = false := hwell _ rfl
    exact ⟨.nobody, h.leave (Or.inr ((h.touches i).1 (by rw [hi]; rfl))) rfl rfl hwell⟩
  | createBackup | dump | rmLock =>
    exact ⟨turn, h.keep (by rw [hi]; rfl) (by rw [hi]; rfl) rfl hwell⟩

/-- A trapped signal to an execution that holds the lock leads it to the trap, which removes its own
lock. -/
theorem owned_signal {c : BackupConfiguration D} {turn : LockTurn} (h : Owned c turn) {i : ℕ}
    {next : Command} {holds : Bool} (hi : c.locals i = .running next holds) (signal : Signal)
    (hsignal : signal.isTrapped = true → holds = true ∨ next = .setTrap) :
    ∃ turn', Owned ⟨c.shared, Function.update c.locals i (next.interrupted signal holds)⟩ turn' := by
  have hwell := h.wellHeld i
  rw [hi] at hwell
  unfold Command.interrupted
  split_ifs with htrapped
  · obtain ⟨htrapped, hset⟩ := htrapped
    obtain rfl : holds = true := (hsignal htrapped).resolve_right hset
    cases next with
    | setTrap | testLock | touchLock => cases hwell _ rfl
    | createBackup | dump | rmLock | exit =>
      refine ⟨turn, h.keep ?_ ?_ rfl ?_⟩
      all_goals simp [Execution.holds, Execution.touches, Execution.WellHeld, Command.holdsLock, hi]
  · exact owned_killed h hi signal

theorem owned_step {c c' : BackupConfiguration D} {turn : LockTurn} (h : Owned c turn)
    {a : BackupAction D} (ha : (runSh D isDbServer).step a c = some c') (hcareful : Careful a c c') :
    ∃ turn', Owned c' turn' := by
  cases Processes.step_cases ha with
  | @act i a s x hnext =>
    generalize hx : c.locals i = y at hnext
    cases does_of_next hnext with
    | start =>
      refine ⟨turn, h.keep ?_ ?_ rfl ?_⟩
      all_goals simp [Execution.holds, Execution.touches, Execution.WellHeld, Command.holdsLock, hx]
    | next outcome next holds =>
      refine owned_command h hx outcome ?_
      rintro rfl hlock
      exact hcareful.tests i outcome holds rfl hx hlock
    | orphan outcome command holds exitCode => exact owned_orphan h hx outcome
    | signal signal next holds =>
      refine owned_signal h hx signal fun htrapped => ?_
      rcases hcareful.signals i signal rfl htrapped with hholds | ⟨holds', htrap⟩
      · rw [hx] at hholds
        exact Or.inl hholds
      · rw [hx] at htrap
        exact Or.inr (Execution.running.inj htrap).1
  | @env e => exact ⟨turn, h.holds, h.touches, h.lock, h.wellHeld⟩

/-- One execution holds the lock, so it is the one that removes it. -/
theorem exclusive_of_owned {a : BackupAction D} {c c' : BackupConfiguration D}
    {turn turn' : LockTurn} (h : Owned c turn) (h' : Owned c' turn') : Exclusive a c c' := by
  have hunique : ∀ {c : BackupConfiguration D} {turn}, Owned c turn → ∀ i j,
      (c.locals i).holds = true → (c.locals j).holds = true → i = j := by
    intro c turn h i j hi hj
    have heq := ((h.holds i).1 hi).symm.trans ((h.holds j).1 hj)
    exact LockTurn.holder.inj heq
  refine ⟨hunique h', ?_⟩
  rintro i ⟨-, -, exitCode, hi⟩ j hj
  have hholds : (c.locals i).holds = true := by
    have hwell := h.wellHeld i
    generalize c.locals i = x at hi hwell
    cases x with
    | running next holds =>
      obtain rfl := Option.some.inj hi
      exact hwell _ rfl
    | orphaned command holds code =>
      obtain rfl := Option.some.inj hi
      exact hwell _ rfl
    | _ => cases hi
  exact hunique h j i hj hholds

/-- In a careful run, one execution at most holds the lock, and no one else removes it. -/
theorem exclusive_of_careful {s : BackupState D} {as : List (BackupAction D)}
    (h : (runSh D isDbServer).Along Careful as ((runSh D isDbServer).initial s)) :
    (runSh D isDbServer).Along Exclusive as ((runSh D isDbServer).initial s) := by
  refine Transitions.along_of_invariant (I := fun c => ∃ turn, Owned c turn) ?_
    ⟨.nobody, owned_initial s⟩ h
  rintro a c c' ⟨turn, hturn⟩ ha hcareful
  obtain ⟨turn', hturn'⟩ := owned_step hturn ha hcareful
  exact ⟨⟨turn', hturn'⟩, exclusive_of_owned hturn hturn'⟩

/-- Executions that run one after another, without a signal, are careful. -/
theorem careful_of_uninterrupted {a : BackupAction D} {c c' : BackupConfiguration D}
    (h : Uninterrupted a c c') : Careful a c c' := by
  refine ⟨?_, fun i signal ha _ => absurd ha (h.noSignal i signal)⟩
  rintro i outcome holds rfl hi - j
  by_cases hj : j = i
  · rw [hj, hi]
    rfl
  · have hidle := h.alone i _ rfl j hj
    cases hx : c.locals j with
    | running =>
      rw [hx] at hidle
      cases hidle
    | _ => rfl

/-! ## What goes wrong without care -/

section Continuations

variable {c c' : BackupConfiguration D} {i j k : ℕ}

theorem step_start (hk : c.locals k = .notStarted) :
    (runSh D isDbServer).step (.act k .start) c =
      some ⟨c.shared, Function.update c.locals k (.running .setTrap false)⟩ := by
  apply Processes.step_act
  rw [hk]
  rfl

theorem step_next {next : Command} {holds : Bool} (hi : c.locals i = .running next holds)
    (outcome : CommandOutcome) : (runSh D isDbServer).step (.act i (.next outcome)) c =
      some ⟨(next.run isDbServer i outcome holds c.shared).1,
        Function.update c.locals i (next.run isDbServer i outcome holds c.shared).2⟩ := by
  apply Processes.step_act
  rw [hi]
  rfl

theorem step_signal {next : Command} {holds : Bool} (hi : c.locals i = .running next holds)
    (signal : Signal) : (runSh D isDbServer).step (.act i (.signal signal)) c =
      some ⟨c.shared, Function.update c.locals i (next.interrupted signal holds)⟩ := by
  apply Processes.step_act
  rw [hi]
  rfl

theorem step_testLock {holds : Bool} (hi : c.locals i = .running .testLock holds)
    (hlock : c.shared.lock = false) (outcome : CommandOutcome) :
    (runSh D isDbServer).step (.act i (.next outcome)) c =
      some ⟨c.shared, Function.update c.locals i (.running .touchLock holds)⟩ := by
  rw [step_next hi, Command.run, hlock]
  rfl

theorem exists_of_touches {x : Execution} (h : x.touches = true) :
    ∃ holds, x = .running .touchLock holds := by
  cases x with
  | running next holds =>
    cases next with
    | touchLock => exact ⟨holds, rfl⟩
    | _ => cases h
  | _ => cases h

/-- Two executions that have both found no lock file both create it. -/
theorem not_exclusive_of_two_testers (hij : i ≠ j) (hi : (c.locals i).touches = true)
    (hj : (c.locals j).touches = true) :
    ¬ (runSh D isDbServer).Along Exclusive [.act i (.next .success), .act j (.next .success)] c := by
  intro h
  obtain ⟨holds, hi⟩ := exists_of_touches hi
  obtain ⟨holds', hj⟩ := exists_of_touches hj
  have h₁ := (h _ (step_next hi .success)).2
  have hj₁ : Function.update c.locals i (.running .createBackup true) j =
      .running .touchLock holds' := by
    rw [Function.update_of_ne hij.symm]
    exact hj
  have h₂ := (h₁ _ (step_next hj₁ .success)).1
  apply hij
  apply h₂.holders
  · dsimp only
    rw [Function.update_of_ne hij]
    simp [Command.run, Execution.holds]
  · simp [Command.run, Execution.holds]

/-- The trap of an execution removes the lock file that another one has. -/
theorem not_exclusive_of_trap {exitCode : ℕ} {holds : Bool}
    (hi : c.locals i = .running (.rmLock exitCode) holds) (hlock : c.shared.lock = true)
    (hji : j ≠ i) (hj : (c.locals j).holds = true) :
    ¬ (runSh D isDbServer).Along Exclusive [.act i (.next .success)] c := by
  intro h
  have h₁ := (h _ (step_next hi .success)).1
  exact hji (h₁.removes i ⟨rfl, hlock, exitCode, by rw [hi]; rfl⟩ j hj)

/-- A new execution takes the lock. -/
def takesLock (k : ℕ) : List (BackupAction D) :=
  [.act k .start, .act k (.next .success), .act k (.next .success), .act k (.next .success)]

theorem run_takesLock (hk : c.locals k = .notStarted) (hlock : c.shared.lock = false) :
    (runSh D isDbServer).run (takesLock k) c = some ⟨{ c.shared with lock := true },
      Function.update c.locals k (.running .createBackup true)⟩ := by
  have hself : ∀ (s : BackupState D) (f : ℕ → Execution) (x : Execution),
      (⟨s, Function.update f k x⟩ : BackupConfiguration D).locals k = x :=
    fun _ f x => Function.update_self k x f
  have hfree : ∀ f, (⟨c.shared, f⟩ : BackupConfiguration D).shared.lock = false := fun _ => hlock
  refine (Transitions.run_cons (step_start hk)).trans ?_
  refine (Transitions.run_cons (step_next (hself _ _ _) .success)).trans ?_
  refine (Transitions.run_cons (step_testLock (hself _ _ _) (hfree _) .success)).trans ?_
  refine (Transitions.run_cons (step_next (hself _ _ _) .success)).trans ?_
  simp [Transitions.run, Command.run]

/-- While no execution holds the lock, a new one takes it, and then the trap of an execution that was
interrupted before removes it. -/
theorem not_exclusive_of_new {exitCode : ℕ} {holds : Bool}
    (hi : c.locals i = .running (.rmLock exitCode) holds) (hlock : c.shared.lock = false)
    (hk : c.locals k = .notStarted) :
    ¬ (runSh D isDbServer).Along Exclusive (takesLock k ++ [.act i (.next .success)]) c := by
  intro h
  have hki : k ≠ i := by
    rintro rfl
    rw [hk] at hi
    cases hi
  have hi' : Function.update c.locals k (.running .createBackup true) i =
      .running (.rmLock exitCode) holds := by
    rw [Function.update_of_ne hki.symm]
    exact hi
  refine not_exclusive_of_trap hi' rfl hki ?_ (Transitions.along_of_append h (run_takesLock hk hlock))
  simp [Execution.holds]

/-- An execution that is interrupted without holding the lock can take it away from another one. -/
theorem not_exclusive_of_interrupted {exitCode : ℕ}
    (hi : c.locals i = .running (.rmLock exitCode) false) (hk : c.locals k = .notStarted) :
    ∃ bs, ¬ (runSh D isDbServer).Along Exclusive bs c := by
  cases hlock : c.shared.lock with
  | false => exact ⟨_, not_exclusive_of_new hi hlock hk⟩
  | true =>
    -- The trap removes the file, is interrupted, and starts again.
    refine ⟨.act i (.next .success) :: .act i (.signal .TERM) ::
      (takesLock k ++ [.act i (.next .success)]), fun h => ?_⟩
    have h₁ := (h _ (step_next hi .success)).2
    have hself : ∀ (f : ℕ → Execution) (x : Execution), Function.update f i x i = x :=
      fun f x => Function.update_self i x f
    have hki : k ≠ i := by
      rintro rfl
      rw [hk] at hi
      cases hi
    have h₂ := (h₁ _ (step_signal (hself _ _) .TERM)).2
    refine not_exclusive_of_new (hself _ _) rfl ?_ h₂
    show Function.update (Function.update c.locals i _) i _ k = _
    rw [Function.update_of_ne hki, Function.update_of_ne hki]
    exact hk

/-- A test of the lock between the test of another execution and its `touch`. -/
theorem tests_alone_of_exclusive {outcome : CommandOutcome} {holds : Bool}
    (hi : c.locals i = .running .testLock holds) (hlock : c.shared.lock = false)
    (ha : (runSh D isDbServer).step (.act i (.next outcome)) c = some c')
    (h : ∀ bs, (runSh D isDbServer).Along Exclusive bs c') (j : ℕ) :
    (c.locals j).touches = false := by
  rw [step_testLock hi hlock] at ha
  obtain rfl := Option.some.inj ha
  by_contra htouches
  have hj : (c.locals j).touches = true := by simpa using htouches
  have hij : i ≠ j := by
    rintro rfl
    rw [hi] at hj
    cases hj
  refine not_exclusive_of_two_testers hij ?_ ?_ (h _)
  · simp [Execution.touches]
  · dsimp only
    rw [Function.update_of_ne hij.symm]
    exact hj

/-- A trapped signal to an execution that has set its trap and does not hold the lock. -/
theorem not_exclusive_of_signal {s₀ : BackupState D} {as : List (BackupAction D)}
    (hrun : (runSh D isDbServer).run as ((runSh D isDbServer).initial s₀) = some c)
    {next : Command} (hset : next ≠ .setTrap) {signal : Signal}
    (htrapped : signal.isTrapped = true) : ∃ bs, ¬ (runSh D isDbServer).Along Exclusive bs
      ⟨c.shared, Function.update c.locals i (next.interrupted signal false)⟩ := by
  have htrap : next.interrupted signal false = .running (.rmLock 2) false :=
    if_pos ⟨htrapped, hset⟩
  rw [htrap]
  obtain ⟨n, hidle⟩ := Processes.exists_idle hrun
  -- An execution that was not started yet.
  have hk : Function.update c.locals i (.running (.rmLock 2) false) (max n (i + 1)) =
      .notStarted := by
    rw [Function.update_of_ne (by omega)]
    exact hidle _ (by omega)
  have hcut : Function.update c.locals i (.running (.rmLock 2) false) i =
      .running (.rmLock 2) false := Function.update_self i _ _
  exact not_exclusive_of_interrupted hcut hk

/-- An action without care can be continued to a run in which the lock fails. -/
theorem careful_of_exclusive {s₀ : BackupState D} {as : List (BackupAction D)}
    (hrun : (runSh D isDbServer).run as ((runSh D isDbServer).initial s₀) = some c)
    {a : BackupAction D} (ha : (runSh D isDbServer).step a c = some c')
    (h : ∀ bs, (runSh D isDbServer).Along Exclusive bs c') : Careful a c c' := by
  refine ⟨?_, ?_⟩
  · rintro i outcome holds rfl hi hlock j
    exact tests_alone_of_exclusive hi hlock ha h j
  · rintro i signal rfl htrapped
    by_contra hnone
    obtain ⟨hholds, hset⟩ := not_or.1 hnone
    obtain ⟨next, holds, hi⟩ : ∃ next holds, c.locals i = .running next holds := by
      cases hi : c.locals i with
      | running next holds => exact ⟨next, holds, rfl⟩
      | _ => simp [Processes.step, runSh, hi] at ha
    rw [hi] at hholds
    obtain rfl : holds = false := by simpa [Execution.holds] using hholds
    rw [step_signal hi signal] at ha
    obtain rfl := Option.some.inj ha
    have hnext : next ≠ .setTrap := by
      rintro rfl
      exact hset ⟨false, hi⟩
    obtain ⟨bs, hbs⟩ := not_exclusive_of_signal hrun hnext htrapped
    exact hbs (h bs)

end Continuations

/-- A careful run keeps the lock, and every action without care can be continued to a run in which the
lock fails. -/
theorem backups_exclude (D : Type) (isDbServer : Bool) (s₀ : BackupState D)
    (as : List (BackupAction D)) :
    ((runSh D isDbServer).Along Careful as ((runSh D isDbServer).initial s₀) →
      (runSh D isDbServer).Along Exclusive as ((runSh D isDbServer).initial s₀)) ∧
    ∀ c a c', (runSh D isDbServer).run as ((runSh D isDbServer).initial s₀) = some c →
      (runSh D isDbServer).step a c = some c' → ¬ Careful a c c' →
        ∃ bs, ¬ (runSh D isDbServer).Along Exclusive bs c' := by
  refine ⟨exclusive_of_careful, ?_⟩
  intro c a c' hrun ha hcareless
  by_contra hnone
  apply hcareless
  apply careful_of_exclusive hrun ha
  intro bs
  by_contra hbs
  exact hnone ⟨bs, hbs⟩

section

/-- A server without a database, and no lock file. -/
def unlockedState : BackupState Unit where
  lock := false
  databases _ := ()
  directory _ := none
  archives := []

/-- The test of an action, when only the first `n` executions are ever started. -/
def carefulTest (n : ℕ) (a : BackupAction D) (c : BackupConfiguration D) : Bool :=
  match a with
  | .env _ => true
  | .act i .start => decide (i < n)
  | .act i (.next _) => decide (i < n) && (c.shared.lock ||
      decide ((c.locals i).command ≠ some .testLock) ||
        (List.range n).all fun j => !(c.locals j).touches)
  | .act i (.signal signal) => decide (i < n) && (!signal.isTrapped || (c.locals i).holds)

theorem careful_of_tests {n : ℕ} {as : List (BackupAction D)} {s : BackupState D}
    (h : Transitions.tests (runSh D isDbServer).step (carefulTest n) as
      ((runSh D isDbServer).initial s) = true) :
    (runSh D isDbServer).Along Careful as ((runSh D isDbServer).initial s) := by
  refine along_of_firstTests (n := n) (fun a c c' hidle htest => ⟨?_, ?_, ?_⟩) h
  · rintro i b rfl
    cases b <;> simp [carefulTest] at htest
    all_goals omega
  · rintro i outcome holds rfl hi hlock j
    have hall : i < n ∧ ∀ j < n, (c.locals j).touches = false := by
      simpa [carefulTest, hi, hlock, Execution.command] using htest
    rcases Nat.lt_or_ge j n with hj | hj
    · exact hall.2 j hj
    · rw [hidle j hj]
      rfl
  · rintro i signal rfl htrapped
    have hheld : i < n ∧ (c.locals i).holds = true := by
      simpa [carefulTest, htrapped] using htest
    exact Or.inl hheld.2

/-- An execution creates the lock file, another one finds it and gives up, and a third one is hung up
on before it tests.  Then the first one is terminated, and its trap removes the file. -/
def holderTerminated : List (BackupAction Unit) :=
  [.act 0 .start, .act 0 (.next .success), .act 0 (.next .success), .act 0 (.next .success),
    .act 1 .start, .act 1 (.next .success), .act 1 (.next .success), .act 1 (.next .success),
    .act 2 .start, .act 2 (.next .success), .act 2 (.signal (.untrapped 1)),
    .act 0 (.signal .TERM), .act 0 (.next .success), .act 0 (.next .success)]

theorem backups_exclude_terminated : (runSh Unit false).Along Exclusive holderTerminated
    ((runSh Unit false).initial unlockedState) := by
  have htests : Transitions.tests (runSh Unit false).step (carefulTest 3) holderTerminated
      ((runSh Unit false).initial unlockedState) = true := by decide
  exact (backups_exclude Unit false unlockedState holderTerminated).1 (careful_of_tests htests)

/-- The timer and an issued certificate start `run.sh` at the same time: both executions test for the
lock file before either of them creates it. -/
def bothTest : List (BackupAction Unit) :=
  [.act 0 .start, .act 1 .start, .act 0 (.next .success), .act 1 (.next .success),
    .act 0 (.next .success), .act 1 (.next .success)]

/-- Both executions hold the lock. -/
theorem backups_overlap : ¬ ∀ (D : Type) (isDbServer : Bool) (s₀ : BackupState D)
    (as : List (BackupAction D)),
    (runSh D isDbServer).Along Exclusive as ((runSh D isDbServer).initial s₀) := by
  intro hclaim
  have hrun : ((runSh Unit false).run bothTest ((runSh Unit false).initial unlockedState)).any
      (fun c => (c.locals 0).touches && (c.locals 1).touches) = true := by decide
  obtain ⟨c, hc, htouch⟩ := (Option.any_eq_true _ _).1 hrun
  rw [Bool.and_eq_true] at htouch
  have halong := hclaim Unit false unlockedState
    (bothTest ++ [.act 0 (.next .success), .act 1 (.next .success)])
  exact not_exclusive_of_two_testers (by decide) htouch.1 htouch.2
    (Transitions.along_of_append halong hc)

end

end IMoviesCA
