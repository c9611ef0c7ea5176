import IMoviesCA.Lib.Environment
import IMoviesCA.Handlers

/-!
# Runs of the two servers

What holds of every reachable configuration by the contracts of the handlers: the events of a
process are in the trace of its request (`trace_of_reaches`, and `trace_inEnvironment` for whatever
else may change the state meanwhile), an answer tells of them what it should (`answer_of_reaches`), and
a step of the system either leaves the shared state alone, moves the clock, or is one event of such a
trace (`moves_of_step`).  `invariant_of_moves` is the induction over these events.

`Evolves` forgets the processes and keeps the events: the tables are what the history made of them.
-/

namespace IMoviesCA

/-- A configuration of the two servers. -/
abbrev Configuration := Config Request Op Op.Res State Reply

variable {P : Platform} {s₀ : State} {c c' : Configuration}

theorem start_of_fresh (h₀ : s₀.history = []) (i : ℕ) : (contracts P).start i s₀ := by
  change s₀.own i = []
  rw [State.own, h₀]
  rfl

theorem own_of_idle (h₀ : s₀.history = []) (h : (system P).Reaches (.initial s₀) c) {i : ℕ}
    (hi : c.procs i = none) : c.shared.own i = [] := by
  have := Logic.procOk_of_reaches (start_of_fresh h₀) h i
  rw [hi] at this
  exact this

section

variable {ε : Type} {env : ε → State → State}

/-- The events of a process are in the trace of its request, in every environment that the processes
can rely on. -/
theorem trace_inEnvironment (henv : ∀ i e s, Rely i s (env e s)) (h₀ : s₀.history = [])
    (h : ((system P).inEnvironment env).Reaches (.initial s₀) c) {i : ℕ} {req : Request}
    (hi : c.request i = some req) : Trace P i req (c.shared.own i) := by
  refine ((contracts P).inEnvironment env henv).holds_of_reaches
    (H := fun i req s => Trace P i req (s.own i)) (start_of_fresh (P := P) h₀) ?_ ?_ ?_ h hi
  · intro i req s hs
    have hnil : s.own i = [] := hs
    rw [hnil]
    exact trace_start P i req
  · exact fun i req e s hcontract ch => hcontract ch
  · intro i req s s' hrely htrace
    rw [hrely.1]
    exact htrace

/-- An event of the history belongs to the trace of a request. -/
theorem exists_trace_inEnvironment (henv : ∀ i e s, Rely i s (env e s)) (h₀ : s₀.history = [])
    (h : ((system P).inEnvironment env).Reaches (.initial s₀) c) {e : Event}
    (he : e ∈ c.shared.history) : ∃ req, c.request e.pid = some req ∧
      e ∈ c.shared.own e.pid ∧ Trace P e.pid req (c.shared.own e.pid) := by
  have hown : e ∈ c.shared.own e.pid := State.mem_own.2 ⟨he, rfl⟩
  cases hi : c.request e.pid with
  | none =>
    have hidle : c.procs e.pid = none := by simpa [Config.request] using hi
    have hstart := ((contracts P).inEnvironment env henv).procOk_of_reaches
      (start_of_fresh (P := P) h₀) h e.pid
    rw [hidle] at hstart
    have hnil : c.shared.own e.pid = [] := hstart
    rw [hnil] at hown
    cases hown
  | some req => exact ⟨req, rfl, hown, trace_inEnvironment henv h₀ h hi⟩

end

theorem trace_of_reaches (h₀ : s₀.history = []) (h : (system P).Reaches (.initial s₀) c) {i : ℕ}
    {req : Request} (hi : c.request i = some req) : Trace P i req (c.shared.own i) :=
  trace_inEnvironment (contracts P).env_rely h₀ h hi

theorem answer_of_reaches (h₀ : s₀.history = []) (h : (system P).Reaches (.initial s₀) c) {i : ℕ}
    {req : Request} {reply : Reply} (hi : c.procs i = some (req, .done reply)) :
    Answer P i req reply (c.shared.own i) := by
  obtain ⟨s, ⟨-, hanswer⟩, hrely⟩ := Logic.post_of_reaches (start_of_fresh h₀) h hi
  rw [hrely.1]
  exact hanswer

theorem trace_of_mem_history (h₀ : s₀.history = []) (h : (system P).Reaches (.initial s₀) c)
    {e : Event} (he : e ∈ c.shared.history) : ∃ req, c.request e.pid = some req ∧
      e ∈ c.shared.own e.pid ∧ Trace P e.pid req (c.shared.own e.pid) :=
  exists_trace_inEnvironment (contracts P).env_rely h₀ h he

/-! ## Steps -/

/-- One event of the process that moves. -/
structure Move (P : Platform) (c c' : Configuration) (req : Request) (e : Event) : Prop where
  request : c.request e.pid = some req
  occurs : Occurs e c.shared c'.shared
  trace : Trace P e.pid req (e :: c.shared.own e.pid)

theorem moves_of_step (h₀ : s₀.history = []) (h : (system P).Reaches (.initial s₀) c)
    {a : Act Request Choice ℕ} (ha : (system P).step a c = some c') :
    c'.shared = c.shared ∨ (∃ d, c'.shared = tick d c.shared) ∨
      ∃ req e ch, a = .step e.pid ch ∧ Move P c c' req e := by
  have hreach' : (system P).Reaches (.initial s₀) c' := h.tail ⟨a, ha⟩
  have hcases := System.step_cases ha
  cases hcases with
  | arrive => exact Or.inl rfl
  | @step i ch r op k hhere =>
    rcases exec_cases i op ch c.shared with hs | ⟨e, rfl, he⟩
    · exact Or.inl hs
    · have hreq : c.request e.pid = some r := by simp [Config.request, hhere]
      refine Or.inr (Or.inr ⟨r, e, ch, rfl, hreq, he, ?_⟩)
      have htrace := trace_of_reaches h₀ hreach' (System.request_of_step ha hreq)
      rw [← he.own]
      exact htrace
  | @env d => exact Or.inr (Or.inl ⟨d, rfl⟩)

/-- The commit that leaves an event. -/
def Event.commitOp : Event → Option Op
  | usersCommitted _ ws => some (.commitUsers ws)
  | certificatesCommitted _ ws _ => some (.commitCertificates ws)
  | privateKeysCommitted _ ws => some (.commitPrivateKeys ws)
  | _ => none

theorem op_of_history {i : ℕ} {op op' : Op} {ch : Choice} {s : State} {e : Event}
    (h : (exec i op ch s).2.history = e :: s.history) (he : e.commitOp = some op') :
    op = op' ∧ ch = .ok := by
  have hne : s.history ≠ e :: s.history := fun heq => by simpa using congrArg List.length heq
  cases ch with
  | ok =>
    cases op with
    | commitUsers | commitCertificates | commitPrivateKeys =>
      simp only [exec, Op.run] at h
      split at h
      · obtain ⟨rfl, -⟩ := List.cons.inj h
        exact ⟨Option.some.inj he, rfl⟩
      · exact absurd h hne
    | countEmail | executeUsers | executeCertificates | anyPrivateKey | executePrivateKeys
    | clock | mayThrow => exact absurd h hne
    | findUser | readCertificates | findPrivateKey | generateKey | writeAllBytes | receive
    | cacheTryGet | cacheSet =>
      obtain ⟨rfl, -⟩ := List.cons.inj h
      cases he
  | throws written =>
    cases op with
    | writeAllBytes path bytes =>
      cases written with
      | none => exact absurd h hne
      | some n =>
        obtain ⟨rfl, -⟩ := List.cons.inj h
        cases he
    | receive r =>
      cases written with
      | none => exact absurd h hne
      | some n =>
        obtain ⟨rfl, -⟩ := List.cons.inj h
        cases he
    | _ => exact absurd h hne

/-- A commit is the next operation of the process that makes it, and is carried out. -/
theorem op_of_step {i : ℕ} {ch : Choice} (ha : (system P).step (.step i ch) c = some c')
    {e : Event} (he : Occurs e c.shared c'.shared) {op : Op} (hop : e.commitOp = some op)
    {req : Request} (hreq : c.request i = some req) :
    ch = .ok ∧ ∃ k, c.procs i = some (req, .op op k) := by
  cases System.step_cases ha with
  | @step _ _ r op' k hhere =>
    have hhist : (exec i op' ch c.shared).2.history = e :: c.shared.history := he.history
    obtain ⟨rfl, rfl⟩ := op_of_history hhist hop
    rw [Config.request, hhere] at hreq
    obtain rfl := Option.some.inj hreq
    exact ⟨rfl, k, hhere⟩

/-- The induction over the events of a run. -/
theorem invariant_of_moves (h₀ : s₀.history = []) {I : State → Prop} (hinit : I s₀)
    (htick : ∀ d s, I s → I (tick d s))
    (hmove : ∀ {b b' : Configuration} {req e}, (system P).Reaches (.initial s₀) b →
      Move P b b' req e → I b.shared → I b'.shared)
    (h : (system P).Reaches (.initial s₀) c) : I c.shared := by
  induction h with
  | refl => exact hinit
  | tail hreach hstep ih =>
    obtain ⟨a, ha⟩ := hstep
    rcases moves_of_step h₀ hreach ha with hs | ⟨d, hs⟩ | ⟨req, e, ch, -, hm⟩
    · rw [hs]
      exact ih
    · rw [hs]
      exact htick d _ ih
    · exact hmove hreach hm ih

/-! ## States and events -/

/-- From `s` to `s'` the events `evs` occurred, newest first, and time passed. -/
inductive Evolves : List Event → State → State → Prop
  | refl {s : State} : Evolves [] s s
  | tick {evs : List Event} {s s' : State} (d : ℕ) (h : Evolves evs s s') : Evolves evs s (tick d s')
  | event {evs : List Event} {s s' s'' : State} {e : Event} (h : Evolves evs s s')
      (he : Occurs e s' s'') : Evolves (e :: evs) s s''

theorem Evolves.history {evs : List Event} {s s' : State} (h : Evolves evs s s') :
    s'.history = evs ++ s.history := by
  induction h with
  | refl => rfl
  | tick d h ih => exact ih
  | event h he ih => rw [he.history, ih, List.cons_append]

theorem Evolves.now_le {evs : List Event} {s s' : State} (h : Evolves evs s s') : s.now ≤ s'.now := by
  induction h with
  | refl => exact le_refl _
  | tick d h ih => exact ih.trans (Nat.le_add_right _ _)
  | event h he ih => exact ih.trans he.now.ge

theorem Evolves.trans {evs evs' : List Event} {s s' s'' : State} (h : Evolves evs s s')
    (h' : Evolves evs' s' s'') : Evolves (evs' ++ evs) s s'' := by
  induction h' with
  | refl => exact h
  | tick d _ ih => exact .tick d (ih h)
  | event _ he ih => exact .event (ih h) he

theorem evolves_exec (i : ℕ) (e : Op) (ch : Choice) (s : State) :
    ∃ evs, Evolves evs s (exec i e ch s).2 ∧ ∀ ev ∈ evs, ev.pid = i := by
  rcases exec_cases i e ch s with hs | ⟨ev, hpid, hev⟩
  · rw [hs]
    exact ⟨[], .refl, by simp⟩
  · exact ⟨[ev], .event .refl hev, by simpa using hpid⟩

theorem evolves_step {a : Act Request Choice ℕ} (ha : (system P).step a c = some c') :
    ∃ evs, Evolves evs c.shared c'.shared := by
  cases System.step_cases ha with
  | arrive => exact ⟨[], .refl⟩
  | @step i ch r op k hhere =>
    obtain ⟨evs, hevs, -⟩ := evolves_exec i op ch c.shared
    exact ⟨evs, hevs⟩
  | @env d => exact ⟨[], .tick d .refl⟩

theorem evolves_of_reaches (h : (system P).Reaches c c') : ∃ evs, Evolves evs c.shared c'.shared := by
  induction h with
  | refl => exact ⟨[], .refl⟩
  | tail _ hstep ih =>
    obtain ⟨a, ha⟩ := hstep
    obtain ⟨evs, hevs⟩ := ih
    obtain ⟨evs', hevs'⟩ := evolves_step ha
    exact ⟨evs' ++ evs, hevs.trans hevs'⟩

theorem history_subset_of_reaches (h : (system P).Reaches c c') :
    c.shared.history ⊆ c'.shared.history := by
  obtain ⟨evs, hevs⟩ := evolves_of_reaches h
  rw [hevs.history]
  exact List.subset_append_right _ _

theorem now_le_of_reaches (h : (system P).Reaches c c') : c.shared.now ≤ c'.shared.now := by
  obtain ⟨evs, hevs⟩ := evolves_of_reaches h
  exact hevs.now_le

/-- The moment of an event: the steps before it, the one that leaves it, and those after it. -/
theorem move_of_history (h₀ : s₀.history = []) (h₁ : (system P).Reaches (.initial s₀) c)
    (h : (system P).Reaches c c') {e : Event} {later earlier : List Event}
    (hhist : c'.shared.history = later ++ e :: earlier)
    (hnew : c.shared.history.length ≤ earlier.length) :
    ∃ b b' req, (system P).Reaches c b ∧ Move P b b' req e ∧ (system P).Reaches b' c' ∧
      b.shared.history = earlier := by
  induction h generalizing later with
  | refl =>
    rw [hhist, List.length_append, List.length_cons] at hnew
    omega
  | @tail b b' hreach hstep ih =>
    obtain ⟨a, ha⟩ := hstep
    rcases moves_of_step h₀ (h₁.trans hreach) ha with hs | ⟨d, hs⟩ | ⟨req, e', ch, -, hm⟩
    · rw [hs] at hhist
      obtain ⟨b₁, b₂, req, hb₁, hm, hb₂, hb⟩ := ih hhist
      exact ⟨b₁, b₂, req, hb₁, hm, hb₂.tail ⟨a, ha⟩, hb⟩
    · rw [hs] at hhist
      obtain ⟨b₁, b₂, req, hb₁, hm, hb₂, hb⟩ := ih hhist
      exact ⟨b₁, b₂, req, hb₁, hm, hb₂.tail ⟨a, ha⟩, hb⟩
    · rw [hm.occurs.history] at hhist
      cases later with
      | nil =>
        obtain ⟨rfl, hb⟩ := List.cons.inj hhist
        exact ⟨b, b', req, hreach, hm, .refl, hb⟩
      | cons e₁ later =>
        obtain ⟨-, hhist⟩ := List.cons.inj hhist
        obtain ⟨b₁, b₂, req, hb₁, hm, hb₂, hb⟩ := ih hhist
        exact ⟨b₁, b₂, req, hb₁, hm, hb₂.tail ⟨a, ha⟩, hb⟩

/-- The moment of an event that is new. -/
theorem move_of_mem_history (h₀ : s₀.history = []) (h₁ : (system P).Reaches (.initial s₀) c)
    (h : (system P).Reaches c c') {e : Event} (he : e ∈ c'.shared.history)
    (hnew : e ∉ c.shared.history) :
    ∃ b b' req, (system P).Reaches c b ∧ Move P b b' req e ∧ (system P).Reaches b' c' := by
  obtain ⟨evs, hevs⟩ := evolves_of_reaches h
  rw [hevs.history] at he
  have hmem : e ∈ evs := (List.mem_append.1 he).resolve_right hnew
  obtain ⟨later, earlier, rfl⟩ := List.append_of_mem hmem
  have hhist : c'.shared.history = later ++ e :: (earlier ++ c.shared.history) := by
    rw [hevs.history, List.append_assoc, List.cons_append]
  obtain ⟨b, b', req, hb, hm, hb', -⟩ :=
    move_of_history h₀ h₁ h hhist (by rw [List.length_append]; omega)
  exact ⟨b, b', req, hb, hm, hb'⟩

/-- What a program that runs alone did to the state is its own events. -/
theorem evolves_alone {α : Type} (i : ℕ) : ∀ (p : Program Op Op.Res α) (sched : ℕ → ℕ × Choice)
    (s : State), ∃ evs, Evolves evs s (machine.alone i p sched s).2 ∧ ∀ e ∈ evs, e.pid = i
  | .done _, _, _ => ⟨[], .refl, by simp⟩
  | .op e k, sched, s => by
    obtain ⟨evs, hevs, hpid⟩ := evolves_exec i e (sched 0).2 (tick (sched 0).1 s)
    obtain ⟨evs', hevs', hpid'⟩ := evolves_alone i
      (k (exec i e (sched 0).2 (tick (sched 0).1 s)).1) (fun n => sched (n + 1))
      (exec i e (sched 0).2 (tick (sched 0).1 s)).2
    refine ⟨evs' ++ evs, ?_, ?_⟩
    · have htick : Evolves [] s (tick (sched 0).1 s) := .tick _ .refl
      have := (htick.trans hevs).trans hevs'
      rw [List.append_nil] at this
      exact this
    · intro ev hev
      rcases List.mem_append.1 hev with hev | hev
      · exact hpid' ev hev
      · exact hpid ev hev

/-- The last event of an evolution. -/
theorem Evolves.last {e : Event} {evs : List Event} {s s' : State} (h : Evolves (e :: evs) s s') :
    ∃ s₁ s₂, Evolves evs s s₁ ∧ Occurs e s₁ s₂ ∧ Evolves [] s₂ s' := by
  generalize hl : e :: evs = l at h
  induction h with
  | refl => cases hl
  | tick d _ ih =>
    obtain ⟨s₁, s₂, h₁, hocc, h₂⟩ := ih hl
    exact ⟨s₁, s₂, h₁, hocc, .tick d h₂⟩
  | event h he =>
    obtain ⟨rfl, rfl⟩ := List.cons.inj hl
    exact ⟨_, _, h, he, .refl⟩

/-- The events do not write `public_certificates`. -/
def KeepsCertificates (evs : List Event) : Prop := ∀ i ws time, .certificatesCommitted i ws time ∉ evs

/-- The events do not write `private_certificates`. -/
def KeepsPrivateKeys (evs : List Event) : Prop := ∀ i ws, .privateKeysCommitted i ws ∉ evs

/-- The events do not write the file at a path. -/
def KeepsFile (path : String) (evs : List Event) : Prop := ∀ i bytes, .fileWritten i path bytes ∉ evs

theorem Evolves.publicCertificates {evs : List Event} {s s' : State} (h : Evolves evs s s')
    (hevs : KeepsCertificates evs) : s'.publicCertificates = s.publicCertificates := by
  induction h with
  | refl => rfl
  | tick d _ ih => exact ih hevs
  | event _ he ih =>
    rw [← ih fun i ws time hmem => hevs i ws time (List.mem_cons_of_mem _ hmem)]
    cases he with
    | certificatesCommitted => exact absurd List.mem_cons_self (hevs _ _ _)
    | _ => rfl

theorem Evolves.privateCertificates {evs : List Event} {s s' : State} (h : Evolves evs s s')
    (hevs : KeepsPrivateKeys evs) : s'.privateCertificates = s.privateCertificates := by
  induction h with
  | refl => rfl
  | tick d _ ih => exact ih hevs
  | event _ he ih =>
    rw [← ih fun i ws hmem => hevs i ws (List.mem_cons_of_mem _ hmem)]
    cases he with
    | privateKeysCommitted => exact absurd List.mem_cons_self (hevs _ _)
    | _ => rfl

theorem Evolves.backupFolder {evs : List Event} {s s' : State} (h : Evolves evs s s')
    {path : String} (hevs : KeepsFile path evs) : s'.backupFolder path = s.backupFolder path := by
  induction h with
  | refl => rfl
  | tick d _ ih => exact ih hevs
  | event _ he ih =>
    rw [← ih fun i bytes hmem => hevs i bytes (List.mem_cons_of_mem _ hmem)]
    cases he with
    | @fileWritten i path' bytes =>
      have hne : path ≠ path' := by
        rintro rfl
        exact hevs _ _ List.mem_cons_self
      exact Function.update_of_ne hne _ _
    | _ => rfl

/-- A request that runs alone: its events are in its trace, and its answer tells of them. -/
theorem trace_of_alone (P : Platform) {i : ℕ} (req : Request) {s : State} (hs : s.own i = [])
    (sched : ℕ → ℕ × Choice) :
    ∃ evs, Evolves evs s (machine.alone i (answer (action P req)) sched s).2 ∧
      Trace P i req evs ∧
      Answer P i req (machine.alone i (answer (action P req)) sched s).1 evs ∧
      (machine.alone i (answer (action P req)) sched s).2.own i = evs := by
  obtain ⟨evs, hevs, hpid⟩ := evolves_alone i (answer (action P req)) sched s
  obtain ⟨htrace, hanswer⟩ := Machine.post_of_alone (fun d s => rely_tick i d s) sched
    ((contracts P).safe (i := i) (r := req) hs)
  have hown : (machine.alone i (answer (action P req)) sched s).2.own i = evs := by
    have hfilter : evs.filter (fun e => decide (e.pid = i)) = evs :=
      List.filter_eq_self.2 fun e he => by simpa using hpid e he
    have hnil : s.history.filter (fun e => decide (e.pid = i)) = [] := hs
    rw [State.own, hevs.history, List.filter_append, hfilter, hnil, List.append_nil]
  refine ⟨evs, hevs, ?_, ?_, hown⟩
  · rw [← hown]
    exact htrace
  · rw [← hown]
    exact hanswer

end IMoviesCA
