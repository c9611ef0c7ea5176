import Mathlib.Logic.Function.Basic
import Mathlib.Tactic.Common

/-!
# Processes with local states

Any number of processes, each with a state of its own, take their steps on a shared state, one at a
time and in any order.  Unlike a `Program`, a process may go on forever, and may be led away from
wherever it is.

* `Transitions.run` follows a list of actions, `Transitions.Along` is a condition on every action of
  such a list, and `Transitions.along_of_invariant` derives one condition from another by an
  invariant.
* `Processes.step_cases` is the case distinction of a step, and `Processes.locals_of_step` says that
  a process keeps its state while the others move.
-/

/-! ## Transitions -/

namespace Transitions

variable {α γ : Type}

/-- Follow a list of actions. -/
def run (step : α → γ → Option γ) : List α → γ → Option γ
  | [], c => some c
  | a :: as, c => (step a c).bind (run step as)

/-- `Q` holds of every action of the list, with the configurations before and after it. -/
def Along (step : α → γ → Option γ) (Q : α → γ → γ → Prop) : List α → γ → Prop
  | [], _ => True
  | a :: as, c => ∀ c', step a c = some c' → Q a c c' ∧ Along step Q as c'

variable {step : α → γ → Option γ} {Q R : α → γ → γ → Prop}

theorem run_cons {a : α} {as : List α} {c c₁ : γ} (h : step a c = some c₁) :
    run step (a :: as) c = run step as c₁ := by
  rw [run, h]
  rfl

theorem run_append {as bs : List α} {c c₁ : γ} (h : run step as c = some c₁) :
    run step (as ++ bs) c = run step bs c₁ := by
  induction as generalizing c with
  | nil =>
    obtain rfl := Option.some.inj h
    rfl
  | cons a as ih =>
    obtain ⟨c₂, h₂, hrest⟩ := Option.bind_eq_some_iff.1 h
    rw [List.cons_append, run_cons h₂, ih hrest]

/-- The condition holds of what follows a part of the list. -/
theorem along_of_append {as bs : List α} {c c₁ : γ} (h : Along step Q (as ++ bs) c)
    (hrun : run step as c = some c₁) : Along step Q bs c₁ := by
  induction as generalizing c with
  | nil =>
    obtain rfl := Option.some.inj hrun
    exact h
  | cons a as ih =>
    obtain ⟨c₂, h₂, hrest⟩ := Option.bind_eq_some_iff.1 hrun
    exact ih (h c₂ h₂).2 hrest

theorem along_append {as bs : List α} {c : γ} (h : Along step Q as c)
    (hbs : ∀ c₁, run step as c = some c₁ → Along step Q bs c₁) : Along step Q (as ++ bs) c := by
  induction as generalizing c with
  | nil => exact hbs c rfl
  | cons a as ih =>
    intro c₂ h₂
    refine ⟨(h c₂ h₂).1, ih (h c₂ h₂).2 fun c₁ hrun => hbs c₁ ?_⟩
    rw [run_cons h₂, hrun]

/-- An action that keeps the invariant where `Q` holds, and then meets `R`. -/
theorem along_of_invariant {I : γ → Prop}
    (hstep : ∀ a c c', I c → step a c = some c' → Q a c c' → I c' ∧ R a c c') {as : List α} {c : γ}
    (hI : I c) (h : Along step Q as c) : Along step R as c := by
  induction as generalizing c with
  | nil => trivial
  | cons a as ih =>
    intro c' hc'
    obtain ⟨hQ, hrest⟩ := h c' hc'
    obtain ⟨hI', hR⟩ := hstep a c c' hI hc' hQ
    exact ⟨hR, ih hI' hrest⟩

/-- Test a condition on every action of a list. -/
def tests (step : α → γ → Option γ) (test : α → γ → Bool) : List α → γ → Bool
  | [], _ => true
  | a :: as, c => test a c && (step a c).all (tests step test as)

theorem along_of_tests {test : α → γ → Bool} {as : List α} {c : γ}
    (h : tests step test as c = true) : Along step (fun a c _ => test a c = true) as c := by
  induction as generalizing c with
  | nil => trivial
  | cons a as ih =>
    intro c' hc'
    simp only [tests, hc', Option.all_some, Bool.and_eq_true] at h
    exact ⟨h.1, ih h.2⟩

/-- What every action keeps where `Q` holds is still so after a list of such actions. -/
theorem run_induction {I : γ → Prop}
    (hstep : ∀ a c c', I c → step a c = some c' → Q a c c' → I c') {as : List α} {c c' : γ}
    (hI : I c) (hrun : run step as c = some c') (h : Along step Q as c) : I c' := by
  induction as generalizing c with
  | nil =>
    obtain rfl := Option.some.inj hrun
    exact hI
  | cons a as ih =>
    obtain ⟨c₁, h₁, hrest⟩ := Option.bind_eq_some_iff.1 hrun
    obtain ⟨hQ, halong⟩ := h c₁ h₁
    exact ih (hstep a c c₁ hI h₁ hQ) hrest halong

theorem along_of_forall (hQ : ∀ a c c', Q a c c') (as : List α) (c : γ) : Along step Q as c := by
  induction as generalizing c with
  | nil => trivial
  | cons a as ih => exact fun c' _ => ⟨hQ a c c', ih c'⟩

/-- A condition on the actions alone. -/
theorem along_of_forall_mem {as : List α} (hQ : ∀ a ∈ as, ∀ c c', Q a c c') (c : γ) :
    Along step Q as c := by
  induction as generalizing c with
  | nil => trivial
  | cons a as ih =>
    exact fun c' _ => ⟨hQ a List.mem_cons_self c c',
      ih (fun b hb => hQ b (List.mem_cons_of_mem _ hb)) c'⟩

end Transitions

/-! ## Processes -/

/-- What an action of a process does to the shared state and to its own, when it is possible, and what
happens to the shared state from outside. -/
structure Processes (σ l α ε : Type) where
  /-- The state of a process that was not started. -/
  idle : l
  next : ℕ → α → σ → l → Option (σ × l)
  env : ε → σ → σ

namespace Processes

/-- The shared state, and the state of each process. -/
structure Config (σ l : Type) where
  shared : σ
  locals : ℕ → l

/-- One action: of a process, or from outside. -/
inductive Action (α ε : Type)
  | act (i : ℕ) (a : α)
  | env (e : ε)
  deriving DecidableEq

variable {σ l α ε : Type} (S : Processes σ l α ε)

/-- The configuration before any process was started. -/
def initial (s : σ) : Config σ l := ⟨s, fun _ => S.idle⟩

/-- One action. -/
def step : Action α ε → Config σ l → Option (Config σ l)
  | .act i a, c => (S.next i a c.shared (c.locals i)).map fun r =>
      ⟨r.1, Function.update c.locals i r.2⟩
  | .env e, c => some ⟨S.env e c.shared, c.locals⟩

/-- Follow a list of actions. -/
def run : List (Action α ε) → Config σ l → Option (Config σ l) := Transitions.run S.step

/-- A condition holds of every action of a list. -/
def Along (Q : Action α ε → Config σ l → Config σ l → Prop) :
    List (Action α ε) → Config σ l → Prop := Transitions.Along S.step Q

/-- What one action can do, as a case distinction. -/
inductive StepCases (c : Config σ l) : Action α ε → Config σ l → Prop
  | act {i : ℕ} {a : α} {s : σ} {x : l} (next : S.next i a c.shared (c.locals i) = some (s, x)) :
      StepCases c (.act i a) ⟨s, Function.update c.locals i x⟩
  | env {e : ε} : StepCases c (.env e) ⟨S.env e c.shared, c.locals⟩

variable {S}

theorem step_cases {a : Action α ε} {c c' : Config σ l} (h : S.step a c = some c') :
    S.StepCases c a c' := by
  cases a with
  | act i a =>
    obtain ⟨⟨s, x⟩, hnext, rfl⟩ := Option.map_eq_some_iff.1 h
    exact .act hnext
  | env e =>
    obtain rfl := Option.some.inj h
    exact .env

theorem step_act {i : ℕ} {a : α} {c : Config σ l} {s : σ} {x : l}
    (h : S.next i a c.shared (c.locals i) = some (s, x)) :
    S.step (.act i a) c = some ⟨s, Function.update c.locals i x⟩ := by
  rw [step, h]
  rfl

/-- A process keeps its state while the others move. -/
theorem locals_of_step {a : Action α ε} {c c' : Config σ l} (h : S.step a c = some c') {i : ℕ}
    (hi : ∀ a', a ≠ .act i a') : c'.locals i = c.locals i := by
  cases step_cases h with
  | @act j a s x hnext =>
    have hij : i ≠ j := by
      rintro rfl
      exact hi a rfl
    exact Function.update_of_ne hij _ _
  | env => rfl

/-- A process that does not move keeps its state. -/
theorem locals_of_run {as : List (Action α ε)} {c c' : Config σ l} (h : S.run as c = some c') {i : ℕ}
    (hi : ∀ a ∈ as, ∀ a', a ≠ .act i a') : c'.locals i = c.locals i := by
  induction as generalizing c with
  | nil =>
    obtain rfl := Option.some.inj h
    rfl
  | cons a as ih =>
    obtain ⟨c₁, h₁, hrest⟩ := Option.bind_eq_some_iff.1 h
    rw [ih hrest fun b hb => hi b (List.mem_cons_of_mem _ hb),
      locals_of_step h₁ (hi a List.mem_cons_self)]

/-- All but finitely many processes were not started yet. -/
theorem exists_idle {s : σ} {as : List (Action α ε)} {c : Config σ l}
    (h : S.run as (S.initial s) = some c) : ∃ n, ∀ k, n ≤ k → c.locals k = S.idle := by
  have hstep : ∀ a (c c' : Config σ l), (∃ n, ∀ k, n ≤ k → c.locals k = S.idle) →
      S.step a c = some c' → ∃ n, ∀ k, n ≤ k → c'.locals k = S.idle := by
    rintro a c c' ⟨n, hn⟩ ha
    cases step_cases ha with
    | @act j a s x hnext =>
      refine ⟨max n (j + 1), fun k hk => ?_⟩
      have hkj : k ≠ j := by omega
      exact (Function.update_of_ne hkj _ _).trans (hn k (by omega))
    | env => exact ⟨n, hn⟩
  exact Transitions.run_induction (Q := fun _ _ _ => True) (fun a c c' hI ha _ => hstep a c c' hI ha)
    ⟨0, fun _ _ => rfl⟩ h (Transitions.along_of_forall (fun _ _ _ => trivial) _ _)

end Processes
