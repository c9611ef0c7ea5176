import Mathlib.Logic.Function.Basic
import Mathlib.Logic.Relation
import Mathlib.Tactic.Common

/-!
# Programs whose operations interleave

A `Program` is a tree of atomic operations.  A `Machine` gives each operation its effect on a
shared state, and a `System` answers every request with a program and interleaves the programs
of any number of requests, one operation at a time.

* `Machine.alone` runs one program with no other program in between.
* `System.run` follows a schedule, `System.Reaches` is reachability over all schedules, and
  `System.reaches_of_alone` says that running alone is one of the schedules.
* `System.returns_of_reaches` says what holds of the answer of a request, whatever its operations
  returned, and `System.performs_of_reaches` what holds of its operations.
* `System.Along` is a condition on every action of a schedule, and `System.run_induction` the
  induction over a schedule whose actions meet it.
* `Machine.Safe` is the rely/guarantee triple: whatever the others do between two operations
  (`rely`), every operation meets its `contract` where it is performed, and the result meets the
  postcondition.  `safe_bind` and its companions follow the structure of a program.
* `Logic.contract_of_reaches`, `Logic.post_of_reaches` and `Logic.invariant` carry what was proved
  of each program by itself over to every interleaving.
-/

/-- A program over the operations `Op`: the result, or an operation and how to go on. -/
inductive Program (Op : Type) (Res : Op → Type) (α : Type) : Type
  | done (a : α)
  | op (e : Op) (k : Res e → Program Op Res α)

namespace Program

variable {Op : Type} {Res : Op → Type} {α β : Type}

/-- Sequential composition. -/
def bind : Program Op Res α → (α → Program Op Res β) → Program Op Res β
  | done a, f => f a
  | op e k, f => op e fun r => (k r).bind f

instance : Monad (Program Op Res) where
  pure := done
  bind := bind

theorem bind_done (p : Program Op Res α) : p.bind done = p := by
  induction p with
  | done a => rfl
  | op e k ih => exact congrArg (op e) (funext ih)

theorem bind_assoc {γ : Type} (p : Program Op Res α) (f : α → Program Op Res β)
    (g : β → Program Op Res γ) : (p.bind f).bind g = p.bind fun a => (f a).bind g := by
  induction p with
  | done a => rfl
  | op e k ih => exact congrArg (op e) (funext ih)

instance : LawfulMonad (Program Op Res) :=
  LawfulMonad.mk' _ bind_done (fun _ _ => rfl) bind_assoc

/-- The result of a program that has ended. -/
def result? : Program Op Res α → Option α
  | done a => some a
  | op _ _ => none

theorem result?_eq_some {p : Program Op Res α} {a : α} (h : p.result? = some a) : p = done a := by
  cases p with
  | done b => exact congrArg done (Option.some.inj h)
  | op e k => cases h

/-- Whatever the operations return, the result meets `Q`. -/
def Returns (Q : α → Prop) : Program Op Res α → Prop
  | done a => Q a
  | op _ k => ∀ r, (k r).Returns Q

/-- While the operations return what `V` allows, the result meets `Q`. -/
def ReturnsIf (V : (e : Op) → Res e → Prop) (Q : α → Prop) : Program Op Res α → Prop
  | done a => Q a
  | op e k => ∀ r, V e r → (k r).ReturnsIf V Q

/-- While the operations return what `V` allows, each of them meets `Q`. -/
def PerformsIf (V : (e : Op) → Res e → Prop) (Q : Op → Prop) : Program Op Res α → Prop
  | done _ => True
  | op e k => Q e ∧ ∀ r, V e r → (k r).PerformsIf V Q

/-- Every operation of the program meets `Q`, whatever the others return. -/
def Performs (Q : Op → Prop) : Program Op Res α → Prop
  | done _ => True
  | op e k => Q e ∧ ∀ r, (k r).Performs Q

theorem returns_bind {Q : β → Prop} {f : α → Program Op Res β} (h : ∀ a, (f a).Returns Q) :
    ∀ p : Program Op Res α, (p.bind f).Returns Q
  | done a => h a
  | op _ k => fun r => returns_bind h (k r)

theorem performs_bind {Q : Op → Prop} {f : α → Program Op Res β} (hf : ∀ a, (f a).Performs Q) :
    ∀ {p : Program Op Res α}, p.Performs Q → (p.bind f).Performs Q
  | done a, _ => hf a
  | op _ _, hp => ⟨hp.1, fun r => performs_bind hf (hp.2 r)⟩

/-- The program of one operation. -/
def perform (e : Op) : Program Op Res (Res e) := op e done

end Program

/-- The effect of the operations of process `i` on the shared state, under a choice of the
outcomes the program does not control, and what the environment does by itself. -/
structure Machine (Op : Type) (Res : Op → Type) (σ χ ε : Type) where
  exec : ℕ → (e : Op) → χ → σ → Res e × σ
  env : ε → σ → σ

namespace Machine

variable {Op : Type} {Res : Op → Type} {σ χ ε α β : Type}

/-- Run a program of process `i` with no other program in between: before operation number `n`
the environment does `(sched n).1`, and the operation meets the choice `(sched n).2`. -/
def alone (M : Machine Op Res σ χ ε) (i : ℕ) :
    Program Op Res α → (ℕ → ε × χ) → σ → α × σ
  | .done a, _, s => (a, s)
  | .op e k, sched, s =>
      let r := M.exec i e (sched 0).2 (M.env (sched 0).1 s)
      M.alone i (k r.1) (fun n => sched (n + 1)) r.2

theorem alone_op {M : Machine Op Res σ χ ε} {i : ℕ} {e : Op} {k : Res e → Program Op Res α}
    {sched : ℕ → ε × χ} {s s' : σ} {x : Res e}
    (h : M.exec i e (sched 0).2 (M.env (sched 0).1 s) = (x, s')) :
    M.alone i (.op e k) sched s = M.alone i (k x) (fun n => sched (n + 1)) s' := by
  rw [alone, h]

/-- The number of operations that a program performs when it runs alone. -/
def operations (M : Machine Op Res σ χ ε) (i : ℕ) : Program Op Res α → (ℕ → ε × χ) → σ → ℕ
  | .done _, _, _ => 0
  | .op e k, sched, s =>
      let r := M.exec i e (sched 0).2 (M.env (sched 0).1 s)
      M.operations i (k r.1) (fun n => sched (n + 1)) r.2 + 1

theorem operations_op {M : Machine Op Res σ χ ε} {i : ℕ} {e : Op} {k : Res e → Program Op Res α}
    {sched : ℕ → ε × χ} {s s' : σ} {x : Res e}
    (h : M.exec i e (sched 0).2 (M.env (sched 0).1 s) = (x, s')) :
    M.operations i (.op e k) sched s = M.operations i (k x) (fun n => sched (n + 1)) s' + 1 := by
  rw [operations, h]

/-- One program after another: the second one goes on with the rest of the schedule. -/
theorem alone_bind (M : Machine Op Res σ χ ε) (i : ℕ) (f : α → Program Op Res β) :
    ∀ (p : Program Op Res α) (sched : ℕ → ε × χ) (s : σ),
      M.alone i (p >>= f) sched s = M.alone i (f (M.alone i p sched s).1)
        (fun k => sched (k + M.operations i p sched s)) (M.alone i p sched s).2
  | .done _, _, _ => rfl
  | .op e k, sched, s =>
      alone_bind M i f (k (M.exec i e (sched 0).2 (M.env (sched 0).1 s)).1)
        (fun n => sched (n + 1)) (M.exec i e (sched 0).2 (M.env (sched 0).1 s)).2

/-! ## The rely/guarantee triple -/

/-- Started in `s`, and whatever `rely` allows between two operations, the program performs each
operation where its contract holds, and ends with a result that meets `post`. -/
def Safe (M : Machine Op Res σ χ ε) (i : ℕ) (rely : σ → σ → Prop) (contract : Op → σ → Prop)
    (post : α → σ → Prop) : Program Op Res α → σ → Prop
  | .done a, s => post a s
  | .op e k, s => ∀ s₁, rely s s₁ → contract e s₁ ∧
      ∀ c, M.Safe i rely contract post (k (M.exec i e c s₁).1) (M.exec i e c s₁).2

section Rules

variable {M : Machine Op Res σ χ ε} {i : ℕ} {rely : σ → σ → Prop} {contract : Op → σ → Prop}

theorem safe_done {post : α → σ → Prop} {a : α} {s : σ} (h : post a s) :
    M.Safe i rely contract post (.done a) s := h

theorem safe_perform {e : Op} {post : Res e → σ → Prop} {s : σ}
    (h : ∀ s₁, rely s s₁ → contract e s₁ ∧
      ∀ c, post (M.exec i e c s₁).1 (M.exec i e c s₁).2) :
    M.Safe i rely contract post (Program.perform e) s := h

theorem safe_mono {post post' : α → σ → Prop} (hpost : ∀ a s, post a s → post' a s) :
    ∀ {p : Program Op Res α} {s : σ}, M.Safe i rely contract post p s →
      M.Safe i rely contract post' p s
  | .done a, s, h => hpost a s h
  | .op _ _, _, h => fun s₁ hr => ⟨(h s₁ hr).1, fun c => safe_mono hpost ((h s₁ hr).2 c)⟩

theorem safe_contract_mono {contract' : Op → σ → Prop} {post : α → σ → Prop}
    (hc : ∀ e s, contract e s → contract' e s) :
    ∀ {p : Program Op Res α} {s : σ}, M.Safe i rely contract post p s →
      M.Safe i rely contract' post p s
  | .done _, _, h => h
  | .op _ _, _, h => fun s₁ hr =>
      ⟨hc _ _ (h s₁ hr).1, fun c => safe_contract_mono hc ((h s₁ hr).2 c)⟩

/-- The rule of sequential composition: the postcondition of the first program starts the
second. -/
theorem safe_bind {mid : α → σ → Prop} {post : β → σ → Prop} {f : α → Program Op Res β}
    (hf : ∀ a s, mid a s → M.Safe i rely contract post (f a) s) :
    ∀ {p : Program Op Res α} {s : σ}, M.Safe i rely contract mid p s →
      M.Safe i rely contract post (p >>= f) s
  | .done a, s, h => hf a s h
  | .op _ _, _, h => fun s₁ hr => ⟨(h s₁ hr).1, fun c => safe_bind hf ((h s₁ hr).2 c)⟩

/-- A triple whose interference is only what the environment does is a triple about the program
run alone. -/
theorem post_of_alone {post : α → σ → Prop} (henv : ∀ e s, rely s (M.env e s)) :
    ∀ {p : Program Op Res α} {s : σ} (sched : ℕ → ε × χ), M.Safe i rely contract post p s →
      post (M.alone i p sched s).1 (M.alone i p sched s).2
  | .done _, _, _, h => h
  | .op _ _, s, sched, h =>
      post_of_alone henv (fun n => sched (n + 1)) ((h _ (henv (sched 0).1 s)).2 (sched 0).2)

end Rules

end Machine

/-- A machine together with the program that answers each request. -/
structure System (Req Op : Type) (Res : Op → Type) (σ χ ε α : Type) extends
    Machine Op Res σ χ ε where
  handler : Req → Program Op Res α

/-- The shared state and, for each process that was started, its request and the rest of its
program. -/
structure Config (Req Op : Type) (Res : Op → Type) (σ α : Type) where
  shared : σ
  procs : ℕ → Option (Req × Program Op Res α)

/-- A configuration in which no request has arrived yet. -/
def Config.initial {Req Op : Type} {Res : Op → Type} {σ α : Type} (s : σ) :
    Config Req Op Res σ α := ⟨s, fun _ => none⟩

/-- The request of a process that was started. -/
def Config.request {Req Op : Type} {Res : Op → Type} {σ α : Type} (c : Config Req Op Res σ α)
    (i : ℕ) : Option Req := (c.procs i).map Prod.fst

/-- The request of a process that has ended, and its result. -/
def Config.answer {Req Op : Type} {Res : Op → Type} {σ α : Type} (c : Config Req Op Res σ α)
    (i : ℕ) : Option (Req × α) :=
  (c.procs i).bind fun p => p.2.result?.map fun a => (p.1, a)

theorem Config.procs_of_answer {Req Op : Type} {Res : Op → Type} {σ α : Type}
    {c : Config Req Op Res σ α} {i : ℕ} {r : Req} {a : α} (h : c.answer i = some (r, a)) :
    c.procs i = some (r, .done a) := by
  obtain ⟨⟨r', p⟩, hp, hmap⟩ := Option.bind_eq_some_iff.1 h
  obtain ⟨a', ha', heq⟩ := Option.map_eq_some_iff.1 hmap
  have hdone : p = .done a' := Program.result?_eq_some ha'
  obtain ⟨rfl, rfl⟩ := Prod.mk.inj heq
  rw [hp, hdone]

/-- One action of a schedule: a request arrives, a process performs its next operation, or the
environment acts. -/
inductive Act (Req χ ε : Type)
  | arrive (i : ℕ) (r : Req)
  | step (i : ℕ) (c : χ)
  | env (e : ε)
  deriving DecidableEq

/-- The process that an action is about. -/
def Act.process {Req χ ε : Type} : Act Req χ ε → Option ℕ
  | arrive i _ => some i
  | step i _ => some i
  | env _ => none

namespace System

variable {Req Op : Type} {Res : Op → Type} {σ χ ε α : Type}
  (S : System Req Op Res σ χ ε α)

/-- The next configuration, when the action is possible. -/
def step : Act Req χ ε → Config Req Op Res σ α → Option (Config Req Op Res σ α)
  | .arrive i r, c =>
      match c.procs i with
      | none => some ⟨c.shared, Function.update c.procs i (some (r, S.handler r))⟩
      | some _ => none
  | .step i ch, c =>
      match c.procs i with
      | some (r, .op e k) =>
          let out := S.exec i e ch c.shared
          some ⟨out.2, Function.update c.procs i (some (r, k out.1))⟩
      | _ => none
  | .env e, c => some ⟨S.env e c.shared, c.procs⟩

/-- Follow a schedule. -/
def run : List (Act Req χ ε) → Config Req Op Res σ α → Option (Config Req Op Res σ α)
  | [], c => some c
  | a :: as, c => (S.step a c).bind (run as)

/-- Some action leads from `c` to `c'`. -/
def Steps (c c' : Config Req Op Res σ α) : Prop := ∃ a, S.step a c = some c'

/-- Some schedule leads from `c` to `c'`. -/
def Reaches : Config Req Op Res σ α → Config Req Op Res σ α → Prop :=
  Relation.ReflTransGen S.Steps

/-- What one action can do, as a case distinction. -/
inductive StepCases (c : Config Req Op Res σ α) : Act Req χ ε → Config Req Op Res σ α → Prop
  | arrive {i : ℕ} {r : Req} (idle : c.procs i = none) :
      StepCases c (.arrive i r) ⟨c.shared, Function.update c.procs i (some (r, S.handler r))⟩
  | step {i : ℕ} {ch : χ} {r : Req} {e : Op} {k : Res e → Program Op Res α}
      (here : c.procs i = some (r, .op e k)) :
      StepCases c (.step i ch) ⟨(S.exec i e ch c.shared).2,
        Function.update c.procs i (some (r, k (S.exec i e ch c.shared).1))⟩
  | env {e : ε} : StepCases c (.env e) ⟨S.env e c.shared, c.procs⟩

variable {S}

theorem step_cases {a : Act Req χ ε} {c c' : Config Req Op Res σ α} (h : S.step a c = some c') :
    S.StepCases c a c' := by
  cases a with
  | arrive i r =>
    simp only [step] at h
    split at h
    · rename_i hidle
      obtain rfl := Option.some.inj h
      exact .arrive hidle
    · cases h
  | step i ch =>
    simp only [step] at h
    split at h
    · rename_i r e k hhere
      obtain rfl := Option.some.inj h
      exact .step hhere
    · cases h
  | env e =>
    obtain rfl := Option.some.inj h
    exact .env

theorem step_arrive {i : ℕ} {r : Req} {c : Config Req Op Res σ α} (h : c.procs i = none) :
    S.step (.arrive i r) c =
      some ⟨c.shared, Function.update c.procs i (some (r, S.handler r))⟩ := by
  simp only [step, h]

theorem step_op {i : ℕ} {ch : χ} {c : Config Req Op Res σ α} {r : Req} {e : Op}
    {k : Res e → Program Op Res α} (h : c.procs i = some (r, .op e k)) :
    S.step (.step i ch) c = some ⟨(S.exec i e ch c.shared).2,
      Function.update c.procs i (some (r, k (S.exec i e ch c.shared).1))⟩ := by
  simp only [step, h]

/-- A request stays with its process. -/
theorem request_of_step {a : Act Req χ ε} {c c' : Config Req Op Res σ α}
    (h : S.step a c = some c') {i : ℕ} {r : Req} (hi : c.request i = some r) :
    c'.request i = some r := by
  cases step_cases h with
  | @arrive j r' hidle =>
    have hij : i ≠ j := by
      rintro rfl
      rw [Config.request, hidle] at hi
      cases hi
    simp only [Config.request, Function.update_of_ne hij]
    exact hi
  | @step j ch r' e k hhere =>
    by_cases hij : i = j
    · subst hij
      rw [Config.request, hhere] at hi
      simp only [Config.request, Function.update_self]
      exact hi
    · simp only [Config.request, Function.update_of_ne hij]
      exact hi
  | env => exact hi

theorem request_of_reaches {c c' : Config Req Op Res σ α} (h : S.Reaches c c') {i : ℕ} {r : Req}
    (hi : c.request i = some r) : c'.request i = some r := by
  induction h with
  | refl => exact hi
  | tail _ hstep ih =>
    obtain ⟨a, ha⟩ := hstep
    exact request_of_step ha ih

theorem procs_of_step {a : Act Req χ ε} {c c' : Config Req Op Res σ α} (h : S.step a c = some c')
    {i : ℕ} (hi : a.process ≠ some i) : c'.procs i = c.procs i := by
  cases step_cases h with
  | arrive => exact Function.update_of_ne (fun hij => hi (congrArg some hij.symm)) _ _
  | step => exact Function.update_of_ne (fun hij => hi (congrArg some hij.symm)) _ _
  | env => rfl

/-- A process that a schedule does not name stays as it is. -/
theorem procs_of_run {as : List (Act Req χ ε)} {c c' : Config Req Op Res σ α}
    (h : S.run as c = some c') {i : ℕ} (hi : ∀ a ∈ as, a.process ≠ some i) :
    c'.procs i = c.procs i := by
  induction as generalizing c with
  | nil =>
    obtain rfl := Option.some.inj h
    rfl
  | cons a as ih =>
    obtain ⟨c₁, h₁, h₂⟩ := Option.bind_eq_some_iff.1 h
    rw [ih h₂ fun a' ha' => hi a' (List.mem_cons_of_mem _ ha'),
      procs_of_step h₁ (hi a List.mem_cons_self)]

/-- A process that was started is named by the schedule. -/
theorem process_of_run {as : List (Act Req χ ε)} {s : σ} {c : Config Req Op Res σ α}
    (h : S.run as (.initial s) = some c) {i : ℕ} (hi : c.procs i ≠ none) :
    ∃ a ∈ as, a.process = some i := by
  by_contra hnone
  apply hi
  refine (procs_of_run h ?_).trans rfl
  intro a ha heq
  exact hnone ⟨a, ha, heq⟩

theorem run_append {as bs : List (Act Req χ ε)} {c : Config Req Op Res σ α} :
    S.run (as ++ bs) c = (S.run as c).bind (S.run bs) := by
  induction as generalizing c with
  | nil => rfl
  | cons a as ih =>
    simp only [List.cons_append, run]
    cases S.step a c with
    | none => rfl
    | some c₁ => exact ih

theorem reaches_of_run {as : List (Act Req χ ε)} {c c' : Config Req Op Res σ α}
    (h : S.run as c = some c') : S.Reaches c c' := by
  induction as generalizing c with
  | nil =>
    obtain rfl := Option.some.inj h
    exact .refl
  | cons a as ih =>
    obtain ⟨c₁, h₁, h₂⟩ := Option.bind_eq_some_iff.1 h
    exact .head ⟨a, h₁⟩ (ih h₂)

/-- What holds of each request when it arrives, and is kept by the operations of its own program, by
those of the others and by the environment, holds of every process. -/
theorem procs_induction {Q : Req → Program Op Res α → σ → Prop}
    (hstart : ∀ r s, Q r (S.handler r) s)
    (hop : ∀ i e k ch r s, Q r (.op e k) s → Q r (k (S.exec i e ch s).1) (S.exec i e ch s).2)
    (hbeside : ∀ i e ch r p s, Q r p s → Q r p (S.exec i e ch s).2)
    (henv : ∀ d r p s, Q r p s → Q r p (S.env d s)) {s : σ} {c : Config Req Op Res σ α}
    (h : S.Reaches (.initial s) c) {i : ℕ} {r : Req} {p : Program Op Res α}
    (hi : c.procs i = some (r, p)) : Q r p c.shared := by
  induction h generalizing r p with
  | refl => cases hi
  | tail _ hstep ih =>
    obtain ⟨a, ha⟩ := hstep
    cases step_cases ha with
    | @arrive j r' hidle =>
      by_cases hij : i = j
      · subst hij
        simp only [Function.update_self, Option.some.injEq, Prod.mk.injEq] at hi
        obtain ⟨rfl, rfl⟩ := hi
        exact hstart _ _
      · simp only [Function.update_of_ne hij] at hi
        exact ih hi
    | @step j ch r' e k hhere =>
      by_cases hij : i = j
      · subst hij
        simp only [Function.update_self, Option.some.injEq, Prod.mk.injEq] at hi
        obtain ⟨rfl, rfl⟩ := hi
        exact hop _ _ _ _ _ _ (ih hhere)
      · simp only [Function.update_of_ne hij] at hi
        exact hbeside _ _ _ _ _ _ (ih hi)
    | env => exact henv _ _ _ _ (ih hi)

/-- What holds of the program of a request, and of the rest of a program after each operation, holds
of every program of that request. -/
theorem program_of_reaches {Q : Program Op Res α → Prop} {r : Req} (hstart : Q (S.handler r))
    (hop : ∀ i e k c s, Q (.op e k) → Q (k (S.exec i e c s).1)) {s : σ} {c : Config Req Op Res σ α}
    (h : S.Reaches (.initial s) c) {i : ℕ} {p : Program Op Res α} (hi : c.procs i = some (r, p)) :
    Q p := by
  have hQ : ∀ {r' : Req} {p' : Program Op Res α}, c.procs i = some (r', p') → r' = r → Q p' :=
    procs_induction (Q := fun r' p' _ => r' = r → Q p') (fun r' _ heq => heq ▸ hstart)
      (fun i e k ch _ s hp heq => hop i e k ch s (hp heq)) (fun _ _ _ _ _ _ hp => hp)
      (fun _ _ _ _ hp => hp) h
  exact hQ hi rfl

/-- A request that has ended has one of the results of its program. -/
theorem returns_of_reaches {Q : α → Prop} {r : Req} (hr : (S.handler r).Returns Q) {s : σ}
    {c : Config Req Op Res σ α} (h : S.Reaches (.initial s) c) {i : ℕ} {a : α}
    (hi : c.procs i = some (r, .done a)) : Q a := by
  have hreturns : (Program.done a : Program Op Res α).Returns Q :=
    program_of_reaches (Q := Program.Returns Q) hr (fun _ _ _ _ _ hop => hop _) h hi
  exact hreturns

/-- An operation that a request is about to perform is one of its program. -/
theorem performs_of_reaches {Q : Op → Prop} {r : Req} (hr : (S.handler r).Performs Q) {s : σ}
    {c : Config Req Op Res σ α} (h : S.Reaches (.initial s) c) {i : ℕ} {e : Op}
    {k : Res e → Program Op Res α} (hi : c.procs i = some (r, .op e k)) : Q e := by
  have hperforms : (Program.op e k : Program Op Res α).Performs Q :=
    program_of_reaches (Q := Program.Performs Q) hr (fun _ _ _ _ _ hop => hop.2 _) h hi
  exact hperforms.1

/-- `Q` holds of every action of the schedule, in the configurations before and after it. -/
def Along (S : System Req Op Res σ χ ε α)
    (Q : Act Req χ ε → Config Req Op Res σ α → Config Req Op Res σ α → Prop) :
    List (Act Req χ ε) → Config Req Op Res σ α → Prop
  | [], _ => True
  | a :: as, c => ∀ c', S.step a c = some c' → Q a c c' ∧ S.Along Q as c'

/-- A condition holds along a schedule when it holds of the action after each part of it. -/
theorem along_of_forall {Q : Act Req χ ε → Config Req Op Res σ α → Config Req Op Res σ α → Prop}
    {as : List (Act Req χ ε)} {c : Config Req Op Res σ α}
    (h : ∀ as₁ a as₂ b b', as = as₁ ++ a :: as₂ → S.run as₁ c = some b → S.step a b = some b' →
      Q a b b') : S.Along Q as c := by
  induction as generalizing c with
  | nil => trivial
  | cons a as ih =>
    intro c' hc'
    refine ⟨h [] a as c c' rfl rfl hc', ih fun as₁ a' as₂ b b' has hb hb' => ?_⟩
    refine h (a :: as₁) a' as₂ b b' (by rw [has]; rfl) ?_ hb'
    rw [run, hc']
    exact hb

/-- The actions along a schedule are actions of the schedule. -/
theorem Along.mem {Q : Act Req χ ε → Config Req Op Res σ α → Config Req Op Res σ α → Prop}
    {as bs : List (Act Req χ ε)} {c : Config Req Op Res σ α} (hsub : ∀ a ∈ as, a ∈ bs)
    (h : S.Along Q as c) : S.Along (fun a b b' => a ∈ bs ∧ Q a b b') as c := by
  induction as generalizing c with
  | nil => trivial
  | cons a as ih =>
    intro c' hc'
    obtain ⟨hQ, hrest⟩ := h c' hc'
    exact ⟨⟨hsub a List.mem_cons_self, hQ⟩,
      ih (fun a' ha' => hsub a' (List.mem_cons_of_mem _ ha')) hrest⟩

/-- Test a condition on every action of a schedule. -/
def tests (S : System Req Op Res σ χ ε α) (test : Act Req χ ε → Config Req Op Res σ α → Bool) :
    List (Act Req χ ε) → Config Req Op Res σ α → Bool
  | [], _ => true
  | a :: as, c => test a c && (S.step a c).all (S.tests test as)

theorem along_of_tests {Q : Act Req χ ε → Config Req Op Res σ α → Config Req Op Res σ α → Prop}
    {test : Act Req χ ε → Config Req Op Res σ α → Bool}
    (htest : ∀ a c c', test a c = true → Q a c c') {as : List (Act Req χ ε)}
    {c : Config Req Op Res σ α} (h : S.tests test as c = true) : S.Along Q as c := by
  induction as generalizing c with
  | nil => trivial
  | cons a as ih =>
    intro c' hc'
    simp only [tests, hc', Option.all_some, Bool.and_eq_true] at h
    exact ⟨htest a c c' h.1, ih h.2⟩

/-- The induction over a schedule whose actions all meet a condition. -/
theorem run_induction {Q : Act Req χ ε → Config Req Op Res σ α → Config Req Op Res σ α → Prop}
    {I : Config Req Op Res σ α → Prop} {c₀ : Config Req Op Res σ α} (h₀ : I c₀)
    (hstep : ∀ a b b', S.Reaches c₀ b → I b → S.step a b = some b' → Q a b b' → I b')
    {as : List (Act Req χ ε)} {c : Config Req Op Res σ α} (hrun : S.run as c₀ = some c)
    (halong : S.Along Q as c₀) : I c := by
  suffices h : ∀ b, S.Reaches c₀ b → I b → S.run as b = some c → S.Along Q as b → I c from
    h c₀ .refl h₀ hrun halong
  clear hrun halong
  induction as with
  | nil =>
    intro b _ hI hrun _
    obtain rfl := Option.some.inj hrun
    exact hI
  | cons a as ih =>
    intro b hreach hI hrun halong
    obtain ⟨b₁, h₁, h₂⟩ := Option.bind_eq_some_iff.1 hrun
    obtain ⟨hQ, halong'⟩ := halong b₁ h₁
    exact ih b₁ (hreach.tail ⟨a, h₁⟩) (hstep a b b₁ hreach hI h₁ hQ) h₂ halong'

/-- When the condition on an action says whether it keeps an invariant, the invariant holds in every
configuration of a schedule if and only if the condition holds along it. -/
theorem along_iff {Q : Act Req χ ε → Config Req Op Res σ α → Config Req Op Res σ α → Prop}
    {I : Config Req Op Res σ α → Prop} {c₀ : Config Req Op Res σ α} (h₀ : I c₀)
    (hstep : ∀ a b b', S.Reaches c₀ b → I b → S.step a b = some b' → (I b' ↔ Q a b b'))
    (as : List (Act Req χ ε)) : S.Along (fun _ _ c' => I c') as c₀ ↔ S.Along Q as c₀ := by
  suffices h : ∀ b, S.Reaches c₀ b → I b →
      (S.Along (fun _ _ c' => I c') as b ↔ S.Along Q as b) from h c₀ .refl h₀
  induction as with
  | nil => exact fun _ _ _ => Iff.rfl
  | cons a as ih =>
    intro b hreach hI
    constructor
    · intro h b' hb'
      obtain ⟨hI', hrest⟩ := h b' hb'
      exact ⟨(hstep a b b' hreach hI hb').1 hI', (ih b' (hreach.tail ⟨a, hb'⟩) hI').1 hrest⟩
    · intro h b' hb'
      obtain ⟨hQ, hrest⟩ := h b' hb'
      have hI' := (hstep a b b' hreach hI hb').2 hQ
      exact ⟨hI', (ih b' (hreach.tail ⟨a, hb'⟩) hI').2 hrest⟩

/-- Later processes are not started yet. -/
theorem idle_of_reaches {s : σ} {c : Config Req Op Res σ α} (h : S.Reaches (.initial s) c) :
    ∃ n, ∀ i, n ≤ i → c.procs i = none := by
  induction h with
  | refl => exact ⟨0, fun _ _ => rfl⟩
  | tail _ hstep ih =>
    obtain ⟨n, hn⟩ := ih
    obtain ⟨a, ha⟩ := hstep
    cases step_cases ha with
    | @arrive j r _ =>
      refine ⟨n + j + 1, fun i hi => ?_⟩
      have hij : i ≠ j := by omega
      exact (Function.update_of_ne hij _ _).trans (hn i (by omega))
    | @step j ch r e k hhere =>
      refine ⟨n, fun i hi => ?_⟩
      have hij : i ≠ j := by
        rintro rfl
        rw [hn i hi] at hhere
        cases hhere
      exact (Function.update_of_ne hij _ _).trans (hn i hi)
    | env => exact ⟨n, hn⟩

/-- A process that runs the first part of its program alone follows one of the schedules. -/
theorem reaches_of_alone {i : ℕ} {r : Req} {f : β → Program Op Res α} :
    ∀ {p : Program Op Res β} (sched : ℕ → ε × χ) {c : Config Req Op Res σ α},
      c.procs i = some (r, p >>= f) →
      ∃ c', S.Reaches c c' ∧ c'.procs i = some (r, f (S.alone i p sched c.shared).1) ∧
        c'.shared = (S.alone i p sched c.shared).2
  | .done _, _, c, h => ⟨c, .refl, h, rfl⟩
  | .op e k, sched, c, h => by
    let c₁ : Config Req Op Res σ α := ⟨S.env (sched 0).1 c.shared, c.procs⟩
    have h₁ : c₁.procs i = some (r, .op e fun x => k x >>= f) := h
    obtain ⟨c', hreach, hdone, hshared⟩ := reaches_of_alone (fun n => sched (n + 1))
      (c := ⟨(S.exec i e (sched 0).2 c₁.shared).2, Function.update c₁.procs i
        (some (r, k (S.exec i e (sched 0).2 c₁.shared).1 >>= f))⟩) (Function.update_self _ _ _)
    exact ⟨c', .head ⟨.env (sched 0).1, rfl⟩ (.head ⟨.step i (sched 0).2, step_op h₁⟩ hreach),
      hdone, hshared⟩

end System

/-- A proof that the handlers of a system respect each other: what each process relies on, the
contract of each operation, and the postcondition of each request. -/
structure Logic {Req Op : Type} {Res : Op → Type} {σ χ ε α : Type}
    (S : System Req Op Res σ χ ε α) where
  /-- What a process finds when its request arrives. -/
  start : ℕ → σ → Prop
  rely : ℕ → σ → σ → Prop
  contract : ℕ → Req → Op → σ → Prop
  post : ℕ → Req → α → σ → Prop
  rely_refl : ∀ i s, rely i s s
  rely_trans : ∀ {i s s₁ s₂}, rely i s s₁ → rely i s₁ s₂ → rely i s s₂
  start_rely : ∀ {i s s₁}, start i s → rely i s s₁ → start i s₁
  env_rely : ∀ i e s, rely i s (S.env e s)
  exec_rely : ∀ {i j r e s} c, i ≠ j → contract j r e s → rely i s (S.exec j e c s).2
  safe : ∀ {i r s}, start i s → S.Safe i (rely i) (contract i r) (post i r) (S.handler r) s

namespace Logic

variable {Req Op : Type} {Res : Op → Type} {σ χ ε α : Type}
  {S : System Req Op Res σ χ ε α} (L : Logic S)

/-- What is known of process `i` in a reachable configuration. -/
def ProcOk (i : ℕ) (s : σ) : Option (Req × Program Op Res α) → Prop
  | none => L.start i s
  | some (r, p) => ∃ s₀, L.rely i s₀ s ∧ S.Safe i (L.rely i) (L.contract i r) (L.post i r) p s₀

variable {L}

theorem ProcOk.rely {i : ℕ} {s s₁ : σ} {o : Option (Req × Program Op Res α)}
    (h : L.ProcOk i s o) (hr : L.rely i s s₁) : L.ProcOk i s₁ o := by
  rcases o with _ | ⟨r, p⟩
  · exact L.start_rely h hr
  · obtain ⟨s₀, h₀, hsafe⟩ := h
    exact ⟨s₀, L.rely_trans h₀ hr, hsafe⟩

theorem ProcOk.contract {i : ℕ} {s : σ} {r : Req} {e : Op} {k : Res e → Program Op Res α}
    (h : L.ProcOk i s (some (r, .op e k))) : L.contract i r e s := by
  obtain ⟨s₀, h₀, hsafe⟩ := h
  exact (hsafe s h₀).1

/-- One action keeps what is known of every process: the one that moves follows its own triple,
the others rely on it. -/
theorem procOk_step {a : Act Req χ ε} {c c' : Config Req Op Res σ α} (hs : S.step a c = some c')
    (h : ∀ i, L.ProcOk i c.shared (c.procs i)) (i : ℕ) : L.ProcOk i c'.shared (c'.procs i) := by
  cases System.step_cases hs with
  | @arrive j r hidle =>
    by_cases hij : i = j
    · subst hij
      have hstart : L.start i c.shared := by simpa [ProcOk, hidle] using h i
      dsimp only
      rw [Function.update_self]
      exact ⟨c.shared, L.rely_refl i _, L.safe hstart⟩
    · dsimp only
      rw [Function.update_of_ne hij]
      exact h i
  | @step j ch r e k hhere =>
    have hj := h j
    rw [hhere] at hj
    by_cases hij : i = j
    · subst hij
      dsimp only
      rw [Function.update_self]
      obtain ⟨s₀, h₀, hsafe⟩ := hj
      exact ⟨_, L.rely_refl i _, (hsafe c.shared h₀).2 ch⟩
    · dsimp only
      rw [Function.update_of_ne hij]
      exact (h i).rely (L.exec_rely ch hij hj.contract)
  | env => exact (h i).rely (L.env_rely i _ _)

theorem procOk_of_reaches {s₀ : σ} (hs₀ : ∀ i, L.start i s₀) {c : Config Req Op Res σ α}
    (h : S.Reaches (.initial s₀) c) (i : ℕ) : L.ProcOk i c.shared (c.procs i) := by
  induction h generalizing i with
  | refl => exact hs₀ i
  | tail _ hstep ih =>
    obtain ⟨a, ha⟩ := hstep
    exact procOk_step ha ih i

/-- In every interleaving, an operation that is about to be performed meets its contract. -/
theorem contract_of_reaches {s₀ : σ} (hs₀ : ∀ i, L.start i s₀) {c : Config Req Op Res σ α}
    (h : S.Reaches (.initial s₀) c) {i : ℕ} {r : Req} {e : Op} {k : Res e → Program Op Res α}
    (hi : c.procs i = some (r, .op e k)) : L.contract i r e c.shared := by
  have := procOk_of_reaches hs₀ h i
  rw [hi] at this
  exact this.contract

/-- In every interleaving, a finished request met its postcondition when it finished. -/
theorem post_of_reaches {s₀ : σ} (hs₀ : ∀ i, L.start i s₀) {c : Config Req Op Res σ α}
    (h : S.Reaches (.initial s₀) c) {i : ℕ} {r : Req} {a : α}
    (hi : c.procs i = some (r, .done a)) : ∃ s, L.post i r a s ∧ L.rely i s c.shared := by
  have := procOk_of_reaches hs₀ h i
  rw [hi] at this
  obtain ⟨s, hs, hsafe⟩ := this
  exact ⟨s, hsafe, hs⟩

/-- The invariant rule: a property of the shared state that every operation keeps where its
contract holds, and that the environment keeps, holds in every interleaving. -/
theorem invariant {s₀ : σ} (hs₀ : ∀ i, L.start i s₀) {I : σ → Prop} (hinit : I s₀)
    (hexec : ∀ {c : Config Req Op Res σ α} {i r e} (ch : χ), S.Reaches (.initial s₀) c →
      I c.shared → L.contract i r e c.shared → I (S.exec i e ch c.shared).2)
    (henv : ∀ e s, I s → I (S.env e s)) {c : Config Req Op Res σ α}
    (h : S.Reaches (.initial s₀) c) : I c.shared := by
  induction h with
  | refl => exact hinit
  | @tail c c' hreach hstep ih =>
    obtain ⟨a, ha⟩ := hstep
    cases System.step_cases ha with
    | arrive => exact ih
    | step hhere => exact hexec _ hreach ih (contract_of_reaches hs₀ hreach hhere)
    | env => exact henv _ _ ih

end Logic
