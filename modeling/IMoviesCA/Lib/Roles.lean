import IMoviesCA.Lib.Program

/-!
# Operations in a role

A process performs each operation in a role, which the results of its operations change: the server that
it runs on, the account that a statement is executed under.  `System.inRole` writes the role next to each
operation, which changes nothing (`run_inRole`), and `System.restrict` refuses the operations that are not
allowed.

A restriction that never refuses an operation leaves every run as it is (`run_restrict`); it never
refuses one when the programs perform only what is allowed (`neverRefuses_of_performs`), and only when
it allows all that the runs perform (`allows_of_mem_performed`).

Where the operations of a system cannot fail, `System.orEnd` gives each one the choice to throw, which
ends its program; the runs without a failure are the same (`run_orEnd`).
-/

variable {Req Op φ : Type} {Res : Op → Type} {σ χ ε α β : Type}

namespace Program

/-- The program with its operations in their roles, begun in the role `q`. -/
def inRole (next : φ → (e : Op) → Res e → φ) :
    φ → Program Op Res α → Program (φ × Op) (fun e => Res e.2) α
  | _, .done a => .done a
  | q, .op e k => .op (q, e) fun x => (k x).inRole next (next q e x)

/-- The program without the roles. -/
def withoutRoles : Program (φ × Op) (fun e => Res e.2) α → Program Op Res α
  | .done a => .done a
  | .op e k => .op e.2 fun x => (k x).withoutRoles

theorem withoutRoles_inRole (next : φ → (e : Op) → Res e → φ) (p : Program Op Res α) (q : φ) :
    (p.inRole next q).withoutRoles = p := by
  induction p generalizing q with
  | done a => rfl
  | op e k ih => exact congrArg (op e) (funext fun x => ih x _)

theorem Performs.mono {Q Q' : Op → Prop} (hQ : ∀ e, Q e → Q' e) {p : Program Op Res α}
    (hp : p.Performs Q) : p.Performs Q' := by
  induction p with
  | done a => trivial
  | op e k ih => exact ⟨hQ e hp.1, fun x => ih x (hp.2 x)⟩

/-- Begun in the role `q`, every operation meets `Q` in its role, and the result and the last role meet
`post`. -/
def PerformsIn (next : φ → (e : Op) → Res e → φ) (Q : φ → Op → Prop) (post : α → φ → Prop) :
    φ → Program Op Res α → Prop
  | q, .done a => post a q
  | q, .op e k => Q q e ∧ ∀ x, (k x).PerformsIn next Q post (next q e x)

variable {next : φ → (e : Op) → Res e → φ} {Q : φ → Op → Prop}

theorem PerformsIn.bind {mid : α → φ → Prop} {post : β → φ → Prop} {f : α → Program Op Res β}
    (hf : ∀ a q, mid a q → (f a).PerformsIn next Q post q) {p : Program Op Res α} {q : φ}
    (hp : p.PerformsIn next Q mid q) : (p.bind f).PerformsIn next Q post q := by
  induction p generalizing q with
  | done a => exact hf a q hp
  | op e k ih => exact ⟨hp.1, fun x => ih x (hp.2 x)⟩

theorem PerformsIn.performs_inRole {post : α → φ → Prop} {p : Program Op Res α} {q : φ}
    (hp : p.PerformsIn next Q post q) : (p.inRole next q).Performs fun e => Q e.1 e.2 := by
  induction p generalizing q with
  | done a => trivial
  | op e k ih => exact ⟨hp.1, fun x => ih x (hp.2 x)⟩

theorem performs_of_forall {Q : Op → Prop} (hQ : ∀ e, Q e) (p : Program Op Res α) : p.Performs Q := by
  induction p with
  | done a => trivial
  | op e k ih => exact ⟨hQ e, ih⟩

/-- The program whose operations may throw; one that does ends it with `a`. -/
def orEnd (a : α) : Program Op Res α → Program Op (fun e => Option (Res e)) α
  | .done b => .done b
  | .op e k => .op e fun
    | some x => (k x).orEnd a
    | none => .done a

end Program

/-- The configuration without the roles. -/
def Config.withoutRoles (c : Config Req (φ × Op) (fun e => Res e.2) σ α) : Config Req Op Res σ α where
  shared := c.shared
  procs i := (c.procs i).map fun p => (p.1, p.2.withoutRoles)

namespace System

/-! ## Roles -/

section InRole

/-- The system with the operations in their roles. -/
def inRole (S : System Req Op Res σ χ ε α) (first : Req → φ) (next : φ → (e : Op) → Res e → φ) :
    System Req (φ × Op) (fun e => Res e.2) σ χ ε α where
  exec i e := S.exec i e.2
  env := S.env
  handler r := (S.handler r).inRole next (first r)

variable {S : System Req Op Res σ χ ε α} {first : Req → φ} {next : φ → (e : Op) → Res e → φ}

theorem withoutRoles_update (procs : ℕ → Option (Req × Program (φ × Op) (fun e => Res e.2) α)) (i : ℕ)
    (r : Req) (p : Program (φ × Op) (fun e => Res e.2) α) :
    (fun j => (Function.update procs i (some (r, p)) j).map fun p => (p.1, p.2.withoutRoles)) =
      Function.update (fun j => (procs j).map fun p => (p.1, p.2.withoutRoles)) i
        (some (r, p.withoutRoles)) := by
  funext j
  by_cases hj : j = i
  · subst hj
    simp
  · simp [hj]

/-- An action does the same with the roles as without. -/
theorem step_inRole (a : Act Req χ ε) (c : Config Req (φ × Op) (fun e => Res e.2) σ α) :
    ((S.inRole first next).step a c).map Config.withoutRoles = S.step a c.withoutRoles := by
  cases a with
  | arrive i r =>
    cases hi : c.procs i with
    | none =>
      simp only [step, Config.withoutRoles, hi, Option.map_none, Option.map_some, withoutRoles_update]
      rw [inRole, Program.withoutRoles_inRole]
    | some p => simp [step, Config.withoutRoles, hi]
  | step i ch =>
    cases hi : c.procs i with
    | none => simp [step, Config.withoutRoles, hi]
    | some p =>
      obtain ⟨r, p⟩ := p
      cases p with
      | done a => simp [step, Config.withoutRoles, hi, Program.withoutRoles]
      | op e k =>
        simp only [step, Config.withoutRoles, hi, Option.map_some, Program.withoutRoles,
          withoutRoles_update]
        rfl
  | env e => rfl

/-- The runs are the same with the roles as without. -/
theorem run_inRole (as : List (Act Req χ ε)) (s : σ) :
    ((S.inRole first next).run as (.initial s)).map Config.withoutRoles = S.run as (.initial s) := by
  suffices h : ∀ c : Config Req (φ × Op) (fun e => Res e.2) σ α,
      ((S.inRole first next).run as c).map Config.withoutRoles = S.run as c.withoutRoles from
    h (.initial s)
  induction as with
  | nil => exact fun _ => rfl
  | cons a as ih =>
    intro c
    rw [run, run, ← step_inRole, Option.map_bind, Option.bind_map]
    exact congrArg _ (funext ih)

end InRole

/-! ## Operations that throw -/

section OrEnd

/-- The system whose operations may throw: the choice `none` is an operation that does nothing but end
its request with the answer `a`. -/
def orEnd (S : System Req Op Res σ χ ε α) (a : α) :
    System Req Op (fun e => Option (Res e)) σ (Option χ) ε α where
  exec i e ch s :=
    match ch with
    | some ch => (some (S.exec i e ch s).1, (S.exec i e ch s).2)
    | none => (none, s)
  env := S.env
  handler r := (S.handler r).orEnd a

/-- The configuration of a run without a failure. -/
def toOrEnd (a : α) (c : Config Req Op Res σ α) : Config Req Op (fun e => Option (Res e)) σ α where
  shared := c.shared
  procs i := (c.procs i).map fun p => (p.1, p.2.orEnd a)

/-- The action of a run without a failure. -/
def actOrEnd : Act Req χ ε → Act Req (Option χ) ε
  | .arrive i r => .arrive i r
  | .step i ch => .step i (some ch)
  | .env e => .env e

variable {S : System Req Op Res σ χ ε α} {a : α}

theorem orEnd_update (procs : ℕ → Option (Req × Program Op Res α)) (i : ℕ) (r : Req)
    (p : Program Op Res α) :
    (fun j => (Function.update procs i (some (r, p)) j).map fun p => (p.1, p.2.orEnd a)) =
      Function.update (fun j => (procs j).map fun p => (p.1, p.2.orEnd a)) i
        (some (r, p.orEnd a)) := by
  funext j
  by_cases hj : j = i
  · subst hj
    simp
  · simp [hj]

/-- An action that does not throw does what it did. -/
theorem step_orEnd (act : Act Req χ ε) (c : Config Req Op Res σ α) :
    (S.orEnd a).step (actOrEnd act) (toOrEnd a c) = (S.step act c).map (toOrEnd a) := by
  cases act with
  | arrive i r =>
    cases hi : c.procs i with
    | none =>
      simp only [step, actOrEnd, toOrEnd, hi, Option.map_none, Option.map_some, orEnd_update]
      rfl
    | some p => simp [step, actOrEnd, toOrEnd, hi]
  | step i ch =>
    cases hi : c.procs i with
    | none => simp [step, actOrEnd, toOrEnd, hi]
    | some p =>
      obtain ⟨r, p⟩ := p
      cases p with
      | done b => simp [step, actOrEnd, toOrEnd, hi, Program.orEnd]
      | op e k =>
        simp only [step, actOrEnd, toOrEnd, hi, Option.map_some, Program.orEnd, orEnd_update]
        rfl
  | env e => rfl

/-- The runs without a failure. -/
theorem run_orEnd (as : List (Act Req χ ε)) (s : σ) :
    (S.orEnd a).run (as.map actOrEnd) (.initial s) = (S.run as (.initial s)).map (toOrEnd a) := by
  suffices h : ∀ c : Config Req Op Res σ α,
      (S.orEnd a).run (as.map actOrEnd) (toOrEnd a c) = (S.run as c).map (toOrEnd a) from h (.initial s)
  induction as with
  | nil => exact fun _ => rfl
  | cons act as ih =>
    intro c
    rw [List.map_cons, run, run, step_orEnd, Option.bind_map, Option.map_bind]
    exact congrArg _ (funext ih)

end OrEnd

/-! ## Restrictions -/

/-- The system in which the operations that are not allowed are refused. -/
def restrict (S : System Req Op Res σ χ ε α) (allows : Op → Bool) (refusal : (e : Op) → Res e) :
    System Req Op Res σ χ ε α where
  exec i e ch s := if allows e then S.exec i e ch s else (refusal e, s)
  env := S.env
  handler := S.handler

/-- No run comes to an operation that is refused. -/
def NeverRefuses (S : System Req Op Res σ χ ε α) (allows : Op → Bool)
    (refusal : (e : Op) → Res e) : Prop :=
  ∀ ⦃s : σ⦄ ⦃c : Config Req Op Res σ α⦄ ⦃i : ℕ⦄ ⦃r : Req⦄ ⦃e : Op⦄ ⦃k : Res e → Program Op Res α⦄,
    (S.restrict allows refusal).Reaches (.initial s) c → c.procs i = some (r, .op e k) → allows e = true

variable {S : System Req Op Res σ χ ε α} {allows : Op → Bool} {refusal : (e : Op) → Res e}

theorem neverRefuses_of_performs (h : ∀ r, (S.handler r).Performs fun e => allows e = true) :
    S.NeverRefuses allows refusal := by
  intro s c i r e k hreach hi
  exact performs_of_reaches (S := S.restrict allows refusal) (h r) hreach hi

/-- An action whose operation is allowed does what it does without the restriction. -/
theorem step_restrict {c : Config Req Op Res σ α}
    (h : ∀ i r e k, c.procs i = some (r, .op e k) → allows e = true) (a : Act Req χ ε) :
    (S.restrict allows refusal).step a c = S.step a c := by
  cases a with
  | arrive i r => rfl
  | step i ch =>
    cases hi : c.procs i with
    | none => simp only [step, hi]
    | some p =>
      obtain ⟨r, p⟩ := p
      cases p with
      | done a => simp only [step, hi]
      | op e k => simp only [step, hi, restrict, h i r e k hi, if_true]
  | env e => rfl

/-- A restriction that never refuses changes no run. -/
theorem run_restrict (h : S.NeverRefuses allows refusal) (as : List (Act Req χ ε)) (s : σ) :
    (S.restrict allows refusal).run as (.initial s) = S.run as (.initial s) := by
  suffices hrun : ∀ c, (S.restrict allows refusal).Reaches (.initial s) c →
      (S.restrict allows refusal).run as c = S.run as c from hrun _ .refl
  induction as with
  | nil => exact fun _ _ => rfl
  | cons a as ih =>
    intro c hreach
    have hsame : (S.restrict allows refusal).step a c = S.step a c :=
      step_restrict (fun i r e k hi => h hreach hi) a
    rw [run, run, ← hsame]
    cases hstep : (S.restrict allows refusal).step a c with
    | none => rfl
    | some c' => exact ih c' (hreach.tail ⟨a, hstep⟩)

/-- The operations that a schedule performs. -/
def performed (S : System Req Op Res σ χ ε α) : List (Act Req χ ε) → Config Req Op Res σ α → List Op
  | [], _ => []
  | a :: as, c =>
      match S.step a c with
      | none => []
      | some c' =>
          match a.process.bind c.procs with
          | some (_, .op e _) => e :: S.performed as c'
          | _ => S.performed as c'

/-- They are allowed by a restriction that never refuses. -/
theorem allows_of_mem_performed (h : S.NeverRefuses allows refusal) {as : List (Act Req χ ε)} {s : σ}
    {e : Op} (he : e ∈ S.performed as (.initial s)) : allows e = true := by
  suffices hrun : ∀ c, (S.restrict allows refusal).Reaches (.initial s) c → e ∈ S.performed as c →
      allows e = true from hrun _ .refl he
  clear he
  induction as with
  | nil => rintro c - ⟨⟩
  | cons a as ih =>
    intro c hreach he
    have hsame : (S.restrict allows refusal).step a c = S.step a c :=
      step_restrict (fun i r e k hi => h hreach hi) a
    rw [performed, ← hsame] at he
    split at he
    · cases he
    · rename_i c' hstep
      have hrest := ih c' (hreach.tail ⟨a, hstep⟩)
      split at he
      · rename_i r e' k hhere
        obtain ⟨i, -, hi⟩ := Option.bind_eq_some_iff.1 hhere
        rcases List.mem_cons.1 he with rfl | he
        · exact h hreach hi
        · exact hrest he
      · exact hrest he

end System
