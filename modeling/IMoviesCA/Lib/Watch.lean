import IMoviesCA.Lib.Program

/-!
# What one process did during a part of a run

While a process performs its operations, the others go on.  `System.Runs` describes such a part of a run
by the program of the process alone: every operation was performed on a configuration that is later than
the one before it.  `System.Watches` is the case of a program that has come to its end.

* `runs_of_reaches` says that a request which has not begun at one moment has run so to every later one.
* `of_watches_op` and `of_watches_bind` take such a run apart.
* `returns_between` and `performs_between` are for a program whose operations return what the part of the
  run allows: what holds of its answer, and of the operation that it is about to perform.
-/

namespace System

variable {Req Op : Type} {Res : Op → Type} {σ χ ε α β γ : Type}

/-- Process `i` gets from one program to another, from one configuration to a later one; each operation
is performed on a configuration between the two, after the one before it. -/
inductive Runs (S : System Req Op Res σ χ ε α) (i : ℕ) : Program Op Res β → Config Req Op Res σ α →
    Program Op Res β → Config Req Op Res σ α → Prop
  | rest {p : Program Op Res β} {c c' : Config Req Op Res σ α} (h : S.Reaches c c') : Runs S i p c p c'
  | op {e : Op} {k : Res e → Program Op Res β} {p : Program Op Res β} {c c₁ c' : Config Req Op Res σ α}
      (ch : χ) (h : S.Reaches c c₁) (hk : Runs S i (k (S.exec i e ch c₁.shared).1) c₁ p c') :
      Runs S i (.op e k) c p c'

/-- Process `i` runs a program to its end. -/
def Watches (S : System Req Op Res σ χ ε α) (i : ℕ) (p : Program Op Res β) (c : Config Req Op Res σ α)
    (b : β) (c' : Config Req Op Res σ α) : Prop :=
  S.Runs i p c (.done b) c'

variable {S : System Req Op Res σ χ ε α} {i : ℕ} {c c' c₁ : Config Req Op Res σ α}

/-- The run may be said to begin earlier. -/
theorem Runs.head {p p' : Program Op Res β} (h : S.Reaches c c₁) (hp : S.Runs i p c₁ p' c') :
    S.Runs i p c p' c' := by
  cases hp with
  | rest h' => exact .rest (h.trans h')
  | op ch h' hk => exact .op ch (h.trans h') hk

/-- The run may be said to end later. -/
theorem Runs.tail {p p' : Program Op Res β} (hp : S.Runs i p c p' c₁) (h : S.Reaches c₁ c') :
    S.Runs i p c p' c' := by
  induction hp with
  | rest h' => exact .rest (h'.trans h)
  | op ch h' _ ih => exact .op ch h' (ih h)

theorem reaches_of_runs {p p' : Program Op Res β} (h : S.Runs i p c p' c') : S.Reaches c c' := by
  induction h with
  | rest h => exact h
  | op ch h _ ih => exact h.trans ih

/-! ## Taking a run apart -/

theorem of_watches_done {a b : β} (h : S.Watches i (.done a) c b c') : a = b ∧ S.Reaches c c' := by
  cases h with
  | rest h => exact ⟨rfl, h⟩

/-- The first operation is performed on a later configuration. -/
theorem of_watches_op {e : Op} {k : Res e → Program Op Res β} {b : β}
    (h : S.Watches i (.op e k) c b c') : ∃ ch c₁, S.Reaches c c₁ ∧
      S.Watches i (k (S.exec i e ch c₁.shared).1) c₁ b c' := by
  cases h with
  | op ch hreach hk => exact ⟨ch, _, hreach, hk⟩

/-- A run of two programs, one after the other. -/
theorem of_watches_bind {p : Program Op Res β} {f : β → Program Op Res γ} {b : γ}
    (h : S.Watches i (p >>= f) c b c') : ∃ a c₁, S.Watches i p c a c₁ ∧ S.Watches i (f a) c₁ b c' := by
  induction p generalizing c with
  | done a => exact ⟨a, c, .rest .refl, h⟩
  | op e k ih =>
    obtain ⟨ch, c₁, hreach, hrest⟩ := of_watches_op h
    obtain ⟨a, c₂, hk, hf⟩ := ih _ hrest
    exact ⟨a, c₂, .op ch hreach hk, hf⟩

/-! ## The runs of the system -/

/-- One step of the system leads a program on by one operation or not at all. -/
theorem runs_of_step {r : Req} {p p' : Program Op Res α} (hstep : S.Steps c c₁)
    (hp : c.procs i = some (r, p))
    (ih : ∀ p₁, c₁.procs i = some (r, p₁) → S.Runs i p₁ c₁ p' c') : S.Runs i p c p' c' := by
  have hreach : S.Reaches c c₁ := .single hstep
  obtain ⟨act, hact⟩ := hstep
  cases step_cases hact with
  | @arrive j r' hidle =>
    have hij : i ≠ j := by
      rintro rfl
      rw [hidle] at hp
      cases hp
    exact .head hreach (ih p ((Function.update_of_ne hij _ _).trans hp))
  | @step j ch r' e k hhere =>
    by_cases hij : i = j
    · subst hij
      obtain ⟨rfl, rfl⟩ := Prod.mk.inj (Option.some.inj (hp.symm.trans hhere))
      exact .op ch .refl (.head hreach (ih _ (Function.update_self _ _ _)))
    · exact .head hreach (ih p ((Function.update_of_ne hij _ _).trans hp))
  | env => exact .head hreach (ih p hp)

/-- A program that has begun. -/
theorem runs_of_begun {r : Req} {p p' : Program Op Res α} (h : S.Reaches c c')
    (hp : c.procs i = some (r, p)) (hi : c'.procs i = some (r, p')) : S.Runs i p c p' c' := by
  induction h using Relation.ReflTransGen.head_induction_on generalizing p with
  | refl =>
    obtain ⟨-, rfl⟩ := Prod.mk.inj (Option.some.inj (hp.symm.trans hi))
    exact .rest .refl
  | head hstep _ ih => exact runs_of_step hstep hp fun _ => ih

/-- The request has not arrived at process `i`, or has not performed an operation. -/
def Unbegun (S : System Req Op Res σ χ ε α) (c : Config Req Op Res σ α) (i : ℕ) (r : Req) : Prop :=
  c.procs i = none ∨ c.procs i = some (r, S.handler r)

/-- A request that had not begun at one moment has run to every later one. -/
theorem runs_of_reaches {r : Req} {p : Program Op Res α} (h : S.Reaches c c') (hc : S.Unbegun c i r)
    (hi : c'.procs i = some (r, p)) : S.Runs i (S.handler r) c p c' := by
  induction h using Relation.ReflTransGen.head_induction_on with
  | refl =>
    rcases hc with hnone | hstart
    · rw [hnone] at hi
      cases hi
    · exact runs_of_begun .refl hstart hi
  | @head c c₁ hstep h ih =>
    rcases hc with hnone | hstart
    · refine .head (.single hstep) ?_
      obtain ⟨act, hact⟩ := hstep
      cases step_cases hact with
      | @arrive j r' hidle =>
        by_cases hij : i = j
        · subst hij
          -- the request that arrives is the one that is there later
          have hbegun := Function.update_self i (some (r', S.handler r')) c.procs
          have hreq := request_of_reaches h (congrArg (Option.map Prod.fst) hbegun)
          rw [Config.request, hi] at hreq
          obtain rfl := Option.some.inj hreq
          exact runs_of_begun h hbegun hi
        · exact ih (Or.inl ((Function.update_of_ne hij _ _).trans hnone))
      | @step j ch r' e k hhere =>
        have hij : i ≠ j := by
          rintro rfl
          rw [hnone] at hhere
          cases hhere
        exact ih (Or.inl ((Function.update_of_ne hij _ _).trans hnone))
      | env => exact ih (Or.inl hnone)
    · exact runs_of_begun (.head hstep h) hstart hi

/-! ## What the part of a run allows -/

variable {V : (e : Op) → Res e → Prop}

theorem returnsIf_of_runs {Q : β → Prop} {p p' : Program Op Res β} (h : S.Runs i p c p' c')
    (hp : p.ReturnsIf V Q) (hV : ∀ c₁, S.Reaches c c₁ → S.Reaches c₁ c' →
      ∀ e ch, V e (S.exec i e ch c₁.shared).1) : p'.ReturnsIf V Q := by
  induction h with
  | rest _ => exact hp
  | op ch h hk ih =>
    exact ih (hp _ (hV _ h (reaches_of_runs hk) _ ch)) fun c₂ h₂ => hV c₂ (h.trans h₂)

theorem performsIf_of_runs {Q : Op → Prop} {p p' : Program Op Res β} (h : S.Runs i p c p' c')
    (hp : p.PerformsIf V Q) (hV : ∀ c₁, S.Reaches c c₁ → S.Reaches c₁ c' →
      ∀ e ch, V e (S.exec i e ch c₁.shared).1) : p'.PerformsIf V Q := by
  induction h with
  | rest _ => exact hp
  | op ch h hk ih =>
    exact ih (hp.2 _ (hV _ h (reaches_of_runs hk) _ ch)) fun c₂ h₂ => hV c₂ (h.trans h₂)

/-- A request that had not begun at `c` and has ended at `c'` performed its operations on states
between the two. -/
theorem returns_between {Q : α → Prop} {r : Req} (hr : (S.handler r).ReturnsIf V Q)
    (h : S.Reaches c c') (hc : S.Unbegun c i r)
    (hV : ∀ c₁, S.Reaches c c₁ → S.Reaches c₁ c' → ∀ e ch, V e (S.exec i e ch c₁.shared).1) {a : α}
    (hi : c'.procs i = some (r, .done a)) : Q a :=
  returnsIf_of_runs (runs_of_reaches h hc hi) hr hV

/-- The same of a request that is about to perform an operation at `c'`. -/
theorem performs_between {Q : Op → Prop} {r : Req} (hr : (S.handler r).PerformsIf V Q)
    (h : S.Reaches c c') (hc : S.Unbegun c i r)
    (hV : ∀ c₁, S.Reaches c c₁ → S.Reaches c₁ c' → ∀ e ch, V e (S.exec i e ch c₁.shared).1) {e : Op}
    {k : Res e → Program Op Res α} (hi : c'.procs i = some (r, .op e k)) : Q e :=
  (performsIf_of_runs (runs_of_reaches h hc hi) hr hV).1

end System
