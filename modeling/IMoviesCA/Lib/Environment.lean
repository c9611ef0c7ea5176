import IMoviesCA.Lib.Program

/-!
# Other environments

The programs of a system may run in another environment, which does more to the shared state between two
operations.  What was proved of each program by itself goes over to it, as long as the new environment
breaks nothing that the processes rely on (`Logic.inEnvironment`), and `Logic.holds_of_reaches` is the
invariant of the processes that have a request.
-/

variable {Req Op : Type} {Res : Op → Type} {σ χ ε ε' α : Type}

/-- A triple does not depend on the environment. -/
theorem Machine.safe_of_exec {M : Machine Op Res σ χ ε} {M' : Machine Op Res σ χ ε'}
    (hexec : M'.exec = M.exec) {i : ℕ} {rely : σ → σ → Prop} {contract : Op → σ → Prop}
    {post : α → σ → Prop} : ∀ {p : Program Op Res α} {s : σ},
      M.Safe i rely contract post p s → M'.Safe i rely contract post p s
  | .done _, _, h => h
  | .op e k, s, h => fun s₁ hr => ⟨(h s₁ hr).1, fun ch => by
      rw [hexec]
      exact safe_of_exec hexec ((h s₁ hr).2 ch)⟩

/-- The system in another environment. -/
def System.inEnvironment (S : System Req Op Res σ χ ε α) (env : ε' → σ → σ) :
    System Req Op Res σ χ ε' α where
  exec := S.exec
  env := env
  handler := S.handler

namespace Logic

variable {S : System Req Op Res σ χ ε α}

theorem safe_inEnvironment (L : Logic S) (env : ε' → σ → σ) {i : ℕ} {r : Req} {s : σ}
    (h : L.start i s) : (S.inEnvironment env).Safe i (L.rely i) (L.contract i r) (L.post i r)
      (S.handler r) s := by
  have hsafe : S.Safe i (L.rely i) (L.contract i r) (L.post i r) (S.handler r) s := L.safe h
  have hexec : (S.inEnvironment env).exec = S.exec := rfl
  exact Machine.safe_of_exec hexec hsafe

/-- The handlers respect each other in every environment that they can rely on. -/
def inEnvironment (L : Logic S) (env : ε' → σ → σ) (henv : ∀ i e s, L.rely i s (env e s)) :
    Logic (S.inEnvironment env) where
  start := L.start
  rely := L.rely
  contract := L.contract
  post := L.post
  rely_refl := L.rely_refl
  rely_trans := L.rely_trans
  start_rely := L.start_rely
  env_rely := henv
  exec_rely := L.exec_rely
  safe := safe_inEnvironment L env

/-- What holds when a request arrives, what each of its operations keeps by its contract, and what the
others leave alone, holds of every request in every interleaving. -/
theorem holds_of_reaches (L : Logic S) {s₀ : σ} (hs₀ : ∀ i, L.start i s₀) {H : ℕ → Req → σ → Prop}
    (hstart : ∀ i r s, L.start i s → H i r s)
    (hcontract : ∀ i r e s, L.contract i r e s → ∀ ch, H i r (S.exec i e ch s).2)
    (hrely : ∀ i r s s', L.rely i s s' → H i r s → H i r s') {c : Config Req Op Res σ α}
    (h : S.Reaches (.initial s₀) c) {i : ℕ} {r : Req} (hi : c.request i = some r) :
    H i r c.shared := by
  induction h generalizing i r with
  | refl => cases hi
  | @tail b b' hreach hstep ih =>
    obtain ⟨a, ha⟩ := hstep
    cases System.step_cases ha with
    | @arrive j r' hidle =>
      by_cases hij : i = j
      · subst hij
        simp only [Config.request, Function.update_self, Option.map_some, Option.some.injEq] at hi
        subst hi
        have hok := procOk_of_reaches hs₀ hreach i
        rw [hidle] at hok
        exact hstart i _ _ hok
      · simp only [Config.request, Function.update_of_ne hij] at hi
        exact ih hi
    | @step j ch r' e k hhere =>
      have hmeets := contract_of_reaches hs₀ hreach hhere
      by_cases hij : i = j
      · subst hij
        simp only [Config.request, Function.update_self, Option.map_some, Option.some.injEq] at hi
        subst hi
        exact hcontract i _ e _ hmeets ch
      · simp only [Config.request, Function.update_of_ne hij] at hi
        exact hrely i r _ _ (L.exec_rely ch hij hmeets) (ih hi)
    | env => exact hrely i r _ _ (L.env_rely i _ _) (ih hi)

end Logic
