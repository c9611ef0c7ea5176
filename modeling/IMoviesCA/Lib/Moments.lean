import Mathlib.Data.List.Forall2
import IMoviesCA.Lib.Program

/-!
# Moments of a run

`S.Via as c bs c'` says that the schedule `as` leads from `c` to `c'` by way of the configurations
`bs`, in this order.  When only the operations write to a log in the shared state, and each of them
at most one entry (`System.Logs`), the entries that a run has added mark such moments
(`System.via_of_log`), and each moment is the operation of a process (`System.Adds.exec`).
-/

namespace System

variable {Req Op : Type} {Res : Op → Type} {σ χ ε α ω : Type}

/-- The schedule leads from the first to the last configuration by way of those in between. -/
def Via (S : System Req Op Res σ χ ε α) : List (Act Req χ ε) → Config Req Op Res σ α →
    List (Config Req Op Res σ α) → Config Req Op Res σ α → Prop
  | as, c, [], c' => S.run as c = some c'
  | as, c, b :: bs, c' => ∃ as₁ as₂, as = as₁ ++ as₂ ∧ S.run as₁ c = some b ∧ S.Via as₂ b bs c'

/-- The next action adds the entry to the log. -/
def Adds (S : System Req Op Res σ χ ε α) (log : σ → List ω) (b : Config Req Op Res σ α) (w : ω) :
    Prop :=
  ∃ a b', S.step a b = some b' ∧ log b'.shared = w :: log b.shared

/-- Operations add at most one entry to the log, and the environment none. -/
structure Logs (S : System Req Op Res σ χ ε α) (log : σ → List ω) : Prop where
  env : ∀ e s, log (S.env e s) = log s
  exec : ∀ i e ch s, log (S.exec i e ch s).2 = log s ∨ ∃ w, log (S.exec i e ch s).2 = w :: log s

variable {S : System Req Op Res σ χ ε α}

theorem Via.cons {a : Act Req χ ε} {as : List (Act Req χ ε)} {c c₁ c' : Config Req Op Res σ α}
    {bs : List (Config Req Op Res σ α)} (ha : S.step a c = some c₁) (h : S.Via as c₁ bs c') :
    S.Via (a :: as) c bs c' := by
  have hrun : ∀ {as b}, S.run as c₁ = some b → S.run (a :: as) c = some b := by
    intro as b h
    rw [run, ha]
    exact h
  cases bs with
  | nil => exact hrun h
  | cons b bs =>
    obtain ⟨as₁, as₂, rfl, h₁, h₂⟩ := h
    exact ⟨a :: as₁, as₂, rfl, hrun h₁, h₂⟩

/-- The run begins at its first moment. -/
theorem Via.here {as : List (Act Req χ ε)} {c c' : Config Req Op Res σ α}
    {bs : List (Config Req Op Res σ α)} (h : S.Via as c bs c') : S.Via as c (c :: bs) c' :=
  ⟨[], as, rfl, rfl, h⟩

theorem Via.reaches {as : List (Act Req χ ε)} {c c' : Config Req Op Res σ α}
    {bs : List (Config Req Op Res σ α)} (h : S.Via as c bs c') :
    (c :: (bs ++ [c'])).Pairwise S.Reaches := by
  induction bs generalizing as c with
  | nil => simpa using reaches_of_run h
  | cons b bs ih =>
    obtain ⟨as₁, as₂, -, h₁, h₂⟩ := h
    have hrest := ih h₂
    refine List.pairwise_cons.2 ⟨?_, hrest⟩
    have hb := reaches_of_run h₁
    intro d hd
    rcases List.mem_cons.1 hd with rfl | hd
    · exact hb
    · exact hb.trans ((List.pairwise_cons.1 hrest).1 d hd)

theorem Via.run_eq {as : List (Act Req χ ε)} {c c' : Config Req Op Res σ α}
    {bs : List (Config Req Op Res σ α)} (h : S.Via as c bs c') : S.run as c = some c' := by
  induction bs generalizing as c with
  | nil => exact h
  | cons b bs ih =>
    obtain ⟨as₁, as₂, rfl, h₁, h₂⟩ := h
    rw [run_append, h₁]
    exact ih h₂

/-- Each of the moments is one of the run. -/
theorem Via.of_mem {as : List (Act Req χ ε)} {c c' : Config Req Op Res σ α}
    {bs : List (Config Req Op Res σ α)} (h : S.Via as c bs c') {b : Config Req Op Res σ α}
    (hb : b ∈ bs) : S.Via as c [b] c' := by
  induction bs generalizing as c with
  | nil => cases hb
  | cons b₁ bs ih =>
    obtain ⟨as₁, as₂, rfl, h₁, h₂⟩ := h
    rcases List.mem_cons.1 hb with rfl | hb
    · exact ⟨as₁, as₂, rfl, h₁, h₂.run_eq⟩
    · obtain ⟨as₃, as₄, rfl, h₃, h₄⟩ := ih h₂ hb
      refine ⟨as₁ ++ as₃, as₄, (List.append_assoc _ _ _).symm, ?_, h₄⟩
      rw [run_append, h₁]
      exact h₃

/-- The moments of three entries. -/
theorem exists_moments {log : σ → List ω} {bs : List (Config Req Op Res σ α)} {w₁ w₂ w₃ : ω}
    (h : List.Forall₂ (S.Adds log) bs [w₁, w₂, w₃]) : ∃ b₁ b₂ b₃, bs = [b₁, b₂, b₃] ∧
      S.Adds log b₁ w₁ ∧ S.Adds log b₂ w₂ ∧ S.Adds log b₃ w₃ := by
  obtain ⟨b₁, bs₁, h₁, hrest₁, rfl⟩ := List.forall₂_cons_right_iff.1 h
  obtain ⟨b₂, bs₂, h₂, hrest₂, rfl⟩ := List.forall₂_cons_right_iff.1 hrest₁
  obtain ⟨b₃, bs₃, h₃, hrest₃, rfl⟩ := List.forall₂_cons_right_iff.1 hrest₂
  obtain rfl := List.forall₂_nil_right_iff.1 hrest₃
  exact ⟨b₁, b₂, b₃, rfl, h₁, h₂, h₃⟩

/-- The moment before an entry: the process of the entry makes its next operation. -/
theorem Adds.exec {log : σ → List ω} (h : S.Logs log) {b : Config Req Op Res σ α} {w : ω}
    (hadds : S.Adds log b w) : ∃ i r e ch k, b.procs i = some (r, .op e k) ∧
      log (S.exec i e ch b.shared).2 = w :: log b.shared := by
  obtain ⟨a, b', ha, hw⟩ := hadds
  have hne : log b.shared ≠ w :: log b.shared := fun heq => by
    simpa using congrArg List.length heq
  cases step_cases ha with
  | arrive => exact absurd hw hne
  | @step i ch r e k hi => exact ⟨i, r, e, ch, k, hi, hw⟩
  | @env e =>
    have hw : log (S.env e b.shared) = w :: log b.shared := hw
    rw [h.env] at hw
    exact absurd hw hne

theorem Logs.step {log : σ → List ω} (h : S.Logs log) {a : Act Req χ ε}
    {b b' : Config Req Op Res σ α} (ha : S.step a b = some b') :
    log b'.shared = log b.shared ∨ ∃ w, log b'.shared = w :: log b.shared := by
  cases step_cases ha with
  | arrive => exact Or.inl rfl
  | @step i ch r e k hi => exact h.exec i e ch b.shared
  | @env e => exact Or.inl (h.env e b.shared)

/-- The entries that a run adds to the log, oldest first and as far as they meet `p`, mark moments
of the run. -/
theorem via_of_log {log : σ → List ω} (hlogs : S.Logs log) (p : ω → Bool)
    {as : List (Act Req χ ε)} {c c' : Config Req Op Res σ α} (hrun : S.run as c = some c') :
    ∃ ws bs, log c'.shared = ws ++ log c.shared ∧ S.Via as c bs c' ∧
      List.Forall₂ (S.Adds log) bs (ws.filter p).reverse := by
  induction as generalizing c with
  | nil =>
    obtain rfl := Option.some.inj hrun
    exact ⟨[], [], rfl, rfl, .nil⟩
  | cons a as ih =>
    obtain ⟨c₁, h₁, h₂⟩ := Option.bind_eq_some_iff.1 hrun
    obtain ⟨ws, bs, hlog, hvia, hadds⟩ := ih h₂
    rcases hlogs.step h₁ with hsame | ⟨w, hw⟩
    · exact ⟨ws, bs, by rw [hlog, hsame], hvia.cons h₁, hadds⟩
    · have hlog' : log c'.shared = (ws ++ [w]) ++ log c.shared := by
        rw [hlog, hw, List.append_assoc, List.singleton_append]
      by_cases hp : p w = true
      · refine ⟨ws ++ [w], c :: bs, hlog', (hvia.cons h₁).here, ?_⟩
        rw [List.filter_append, List.filter_cons_of_pos hp, List.filter_nil, List.reverse_append,
          List.reverse_singleton, List.singleton_append]
        exact .cons ⟨a, c₁, h₁, hw⟩ hadds
      · refine ⟨ws ++ [w], bs, hlog', hvia.cons h₁, ?_⟩
        rw [List.filter_append, List.filter_cons_of_neg hp, List.filter_nil, List.append_nil]
        exact hadds

/-- A new entry of the log has its moment. -/
theorem exists_moment {log : σ → List ω} (hlogs : S.Logs log) {as : List (Act Req χ ε)}
    {c c' : Config Req Op Res σ α} (hrun : S.run as c = some c') {w : ω} (hold : w ∉ log c.shared)
    (hw : w ∈ log c'.shared) : ∃ b, S.Via as c [b] c' ∧ S.Adds log b w := by
  induction as generalizing c with
  | nil =>
    obtain rfl := Option.some.inj hrun
    exact absurd hw hold
  | cons a as ih =>
    obtain ⟨c₁, h₁, h₂⟩ := Option.bind_eq_some_iff.1 hrun
    by_cases hw₁ : w ∈ log c₁.shared
    · have hvia : S.Via (a :: as) c [] c' := hrun
      refine ⟨c, hvia.here, a, c₁, h₁, ?_⟩
      rcases hlogs.step h₁ with hsame | ⟨w', hw'⟩
      · rw [hsame] at hw₁
        exact absurd hw₁ hold
      · rw [hw'] at hw₁ ⊢
        rcases List.mem_cons.1 hw₁ with rfl | hw₁
        · rfl
        · exact absurd hw₁ hold
    · obtain ⟨b, hvia, hadds⟩ := ih h₂ hw₁
      exact ⟨b, hvia.cons h₁, hadds⟩

/-- The entries of a log that was empty. -/
theorem moments_of_log {log : σ → List ω} (hlogs : S.Logs log) (p : ω → Bool)
    {as : List (Act Req χ ε)} {c c' : Config Req Op Res σ α} (hnil : log c.shared = [])
    (hrun : S.run as c = some c') : ∃ bs, S.Via as c bs c' ∧
      List.Forall₂ (S.Adds log) bs ((log c'.shared).filter p).reverse := by
  obtain ⟨ws, bs, hlog, hvia, hadds⟩ := via_of_log hlogs p hrun
  rw [hnil, List.append_nil] at hlog
  rw [hlog]
  exact ⟨bs, hvia, hadds⟩

end System
