import IMoviesCA.Lib.Program
import Mathlib.Data.List.Nodup

/-!
# One request after another

`Serial Outcome order s s'` carries out the requests of `order` one after another, each with the
reply that stands beside it.  Entries can be appended, and a reply that came with no effect can be
exchanged for another one (`Serial.replace`), so that an order can be built along a run and
corrected when a request fails late.  `Serial.simulates` carries an order from an abstract object
over to one that simulates it.

`Linearises` ties an order to what has been settled of each request, and `linearises_of_run` is the
rule for a system: every action of a process leaves its verdict open, settles it by one step of the
abstract object, or exchanges it.

`System.Serialisable` compares a configuration in which every request has ended with the serial
orders of the same requests.
-/

/-- The requests of the list, one after another, with their replies. -/
inductive Serial {ι Req Rep σ : Type} (Outcome : ι → Req → σ → Rep → σ → Prop) :
    List (ι × Req × Rep) → σ → σ → Prop
  | nil {s : σ} : Serial Outcome [] s s
  | cons {i : ι} {req : Req} {rep : Rep} {order : List (ι × Req × Rep)} {s s₁ s₂ : σ}
      (h : Outcome i req s rep s₁) (rest : Serial Outcome order s₁ s₂) :
      Serial Outcome ((i, req, rep) :: order) s s₂

namespace Serial

variable {ι Req Rep σ τ : Type} {Outcome : ι → Req → σ → Rep → σ → Prop}
  {order order' : List (ι × Req × Rep)} {s s₁ s₂ : σ}

theorem append (h : Serial Outcome order s s₁) (h' : Serial Outcome order' s₁ s₂) :
    Serial Outcome (order ++ order') s s₂ := by
  induction h with
  | nil => exact h'
  | cons hout _ ih => exact .cons hout (ih h')

theorem single {i : ι} {req : Req} {rep : Rep} (h : Outcome i req s rep s₁) :
    Serial Outcome [(i, req, rep)] s s₁ := .cons h .nil

/-- The reply of one request is exchanged. -/
def exchange [DecidableEq ι] (i : ι) (rep : Rep) (e : ι × Req × Rep) : ι × Req × Rep :=
  if e.1 = i then (i, e.2.1, rep) else e

section Exchange

variable [DecidableEq ι] {i : ι} {rep : Rep}

theorem exchange_fst (e : ι × Req × Rep) : (exchange i rep e).1 = e.1 := by
  unfold exchange
  split_ifs with h
  · exact h.symm
  · rfl

theorem map_fst_exchange : (order.map (exchange i rep)).map Prod.fst = order.map Prod.fst := by
  rw [List.map_map]
  apply List.map_congr_left
  intro e _
  exact exchange_fst e

/-- The entries of the other requests stay as they are. -/
theorem mem_exchange_of_ne {j : ι} (hj : j ≠ i) {x : Req × Rep} :
    (j, x) ∈ order.map (exchange i rep) ↔ (j, x) ∈ order := by
  rw [List.mem_map]
  constructor
  · rintro ⟨e, he, heq⟩
    have hfst : e.1 = j := (exchange_fst e).symm.trans (congrArg Prod.fst heq)
    have hne : e.1 ≠ i := fun h => hj (hfst.symm.trans h)
    rw [exchange, if_neg hne] at heq
    rw [← heq]
    exact he
  · intro h
    exact ⟨(j, x), h, if_neg hj⟩

theorem mem_exchange_self {req : Req} {rep₀ : Rep} (hnodup : (order.map Prod.fst).Nodup)
    (h : (i, req, rep₀) ∈ order) {x : Req × Rep} :
    (i, x) ∈ order.map (exchange i rep) ↔ x = (req, rep) := by
  rw [List.mem_map]
  constructor
  · rintro ⟨e, he, heq⟩
    have hfst : e.1 = i := (exchange_fst e).symm.trans (congrArg Prod.fst heq)
    obtain rfl : e = (i, req, rep₀) := List.inj_on_of_nodup_map hnodup he h hfst
    rw [exchange, if_pos rfl] at heq
    exact (Prod.mk.inj heq).2.symm
  · rintro rfl
    exact ⟨_, h, if_pos rfl⟩

/-- A reply that comes with no effect, whatever the state, is exchanged for another such reply. -/
theorem replace {req : Req} {rep₀ : Rep} (h : Serial Outcome order s s₁)
    (hnodup : (order.map Prod.fst).Nodup) (hmem : (i, req, rep₀) ∈ order)
    (hreply : ∀ s s', Outcome i req s rep₀ s' → Outcome i req s rep s') :
    Serial Outcome (order.map (exchange i rep)) s s₁ := by
  have hentry : ∀ {req' rep'}, (i, req', rep') ∈ order → req' = req ∧ rep' = rep₀ := by
    intro req' rep' h'
    have heq := List.inj_on_of_nodup_map hnodup h' hmem rfl
    exact Prod.mk.inj (Prod.mk.inj heq).2
  clear hnodup hmem
  induction h with
  | nil => exact .nil
  | @cons j req' rep' order s s₁ s₂ hout _ ih =>
    have hrest := ih fun h' => hentry (List.mem_cons_of_mem _ h')
    rw [List.map_cons, exchange]
    split_ifs with hj
    · obtain rfl : j = i := hj
      obtain ⟨rfl, rfl⟩ := hentry List.mem_cons_self
      exact .cons (hreply _ _ hout) hrest
    · exact .cons hout hrest

end Exchange

/-- An order of an abstract object is an order of what simulates it. -/
theorem simulates {Outcome' : ι → Req → τ → Rep → τ → Prop} {f : τ → σ}
    (hsim : ∀ {e t s'}, e ∈ order → Outcome e.1 e.2.1 (f t) e.2.2 s' →
      ∃ t', Outcome' e.1 e.2.1 t e.2.2 t' ∧ f t' = s') {t : τ} (h : Serial Outcome order (f t) s₁) :
    ∃ t', Serial Outcome' order t t' ∧ f t' = s₁ := by
  generalize hs : f t = s at h
  induction h generalizing t with
  | nil => exact ⟨t, .nil, hs⟩
  | cons hout _ ih =>
    subst hs
    obtain ⟨t₁, hout', ht₁⟩ := hsim List.mem_cons_self hout
    obtain ⟨t', hrest, ht'⟩ := ih (fun he => hsim (List.mem_cons_of_mem _ he)) ht₁
    exact ⟨t', .cons hout' hrest, ht'⟩

end Serial

/-! ## Orders of a run -/

/-- The order has an entry for each request that is settled, with its verdict. -/
structure Linearises {ι Req Rep σ : Type} (Outcome : ι → Req → σ → Rep → σ → Prop)
    (order : List (ι × Req × Rep)) (verdict : ι → Option (Req × Rep)) (s s' : σ) : Prop where
  serial : Serial Outcome order s s'
  nodup : (order.map Prod.fst).Nodup
  mem_iff : ∀ i x, (i, x) ∈ order ↔ verdict i = some x

/-- What one action may do to the verdict of its request: nothing, settle it by a step of the
object, or exchange a reply for another one that has the same effect. -/
inductive Advance {ι Req Rep σ : Type} (Outcome : ι → Req → σ → Rep → σ → Prop) (i : ι) :
    Option (Req × Rep) → Option (Req × Rep) → σ → σ → Prop
  | stays {o : Option (Req × Rep)} {s : σ} : Advance Outcome i o o s s
  | settles {req : Req} {rep : Rep} {s s' : σ} (h : Outcome i req s rep s') :
      Advance Outcome i none (some (req, rep)) s s'
  | exchanges {req : Req} {rep rep' : Rep} {s : σ}
      (h : ∀ t t', Outcome i req t rep t' → Outcome i req t rep' t') :
      Advance Outcome i (some (req, rep)) (some (req, rep')) s s

theorem Linearises.advance {ι Req Rep σ : Type} [DecidableEq ι]
    {Outcome : ι → Req → σ → Rep → σ → Prop} {order : List (ι × Req × Rep)}
    {verdict : ι → Option (Req × Rep)} {s₀ s s' : σ} (h : Linearises Outcome order verdict s₀ s)
    {i : ι} {o : Option (Req × Rep)} (ha : Advance Outcome i (verdict i) o s s') :
    ∃ order', Linearises Outcome order' (Function.update verdict i o) s₀ s' := by
  generalize hv : verdict i = v at ha
  cases ha with
  | stays =>
    rw [← hv, Function.update_eq_self]
    exact ⟨order, h⟩
  | @settles req rep _ _ hout =>
    have hnew : ∀ x, (i, x) ∉ order := by
      intro x hx
      have := (h.mem_iff i x).1 hx
      rw [hv] at this
      cases this
    refine ⟨order ++ [(i, req, rep)], h.serial.append (.single hout), ?_, ?_⟩
    · rw [List.map_append]
      refine h.nodup.append (List.nodup_singleton _) ?_
      intro j hj hi
      obtain rfl := List.mem_singleton.1 hi
      obtain ⟨⟨_, x⟩, hx, rfl⟩ := List.mem_map.1 hj
      exact hnew x hx
    · intro j x
      rw [List.mem_append, List.mem_singleton, Prod.mk.injEq]
      by_cases hj : j = i
      · subst hj
        simp [hnew x, eq_comm]
      · simp [hj, h.mem_iff]
  | @exchanges req rep rep' _ hreply =>
    have hmem : (i, req, rep) ∈ order := (h.mem_iff i _).2 hv
    refine ⟨order.map (Serial.exchange i rep'), h.serial.replace h.nodup hmem hreply, ?_, ?_⟩
    · rw [Serial.map_fst_exchange]
      exact h.nodup
    · intro j x
      by_cases hj : j = i
      · subst hj
        rw [Serial.mem_exchange_self h.nodup hmem, Function.update_self, Option.some.injEq, eq_comm]
      · rw [Serial.mem_exchange_of_ne hj, Function.update_of_ne hj]
        exact h.mem_iff j x

namespace System

variable {Req Op : Type} {Res : Op → Type} {σ τ χ ε α : Type}

/-- A request that runs alone as process `i`, under some choice of what it does not control. -/
def Serves (S : System Req Op Res σ χ ε α) (i : ℕ) (req : Req) (s : σ) (a : α) (s' : σ) : Prop :=
  ∃ sched, S.alone i (S.handler req) sched s = (a, s')

/-- The requests have all ended, and what they were answered and what one sees of the shared state
is as if they had run one after another in some order. -/
def Serialisable (S : System Req Op Res σ χ ε α) (view : σ → τ) (s₀ : σ)
    (c : Config Req Op Res σ α) : Prop :=
  ∃ order s', Serial S.Serves order s₀ s' ∧ (order.map Prod.fst).Nodup ∧
    (∀ i req p, c.procs i = some (req, p) ↔ ∃ a, p = .done a ∧ (i, req, a) ∈ order) ∧
    view s' = view c.shared

variable {S : System Req Op Res σ χ ε α}

/-- Along a run in which every action advances the verdict of its process, there is an order of the
settled requests that leads to the present state of the object. -/
theorem linearises_of_run (view : σ → τ) (Outcome : ℕ → Req → τ → α → τ → Prop)
    (Stage : Option (Req × Program Op Res α) → Option (Req × α) → Prop)
    {Q : Act Req χ ε → Config Req Op Res σ α → Config Req Op Res σ α → Prop}
    (hidle : Stage none none) (henv : ∀ e s, view (S.env e s) = view s)
    (hstep : ∀ a b b' i o, a.process = some i → S.step a b = some b' → Q a b b' →
      Stage (b.procs i) o →
      ∃ o', Stage (b'.procs i) o' ∧ Advance Outcome i o o' (view b.shared) (view b'.shared))
    {s₀ : σ} {as : List (Act Req χ ε)} {c : Config Req Op Res σ α}
    (hrun : S.run as (.initial s₀) = some c) (halong : S.Along Q as (.initial s₀)) :
    ∃ order verdict, Linearises Outcome order verdict (view s₀) (view c.shared) ∧
      ∀ i, Stage (c.procs i) (verdict i) := by
  refine run_induction (I := fun c => ∃ order verdict,
    Linearises Outcome order verdict (view s₀) (view c.shared) ∧
      ∀ i, Stage (c.procs i) (verdict i)) ?_ ?_ hrun halong
  · exact ⟨[], fun _ => none, ⟨.nil, List.nodup_nil, by simp⟩, fun _ => hidle⟩
  · rintro a b b' - ⟨order, verdict, hlin, hstage⟩ ha hQ
    cases hi : a.process with
    | none =>
      cases step_cases ha with
      | env => exact ⟨order, verdict, (henv _ b.shared).symm ▸ hlin, hstage⟩
      | arrive => cases hi
      | step => cases hi
    | some i =>
      obtain ⟨o, hstage', hadv⟩ := hstep a b b' i (verdict i) hi ha hQ (hstage i)
      obtain ⟨order', hlin'⟩ := hlin.advance hadv
      refine ⟨order', Function.update verdict i o, hlin', ?_⟩
      intro j
      by_cases hj : j = i
      · subst hj
        rw [Function.update_self]
        exact hstage'
      · have hne : a.process ≠ some j := by
          rw [hi]
          exact fun h => hj (Option.some.inj h).symm
        rw [Function.update_of_ne hj, procs_of_step ha hne]
        exact hstage j

end System
