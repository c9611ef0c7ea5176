import Mathlib.Logic.Function.Basic
import Mathlib.Tactic.Common

/-!
# A register of current numbers

A `Register` gives each owner at most one current number.  Numbers are given out in order: a new one takes
the place of the one that its owner had, and a number that was withdrawn, because it was revoked or has
expired, is never current again (`current_of_run`).
-/

/-- The next number and the current number of each owner. -/
structure Register (ι : Type) where
  next : ℕ
  current : ι → Option ℕ
  lt_next : ∀ {i n}, current i = some n → n < next
  unique : ∀ {i j n}, current i = some n → current j = some n → i = j

namespace Register

variable {ι : Type}

theorem eq_of_current {r r' : Register ι} (hnext : r.next = r'.next)
    (h : ∀ i n, r.current i = some n ↔ r'.current i = some n) : r = r' := by
  have hcurrent : r.current = r'.current := funext fun i => Option.ext (h i)
  cases r; cases r'
  cases hnext
  cases hcurrent
  rfl

/-- What happens to a register: a number is issued to an owner, is revoked, or expires. -/
inductive Action (ι : Type)
  | issue (i : ι)
  | revoke (n : ℕ)
  | expire (n : ℕ)
  deriving DecidableEq

/-- Nobody does anything for a number to expire. -/
def Action.isDone : Action ι → Bool
  | expire _ => false
  | _ => true

theorem filter_map_expire (ns : List ℕ) : (ns.map (Action.expire (ι := ι))).filter Action.isDone = [] := by
  simp [List.filter_eq_nil_iff, Action.isDone]

theorem filter_current_eq_some {r : Register ι} {m n : ℕ} {i : ι} :
    (r.current i).filter (fun k => k != m) = some n ↔ r.current i = some n ∧ n ≠ m := by
  simp [Option.filter_eq_some_iff]

theorem withdraw_lt_next (r : Register ι) (m : ℕ) {i : ι} {n : ℕ}
    (h : (r.current i).filter (fun k => k != m) = some n) : n < r.next :=
  r.lt_next (filter_current_eq_some.1 h).1

theorem withdraw_unique (r : Register ι) (m : ℕ) {i j : ι} {n : ℕ}
    (hi : (r.current i).filter (fun k => k != m) = some n)
    (hj : (r.current j).filter (fun k => k != m) = some n) : i = j :=
  r.unique (filter_current_eq_some.1 hi).1 (filter_current_eq_some.1 hj).1

/-- The number is not current any more. -/
def withdraw (r : Register ι) (m : ℕ) : Register ι where
  next := r.next
  current i := (r.current i).filter fun k => k != m
  lt_next := r.withdraw_lt_next m
  unique := r.withdraw_unique m

variable [DecidableEq ι]

theorem update_current_eq_some {r : Register ι} {i j : ι} {n : ℕ} :
    Function.update r.current i (some r.next) j = some n ↔
      (j = i ∧ n = r.next) ∨ (j ≠ i ∧ r.current j = some n) := by
  by_cases hj : j = i
  · subst hj
    simp [eq_comm]
  · simp [hj]

theorem issue_lt_next (r : Register ι) (i : ι) {j : ι} {n : ℕ}
    (h : Function.update r.current i (some r.next) j = some n) : n < r.next + 1 := by
  rcases update_current_eq_some.1 h with ⟨-, rfl⟩ | ⟨-, h⟩
  · exact Nat.lt_succ_self _
  · exact Nat.lt_succ_of_lt (r.lt_next h)

theorem issue_unique (r : Register ι) (i : ι) {j k : ι} {n : ℕ}
    (hj : Function.update r.current i (some r.next) j = some n)
    (hk : Function.update r.current i (some r.next) k = some n) : j = k := by
  rcases update_current_eq_some.1 hj with ⟨rfl, rfl⟩ | ⟨-, hold⟩
  · rcases update_current_eq_some.1 hk with ⟨rfl, -⟩ | ⟨-, hold⟩
    · rfl
    · exact absurd (r.lt_next hold) (Nat.lt_irrefl _)
  · rcases update_current_eq_some.1 hk with ⟨rfl, rfl⟩ | ⟨-, hold'⟩
    · exact absurd (r.lt_next hold) (Nat.lt_irrefl _)
    · exact r.unique hold hold'

/-- The next number takes the place of the one that the owner had. -/
def issue (r : Register ι) (i : ι) : Register ι where
  next := r.next + 1
  current := Function.update r.current i (some r.next)
  lt_next := r.issue_lt_next i
  unique := r.issue_unique i

/-- The register after an action. -/
def apply (r : Register ι) : Action ι → Register ι
  | .issue i => r.issue i
  | .revoke n => r.withdraw n
  | .expire n => r.withdraw n

/-- The register after a list of actions. -/
def run (r : Register ι) : List (Action ι) → Register ι
  | [] => r
  | a :: as => (r.apply a).run as

theorem run_append (r : Register ι) (as bs : List (Action ι)) : r.run (as ++ bs) = (r.run as).run bs := by
  induction as generalizing r with
  | nil => rfl
  | cons a as ih => exact ih (r.apply a)

/-- An action withdraws numbers, or gives out the next one. -/
theorem current_of_apply {r : Register ι} {a : Action ι} {i : ι} {n : ℕ}
    (h : (r.apply a).current i = some n) : r.current i = some n ∨ n = r.next := by
  cases a with
  | issue j =>
    rcases update_current_eq_some.1 h with ⟨-, hn⟩ | ⟨-, h⟩
    · exact Or.inr hn
    · exact Or.inl h
  | revoke m => exact Or.inl (filter_current_eq_some.1 h).1
  | expire m => exact Or.inl (filter_current_eq_some.1 h).1

theorem next_le_apply (r : Register ι) (a : Action ι) : r.next ≤ (r.apply a).next := by
  cases a with
  | issue i => exact Nat.le_succ _
  | revoke n => exact Nat.le_refl _
  | expire n => exact Nat.le_refl _

/-- A number that is current after the actions, and was given out before them, has been current all
along. -/
theorem current_of_run {r : Register ι} {as : List (Action ι)} {i : ι} {n : ℕ}
    (h : (r.run as).current i = some n) (hn : n < r.next) : r.current i = some n := by
  induction as generalizing r with
  | nil => exact h
  | cons a as ih =>
    have happly := ih h (Nat.lt_of_lt_of_le hn (r.next_le_apply a))
    exact (current_of_apply happly).resolve_right (Nat.ne_of_lt hn)

/-- Withdrawing numbers one by one. -/
theorem run_withdrawals {f : ℕ → Action ι} (hf : ∀ r n, apply r (f n) = r.withdraw n) (r : Register ι)
    (ns : List ℕ) : (r.run (ns.map f)).next = r.next ∧
      ∀ i n, (r.run (ns.map f)).current i = some n ↔ r.current i = some n ∧ n ∉ ns := by
  induction ns generalizing r with
  | nil => exact ⟨rfl, fun i n => by simp [run]⟩
  | cons m ns ih =>
    obtain ⟨hnext, hcurrent⟩ := ih (r.withdraw m)
    have hrun : r.run ((m :: ns).map f) = (r.withdraw m).run (ns.map f) := by
      rw [List.map_cons, run, hf]
    rw [hrun]
    refine ⟨hnext, fun i n => (hcurrent i n).trans ?_⟩
    have hwithdraw : (r.withdraw m).current i = some n ↔ r.current i = some n ∧ n ≠ m :=
      filter_current_eq_some
    rw [hwithdraw, List.mem_cons, not_or, and_assoc]

end Register
