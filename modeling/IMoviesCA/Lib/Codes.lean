import Mathlib.Data.List.Infix
import Mathlib.Tactic.Common

/-!
# Letter-by-letter codes

A code sends each letter to a word, and a text to the words of its letters one after another
(`List.flatMap`).  A text is the only one with its code when each of its letters is separated from
all others: no word of another letter begins with its word, or is the beginning of it.

* `eq_of_flatMap_eq` is this fact for one text, and `flatMap_injective` for all of them.
* `separates_of_length` says that words of one length are separated.
-/

namespace Codes

variable {α β : Type}

/-- The word of `a` and the word of another letter are never the beginning of one another. -/
def Separates (f : α → List β) (a : α) : Prop := ∀ b, f a <+: f b ∨ f b <+: f a → a = b

theorem separates_of_length {f : α → List β} {n : ℕ} (hlen : ∀ a, (f a).length = n)
    (hinj : Function.Injective f) (a : α) : Separates f a := by
  intro b h
  apply hinj
  rcases h with h | h
  · exact h.eq_of_length (by rw [hlen, hlen])
  · exact (h.eq_of_length (by rw [hlen, hlen])).symm

/-- A text of separated letters is the only one with its code. -/
theorem eq_of_flatMap_eq {f : α → List β} (hne : ∀ a, f a ≠ []) {l l' : List α}
    (h : ∀ a ∈ l, Separates f a) (heq : l.flatMap f = l'.flatMap f) : l = l' := by
  induction l generalizing l' with
  | nil =>
    cases l' with
    | nil => rfl
    | cons b l' =>
      rw [List.flatMap_nil, List.flatMap_cons] at heq
      exact absurd (List.append_eq_nil_iff.1 heq.symm).1 (hne b)
  | cons a l ih =>
    cases l' with
    | nil =>
      rw [List.flatMap_nil, List.flatMap_cons] at heq
      exact absurd (List.append_eq_nil_iff.1 heq).1 (hne a)
    | cons b l' =>
      rw [List.flatMap_cons, List.flatMap_cons] at heq
      have hb : f b <+: f a ++ l.flatMap f := by
        rw [heq]
        exact List.prefix_append _ _
      obtain rfl := h a List.mem_cons_self b
        (List.prefix_or_prefix_of_prefix (List.prefix_append _ _) hb)
      rw [ih (fun c hc => h c (List.mem_cons_of_mem _ hc)) (List.append_cancel_left heq)]

theorem flatMap_injective {f : α → List β} (hne : ∀ a, f a ≠ []) (h : ∀ a, Separates f a) :
    Function.Injective (List.flatMap f) :=
  fun _ _ heq => eq_of_flatMap_eq hne (fun a _ => h a) heq

end Codes
