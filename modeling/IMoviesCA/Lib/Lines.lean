import Mathlib.Data.List.Basic
import Mathlib.Tactic.Common

/-!
# Lines

`lines w l` cuts a list into pieces of `w` elements (`length_of_mem_dropLast_lines`), of which the
last one may be shorter (`getLast?_lines`).  Joined they are the list again (`flatten_lines`), and
with a separator between them the text is longer by one element for every line after the first
(`length_intercalate_lines`).

Lines of any width end at a separator.  Joined they are the text without the separators
(`flatten_splitOn`), and what contains no separator occurs in a text if and only if it occurs in a
line (`infix_iff_exists_splitOnP`).
-/

namespace Lines

variable {α : Type}

/-! ## Lines of a fixed width -/

/-- The list in lines of width `w`. -/
def lines (w : ℕ) (l : List α) : List (List α) :=
  (List.range ((l.length + w - 1) / w)).map fun i => (l.drop (i * w)).take w

/-- The first `n` windows of width `w` show the first `n * w` elements. -/
theorem flatten_windows (w n : ℕ) (l : List α) :
    ((List.range n).map fun i => (l.drop (i * w)).take w).flatten = l.take (n * w) := by
  induction n with
  | zero => simp
  | succ n ih =>
    rw [List.range_succ, List.map_append, List.flatten_append, ih, Nat.succ_mul, List.take_add]
    simp

theorem length_le_mul (w n : ℕ) (hw : 0 < w) : n ≤ (n + w - 1) / w * w := by
  have hmod := Nat.mod_lt (n + w - 1) hw
  have hdiv := Nat.div_add_mod (n + w - 1) w
  rw [Nat.mul_comm]
  omega

theorem flatten_lines {w : ℕ} (hw : 0 < w) (l : List α) : (lines w l).flatten = l := by
  rw [lines, flatten_windows]
  exact List.take_of_length_le (length_le_mul w l.length hw)

/-- All windows but the last one are full. -/
theorem mul_lt_length {w n i : ℕ} (hw : 0 < w) (hi : i < (n + w - 1) / w) : i * w < n := by
  have hle := Nat.div_mul_le_self (n + w - 1) w
  have hstep : (i + 1) * w ≤ (n + w - 1) / w * w := Nat.mul_le_mul_right w hi
  rw [Nat.succ_mul] at hstep
  omega

theorem length_of_mem_dropLast_lines {w : ℕ} (hw : 0 < w) {l line : List α}
    (h : line ∈ (lines w l).dropLast) : line.length = w := by
  rw [lines, ← List.map_dropLast, List.dropLast_eq_take, List.take_range, List.length_range] at h
  obtain ⟨i, hi, rfl⟩ := List.mem_map.1 h
  rw [List.mem_range] at hi
  have hnext : (i + 1) * w < l.length := mul_lt_length hw (by omega)
  rw [Nat.succ_mul] at hnext
  rw [List.length_take, List.length_drop]
  omega

theorem lines_eq_nil_iff {w : ℕ} (hw : 0 < w) {l : List α} : lines w l = [] ↔ l = [] := by
  constructor
  · intro h
    rw [← flatten_lines hw l, h]
    rfl
  · rintro rfl
    have hzero : (0 + w - 1) / w = 0 := Nat.div_eq_of_lt (by omega)
    rw [lines, List.length_nil, hzero]
    rfl

theorem getLast?_lines {w : ℕ} (hw : 0 < w) {l : List α} (h : l ≠ []) :
    ∃ line, (lines w l).getLast? = some line ∧ 1 ≤ line.length ∧ line.length ≤ w := by
  have hpos : 0 < l.length := List.length_pos_iff.2 h
  have hcount : 0 < (l.length + w - 1) / w := Nat.div_pos (by omega) hw
  have hlast : ((l.length + w - 1) / w - 1) * w < l.length := mul_lt_length hw (by omega)
  refine ⟨(l.drop (((l.length + w - 1) / w - 1) * w)).take w, ?_, ?_, ?_⟩
  · rw [lines, List.getLast?_map, List.getLast?_range, if_neg (by omega)]
    rfl
  · rw [List.length_take, List.length_drop]
    omega
  · exact List.length_take_le _ _

theorem length_intercalate (sep : α) (ls : List (List α)) :
    ([sep].intercalate ls).length = ls.flatten.length + (ls.length - 1) := by
  induction ls with
  | nil => rfl
  | cons l ls ih =>
    cases ls with
    | nil => simp
    | cons l' ls =>
      simp only [List.intercalate_cons_cons, List.length_append, ih, List.flatten_cons,
        List.length_cons, List.length_nil]
      omega

theorem length_intercalate_lines {w : ℕ} (hw : 0 < w) (sep : α) (l : List α) :
    ([sep].intercalate (lines w l)).length = l.length + ((l.length + w - 1) / w - 1) := by
  rw [length_intercalate, flatten_lines hw]
  simp [lines]

theorem mem_of_mem_intercalate {sep a : α} {ls : List (List α)} (h : a ∈ [sep].intercalate ls) :
    a = sep ∨ ∃ l ∈ ls, a ∈ l := by
  induction ls with
  | nil => simp at h
  | cons l ls ih =>
    cases ls with
    | nil => exact Or.inr ⟨l, by simp, by simpa using h⟩
    | cons l' ls =>
      rw [List.intercalate_cons_cons, List.mem_append, List.mem_append, List.mem_singleton] at h
      rcases h with (h | h) | h
      · exact Or.inr ⟨l, by simp, h⟩
      · exact Or.inl h
      · apply (ih h).imp_right
        rintro ⟨m, hm, ha⟩
        exact ⟨m, List.mem_cons_of_mem _ hm, ha⟩

/-! ## Lines that end at a separator -/

section

variable {p : α → Bool}

/-- A line contains no separator. -/
theorem eq_false_of_mem_splitOnP {l line : List α} (h : line ∈ l.splitOnP p) :
    ∀ a ∈ line, p a = false := by
  induction l generalizing line with
  | nil =>
    rw [List.splitOnP_nil, List.mem_singleton] at h
    simp [h]
  | cons a l ih =>
    obtain ⟨first, rest, hl⟩ := List.exists_cons_of_ne_nil (List.splitOnP_ne_nil p l)
    rw [List.splitOnP_cons_eq_if_modifyHead, hl] at h
    split_ifs at h with ha
    · rcases List.mem_cons.1 h with rfl | h
      · simp
      · exact ih (hl ▸ h)
    · rcases List.mem_cons.1 h with rfl | h
      · have hfirst := ih (hl ▸ List.mem_cons_self)
        simpa [ha] using hfirst
      · exact ih (hl ▸ List.mem_cons_of_mem _ h)

theorem flatten_splitOnP (p : α → Bool) (l : List α) :
    (l.splitOnP p).flatten = l.filter fun a => !p a := by
  induction l with
  | nil => rfl
  | cons a l ih =>
    obtain ⟨first, rest, hl⟩ := List.exists_cons_of_ne_nil (List.splitOnP_ne_nil p l)
    rw [hl, List.flatten_cons] at ih
    rw [List.splitOnP_cons_eq_if_modifyHead, hl]
    by_cases ha : p a
    · simp [ha, ih]
    · simp [ha, ih]

/-- The lines of a text, joined, are the text without the separators. -/
theorem flatten_splitOn [DecidableEq α] (sep : α) (l : List α) :
    (l.splitOn sep).flatten = l.filter (· ≠ sep) := by
  rw [List.splitOn_eq_splitOnP, flatten_splitOnP]
  exact List.filter_congr fun a _ => by simp [beq_eq_decide]

/-- A list that does not contain the separator is cut at the separators into its lines. -/
theorem splitOn_intercalate_lines [DecidableEq α] {w : ℕ} (hw : 0 < w) {sep : α} {l : List α}
    (hsep : sep ∉ l) (hl : l ≠ []) : ([sep].intercalate (lines w l)).splitOn sep = lines w l := by
  apply List.splitOn_intercalate
  · intro line hline hmem
    apply hsep
    rw [← flatten_lines hw l]
    exact List.mem_flatten.2 ⟨line, hline, hmem⟩
  · exact fun hnil => hl ((lines_eq_nil_iff hw).1 hnil)

/-- Without the separators, the lines are the list again. -/
theorem filter_intercalate_lines [DecidableEq α] {w : ℕ} (hw : 0 < w) {sep : α} {l : List α}
    (hsep : sep ∉ l) : ([sep].intercalate (lines w l)).filter (· ≠ sep) = l := by
  by_cases hl : l = []
  · rw [(lines_eq_nil_iff hw).2 hl, hl]
    rfl
  · rw [← flatten_splitOn, splitOn_intercalate_lines hw hsep hl, flatten_lines hw]

/-- The beginning of a text is the beginning of its first line. -/
theorem prefix_iff_prefix_head {l first : List α} {rest : List (List α)}
    (hl : l.splitOnP p = first :: rest) {w : List α} (hw : ∀ a ∈ w, p a = false) :
    w <+: l ↔ w <+: first := by
  induction l generalizing first rest w with
  | nil =>
    rw [List.splitOnP_nil] at hl
    obtain ⟨rfl, -⟩ := List.cons.inj hl
    exact Iff.rfl
  | cons a l ih =>
    obtain ⟨first', rest', hl'⟩ := List.exists_cons_of_ne_nil (List.splitOnP_ne_nil p l)
    rw [List.splitOnP_cons_eq_if_modifyHead, hl'] at hl
    cases w with
    | nil => simp
    | cons b w =>
      have hb : p b = false := hw b List.mem_cons_self
      split_ifs at hl with ha
      · obtain ⟨rfl, -⟩ := List.cons.inj hl
        have hne : b ≠ a := by
          rintro rfl
          simp [hb] at ha
        simp [List.cons_prefix_cons, hne]
      · obtain ⟨rfl, -⟩ := List.cons.inj hl
        rw [List.cons_prefix_cons, List.cons_prefix_cons,
          ih hl' fun c hc => hw c (List.mem_cons_of_mem _ hc)]

/-- What contains no separator occurs in a text if and only if it occurs in a line. -/
theorem infix_iff_exists_splitOnP {l w : List α} (hw : ∀ a ∈ w, p a = false) :
    w <:+: l ↔ ∃ line ∈ l.splitOnP p, w <:+: line := by
  induction l with
  | nil => simp
  | cons a l ih =>
    obtain ⟨first, rest, hl⟩ := List.exists_cons_of_ne_nil (List.splitOnP_ne_nil p l)
    have hcons : (a :: l).splitOnP p =
        if p a then [] :: l.splitOnP p else (a :: first) :: rest := by
      rw [List.splitOnP_cons_eq_if_modifyHead, hl]
      rfl
    rw [List.infix_cons_iff, ih]
    split_ifs at hcons with ha
    · rw [prefix_iff_prefix_head hcons hw, hcons]
      simp
    · rw [prefix_iff_prefix_head hcons hw, hcons, hl]
      simp [List.infix_cons_iff, or_assoc]

end

end Lines
