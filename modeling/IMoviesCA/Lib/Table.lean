import Mathlib.Data.List.Nodup
import Mathlib.Tactic.Common

/-!
# Tables with a primary key, and the write set of a transaction

A `Table` is a list of rows no two of which have the same key.  A transaction is a list of
`Write`s; `Table.commit` applies all of them or, when one violates the key or updates a row that
is not there, none.  `Table.rows_of_commit` is the effect of a committed write set, row by row:
the old rows with the patches of their own key (`patched`), then the inserted rows (`added`).
-/

/-- Rows `ρ` with a key `κ`, and the changes `π` that an update can make to a row. -/
class Record (ρ : Type) (κ π : outParam Type) where
  key : ρ → κ
  patch : π → ρ → ρ
  key_patch : ∀ p r, key (patch p r) = key r

open Record

attribute [simp] Record.key_patch

/-- A set of rows in which the key is unique. -/
structure Table (ρ : Type) {κ π : Type} [Record ρ κ π] where
  rows : List ρ
  nodup : (rows.map key).Nodup

/-- One statement of a transaction. -/
inductive Write (ρ κ π : Type)
  | insert (r : ρ)
  | update (k : κ) (p : π)
  deriving DecidableEq

namespace Table

variable {ρ κ π : Type} [Record ρ κ π]

@[ext] theorem ext {t t' : Table ρ} (h : t.rows = t'.rows) : t = t' := by
  cases t; cases t'; cases h; rfl

instance : EmptyCollection (Table ρ) := ⟨⟨[], List.nodup_nil⟩⟩

/-- The keys of the table, in the order of its rows. -/
def keys (t : Table ρ) : List κ := t.rows.map key

theorem mem_keys {t : Table ρ} {k : κ} : k ∈ t.keys ↔ ∃ r ∈ t.rows, key r = k := List.mem_map

theorem key_mem_keys {t : Table ρ} {r : ρ} (h : r ∈ t.rows) : key r ∈ t.keys :=
  List.mem_map_of_mem h

/-- A row is determined by its key. -/
theorem eq_of_key_eq {t : Table ρ} {r r' : ρ} (h : r ∈ t.rows) (h' : r' ∈ t.rows)
    (hk : key r = key r') : r = r' :=
  List.inj_on_of_nodup_map t.nodup h h' hk

theorem nodup_append_row {t : Table ρ} {r : ρ} (h : key r ∉ t.keys) :
    ((t.rows ++ [r]).map key).Nodup := by
  rw [List.map_append, List.nodup_append]
  refine ⟨t.nodup, by simp, ?_⟩
  intro k hk k' hk' e
  simp only [List.map_cons, List.map_nil, List.mem_singleton] at hk'
  subst hk' e
  exact h hk

variable [DecidableEq κ]

/-- The row with a given key. -/
def find? (t : Table ρ) (k : κ) : Option ρ := t.rows.find? fun r => key r = k

theorem find?_eq_some_iff {t : Table ρ} {k : κ} {r : ρ} :
    t.find? k = some r ↔ r ∈ t.rows ∧ key r = k := by
  constructor
  · intro h
    exact ⟨List.mem_of_find?_eq_some h, by simpa using List.find?_some h⟩
  · rintro ⟨hr, rfl⟩
    rcases h : t.find? (key r) with _ | r'
    · simpa using List.find?_eq_none.1 h r hr
    · have hk : key r' = key r := by simpa using List.find?_some h
      rw [eq_of_key_eq (List.mem_of_find?_eq_some h) hr hk]

theorem find?_eq_none_iff {t : Table ρ} {k : κ} : t.find? k = none ↔ k ∉ t.keys := by
  simp [find?, mem_keys]

theorem find?_of_mem {t : Table ρ} {r : ρ} (h : r ∈ t.rows) : t.find? (key r) = some r :=
  find?_eq_some_iff.2 ⟨h, rfl⟩

/-- The selection of a key is the row with that key. -/
theorem filter_key_of_find? {t : Table ρ} {k : κ} {r : ρ} (h : t.find? k = some r) :
    t.rows.filter (fun r => key r = k) = [r] := by
  obtain ⟨hr, hk⟩ := find?_eq_some_iff.1 h
  have hmem : r ∈ t.rows.filter fun r => key r = k := by simp [hr, hk]
  have hall : ∀ x ∈ t.rows.filter (fun r => key r = k), x = r := by
    intro x hx
    simp only [List.mem_filter, decide_eq_true_eq] at hx
    exact eq_of_key_eq hx.1 hr (hx.2.trans hk.symm)
  have hnodup : (t.rows.filter fun r => key r = k).Nodup := t.nodup.of_map.filter _
  rcases hl : t.rows.filter (fun r => key r = k) with _ | ⟨a, _ | ⟨b, l⟩⟩
  · simp [hl] at hmem
  · rw [hall a (by simp [hl])]
  · rw [hl, hall a (by simp [hl]), hall b (by simp [hl])] at hnodup
    simp at hnodup

/-- The table without the row with a given key. -/
def erase (t : Table ρ) (k : κ) : Table ρ :=
  ⟨t.rows.filter fun r => key r ≠ k, t.nodup.sublist (List.filter_sublist.map key)⟩

/-! ## Writes -/

/-- The effect of one write on a row that is already there. -/
def patchedBy (w : Write ρ κ π) (r : ρ) : ρ :=
  match w with
  | .insert _ => r
  | .update k p => if key r = k then patch p r else r

@[simp] theorem key_patchedBy (w : Write ρ κ π) (r : ρ) : key (patchedBy w r) = key r := by
  rcases w with r' | ⟨k, p⟩
  · rfl
  · simp only [patchedBy]
    split_ifs <;> simp

/-- The effect of a list of writes on a row that is already there. -/
def patched (ws : List (Write ρ κ π)) (r : ρ) : ρ := ws.foldl (fun r w => patchedBy w r) r

@[simp] theorem patched_nil (r : ρ) : patched ([] : List (Write ρ κ π)) r = r := rfl

@[simp] theorem patched_cons (w : Write ρ κ π) (ws : List (Write ρ κ π)) (r : ρ) :
    patched (w :: ws) r = patched ws (patchedBy w r) := rfl

@[simp] theorem key_patched (ws : List (Write ρ κ π)) (r : ρ) : key (patched ws r) = key r := by
  induction ws generalizing r with
  | nil => rfl
  | cons w ws ih => rw [patched_cons, ih, key_patchedBy]

/-- The rows that a list of writes inserts, as the later writes leave them. -/
def added : List (Write ρ κ π) → List ρ
  | [] => []
  | .insert r :: ws => patched ws r :: added ws
  | .update _ _ :: ws => added ws

/-- The keys that a list of writes inserts. -/
def insertedKeys (ws : List (Write ρ κ π)) : List κ := (added ws).map key

/-- No write of the list is for the key. -/
def Untouched (ws : List (Write ρ κ π)) (k : κ) : Prop :=
  ∀ w ∈ ws, match w with
    | .insert r => key r ≠ k
    | .update k' _ => k' ≠ k

theorem patched_of_untouched {ws : List (Write ρ κ π)} {r : ρ} (h : Untouched ws (key r)) :
    patched ws r = r := by
  induction ws with
  | nil => rfl
  | cons w ws ih =>
    have hw : patchedBy w r = r := by
      have := h w List.mem_cons_self
      rcases w with r' | ⟨k, p⟩
      · rfl
      · exact if_neg (Ne.symm this)
    rw [patched_cons, hw]
    exact ih fun w' hw' => h w' (List.mem_cons_of_mem _ hw')

theorem not_mem_insertedKeys {ws : List (Write ρ κ π)} {k : κ} (h : Untouched ws k) :
    k ∉ insertedKeys ws := by
  induction ws with
  | nil => simp [insertedKeys, added]
  | cons w ws ih =>
    have ih := ih fun w' hw' => h w' (List.mem_cons_of_mem _ hw')
    have hw := h w List.mem_cons_self
    rcases w with r' | ⟨k', p⟩
    · simp only [insertedKeys, added, List.map_cons, key_patched, List.mem_cons, not_or]
      exact ⟨Ne.symm hw, ih⟩
    · exact ih

theorem nodup_patchedBy (t : Table ρ) (w : Write ρ κ π) :
    ((t.rows.map (patchedBy w)).map key).Nodup := by
  rw [List.map_map, show key ∘ patchedBy w = (key : ρ → κ) from funext (key_patchedBy w)]
  exact t.nodup

/-- One write: a duplicate key, or an update that finds no row, is an error. -/
def write (t : Table ρ) (w : Write ρ κ π) : Option (Table ρ) :=
  match w with
  | .insert r =>
      if h : key r ∈ t.keys then none else some ⟨t.rows ++ [r], nodup_append_row h⟩
  | .update k p =>
      if k ∈ t.keys then some ⟨t.rows.map (patchedBy (.update k p)), nodup_patchedBy t _⟩ else none

/-- Apply all writes or none. -/
def commit (t : Table ρ) : List (Write ρ κ π) → Option (Table ρ)
  | [] => some t
  | w :: ws => (t.write w).bind fun t' => t'.commit ws

theorem map_patchedBy_insert (l : List ρ) (r : ρ) :
    l.map (patchedBy (.insert r : Write ρ κ π)) = l := List.map_id l

theorem map_patched_nil (l : List ρ) : l.map (patched ([] : List (Write ρ κ π))) = l :=
  List.map_id l

theorem rows_of_write {t t' : Table ρ} {w : Write ρ κ π} (h : t.write w = some t') :
    t'.rows = t.rows.map (patchedBy w) ++ added [w] := by
  rcases w with r | ⟨k, p⟩
  · simp only [write] at h
    split_ifs at h
    obtain rfl := Option.some.inj h
    simp [map_patchedBy_insert, added]
  · simp only [write] at h
    split_ifs at h
    obtain rfl := Option.some.inj h
    simp [added]

/-- The effect of a committed write set. -/
theorem rows_of_commit {ws : List (Write ρ κ π)} {t t' : Table ρ} (h : t.commit ws = some t') :
    t'.rows = t.rows.map (patched ws) ++ added ws := by
  induction ws generalizing t with
  | nil =>
    obtain rfl := Option.some.inj h
    simp [added, map_patched_nil]
  | cons w ws ih =>
    obtain ⟨t₁, h₁, h₂⟩ := Option.bind_eq_some_iff.1 h
    rw [ih h₂, rows_of_write h₁]
    have hp : patched ws ∘ patchedBy w = patched (w :: ws) := rfl
    rcases w with r | ⟨k, p⟩
    · simp [added, hp]
    · simp [added, hp]

theorem keys_of_commit {ws : List (Write ρ κ π)} {t t' : Table ρ} (h : t.commit ws = some t') :
    t'.keys = t.keys ++ insertedKeys ws := by
  rw [keys, rows_of_commit h, List.map_append, List.map_map]
  rw [show key ∘ patched ws = (key : ρ → κ) from funext (key_patched ws)]
  rfl

/-- A committed row is an old row after the patches of its key, or an inserted one. -/
theorem mem_of_commit {ws : List (Write ρ κ π)} {t t' : Table ρ} (h : t.commit ws = some t')
    {r' : ρ} : r' ∈ t'.rows ↔ (∃ r ∈ t.rows, patched ws r = r') ∨ r' ∈ added ws := by
  rw [rows_of_commit h, List.mem_append, List.mem_map]

/-- A write set that inserts a taken key is refused. -/
theorem commit_eq_none {ws : List (Write ρ κ π)} {t : Table ρ} {k : κ} (hk : k ∈ t.keys)
    (h : k ∈ insertedKeys ws) : t.commit ws = none := by
  rcases hc : t.commit ws with _ | t'
  · rfl
  · have hn : t'.keys.Nodup := t'.nodup
    rw [keys_of_commit hc, List.nodup_append] at hn
    exact absurd rfl (hn.2.2 k hk k h)

theorem exists_write_update {t : Table ρ} {k : κ} (hk : k ∈ t.keys) (p : π) :
    ∃ t', t.write (.update k p) = some t' ∧ t'.keys = t.keys := by
  refine ⟨_, if_pos hk, ?_⟩
  simp [keys]

/-- Updates of rows that are there are carried out. -/
theorem exists_commit_updates {t : Table ρ} {ws : List (Write ρ κ π)}
    (h : ∀ w ∈ ws, ∃ k p, w = .update k p ∧ k ∈ t.keys) : ∃ t', t.commit ws = some t' := by
  induction ws generalizing t with
  | nil => exact ⟨t, rfl⟩
  | cons w ws ih =>
    obtain ⟨k, p, rfl, hk⟩ := h w List.mem_cons_self
    obtain ⟨t₁, hwrite, hkeys⟩ := exists_write_update hk p
    obtain ⟨t', ht'⟩ := ih (t := t₁) fun w hw => by
      rw [hkeys]
      exact h w (List.mem_cons_of_mem _ hw)
    refine ⟨t', ?_⟩
    rw [commit, hwrite]
    exact ht'

/-- The rows of a key that no write is for stay as they are. -/
theorem find?_of_commit {ws : List (Write ρ κ π)} {t t' : Table ρ} (h : t.commit ws = some t')
    {k : κ} (hk : Untouched ws k) : t'.find? k = t.find? k := by
  rcases hf : t.find? k with _ | r
  · rw [find?_eq_none_iff, keys_of_commit h, List.mem_append, not_or]
    exact ⟨find?_eq_none_iff.1 hf, not_mem_insertedKeys hk⟩
  · obtain ⟨hmem, rfl⟩ := find?_eq_some_iff.1 hf
    exact find?_eq_some_iff.2
      ⟨(mem_of_commit h).2 (Or.inl ⟨r, hmem, patched_of_untouched hk⟩), rfl⟩

/-- The effect of a committed write set on a row that is already there. -/
theorem find?_patched_of_commit {ws : List (Write ρ κ π)} {t t' : Table ρ}
    (h : t.commit ws = some t') {k : κ} {r : ρ} (hr : t.find? k = some r) :
    t'.find? k = some (patched ws r) := by
  obtain ⟨hmem, rfl⟩ := find?_eq_some_iff.1 hr
  exact find?_eq_some_iff.2 ⟨(mem_of_commit h).2 (Or.inl ⟨r, hmem, rfl⟩), key_patched ws r⟩

/-- A selection of rows stays as it is when the write set leaves the selected rows alone, moves none
of the others into it, and inserts none. -/
theorem filter_of_commit {ws : List (Write ρ κ π)} {t t' : Table ρ} (h : t.commit ws = some t')
    {p : ρ → Bool} (hold : ∀ r ∈ t.rows, p (patched ws r) = p r ∧ (p r = true → patched ws r = r))
    (hnew : ∀ r ∈ added ws, p r = false) : t'.rows.filter p = t.rows.filter p := by
  have hadded : (added ws).filter p = [] := by simpa using hnew
  have hsame : t.rows.filter (p ∘ patched ws) = t.rows.filter p :=
    List.filter_congr fun r hr => (hold r hr).1
  have hid : ∀ r ∈ t.rows.filter p, patched ws r = id r := by
    intro r hr
    simp only [List.mem_filter] at hr
    exact (hold r hr.1).2 hr.2
  rw [rows_of_commit h, List.filter_append, hadded, List.append_nil, List.filter_map, hsame,
    List.map_congr_left hid, List.map_id]

theorem filter_key_of_commit {ws : List (Write ρ κ π)} {t t' : Table ρ}
    (h : t.commit ws = some t') {k : κ} (hk : Untouched ws k) :
    t'.rows.filter (fun r => key r = k) = t.rows.filter fun r => key r = k := by
  apply filter_of_commit h
  · intro r _
    refine ⟨by simp, fun hr => ?_⟩
    apply patched_of_untouched
    rw [of_decide_eq_true hr]
    exact hk
  · intro r hr
    have hins : key r ∈ insertedKeys ws := List.mem_map_of_mem hr
    simp only [decide_eq_false_iff_not]
    rintro rfl
    exact not_mem_insertedKeys hk hins

/-- The rows are only ever patched or added to. -/
theorem keys_subset_of_commit {ws : List (Write ρ κ π)} {t t' : Table ρ}
    (h : t.commit ws = some t') : t.keys ⊆ t'.keys := by
  rw [keys_of_commit h]
  exact List.subset_append_left _ _

end Table
