import Mathlib.Data.List.Pairwise
import Mathlib.Order.Basic
import Mathlib.Order.Lattice
import Mathlib.Tactic.Common

/-!
# Tables with a primary key

A `Table` holds at most one row for a key and lists its rows in key order, as a database table with
a primary key does when it is read with `ORDER BY` that key. The order is a field, so a table out of
order, or with two rows for one key, cannot be built. `set` writes a row whether or not there is one
already; an upsert that merges reads with `get?` first.

Two tables with the same rows by key are equal (`Table.ext_get?`).
-/

set_option autoImplicit false

namespace Nodal.Foundation

/-- Rows by key, in key order. -/
structure Table (κ ν : Type) [LinearOrder κ] where
  rows : List (κ × ν)
  sorted : rows.Pairwise fun row row' ↦ row.1 < row'.1

namespace Table

variable {κ ν : Type} [LinearOrder κ]

/-- The table with no rows. -/
def empty : Table κ ν := ⟨[], List.Pairwise.nil⟩

instance : EmptyCollection (Table κ ν) := ⟨empty⟩

instance [DecidableEq ν] : DecidableEq (Table κ ν) := fun t t' ↦
  decidable_of_iff (t.rows = t'.rows) ⟨fun h ↦ by cases t; cases t'; simpa using h, fun h ↦ h ▸ rfl⟩

/-- The row of a key. -/
def get? (t : Table κ ν) (key : κ) : Option ν :=
  (t.rows.find? fun row ↦ row.1 = key).map Prod.snd

/-- Write the row of a key. -/
def set (t : Table κ ν) (key : κ) (value : ν) : Table κ ν where
  rows := t.rows.filter (fun row ↦ row.1 < key) ++
    (key, value) :: t.rows.filter (fun row ↦ key < row.1)
  sorted := by
    have hlow : ∀ row ∈ t.rows.filter (fun row ↦ row.1 < key), row.1 < key := fun row hrow ↦ by
      simpa using (List.mem_filter.mp hrow).2
    have hhigh : ∀ row ∈ t.rows.filter (fun row ↦ key < row.1), key < row.1 := fun row hrow ↦ by
      simpa using (List.mem_filter.mp hrow).2
    refine List.pairwise_append.mpr ⟨t.sorted.filter _, ?_, ?_⟩
    · exact List.pairwise_cons.mpr ⟨hhigh, t.sorted.filter _⟩
    · intro row hrow row' hrow'
      rcases List.mem_cons.mp hrow' with rfl | hrow'
      · exact hlow row hrow
      · exact (hlow row hrow).trans (hhigh row' hrow')

/-- Rewrite the row of a key, when there is one. -/
def modify (t : Table κ ν) (key : κ) (f : ν → ν) : Table κ ν :=
  match t.get? key with
  | some value => t.set key (f value)
  | none => t

/-- Keep the rows that pass a test. -/
def filter (t : Table κ ν) (keep : κ → ν → Bool) : Table κ ν where
  rows := t.rows.filter fun row ↦ keep row.1 row.2
  sorted := t.sorted.filter _

/-- The keys of the rows, in order. -/
def keys (t : Table κ ν) : List κ := t.rows.map Prod.fst

/-- The rows a function gives some keys. -/
def ofKeys (keys : List κ) (f : κ → Option ν) : Table κ ν :=
  keys.foldr (fun key t ↦ match f key with
    | some value => t.set key value
    | none => t) empty

/-- The values of the rows, in key order. -/
def values (t : Table κ ν) : List ν := t.rows.map Prod.snd

variable {t t' : Table κ ν} {key key' : κ} {value : ν}

@[simp] theorem get?_empty : (∅ : Table κ ν).get? key = none := rfl

@[simp] theorem values_empty : (∅ : Table κ ν).values = [] := rfl

theorem mem_rows_iff : (key, value) ∈ t.rows ↔ t.get? key = some value := by
  have hsorted := t.sorted
  unfold get?
  generalize t.rows = rows at hsorted
  induction rows with
  | nil => simp
  | cons row rows ih =>
    obtain ⟨hfirst, hrest⟩ := List.pairwise_cons.mp hsorted
    by_cases hrow : row.1 = key
    · subst hrow
      have hnot : (row.1, value) ∉ rows := fun hmem ↦ lt_irrefl _ (hfirst (row.1, value) hmem)
      simp [hnot, Prod.ext_iff, eq_comm]
    · have hne : (key, value) ≠ row := fun h ↦ hrow (h ▸ rfl)
      simp [hrow, hne, ih hrest]

theorem mem_values_iff : value ∈ t.values ↔ ∃ key, t.get? key = some value := by
  simp only [values, List.mem_map, Prod.exists, exists_eq_right, mem_rows_iff]

theorem mem_keys_iff : key ∈ t.keys ↔ t.get? key ≠ none := by
  simp only [keys, List.mem_map, Prod.exists, mem_rows_iff, ne_eq, Option.ne_none_iff_exists']
  constructor
  · rintro ⟨_, value, hvalue, rfl⟩
    exact ⟨value, hvalue⟩
  · rintro ⟨value, hvalue⟩
    exact ⟨key, value, hvalue, rfl⟩

/-- Tables with the same row for every key are equal. -/
theorem ext_get? (h : ∀ key, t.get? key = t'.get? key) : t = t' := by
  have hmem : ∀ row, row ∈ t.rows ↔ row ∈ t'.rows := fun ⟨key, value⟩ ↦ by
    rw [mem_rows_iff, mem_rows_iff, h]
  have hnodup : ∀ t : Table κ ν, t.rows.Nodup := fun t ↦
    t.sorted.imp fun {a b} (hlt : a.1 < b.1) (heq : a = b) ↦ lt_irrefl _ (heq ▸ hlt)
  have hperm : t.rows.Perm t'.rows :=
    (List.perm_ext_iff_of_nodup (hnodup t) (hnodup t')).mpr hmem
  have hrows : t.rows = t'.rows := hperm.eq_of_pairwise
    (fun _ _ _ _ hab hba ↦ absurd hba (lt_asymm hab)) t.sorted t'.sorted
  cases t
  cases t'
  simpa using hrows

theorem get?_set : (t.set key value).get? key' = if key' = key then some value else t.get? key' := by
  refine Option.ext fun row ↦ ?_
  rw [← Option.mem_def, Option.mem_def, ← mem_rows_iff]
  simp only [set, List.mem_append, List.mem_cons, List.mem_filter, mem_rows_iff, Prod.mk.injEq,
    decide_eq_true_eq]
  by_cases hkey : key' = key
  · subst hkey
    simp [eq_comm]
  · have hside : key' < key ∨ key < key' := lt_or_gt_of_ne hkey
    simp only [hkey, false_and, false_or, ← and_or_left, hside, and_true, if_false]

@[simp] theorem get?_set_self : (t.set key value).get? key = some value := by
  simp [get?_set]

theorem get?_set_of_ne (h : key' ≠ key) : (t.set key value).get? key' = t.get? key' := by
  simp [get?_set, h]

/-- A row of a table one row of which was written was there, or is the one that was written. -/
theorem mem_rows_set {value' : ν} (h : (key', value') ∈ (t.set key value).rows) :
    key' = key ∧ value' = value ∨ (key', value') ∈ t.rows := by
  rw [mem_rows_iff, get?_set] at h
  split at h
  · next heq => exact .inl ⟨heq, (Option.some.inj h).symm⟩
  · exact .inr (mem_rows_iff.mpr h)

theorem mem_values_set {value' : ν} (h : value' ∈ (t.set key value).values) :
    value' = value ∨ value' ∈ t.values := by
  obtain ⟨key', hkey⟩ := mem_values_iff.mp h
  rcases mem_rows_set (mem_rows_iff.mpr hkey) with ⟨-, heq⟩ | hrow
  · exact .inl heq
  · exact .inr (mem_values_iff.mpr ⟨key', mem_rows_iff.mp hrow⟩)

theorem get?_ofKeys {keys : List κ} {f : κ → Option ν} :
    (ofKeys keys f).get? key = if key ∈ keys then f key else none := by
  induction keys with
  | nil => rfl
  | cons first keys ih =>
    have hcons : (ofKeys (first :: keys) f).get? key =
        if key = first then f key else (ofKeys keys f).get? key := by
      change (match f first with
        | some value => (ofKeys keys f).set first value
        | none => ofKeys keys f).get? key = _
      by_cases hkey : key = first
      · subst hkey
        cases hvalue : f key with
        | some value => simp
        | none => simp [ih, hvalue]
      · rw [if_neg hkey]
        cases f first with
        | some value => exact get?_set_of_ne hkey
        | none => rfl
    rw [hcons, ih]
    by_cases hkey : key = first
    · simp [hkey]
    · simp [hkey]

theorem get?_filter {keep : κ → ν → Bool} :
    (t.filter keep).get? key = (t.get? key).filter (keep key) := by
  refine Option.ext fun row ↦ ?_
  rw [← mem_rows_iff, Option.filter_eq_some_iff, ← mem_rows_iff]
  exact List.mem_filter

theorem get?_filter_eq_some {keep : κ → ν → Bool} :
    (t.filter keep).get? key = some value ↔ t.get? key = some value ∧ keep key value = true := by
  rw [get?_filter, Option.filter_eq_some_iff]

@[simp] theorem get?_modify_self {f : ν → ν} :
    (t.modify key f).get? key = (t.get? key).map f := by
  unfold modify
  split <;> simp_all

theorem get?_modify_of_ne {f : ν → ν} (h : key' ≠ key) :
    (t.modify key f).get? key' = t.get? key' := by
  unfold modify
  split
  · exact get?_set_of_ne h
  · rfl

/-- A row of a table one row of which was rewritten was there, and was or was not rewritten. -/
theorem mem_rows_modify {f : ν → ν} (h : (key', value) ∈ (t.modify key f).rows) :
    ∃ old, (key', old) ∈ t.rows ∧ (value = old ∨ value = f old) := by
  rw [mem_rows_iff] at h
  by_cases hkey : key' = key
  · subst hkey
    rw [get?_modify_self, Option.map_eq_some_iff] at h
    obtain ⟨old, hold, rfl⟩ := h
    exact ⟨old, mem_rows_iff.mpr hold, .inr rfl⟩
  · rw [get?_modify_of_ne hkey] at h
    exact ⟨value, mem_rows_iff.mpr h, .inl rfl⟩

end Table

end Nodal.Foundation
