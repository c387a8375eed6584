import Mathlib.Data.List.Basic
import Mathlib.Tactic.Common

/-!
# Directories that carry the times they were written

An entry carries the time it was last written, and a directory the time an entry of it was last made,
replaced or removed. One edit of a tree either changes nothing or leaves its own time somewhere in the
tree (`edit_cases`), so the newest of the times below a directory tells whether anything under it was
written after some moment.
-/

set_option autoImplicit false

namespace Nodal.Foundation.Dated

/-- Files and directories, each with the time it was last written. -/
inductive DirTree (κ : Type)
  | file (time : ℕ) (content : κ)
  | directory (time : ℕ) (entries : List (String × DirTree κ))

/-- What is done in one directory. -/
inductive Edit (κ : Type)
  | put (name : String) (content : κ)
  | mkdir (name : String)
  | unlink (name : String)
  | rmdir (name : String)

variable {κ : Type}

/-- The content of a file, by the path to it. -/
def DirTree.get? : List String → DirTree κ → Option κ
  | [], .file _ content => some content
  | name :: rest, .directory _ entries => (entries.lookup name).bind (DirTree.get? rest)
  | _, _ => none

/-- The entries of a directory after an edit at some time, where the edit can be made. A file is put in
the place of the one that is there, and a directory is removed once it is empty. -/
def Edit.apply (now : ℕ) (entries : List (String × DirTree κ)) : Edit κ → Option (List (String × DirTree κ))
  | .put name content =>
    match entries.lookup name with
    | some (.directory _ _) => none
    | _ => some ((name, .file now content) :: entries.filter (·.1 ≠ name))
  | .mkdir name =>
    match entries.lookup name with
    | none => some ((name, .directory now []) :: entries)
    | some _ => none
  | .unlink name =>
    match entries.lookup name with
    | some (.file _ _) => some (entries.filter (·.1 ≠ name))
    | _ => none
  | .rmdir name =>
    match entries.lookup name with
    | some (.directory _ []) => some (entries.filter (·.1 ≠ name))
    | _ => none

/-- A tree after an edit in the directory a path leads to. -/
def DirTree.edit (now : ℕ) (edit : Edit κ) : List String → DirTree κ → DirTree κ
  | [], .directory time entries =>
    match edit.apply now entries with
    | some entries' => .directory now entries'
    | none => .directory time entries
  | name :: rest, .directory time entries =>
    .directory time (entries.map fun row ↦
      if row.1 = name then (row.1, DirTree.edit now edit rest row.2) else row)
  | _, .file time content => .file time content

mutual

/-- The times in a tree. -/
def DirTree.times : DirTree κ → List ℕ
  | .file time _ => [time]
  | .directory time entries => time :: timesOf entries

def timesOf : List (String × DirTree κ) → List ℕ
  | [] => []
  | (_, tree) :: rest => tree.times ++ timesOf rest

end

variable {now time t : ℕ} {e : Edit κ} {entries entries' : List (String × DirTree κ)} {path : List String}
  {tree : DirTree κ}

theorem timesOf_cons (row : String × DirTree κ) (rest : List (String × DirTree κ)) :
    timesOf (row :: rest) = row.2.times ++ timesOf rest := rfl

theorem mem_timesOf : t ∈ timesOf entries ↔ ∃ row ∈ entries, t ∈ row.2.times := by
  induction entries with
  | nil => exact ⟨fun h ↦ absurd h List.not_mem_nil, fun ⟨_, hrow, _⟩ ↦ absurd hrow List.not_mem_nil⟩
  | cons row rest ih => rw [timesOf_cons, List.mem_append, ih, List.exists_mem_cons_iff]

/-- The entries after an edit are entries from before, and one made at its time. -/
theorem apply_times (h : e.apply now entries = some entries') (ht : t ∈ timesOf entries') :
    t = now ∨ t ∈ timesOf entries := by
  have hkept : ∀ name, t ∈ timesOf (entries.filter (·.1 ≠ name)) → t ∈ timesOf entries := by
    intro name hfilter
    obtain ⟨row, hrow, hin⟩ := mem_timesOf.mp hfilter
    exact mem_timesOf.mpr ⟨row, (List.mem_filter.mp hrow).1, hin⟩
  cases e with
  | put name content =>
    simp only [Edit.apply] at h
    split at h
    · cases h
    · cases h
      rw [timesOf_cons, List.mem_append] at ht
      refine ht.imp (fun hfile ↦ ?_) (hkept name)
      simpa [DirTree.times] using hfile
  | mkdir name =>
    simp only [Edit.apply] at h
    split at h
    · cases h
      rw [timesOf_cons, List.mem_append] at ht
      refine ht.imp (fun hdirectory ↦ ?_) id
      simpa [DirTree.times, timesOf] using hdirectory
    · cases h
  | unlink name =>
    simp only [Edit.apply] at h
    split at h
    · cases h
      exact Or.inr (hkept name ht)
    · cases h
  | rmdir name =>
    simp only [Edit.apply] at h
    split at h
    · cases h
      exact Or.inr (hkept name ht)
    · cases h

/-- An edit changes nothing, or leaves its time in the tree. -/
theorem edit_cases (now : ℕ) (e : Edit κ) (path : List String) (tree : DirTree κ) :
    tree.edit now e path = tree ∨ now ∈ (tree.edit now e path).times := by
  induction path generalizing tree with
  | nil =>
    cases tree with
    | file time content => exact Or.inl rfl
    | directory time entries =>
      simp only [DirTree.edit]
      cases e.apply now entries with
      | none => exact Or.inl rfl
      | some entries' => exact Or.inr (by simp [DirTree.times])
  | cons name rest ih =>
    cases tree with
    | file time content => exact Or.inl rfl
    | directory time entries =>
      by_cases hchanged : ∃ row ∈ entries, row.1 = name ∧ now ∈ (row.2.edit now e rest).times
      · obtain ⟨row, hrow, hname, hnow⟩ := hchanged
        right
        rw [DirTree.edit, DirTree.times]
        refine List.mem_cons_of_mem _ (mem_timesOf.mpr ⟨_, List.mem_map_of_mem hrow, ?_⟩)
        rw [if_pos hname]
        exact hnow
      · left
        rw [DirTree.edit]
        refine congrArg _ ((List.map_congr_left fun row hrow ↦ ?_).trans (List.map_id entries))
        by_cases hname : row.1 = name
        · have hsame := (ih row.2).resolve_right fun hnow ↦ hchanged ⟨row, hrow, hname, hnow⟩
          rw [if_pos hname, hsame]
          rfl
        · rw [if_neg hname]
          rfl

/-- An edit adds no time but its own. -/
theorem times_edit (h : t ∈ (tree.edit now e path).times) : t = now ∨ t ∈ tree.times := by
  induction path generalizing tree with
  | nil =>
    cases tree with
    | file time content => exact Or.inr h
    | directory time entries =>
      simp only [DirTree.edit] at h
      cases happly : e.apply now entries with
      | none =>
        rw [happly] at h
        exact Or.inr h
      | some entries' =>
        rw [happly] at h
        rcases List.mem_cons.mp h with rfl | hin
        · exact Or.inl rfl
        · exact (apply_times happly hin).imp_right (List.mem_cons_of_mem _)
  | cons name rest ih =>
    cases tree with
    | file time content => exact Or.inr h
    | directory time entries =>
      rw [DirTree.edit, DirTree.times] at h
      rcases List.mem_cons.mp h with rfl | hin
      · exact Or.inr List.mem_cons_self
      · obtain ⟨row', hrow', hin⟩ := mem_timesOf.mp hin
        obtain ⟨row, hrow, rfl⟩ := List.mem_map.mp hrow'
        have hold : t ∈ row.2.times → t ∈ (DirTree.directory time entries).times := fun hin ↦
          List.mem_cons_of_mem _ (mem_timesOf.mpr ⟨row, hrow, hin⟩)
        by_cases hname : row.1 = name
        · rw [if_pos hname] at hin
          exact (ih hin).imp_right hold
        · rw [if_neg hname] at hin
          exact Or.inr (hold hin)

end Nodal.Foundation.Dated
