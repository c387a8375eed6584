import Mathlib.Data.List.Nodup
import Mathlib.Data.List.Infix
import Mathlib.Data.List.Perm.Subperm
import Mathlib.Data.List.Sort
import Mathlib.Data.String.Basic
import Nodal.Foundation.Walk

/-!
# Directory trees

A tree lists its entries by the path each is at, and every entry is in a directory of the tree
(`FileTree.rooted`). Names are read sorted. A walk that starts at the root and goes down into the
directories a rule opens meets each of those once, and no other (`Explored.mem_seen_iff`).
-/

set_option autoImplicit false

namespace Nodal.Foundation

/-- A path inside a tree, by its components. -/
abbrev TreePath := List String

/-- What is at a path. -/
inductive Entry (κ : Type)
  | directory
  | file (content : κ)
  | symlink (target : String)
  | other
  deriving DecidableEq, Repr

def Entry.isDirectory {κ : Type} : Entry κ → Bool
  | .directory => true
  | .file _ | .symlink _ | .other => false

/-- Entries by their paths. -/
structure FileTree (κ : Type) where
  rows : List (TreePath × Entry κ)
  nodup : (rows.map Prod.fst).Nodup
  rooted : ∀ row ∈ rows, row.1 ≠ [] ∧
    (row.1.dropLast = [] ∨ (row.1.dropLast, Entry.directory) ∈ rows)

namespace FileTree

variable {κ : Type} (tree : FileTree κ)

/-- What is at a path. -/
def get? (path : TreePath) : Option (Entry κ) :=
  (tree.rows.find? (·.1 = path)).map Prod.snd

/-- The names in a directory, sorted. -/
def names (directory : TreePath) : List String :=
  ((tree.rows.filter fun row ↦ row.1.dropLast = directory).filterMap fun row ↦
    row.1.getLast?).insertionSort (· ≤ ·)

/-- Take a path away with everything under it. -/
def remove (path : TreePath) : FileTree κ where
  rows := tree.rows.filter fun row ↦ !path.isPrefixOf row.1
  nodup := tree.nodup.sublist (List.filter_sublist.map _)
  rooted row hrow := by
    obtain ⟨hmem, hkept⟩ := List.mem_filter.mp hrow
    obtain ⟨hne, hparent⟩ := tree.rooted row hmem
    refine ⟨hne, hparent.imp_right fun hdirectory ↦ List.mem_filter.mpr ⟨hdirectory, ?_⟩⟩
    simp only [Bool.not_eq_true', Bool.eq_false_iff, ne_eq, List.isPrefixOf_iff_prefix] at hkept ⊢
    exact fun hstarts ↦ hkept (hstarts.trans (List.dropLast_prefix row.1))

variable {tree} {path above : TreePath} {entry : Entry κ}

theorem mem_rows_iff : (path, entry) ∈ tree.rows ↔ tree.get? path = some entry := by
  have hnodup := tree.nodup
  unfold get?
  generalize tree.rows = rows at hnodup
  induction rows with
  | nil => simp
  | cons row rows ih =>
    rw [List.map_cons, List.nodup_cons] at hnodup
    by_cases hrow : row.1 = path
    · subst hrow
      have hnot : (row.1, entry) ∉ rows := fun hmem ↦ hnodup.1 (List.mem_map.mpr ⟨_, hmem, rfl⟩)
      simp [hnot, Prod.ext_iff, eq_comm]
    · have hne : (path, entry) ≠ row := fun h ↦ hrow (h ▸ rfl)
      simp [hrow, hne, ih hnodup.2]

theorem ne_nil_of_get? (h : tree.get? path = some entry) : path ≠ [] :=
  (tree.rooted _ (mem_rows_iff.mpr h)).1

/-- An entry is at the root or in a directory. -/
theorem parent_of_get? (h : tree.get? path = some entry) :
    path.dropLast = [] ∨ tree.get? path.dropLast = some .directory :=
  (tree.rooted _ (mem_rows_iff.mpr h)).2.imp_right mem_rows_iff.mp

/-- What is above an entry is a directory. -/
theorem directory_of_prefix (h : tree.get? path = some entry) (habove : above <+: path)
    (hne : above ≠ []) (hproper : above ≠ path) : tree.get? above = some .directory := by
  induction path using List.reverseRecOn generalizing entry with
  | nil => exact absurd (List.prefix_nil.mp habove) hne
  | append_singleton path name ih =>
    rcases List.prefix_concat_iff.mp habove with heq | hstarts
    · exact absurd heq hproper
    · have hparent := parent_of_get? h
      rw [List.dropLast_concat] at hparent
      rcases hparent with hnil | hdirectory
      · exact absurd (List.prefix_nil.mp (hnil ▸ hstarts)) hne
      · by_cases hsame : above = path
        · exact hsame ▸ hdirectory
        · exact ih hdirectory hstarts hsame

theorem get?_remove : (tree.remove above).get? path =
    if above <+: path then none else tree.get? path := by
  refine Option.ext fun entry ↦ ?_
  rw [← mem_rows_iff]
  simp only [remove, List.mem_filter, mem_rows_iff, Bool.not_eq_true', Bool.eq_false_iff, ne_eq,
    List.isPrefixOf_iff_prefix]
  split <;> simp [*]

theorem mem_names {directory : TreePath} {name : String} :
    name ∈ tree.names directory ↔ (tree.get? (directory ++ [name])).isSome = true := by
  simp only [names, List.mem_insertionSort, List.mem_filterMap, List.mem_filter, decide_eq_true_eq,
    Option.isSome_iff_exists, ← mem_rows_iff]
  constructor
  · rintro ⟨⟨path, entry⟩, ⟨hmem, rfl⟩, hname⟩
    refine ⟨entry, ?_⟩
    rwa [List.dropLast_append_getLast? name (Option.mem_def.mpr hname)]
  · rintro ⟨entry, hmem⟩
    exact ⟨_, ⟨hmem, by simp⟩, by simp⟩

/-- The paths in a directory. -/
theorem mem_map_names {directory : TreePath} :
    path ∈ (tree.names directory).map (directory ++ [·]) ↔
      path.dropLast = directory ∧ (tree.get? path).isSome = true := by
  simp only [List.mem_map, mem_names]
  constructor
  · rintro ⟨name, hsome, rfl⟩
    exact ⟨by simp, hsome⟩
  · rintro ⟨rfl, hsome⟩
    obtain ⟨entry, hentry⟩ := Option.isSome_iff_exists.mp hsome
    have hsplit := List.dropLast_append_getLast (ne_nil_of_get? hentry)
    exact ⟨_, by rwa [hsplit], hsplit⟩

theorem nodup_names {directory : TreePath} : (tree.names directory).Nodup := by
  refine (List.perm_insertionSort _ _).nodup_iff.mpr ?_
  have hnodup : ((tree.rows.filter fun row ↦ row.1.dropLast = directory).map Prod.fst).Nodup :=
    tree.nodup.sublist (List.filter_sublist.map _)
  rw [List.Nodup, List.pairwise_filterMap]
  rw [List.Nodup, List.pairwise_map] at hnodup
  refine hnodup.imp_of_mem fun {row row'} hrow hrow' hne name hname name' hname' heq ↦ hne ?_
  have hin := of_decide_eq_true (List.mem_filter.mp hrow).2
  have hin' := of_decide_eq_true (List.mem_filter.mp hrow').2
  rw [← List.dropLast_append_getLast? name (Option.mem_def.mpr hname),
    ← List.dropLast_append_getLast? name' (Option.mem_def.mpr hname'), hin, hin', heq]

/-- Whether a path is a directory of the tree. -/
def isDirectory (tree : FileTree κ) (path : TreePath) : Bool :=
  (tree.get? path).any Entry.isDirectory

theorem isDirectory_iff : tree.isDirectory path = true ↔ tree.get? path = some .directory := by
  unfold isDirectory
  rw [Option.any_eq_true]
  constructor
  · rintro ⟨entry, hentry, hdirectory⟩
    cases entry with
    | directory => exact hentry
    | file _ => cases hdirectory
    | symlink _ => cases hdirectory
    | other => cases hdirectory
  · exact fun h ↦ ⟨.directory, h, rfl⟩

theorem get?_eq_none_iff : tree.get? path = none ↔ path ∉ tree.rows.map Prod.fst := by
  rw [Option.eq_none_iff_forall_ne_some, List.mem_map]
  simp only [ne_eq, ← mem_rows_iff, Prod.exists, exists_and_right, exists_eq_right, not_exists]

/-- Make one entry: its place is free, and it is at the root or in a directory. -/
def make (tree : FileTree κ) (path : TreePath) (entry : Entry κ) : Option (FileTree κ) :=
  if h : path ≠ [] ∧ tree.get? path = none ∧
      (path.dropLast = [] ∨ tree.isDirectory path.dropLast = true) then
    some {
      rows := tree.rows ++ [(path, entry)]
      nodup := by
        rw [List.map_append, List.nodup_append]
        refine ⟨tree.nodup, by simp, fun held hheld new hsingle heq ↦ ?_⟩
        obtain rfl : new = path := List.mem_singleton.mp hsingle
        exact get?_eq_none_iff.mp h.2.1 (heq ▸ hheld)
      rooted := by
        intro row hrow
        rcases List.mem_append.mp hrow with hold | hnew
        · exact (tree.rooted row hold).imp_right fun hin ↦ hin.imp_right (List.mem_append_left _)
        · obtain rfl := List.mem_singleton.mp hnew
          refine ⟨h.1, h.2.2.imp_right fun hin ↦ List.mem_append_left _ ?_⟩
          exact mem_rows_iff.mpr (isDirectory_iff.mp hin) }
  else none

/-- What was made is there, where nothing was, and the rest is as it was. -/
theorem get?_make {made : FileTree κ} {path' : TreePath} (h : tree.make path entry = some made) :
    tree.get? path = none ∧
      made.get? path' = if path' = path then some entry else tree.get? path' := by
  unfold make at h
  split at h
  · next hfits =>
    obtain rfl := Option.some.inj h
    refine ⟨hfits.2.1, Option.ext fun found ↦ ?_⟩
    rw [← mem_rows_iff]
    simp only [List.mem_append, List.mem_singleton, Prod.mk.injEq, mem_rows_iff]
    split
    · next heq => simp [heq, hfits.2.1, eq_comm]
    · next hne => simp [hne]
  · cases h

/-- The tree with nothing in it. -/
def empty : FileTree κ := ⟨[], by simp, by simp⟩

@[simp] theorem get?_empty : (empty : FileTree κ).get? path = none := rfl

end FileTree

/-! ### A walk down from the root -/

/-- A path a rule opens with everything above it. -/
def Open (descend : TreePath → Prop) (path : TreePath) : Prop :=
  ∀ above, above ≠ [] → above <+: path → descend above

theorem open_nil {descend : TreePath → Prop} : Open descend [] :=
  fun _ hne hstarts ↦ absurd (List.prefix_nil.mp hstarts) hne

theorem open_concat {descend : TreePath → Prop} {path : TreePath} {name : String} :
    Open descend (path ++ [name]) ↔ Open descend path ∧ descend (path ++ [name]) := by
  constructor
  · exact fun h ↦ ⟨fun above hne hstarts ↦ h above hne (hstarts.trans (List.prefix_append _ _)),
      h _ (by simp) (List.prefix_refl _)⟩
  · rintro ⟨hpath, hlast⟩ above hne hstarts
    rcases List.prefix_concat_iff.mp hstarts with rfl | hstarts
    · exact hlast
    · exact hpath above hne hstarts

/-- What a walk has met of a tree: the root and the directories a rule opens, each once, and every one
of those in a directory that was visited. -/
structure Explored {κ : Type} (tree : FileTree κ) (descend : TreePath → Prop)
    (seen pending : List TreePath) : Prop where
  nodup : (seen ++ pending).Nodup
  root : [] ∈ seen ++ pending
  sound : ∀ path ∈ seen ++ pending,
    path = [] ∨ tree.get? path = some .directory ∧ path.dropLast ∈ seen ∧ Open descend path
  complete : ∀ directory ∈ seen, ∀ name, tree.get? (directory ++ [name]) = some .directory →
    descend (directory ++ [name]) → directory ++ [name] ∈ seen ++ pending

namespace Explored

variable {κ : Type} {tree : FileTree κ} {descend : TreePath → Prop}
  {seen rest next : List TreePath} {first : TreePath}

theorem start : Explored tree descend [] [[]] where
  nodup := by simp
  root := by simp
  sound := by simp
  complete := by simp

theorem first_not_mem_seen (h : Explored tree descend seen (first :: rest)) : first ∉ seen := by
  have hnodup := h.nodup
  rw [List.nodup_append] at hnodup
  exact fun hseen ↦ hnodup.2.2 first hseen first List.mem_cons_self rfl

/-- A visit that goes on to the directories under a path the rule opens keeps what was met. -/
theorem step (h : Explored tree descend seen (first :: rest)) (hnext : next.Nodup)
    (hmem : ∀ path, path ∈ next ↔ path.dropLast = first ∧
      tree.get? path = some .directory ∧ descend path) :
    Explored tree descend (first :: seen) (next.reverse ++ rest) := by
  have hopen : Open descend first := by
    rcases h.sound first (by simp) with rfl | ⟨_, _, hopen⟩
    · exact open_nil
    · exact hopen
  have hfirst : first ∉ seen := h.first_not_mem_seen
  have hperm : (first :: seen ++ (next.reverse ++ rest)).Perm (next ++ (seen ++ first :: rest)) := by
    refine ((List.perm_append_comm_assoc seen next.reverse rest).cons first).trans ?_
    exact List.perm_middle.symm.trans ((List.reverse_perm next).append List.perm_middle.symm)
  have hmet (path : TreePath) : path ∈ first :: seen ++ (next.reverse ++ rest) ↔
      path ∈ next ∨ path ∈ seen ++ first :: rest := by
    rw [hperm.mem_iff, List.mem_append]
  refine ⟨?_, (hmet _).mpr (Or.inr h.root), ?_, ?_⟩
  · refine hperm.nodup_iff.mpr (List.nodup_append.mpr ⟨hnext, h.nodup, ?_⟩)
    rintro path hpath path' hpath' rfl
    obtain ⟨rfl, hdirectory, _⟩ := (hmem path).mp hpath
    -- what was met before is under what was visited before, and this is not
    rcases h.sound _ hpath' with hnil | ⟨_, hparent, _⟩
    · exact absurd hnil (FileTree.ne_nil_of_get? hdirectory)
    · exact hfirst hparent
  · intro path hpath
    rcases (hmet path).mp hpath with hnew | hold
    · obtain ⟨rfl, hdirectory, hdescend⟩ := (hmem path).mp hnew
      have hsplit := List.dropLast_append_getLast (FileTree.ne_nil_of_get? hdirectory)
      refine Or.inr ⟨hdirectory, List.mem_cons_self, ?_⟩
      rw [← hsplit] at hdescend ⊢
      exact open_concat.mpr ⟨hopen, hdescend⟩
    · exact (h.sound path hold).imp_right fun ⟨hdirectory, hparent, hdescend⟩ ↦
        ⟨hdirectory, List.mem_cons_of_mem _ hparent, hdescend⟩
  · intro directory hdirectory name hentry hdescend
    refine (hmet _).mpr ?_
    rcases List.mem_cons.mp hdirectory with rfl | hseen
    · exact Or.inl ((hmem _).mpr ⟨by simp, hentry, hdescend⟩)
    · exact Or.inr (h.complete directory hseen name hentry hdescend)

/-- No more is ever met than the tree has entries, and its root. -/
theorem length_le (h : Explored tree descend seen rest) :
    seen.length + rest.length ≤ tree.rows.length + 1 := by
  have hsubset : seen ++ rest ⊆ [] :: tree.rows.map Prod.fst := by
    intro path hpath
    rcases h.sound path hpath with rfl | ⟨hdirectory, _⟩
    · exact List.mem_cons_self
    · exact List.mem_cons_of_mem _ (List.mem_map.mpr ⟨_, FileTree.mem_rows_iff.mpr hdirectory, rfl⟩)
  have hlength := (h.nodup.subperm hsubset).length_le
  simpa using hlength

/-- A walk that left nothing visited the root and each directory the rule opens. -/
theorem mem_seen_iff (h : Explored tree descend seen []) {path : TreePath} :
    path ∈ seen ↔ path = [] ∨ tree.get? path = some .directory ∧ Open descend path := by
  have hroot : [] ∈ seen := by simpa using h.root
  constructor
  · intro hseen
    exact (h.sound path (by simpa using hseen)).imp_right fun ⟨hdirectory, _, hopen⟩ ↦
      ⟨hdirectory, hopen⟩
  · rintro (rfl | ⟨hdirectory, hopen⟩)
    · exact hroot
    · induction path using List.reverseRecOn with
      | nil => exact hroot
      | append_singleton path name ih =>
        obtain ⟨habove, hlast⟩ := open_concat.mp hopen
        have hparent : path ∈ seen := by
          have hin := FileTree.parent_of_get? hdirectory
          rw [List.dropLast_concat] at hin
          rcases hin with rfl | hin
          · exact hroot
          · exact ih hin habove
        simpa using h.complete path hparent name hdirectory hlast

end Explored

end Nodal.Foundation
