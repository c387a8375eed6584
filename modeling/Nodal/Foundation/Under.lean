import Nodal.Foundation.FileTree

/-!
# What is under a directory

A directory read to the bottom: each of its entries, and what is under each that is a directory. What is
read is what the tree has under the path, each entry once (`perm_under`).
-/

set_option autoImplicit false

namespace Nodal.Foundation.FileTree

variable {κ : Type} {tree : FileTree κ} {path directory : TreePath} {entry : Entry κ}

/-- The entries of one directory. -/
def children (tree : FileTree κ) (directory : TreePath) : List (TreePath × Entry κ) :=
  (tree.names directory).filterMap fun name ↦
    (tree.get? (directory ++ [name])).map fun entry ↦ (directory ++ [name], entry)

/-- What is under a directory, so many directories deep. -/
def underTo (tree : FileTree κ) : ℕ → TreePath → List (TreePath × Entry κ)
  | 0, _ => []
  | depth + 1, directory => (tree.children directory).flatMap fun row ↦
      row :: if row.2.isDirectory then underTo tree depth row.1 else []

/-- The length of the longest path. -/
def height (tree : FileTree κ) : ℕ := tree.rows.foldr (fun row most ↦ max row.1.length most) 0

/-- What is under a directory. -/
def under (tree : FileTree κ) (directory : TreePath) : List (TreePath × Entry κ) :=
  tree.underTo tree.height directory

theorem mem_children : (path, entry) ∈ tree.children directory ↔
    tree.get? path = some entry ∧ path.dropLast = directory := by
  unfold children
  simp only [List.mem_filterMap, Option.map_eq_some_iff, Prod.mk.injEq]
  constructor
  · rintro ⟨name, hname, found, hfound, rfl, rfl⟩
    exact ⟨hfound, List.dropLast_concat⟩
  · rintro ⟨hentry, rfl⟩
    obtain ⟨name, hname, hpath⟩ := List.mem_map.mp
      (mem_map_names.mpr ⟨rfl, Option.isSome_iff_exists.mpr ⟨entry, hentry⟩⟩)
    exact ⟨name, hname, entry, by rw [hpath, hentry], hpath, rfl⟩

theorem length_of_dropLast (h : tree.get? path = some entry) (hin : path.dropLast = directory) :
    directory <+: path ∧ path.length = directory.length + 1 := by
  have hne := ne_nil_of_get? h
  have hpos := List.length_pos_iff.mpr hne
  subst hin
  refine ⟨List.dropLast_prefix path, ?_⟩
  rw [List.length_dropLast]
  omega

theorem mem_underTo {depth : ℕ} : (path, entry) ∈ tree.underTo depth directory ↔
    tree.get? path = some entry ∧ directory <+: path ∧ path ≠ directory ∧
      path.length ≤ directory.length + depth := by
  induction depth generalizing directory with
  | zero =>
    simp only [underTo, List.not_mem_nil, false_iff]
    intro ⟨_, hunder, hne, hle⟩
    exact hne (hunder.eq_of_length (by have := hunder.length_le; omega)).symm
  | succ depth ih =>
    simp only [underTo, List.mem_flatMap]
    constructor
    · rintro ⟨⟨child, found⟩, hchild, hmem⟩
      obtain ⟨hfound, hin⟩ := mem_children.mp hchild
      obtain ⟨hunder, hlength⟩ := length_of_dropLast hfound hin
      rcases List.mem_cons.mp hmem with heq | hdeep
      · obtain ⟨rfl, rfl⟩ := Prod.mk.inj heq
        refine ⟨hfound, hunder, ?_, by omega⟩
        rintro rfl
        omega
      · split_ifs at hdeep
        · obtain ⟨hentry, hbelow, hne, hle⟩ := ih.mp hdeep
          have hle' := hbelow.length_le
          refine ⟨hentry, hunder.trans hbelow, ?_, by dsimp only at hle; omega⟩
          rintro rfl
          dsimp only at hle'
          omega
        · cases hdeep
    · intro ⟨hentry, ⟨more, hmore⟩, hne, hle⟩
      cases more with
      | nil => exact absurd (by simpa using hmore.symm) hne
      | cons name more =>
        subst hmore
        have hbelow : directory ++ [name] <+: directory ++ name :: more :=
          ⟨more, by rw [List.append_assoc, List.singleton_append]⟩
        by_cases hlast : more = []
        · subst hlast
          refine ⟨(_, entry), mem_children.mpr ⟨hentry, List.dropLast_concat⟩, List.mem_cons_self⟩
        · have hproper : directory ++ [name] ≠ directory ++ name :: more := by
            simpa using Ne.symm hlast
          have habove := directory_of_prefix hentry hbelow (by simp) hproper
          refine ⟨(_, .directory), mem_children.mpr ⟨habove, List.dropLast_concat⟩,
            List.mem_cons_of_mem _ ?_⟩
          show _ ∈ tree.underTo depth (directory ++ [name])
          refine ih.mpr ⟨hentry, hbelow, hproper.symm, ?_⟩
          simp only [List.length_append, List.length_cons, List.length_nil] at hle ⊢
          omega

theorem nodup_children : (tree.children directory).Nodup := by
  have hnames : (tree.names directory).Nodup := nodup_names
  refine hnames.filterMap ?_
  intro name name' row hrow hrow'
  obtain ⟨_, _, rfl⟩ := Option.map_eq_some_iff.mp hrow
  obtain ⟨_, _, heq⟩ := Option.map_eq_some_iff.mp hrow'
  have hpath := congrArg Prod.fst heq
  simpa using hpath.symm

theorem nodup_underTo {depth : ℕ} : (tree.underTo depth directory).Nodup := by
  induction depth generalizing directory with
  | zero => exact List.nodup_nil
  | succ depth ih =>
    refine List.nodup_flatMap.mpr ⟨fun row _ ↦ ?_, ?_⟩
    · split_ifs
      · refine List.nodup_cons.mpr ⟨fun hmem ↦ ?_, ih⟩
        exact (mem_underTo.mp hmem).2.2.1 rfl
      · exact List.nodup_singleton row
    · refine nodup_children.imp_of_mem fun {first second} hfirst hsecond hne ↦ ?_
      have hbelow {row : TreePath × Entry κ} {path : TreePath} {entry : Entry κ}
          (hmem : (path, entry) ∈ row :: if row.2.isDirectory then tree.underTo depth row.1 else []) :
          row.1 <+: path := by
        rcases List.mem_cons.mp hmem with rfl | hdeep
        · exact List.prefix_rfl
        · split_ifs at hdeep
          · exact (mem_underTo.mp hdeep).2.1
          · cases hdeep
      rintro ⟨path, entry⟩ hin hin'
      obtain ⟨hget, hdirectory⟩ := mem_children.mp hfirst
      obtain ⟨hget', hdirectory'⟩ := mem_children.mp hsecond
      have hlength := (length_of_dropLast hget hdirectory).2.trans
        (length_of_dropLast hget' hdirectory').2.symm
      have hsame : first.1 = second.1 :=
        (List.prefix_of_prefix_length_le (hbelow hin) (hbelow hin') hlength.le).eq_of_length hlength
      exact hne (Prod.ext hsame (Option.some.inj (hget.symm.trans ((congrArg _ hsame).trans hget'))))

theorem length_le_height (h : tree.get? path = some entry) : path.length ≤ tree.height := by
  have hmem := mem_rows_iff.mpr h
  unfold height
  generalize tree.rows = rows at hmem
  induction rows with
  | nil => cases hmem
  | cons row rows ih =>
    rw [List.foldr_cons]
    rcases List.mem_cons.mp hmem with rfl | hmem
    · exact le_max_left _ _
    · exact (ih hmem).trans (le_max_right _ _)

theorem mem_under : (path, entry) ∈ tree.under directory ↔
    tree.get? path = some entry ∧ directory <+: path ∧ path ≠ directory := by
  rw [under, mem_underTo]
  constructor
  · exact fun ⟨hentry, hunder, hne, _⟩ ↦ ⟨hentry, hunder, hne⟩
  · intro ⟨hentry, hunder, hne⟩
    have hle := length_le_height hentry
    exact ⟨hentry, hunder, hne, by omega⟩

theorem nodup_rows : tree.rows.Nodup := tree.nodup.of_map _

/-- Reading a directory to the bottom meets each entry under it once, and no other. -/
theorem perm_under : (tree.under directory).Perm
    (tree.rows.filter fun row ↦ directory.isPrefixOf row.1 && row.1 ≠ directory) := by
  refine (List.perm_ext_iff_of_nodup nodup_underTo (nodup_rows.filter _)).mpr ?_
  rintro ⟨path, entry⟩
  rw [← under, mem_under, List.mem_filter, mem_rows_iff]
  simp

end Nodal.Foundation.FileTree
