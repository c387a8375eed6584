import Nodal.Workspace.Clone

/-!
# What a home does about content that records the path it was made at

`workspace/relocate.rs`: one walk of the directories under a home, parents first. A directory whose
path ends with a name of the list is removed whole and is not gone into. A link to a directory is not
one.

The sweep ends after it has read each directory once, and what it removed is every directory a name
matches with all that is under it (`get?_relocate`), whatever that directory is.
-/

set_option autoImplicit false

namespace Nodal.Workspace

open Foundation

/-- What the relocator is called in a report. -/
def INVALIDATE : String := "invalidate"

/-- One cache a relocation removed. -/
structure Removal where
  path : TreePath
  reason : String
  deriving DecidableEq, Repr

/-- What a relocation did to one home. -/
structure Report where
  relocator : String
  /-- The path the content was made at. -/
  from' : String
  /-- The path it is at now. -/
  to' : String
  /-- What was removed, in the order it was found. -/
  removed : List Removal
  /-- How many directories were read to find them. -/
  examined : ℕ
  deriving DecidableEq, Repr

/-- Whether the relocation left the home as it found it. -/
def Report.changedNothing (report : Report) : Bool :=
  report.removed.isEmpty

variable {κ : Type}

/-- A home while it is swept. -/
structure Swept (κ : Type) where
  tree : FileTree κ
  removed : List Removal
  examined : ℕ

/-- The names of the directories in a directory, sorted. -/
def directoriesIn (tree : FileTree κ) (directory : TreePath) : List String :=
  (tree.names directory).filter fun name ↦ tree.isDirectory (directory ++ [name])

/-- Look at the directories of one directory: remove the ones a name matches, and go on to the rest. -/
def relocateIn (faults : Faults) (list : InvalidateCache) (directory : TreePath) :
    List String → Swept κ → Except Error (List TreePath × Swept κ)
  | [], swept => .ok ([], swept)
  | name :: rest, swept =>
    let relative := directory ++ [name]
    match list.matched relative with
    | some reason =>
      match faults.removes relative with
      | some why => .error (.io relative why)
      | none => relocateIn faults list directory rest ⟨swept.tree.remove relative,
          swept.removed ++ [⟨relative, reason⟩], swept.examined + 1⟩
    | none => do
      let (next, swept) ← relocateIn faults list directory rest
        { swept with examined := swept.examined + 1 }
      return (relative :: next, swept)

/-- Read one directory of the home as it is now. -/
def relocateOne (faults : Faults) (list : InvalidateCache) (directory : TreePath) (swept : Swept κ) :
    Except Error (List TreePath × Swept κ) :=
  match faults.reads directory with
  | some why => .error (.io directory why)
  | none => relocateIn faults list directory (directoriesIn swept.tree directory) swept

/-- Remove every cache that records the path it was made at, and report what went. -/
def relocate (faults : Faults) (list : InvalidateCache) (home : FileTree κ) (from' to' : String) :
    Except Error (FileTree κ × Report) := do
  let (_, swept) ← visiting (relocateOne faults list) (home.rows.length + 1) [[]] ⟨home, [], 0⟩
  return (swept.tree, ⟨INVALIDATE, from', to', swept.removed, swept.examined⟩)

/-! ### What a sweep removes -/

variable {faults : Faults} {list : InvalidateCache} {home : FileTree κ} {swept swept' : Swept κ}
  {path directory : TreePath}

/-- A directory no name matches. -/
def Spared (list : InvalidateCache) (path : TreePath) : Prop :=
  list.matched path = none

/-- The home is what it was, less what was removed and all that was under it. -/
def Cut (home : FileTree κ) (swept : Swept κ) : Prop :=
  ∀ path, swept.tree.get? path =
    if ∃ removal ∈ swept.removed, removal.path <+: path then none else home.get? path

theorem cut_remove {reason : String} {examined : ℕ} (h : Cut home swept) :
    Cut home ⟨swept.tree.remove path, swept.removed ++ [⟨path, reason⟩], examined⟩ := by
  intro path'
  simp only [FileTree.get?_remove, h path', List.mem_append, List.mem_singleton, or_and_right,
    exists_or, exists_eq_left]
  by_cases hunder : path <+: path'
  · simp [hunder]
  · simp [hunder]

/-- What looking at some directories of one directory does: it goes on to the ones no name matches,
and removes the others. -/
theorem relocateIn_eq_ok {names : List String} {next : List TreePath} (hcut : Cut home swept)
    (h : relocateIn faults list directory names swept = .ok (next, swept')) :
    Cut home swept' ∧
      next = (names.map (directory ++ [·])).filter (fun path ↦ (list.matched path).isNone) ∧
      swept'.removed.map Removal.path = swept.removed.map Removal.path ++
        (names.map (directory ++ [·])).filter (fun path ↦ (list.matched path).isSome) := by
  induction names generalizing swept next with
  | nil =>
    cases h
    simpa using hcut
  | cons name names ih =>
    unfold relocateIn at h
    dsimp only at h
    split at h
    · next reason hmatched =>
      split at h
      · cases h
      · obtain ⟨hcut', hnext, hremoved⟩ := ih (cut_remove hcut) h
        refine ⟨hcut', ?_, ?_⟩
        · simp [hnext, hmatched]
        · simp [hremoved, hmatched]
    · next hspared =>
      obtain ⟨⟨more, swept₁⟩, hrest, h⟩ := Git.bind_eq_ok h
      have hcut₁ : Cut home { swept with examined := swept.examined + 1 } := hcut
      cases h
      obtain ⟨hcut', hnext, hremoved⟩ := ih hcut₁ hrest
      refine ⟨hcut', ?_, ?_⟩
      · simp [hnext, hspared]
      · simp [hremoved, hspared]

/-- What a sweep has met, and what it removed there. -/
structure Sweeping (list : InvalidateCache) (home : FileTree κ) (seen pending : List TreePath)
    (swept : Swept κ) : Prop where
  explored : Explored home (Spared list) seen pending
  cut : Cut home swept
  removed : ∀ path, path ∈ swept.removed.map Removal.path ↔
    path.dropLast ∈ seen ∧ home.get? path = some .directory ∧ ¬Spared list path

/-- Nothing in a directory that is still to be visited was removed. -/
theorem Sweeping.untouched {seen rest : List TreePath} {first : TreePath}
    (h : Sweeping list home seen (first :: rest) swept) (hin : path.dropLast = first) :
    swept.tree.get? path = home.get? path := by
  rw [h.cut path, if_neg]
  rintro ⟨removal, hremoval, hancestor⟩
  obtain ⟨hparent, hdirectory, hmatched⟩ :=
    (h.removed removal.path).mp (List.mem_map_of_mem hremoval)
  have hne := FileTree.ne_nil_of_get? hdirectory
  have hfirst : first ∉ seen := h.explored.first_not_mem_seen
  rcases eq_or_ne removal.path path with heq | hproper
  · exact hfirst (hin ▸ heq ▸ hparent)
  · -- it is above the directory, and so is the directory, which the sweep went into
    have habove : removal.path <+: first := by
      have hsplit := List.dropLast_append_getLast
        (fun hnil ↦ hne (List.prefix_nil.mp (hnil ▸ hancestor)) : path ≠ [])
      rw [← hsplit, hin] at hancestor
      exact (List.prefix_concat_iff.mp hancestor).resolve_left fun heq ↦
        hproper (heq.trans (hin ▸ hsplit))
    rcases h.explored.sound first (by simp) with hnil | ⟨_, _, hopen⟩
    · exact hne (List.prefix_nil.mp (hnil ▸ habove))
    · exact hmatched (hopen _ hne habove)

theorem mem_map_directoriesIn {tree : FileTree κ} :
    path ∈ (directoriesIn tree directory).map (directory ++ [·]) ↔
      path.dropLast = directory ∧ tree.get? path = some .directory := by
  have hnames : path ∈ (tree.names directory).map (directory ++ [·]) ↔
      path.dropLast = directory ∧ (tree.get? path).isSome = true := FileTree.mem_map_names
  simp only [List.mem_map] at hnames
  simp only [directoriesIn, List.mem_map, List.mem_filter, FileTree.isDirectory_iff]
  constructor
  · rintro ⟨name, ⟨_, hdirectory⟩, rfl⟩
    exact ⟨by simp, hdirectory⟩
  · rintro ⟨hin, hdirectory⟩
    obtain ⟨name, hname, rfl⟩ := hnames.mpr ⟨hin, by simp [hdirectory]⟩
    exact ⟨name, ⟨hname, hdirectory⟩, rfl⟩

theorem relocateOne_keeps {seen rest next : List TreePath} {first : TreePath}
    (h : Sweeping list home seen (first :: rest) swept)
    (hvisit : relocateOne faults list first swept = .ok (next, swept')) :
    Sweeping list home (first :: seen) (next.reverse ++ rest) swept' := by
  unfold relocateOne at hvisit
  split at hvisit
  · cases hvisit
  · obtain ⟨hcut, rfl, hremoved⟩ := relocateIn_eq_ok h.cut hvisit
    have hnodup : ((directoriesIn swept.tree first).map (first ++ [·])).Nodup :=
      (FileTree.nodup_names.filter _).map fun name name' heq ↦ by simpa using heq
    have hread (path : TreePath) : path ∈ (directoriesIn swept.tree first).map (first ++ [·]) ↔
        path.dropLast = first ∧ home.get? path = some .directory := by
      rw [mem_map_directoriesIn]
      exact and_congr_right fun hin ↦ by rw [h.untouched hin]
    refine ⟨h.explored.step (hnodup.filter _) fun path ↦ ?_, hcut, fun path ↦ ?_⟩
    · rw [List.mem_filter, hread, and_assoc, Option.isNone_iff_eq_none]
      rfl
    · rw [hremoved, List.mem_append, h.removed, List.mem_filter, hread, List.mem_cons, or_and_right,
        or_comm, and_assoc, Spared, ← ne_eq, Option.ne_none_iff_isSome]

/-- A directory a name of the list matches. -/
def Matched (list : InvalidateCache) (home : FileTree κ) (path : TreePath) : Prop :=
  home.get? path = some .directory ∧ (list.matched path).isSome = true

/-- A sweep that left nothing to visit removed each matched directory, or one above it. -/
theorem Sweeping.reaches {seen : List TreePath} (h : Sweeping list home seen [] swept)
    (hmatched : Matched list home path) : ∃ removal ∈ swept.removed, removal.path <+: path := by
  induction hlength : path.length using Nat.strong_induction_on generalizing path with
  | h length ih =>
    obtain ⟨hdirectory, hname⟩ := hmatched
    by_cases hopen : Open (Spared list) path.dropLast
    · have hparent : path.dropLast ∈ seen :=
        h.explored.mem_seen_iff.mpr ((FileTree.parent_of_get? hdirectory).imp_right (⟨·, hopen⟩))
      have hremoved := (h.removed path).mpr
        ⟨hparent, hdirectory, Option.ne_none_iff_isSome.mpr hname⟩
      obtain ⟨removal, hremoval, rfl⟩ := List.mem_map.mp hremoved
      exact ⟨removal, hremoval, List.prefix_refl _⟩
    · -- a directory above it is matched, and is shorter
      simp only [Open, not_forall] at hopen
      obtain ⟨above, hne, hancestor, hspared⟩ := hopen
      have hshort : above.length < length := by
        have hle := hancestor.length_le
        rw [List.length_dropLast] at hle
        have hpos := List.length_pos_iff.mpr (FileTree.ne_nil_of_get? hdirectory)
        omega
      have hunder := hancestor.trans (List.dropLast_prefix path)
      have hproper : above ≠ path := fun heq ↦ by
        rw [heq, hlength] at hshort
        exact lt_irrefl _ hshort
      have habove : Matched list home above :=
        ⟨FileTree.directory_of_prefix hdirectory hunder hne hproper,
          Option.ne_none_iff_isSome.mp hspared⟩
      obtain ⟨removal, hremoval, hremoved⟩ := ih _ hshort habove rfl
      exact ⟨removal, hremoval, hremoved.trans hunder⟩

/-- A sweep that ended removed each directory a name matches with all that is under it, and left the
rest as it was. -/
theorem get?_relocate {after : FileTree κ} {report : Report} {from' to' : String} {entry : Entry κ}
    (h : relocate faults list home from' to' = .ok (after, report)) :
    after.get? path = some entry ↔ home.get? path = some entry ∧
      ∀ above, above <+: path → ¬Matched list home above := by
  obtain ⟨⟨left, swept⟩, hrun, h⟩ := Git.bind_eq_ok h
  cases h
  have hstart : Sweeping list home [] [[]] ⟨home, [], 0⟩ := ⟨.start, by simp [Cut], by simp⟩
  obtain ⟨_, seen, hsweeping⟩ := visiting_done
    (fun _ _ _ _ _ _ ↦ relocateOne_keeps) (fun _ _ _ hinv ↦ hinv.explored.length_le) hstart hrun
  rw [hsweeping.cut path]
  split
  · next hunder =>
    obtain ⟨removal, hremoval, hancestor⟩ := hunder
    obtain ⟨_, hdirectory, hname⟩ :=
      (hsweeping.removed removal.path).mp (List.mem_map_of_mem hremoval)
    have hmatched : Matched list home removal.path :=
      ⟨hdirectory, Option.ne_none_iff_isSome.mp hname⟩
    simp only [reduceCtorEq, false_iff, not_and, not_forall, not_not]
    exact fun _ ↦ ⟨removal.path, hancestor, hmatched⟩
  · next hclear =>
    refine (and_iff_left fun above hancestor hmatched ↦ hclear ?_).symm
    obtain ⟨removal, hremoval, hremoved⟩ := hsweeping.reaches hmatched
    exact ⟨removal, hremoval, hremoved.trans hancestor⟩

end Nodal.Workspace
