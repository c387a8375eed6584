import Nodal.Git.Repository
import Nodal.Workspace.Exclude

/-!
# A tree copied without what a list names

`workspace/walk.rs` and `workspace/tree.rs`: one filtered walk, and the copier every backend shares.
The walk reads each directory it goes into once, classifies what is there and does not follow a link;
the copier makes every directory first and then everything else.

Any reading and any write may fail. Where none did, the copy has what the source has and the list
does not name, sockets and devices apart (`get?_materialize`).
-/

set_option autoImplicit false

namespace Nodal.Workspace

open Foundation

/-- Why a step on a tree stopped. -/
inductive Error
  | io (path : TreePath) (why : String)
  | git (why : String)
  /-- A copy would drop what the commit tracks, though the project asked for it. -/
  | excludesTrackedPath (paths : List TreePath)
  deriving DecidableEq, Repr

/-- Which calls on a tree fail, and with what. -/
structure Faults where
  reads : TreePath → Option String
  stats : TreePath → Option String
  writes : TreePath → Option String
  removes : TreePath → Option String

/-- No call fails. -/
def Faults.none : Faults := ⟨fun _ ↦ .none, fun _ ↦ .none, fun _ ↦ .none, fun _ ↦ .none⟩

variable {κ : Type}

/-- Whether a copy of an entry is meaningful. -/
def copied : Entry κ → Bool
  | .other => false
  | .directory | .file _ | .symlink _ => true

/-! ### The walk -/

/-- What a walk found, and how much it left out. -/
structure Walked (κ : Type) where
  entries : List (TreePath × Entry κ)
  excluded : ℕ
  other : ℕ
  deriving DecidableEq, Repr

/-- Read the names of one directory: the directories to go into, and what was found so far. -/
def walkIn (faults : Faults) (source : FileTree κ) (exclude : Excludes) (directory : TreePath) :
    List String → Walked κ → Except Error (List TreePath × Walked κ)
  | [], walked => .ok ([], walked)
  | name :: rest, walked =>
    let relative := directory ++ [name]
    if exclude.excludes relative then
      walkIn faults source exclude directory rest { walked with excluded := walked.excluded + 1 }
    else match faults.stats relative, source.get? relative with
      | some why, _ => .error (.io relative why)
      | none, none => .error (.io relative "no such entry")
      | none, some .other =>
        walkIn faults source exclude directory rest { walked with other := walked.other + 1 }
      | none, some .directory => do
        let (next, walked) ← walkIn faults source exclude directory rest
          { walked with entries := walked.entries ++ [(relative, .directory)] }
        return (relative :: next, walked)
      | none, some entry => walkIn faults source exclude directory rest
          { walked with entries := walked.entries ++ [(relative, entry)] }

/-- Read one directory. -/
def walkOne (faults : Faults) (source : FileTree κ) (exclude : Excludes) (directory : TreePath)
    (walked : Walked κ) : Except Error (List TreePath × Walked κ) :=
  match faults.reads directory with
  | some why => .error (.io directory why)
  | none => walkIn faults source exclude directory (source.names directory) walked

/-- Every entry of a tree the exclusion list keeps, parents first. -/
def walk (faults : Faults) (source : FileTree κ) (exclude : Excludes) : Except Error (Walked κ) := do
  let (_, walked) ← visiting (walkOne faults source exclude) (source.rows.length + 1) [[]] ⟨[], 0, 0⟩
  return walked

/-! ### The copier -/

/-- Make entries one after another. -/
def makeAll (faults : Faults) : FileTree κ → List (TreePath × Entry κ) → Except Error (FileTree κ)
  | tree, [] => .ok tree
  | tree, (path, entry) :: rest =>
    match faults.writes path, tree.make path entry with
    | some why, _ => .error (.io path why)
    | none, none => .error (.io path "no directory to make it in, or something is there")
    | none, some made => makeAll faults made rest

/-- Copy a tree to a place where nothing is, leaving out what a list names: every directory first,
and then what is in them. -/
def materialize (faults : Faults) (source : FileTree κ) (exclude : Excludes) :
    Except Error (FileTree κ) := do
  let walked ← walk faults source exclude
  let directories := walked.entries.filter (·.2.isDirectory)
  let contents := walked.entries.filter (!·.2.isDirectory)
  makeAll faults .empty (directories ++ contents)

/-! ### What the walk finds -/

variable {faults : Faults} {source home : FileTree κ} {exclude : Excludes}

/-- What reading a directory's names goes on to, and adds. -/
theorem walkIn_eq_ok {directory : TreePath} {names : List String} {walked walked' : Walked κ}
    {next : List TreePath}
    (h : walkIn faults source exclude directory names walked = .ok (next, walked')) :
    next.Sublist (names.map (directory ++ [·])) ∧
      (∀ path, path ∈ next ↔ path ∈ names.map (directory ++ [·]) ∧
        source.get? path = some .directory ∧ exclude.excludes path = false) ∧
      ∀ path entry, (path, entry) ∈ walked'.entries ↔ (path, entry) ∈ walked.entries ∨
        path ∈ names.map (directory ++ [·]) ∧ source.get? path = some entry ∧
          copied entry = true ∧ exclude.excludes path = false := by
  induction names generalizing walked next with
  | nil =>
    cases h
    simp
  | cons name names ih =>
    simp only [List.map_cons, List.mem_cons]
    unfold walkIn at h
    dsimp only at h
    split at h
    · next hexcluded =>
      obtain ⟨hsub, hnext, hentries⟩ := ih h
      refine ⟨hsub.cons _, fun path ↦ ?_, fun path entry ↦ ?_⟩
      · grind
      · grind
    · next hincluded =>
      split at h
      · cases h
      · cases h
      · next hother =>
        obtain ⟨hsub, hnext, hentries⟩ := ih h
        refine ⟨hsub.cons _, fun path ↦ ?_, fun path entry ↦ ?_⟩
        · grind
        · grind [copied]
      · next hdirectory =>
        obtain ⟨⟨more, walked₁⟩, hrest, h⟩ := Git.bind_eq_ok h
        cases h
        obtain ⟨hsub, hnext, hentries⟩ := ih hrest
        refine ⟨hsub.cons_cons _, fun path ↦ ?_, fun path entry ↦ ?_⟩
        · grind
        · grind [copied]
      · next found hother hdirectory _ hfound =>
        have hcopied : copied found = true := by
          cases found with
          | other => exact absurd rfl hother
          | directory => rfl
          | file _ => rfl
          | symlink _ => rfl
        obtain ⟨hsub, hnext, hentries⟩ := ih h
        refine ⟨hsub.cons _, fun path ↦ ?_, fun path entry ↦ ?_⟩
        · grind
        · grind [copied]

/-- A path no row of the list names, and none names a path above. -/
def Included (exclude : Excludes) (path : TreePath) : Prop :=
  exclude.excludes path = false

theorem Included.above {path above : TreePath} (h : Included exclude path) (hancestor : above <+: path) :
    Included exclude above := by
  by_contra habove
  rw [Included, Bool.not_eq_false] at habove
  exact Bool.false_ne_true (h.symm.trans (Excludes.excludes_of_prefix habove hancestor))

/-- What a walk has met, and what it found there. -/
structure Walking (source : FileTree κ) (exclude : Excludes) (seen pending : List TreePath)
    (walked : Walked κ) : Prop where
  explored : Explored source (Included exclude) seen pending
  found : ∀ path entry, (path, entry) ∈ walked.entries ↔ path.dropLast ∈ seen ∧
    source.get? path = some entry ∧ copied entry = true ∧ Included exclude path

theorem walkOne_keeps {seen rest next : List TreePath} {first : TreePath} {walked walked' : Walked κ}
    (h : Walking source exclude seen (first :: rest) walked)
    (hvisit : walkOne faults source exclude first walked = .ok (next, walked')) :
    Walking source exclude (first :: seen) (next.reverse ++ rest) walked' := by
  unfold walkOne at hvisit
  split at hvisit
  · cases hvisit
  · obtain ⟨hsub, hnext, hentries⟩ := walkIn_eq_ok hvisit
    have hnames : ((source.names first).map (first ++ [·])).Nodup :=
      FileTree.nodup_names.map fun name name' heq ↦ by simpa using heq
    refine ⟨h.explored.step (hnames.sublist hsub) fun path ↦ ?_, fun path entry ↦ ?_⟩
    · rw [hnext, FileTree.mem_map_names, and_assoc]
      refine and_congr_right fun _ ↦ and_iff_right_of_imp fun ⟨hdirectory, _⟩ ↦ ?_
      simp [hdirectory]
    · rw [hentries, h.found, FileTree.mem_map_names, List.mem_cons, or_and_right, or_comm]
      refine or_congr_left (Iff.trans and_assoc (and_congr_right fun _ ↦ ?_))
      exact and_iff_right_of_imp fun ⟨hentry, _⟩ ↦ by simp [hentry]

/-- A walk found each entry that is neither left out nor meaningless to copy, and no other. -/
theorem walk_eq_ok {walked : Walked κ} (h : walk faults source exclude = .ok walked)
    {path : TreePath} {entry : Entry κ} :
    (path, entry) ∈ walked.entries ↔ source.get? path = some entry ∧ copied entry = true ∧
      exclude.excludes path = false := by
  unfold walk at h
  obtain ⟨⟨left, walked'⟩, hrun, h⟩ := Git.bind_eq_ok h
  cases h
  have hstart : Walking source exclude [] [[]] ⟨[], 0, 0⟩ := ⟨.start, by simp⟩
  obtain ⟨_, seen, hwalking⟩ := visiting_done
    (fun _ _ _ _ _ _ ↦ walkOne_keeps) (fun _ _ _ hinv ↦ hinv.explored.length_le) hstart hrun
  rw [hwalking.found, and_iff_right_of_imp]
  · rfl
  · rintro ⟨hentry, _, hincluded⟩
    refine hwalking.explored.mem_seen_iff.mpr ((FileTree.parent_of_get? hentry).imp_right fun h ↦ ?_)
    exact ⟨h, fun above _ hancestor ↦
      Included.above hincluded (hancestor.trans (List.dropLast_prefix path))⟩

/-! ### What the copy has -/

/-- Making entries puts each at its path and leaves the rest as it was. -/
theorem makeAll_eq_ok {tree : FileTree κ} {entries : List (TreePath × Entry κ)}
    (h : makeAll faults tree entries = .ok home) {path : TreePath} {entry : Entry κ} :
    home.get? path = some entry ↔ tree.get? path = some entry ∨ (path, entry) ∈ entries := by
  induction entries generalizing tree with
  | nil =>
    cases h
    simp
  | cons first rest ih =>
    obtain ⟨place, made⟩ := first
    unfold makeAll at h
    split at h
    · cases h
    · cases h
    · next tree' _ hmade =>
      obtain ⟨hfree, hget⟩ : tree.get? place = none ∧
          tree'.get? path = if path = place then some made else tree.get? path :=
        FileTree.get?_make hmade
      rw [ih h, hget, List.mem_cons, ← or_assoc]
      refine or_congr_left ?_
      split
      · next heq => simp [heq, hfree, eq_comm]
      · next hne => simp [hne]

/-- A copy has what the source has, except what the list names and what no copy of is meaningful. -/
theorem get?_materialize (h : materialize faults source exclude = .ok home) (path : TreePath) :
    home.get? path =
      if exclude.excludes path then none else (source.get? path).filter copied := by
  obtain ⟨walked, hwalk, h⟩ := Git.bind_eq_ok h
  refine Option.ext fun entry ↦ ?_
  have hperm := List.filter_append_perm (fun entry : TreePath × Entry κ ↦ entry.2.isDirectory)
    walked.entries
  rw [makeAll_eq_ok h, FileTree.get?_empty, hperm.mem_iff, walk_eq_ok hwalk]
  split
  · next hexcluded => simp [hexcluded]
  · next hincluded =>
    rw [Bool.not_eq_true] at hincluded
    simp [hincluded, Option.filter_eq_some_iff]

end Nodal.Workspace
