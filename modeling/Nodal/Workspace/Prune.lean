import Mathlib.Algebra.GroupWithZero.Nat
import Mathlib.Data.List.Pairwise
import Nodal.Foundation.Under
import Nodal.Workspace.Exclude

/-!
# What a reclaimed home loses on its way into the trash

`workspace/prune.rs` over `git/ignored.rs` and `doctor/size.rs`: the paths an ignore rule covers are
classed in the order Git lists them. A regenerable directory answers for all that is under it. Of the
rest, a path with another listed path inside is left to that one, and a path is left out where
everything at it is a file Nodal wrote.

Git is a parameter, by what it lists: each path once and after what it is in, and a directory with a
listed path inside holds nothing but what is listed (`Listing`).

The candidates are not nested, so what a sweep drops and keeps is counted once (`Accounted.once`), and what it
removes is what it said it would. A directory with nothing in it is everything Nodal wrote there, so it
is listed and is no candidate (`emptied_left_out`).
-/

set_option autoImplicit false

namespace Nodal.Workspace.Prune

open Foundation

variable {κ : Type}

/-! ### The home -/

/-- What a symbolic link leads to. -/
inductive Followed (κ : Type)
  | file
  | directory (inside : FileTree κ)
  | other

/-- A home as it is read: where it is, what is in it, what each link leads to, and what the metadata of
an entry gives for its size. -/
structure Home (κ : Type) where
  name : String
  tree : FileTree κ
  follow : TreePath → Followed κ
  len : Entry κ → ℕ

/-- One path an ignore rule covers. -/
structure Ignored where
  relative : TreePath
  directory : Bool
  deriving DecidableEq

/-- What Git lists, but for a record that names nothing on disk. -/
def entries (home : Home κ) (records : List TreePath) : List Ignored :=
  records.filterMap fun relative ↦
    if relative = [] then none
    else (home.tree.get? relative).map fun entry ↦ ⟨relative, entry.isDirectory⟩

/-- What one entry adds to a size. -/
def Home.counted (home : Home κ) (row : TreePath × Entry κ) : ℕ :=
  if row.2.isDirectory then 0 else home.len row.2

/-- What is at a path: the sum of the sizes of the files under it, or the size of the one entry it is. -/
def measure (home : Home κ) (path : TreePath) : ℕ :=
  match home.tree.get? path with
  | none => 0
  | some entry =>
    if entry.isDirectory then ((home.tree.under path).map home.counted).sum else home.len entry

/-! ### The survey -/

/-- The path of every file Nodal writes into a home. -/
def WRITTEN : List TreePath :=
  [[".nodal", "env"], [".envrc"], [".nodal", "manifest.toml"], [".nodal", "id"], ["WORKUNIT.md"],
    ["CLAUDE.md"], ["AGENTS.md"], [".claude", "settings.json"]]

/-- Whether all that is read under a directory is files Nodal wrote, by their paths in the home. -/
def allWritten (rows : List (TreePath × Entry κ)) (inside : TreePath → TreePath) : Bool :=
  rows.all fun row ↦ row.2.isDirectory || WRITTEN.contains (inside row.1)

/-- Whether everything at a path is a file Nodal wrote into the home. -/
def nodalWrote (home : Home κ) (relative : TreePath) : Bool :=
  match home.tree.get? relative with
  | some (.file _) => WRITTEN.contains relative
  | some .directory => allWritten (home.tree.under relative) id
  | some (.symlink _) => match home.follow relative with
    | .file => WRITTEN.contains relative
    | .directory inside => allWritten (inside.under []) (relative ++ ·)
    | .other => false
  | some .other | none => false

/-- Whether another listed path is inside this one. -/
def holdsAnother (entries : List Ignored) (relative : TreePath) : Bool :=
  entries.any fun other ↦ other.relative ≠ relative && relative.isPrefixOf other.relative

/-- Why the trash need not keep a path. -/
def reasonFor (relative : TreePath) : Option String :=
  (regenerable.find? fun row ↦ row.path.isSuffixOf relative).map Row.reason

/-- Why a listed entry need not be kept: a file is never dropped. -/
def Ignored.reason (entry : Ignored) : Option String :=
  if entry.directory then reasonFor entry.relative else none

/-- One path an ignore rule covers, and why the trash need not keep it. -/
structure Candidate where
  path : TreePath
  bytes : ℕ
  reason : Option String
  deriving DecidableEq

/-- Class the paths that are left, under the regenerable directories met so far. -/
def surveyFrom (home : Home κ) (entries : List Ignored) :
    List TreePath → List Ignored → List Candidate
  | _, [] => []
  | whole, entry :: rest =>
    if whole.any (·.isPrefixOf entry.relative) then surveyFrom home entries whole rest
    else
      let bytes := measure home entry.relative
      match entry.reason with
      | some reason =>
        ⟨entry.relative, bytes, some reason⟩ ::
          surveyFrom home entries (whole ++ [entry.relative]) rest
      | none =>
        if holdsAnother entries entry.relative || nodalWrote home entry.relative then
          surveyFrom home entries whole rest
        else ⟨entry.relative, bytes, none⟩ :: surveyFrom home entries whole rest

structure Survey where
  candidates : List Candidate
  notes : List String
  deriving DecidableEq

/-- Classify the ignored state of a home and change nothing. What Git lists is `none` where the home is
not there. -/
def survey (home : Home κ) : Option (Except String (List TreePath)) → Survey
  | none => ⟨[], [home.name ++ " is not there, so no ignored state was read"]⟩
  | some (.error why) => ⟨[], [why]⟩
  | some (.ok records) =>
    let listed := entries home records
    ⟨surveyFrom home listed [] listed, []⟩

/-! ### The sweep -/

/-- One directory the prune removed from a trashed home. -/
structure Removal where
  path : TreePath
  bytes : ℕ
  reason : String
  deriving DecidableEq

/-- One path an ignore rule covers that the trash keeps. -/
structure Kept where
  path : TreePath
  bytes : ℕ
  deriving DecidableEq

/-- What one prune did to one trashed home. -/
structure Report where
  removed : List Removal
  kept : List Kept
  bytes : ℕ
  keptBytes : ℕ
  notes : List String
  deriving DecidableEq

/-- Record a path the trash kept. -/
def Report.keep (report : Report) (path : TreePath) (bytes : ℕ) : Report :=
  { report with kept := report.kept ++ [⟨path, bytes⟩], keptBytes := report.keptBytes + bytes }

/-- How the removal of a directory goes: whether it is refused, and what a refused one leaves. -/
structure Removing (κ : Type) where
  refuses : TreePath → Option String
  left : FileTree κ → TreePath → FileTree κ

/-- What becomes of one candidate. -/
def sweepOne (removing : Removing κ) (swept : FileTree κ × Report) (candidate : Candidate) :
    FileTree κ × Report :=
  let (tree, report) := swept
  match candidate.reason with
  | none => (tree, report.keep candidate.path candidate.bytes)
  | some reason => match removing.refuses candidate.path with
    | some why =>
      (removing.left tree candidate.path,
        { report with notes := report.notes ++ [why] }.keep candidate.path candidate.bytes)
    | none =>
      (tree.remove candidate.path,
        { report with
          bytes := report.bytes + candidate.bytes
          removed := report.removed ++ [⟨candidate.path, candidate.bytes, reason⟩] })

/-- Remove the build output and the installed dependencies, and say what went and what stayed. -/
def sweep (home : Home κ) (removing : Removing κ)
    (listed : Option (Except String (List TreePath))) : FileTree κ × Report :=
  let surveyed := survey home listed
  surveyed.candidates.foldl (sweepOne removing) (home.tree, ⟨[], [], 0, 0, surveyed.notes⟩)

/-- The removal of a candidate that need not be kept. -/
def Candidate.removal (candidate : Candidate) : Option Removal :=
  candidate.reason.map fun reason ↦ ⟨candidate.path, candidate.bytes, reason⟩

/-- What a sweep would remove, without removing any of it. -/
def wouldRemove (home : Home κ) (listed : Option (Except String (List TreePath))) : List Removal :=
  (survey home listed).candidates.filterMap Candidate.removal

/-! ### Sizes -/

section Sizes

variable {α : Type} {rows : List α} {first second : α → Bool} {weight : α → ℕ}

theorem sum_filter_congr (h : ∀ row ∈ rows, first row ≠ second row → weight row = 0) :
    ((rows.filter first).map weight).sum = ((rows.filter second).map weight).sum := by
  induction rows with
  | nil => rfl
  | cons row rows ih =>
    obtain ⟨hrow, hrows⟩ := List.forall_mem_cons.mp h
    have hrest := ih hrows
    cases hfirst : first row <;> cases hsecond : second row <;>
      simp_all

theorem sum_filter_or (h : ∀ row ∈ rows, ¬(first row = true ∧ second row = true)) :
    ((rows.filter fun row ↦ first row || second row).map weight).sum =
      ((rows.filter first).map weight).sum + ((rows.filter second).map weight).sum := by
  induction rows with
  | nil => rfl
  | cons row rows ih =>
    obtain ⟨hrow, hrows⟩ := List.forall_mem_cons.mp h
    have hrest := ih hrows
    cases hfirst : first row <;> cases hsecond : second row <;>
      simp_all <;> omega

end Sizes

variable {home : Home κ} {path : TreePath}

/-- A size is the sum over all that is at the path or under it. -/
theorem measure_eq (hpath : path ≠ []) : measure home path =
    ((home.tree.rows.filter fun row ↦ path.isPrefixOf row.1).map home.counted).sum := by
  unfold measure
  cases hget : home.tree.get? path with
  | none =>
    have hnone : home.tree.rows.filter (fun row ↦ path.isPrefixOf row.1) = [] := by
      rw [List.filter_eq_nil_iff]
      intro row hrow hunder
      rw [List.isPrefixOf_iff_prefix] at hunder
      have hentry := FileTree.mem_rows_iff.mp (show (row.1, row.2) ∈ home.tree.rows from hrow)
      by_cases hsame : path = row.1
      · rw [hsame, hentry] at hget
        cases hget
      · rw [FileTree.directory_of_prefix hentry hunder hpath hsame] at hget
        cases hget
    rw [hnone]
    rfl
  | some entry =>
    by_cases hdirectory : entry.isDirectory = true
    · simp only [hdirectory, if_true]
      rw [(FileTree.perm_under.map home.counted).sum_nat]
      refine sum_filter_congr fun row hrow hdiffer ↦ ?_
      have hsame : row.1 = path := by
        by_contra hne
        simp [hne] at hdiffer
      have hentry := FileTree.mem_rows_iff.mp (show (row.1, row.2) ∈ home.tree.rows from hrow)
      rw [hsame, hget] at hentry
      rw [Home.counted, ← Option.some.inj hentry, hdirectory, if_pos rfl]
    · have honly : (home.tree.rows.filter fun row ↦ path.isPrefixOf row.1).Perm [(path, entry)] := by
        refine (List.perm_ext_iff_of_nodup (FileTree.nodup_rows.filter _)
          (List.nodup_singleton _)).mpr fun row ↦ ?_
        rw [List.mem_filter, List.isPrefixOf_iff_prefix, List.mem_singleton]
        constructor
        · intro ⟨hrow, hunder⟩
          have hentry := FileTree.mem_rows_iff.mp (show (row.1, row.2) ∈ home.tree.rows from hrow)
          by_cases hsame : path = row.1
          · rw [← hsame, hget] at hentry
            exact Prod.ext hsame.symm (Option.some.inj hentry).symm
          · have habove := FileTree.directory_of_prefix hentry hunder hpath hsame
            rw [hget] at habove
            exact absurd (congrArg Entry.isDirectory (Option.some.inj habove)) hdirectory
        · rintro rfl
          exact ⟨FileTree.mem_rows_iff.mpr hget, List.prefix_rfl⟩
      rw [(honly.map home.counted).sum_nat]
      simp [Home.counted, hdirectory]

/-- Two paths neither of which is in the other. -/
def Apart (first later : TreePath) : Prop := ¬first <+: later ∧ ¬later <+: first

/-- Sizes of paths that are not nested count every entry once. -/
theorem sum_measure {paths : List TreePath} (hne : ∀ path ∈ paths, path ≠ [])
    (hapart : paths.Pairwise Apart) :
    (paths.map (measure home)).sum =
      ((home.tree.rows.filter fun row ↦ paths.any (·.isPrefixOf row.1)).map home.counted).sum := by
  induction paths with
  | nil => simp
  | cons path paths ih =>
    obtain ⟨hpath, hpaths⟩ := List.forall_mem_cons.mp hne
    obtain ⟨hfirst, hrest⟩ := List.pairwise_cons.mp hapart
    rw [List.map_cons, List.sum_cons, ih hpaths hrest, measure_eq hpath]
    simp only [List.any_cons]
    refine (sum_filter_or fun row _ ⟨hhere, hlater⟩ ↦ ?_).symm
    obtain ⟨other, hother, hunder⟩ := List.any_eq_true.mp hlater
    rw [List.isPrefixOf_iff_prefix] at hhere hunder
    obtain ⟨hnot, hnot'⟩ := hfirst other hother
    exact (List.prefix_or_prefix_of_prefix hhere hunder).elim hnot hnot'

/-! ### What is listed -/

/-- What Git lists of a home. Each path is listed once, and what it is in before it. A directory that has
another listed path in it holds nothing but ignored content, all of which is listed. -/
structure Listing (home : Home κ) (records : List TreePath) : Prop where
  ordered : records.Pairwise fun first later ↦ ¬later <+: first
  whole : ∀ record ∈ records, (∃ other ∈ records, other ≠ record ∧ record <+: other) →
    ∀ path entry, home.tree.get? path = some entry → entry.isDirectory = false → record <+: path →
      ∃ inner ∈ records, inner ≠ record ∧ record <+: inner ∧ inner <+: path

theorem mem_entries {records : List TreePath} {entry : Ignored} : entry ∈ entries home records ↔
    entry.relative ∈ records ∧ entry.relative ≠ [] ∧
      ∃ found, home.tree.get? entry.relative = some found ∧ found.isDirectory = entry.directory := by
  unfold entries
  rw [List.mem_filterMap]
  constructor
  · rintro ⟨record, hrecord, hentry⟩
    split_ifs at hentry with hnil
    obtain ⟨found, hfound, rfl⟩ := Option.map_eq_some_iff.mp hentry
    exact ⟨hrecord, hnil, found, hfound, rfl⟩
  · intro ⟨hrecord, hnil, found, hfound, hdirectory⟩
    refine ⟨entry.relative, hrecord, ?_⟩
    rw [if_neg hnil, hfound, Option.map_some, hdirectory]

theorem entries_ordered {records : List TreePath}
    (h : records.Pairwise fun first later ↦ ¬later <+: first) :
    (entries home records).Pairwise fun first later ↦ ¬later.relative <+: first.relative := by
  have hrelative {record : TreePath} {entry : Ignored} (hentry : (if record = [] then none
      else (home.tree.get? record).map fun found ↦ (⟨record, found.isDirectory⟩ : Ignored)) =
        some entry) : entry.relative = record := by
    split_ifs at hentry
    obtain ⟨_, _, rfl⟩ := Option.map_eq_some_iff.mp hentry
    rfl
  rw [entries, List.pairwise_filterMap]
  refine h.imp fun {first later} hnot entry hentry entry' hentry' ↦ ?_
  rwa [hrelative hentry, hrelative hentry']

/-! ### The candidates -/

section Survey

variable {listed rest : List Ignored} {whole : List TreePath}

/-- What one entry does to the candidates. -/
inductive Surveyed (home : Home κ) (listed : List Ignored) (whole : List TreePath) (entry : Ignored)
    (rest : List Ignored) : List Candidate → Prop
  | under (above : TreePath) (hmem : above ∈ whole) (hunder : above <+: entry.relative) :
    Surveyed home listed whole entry rest (surveyFrom home listed whole rest)
  | dropped (hfree : ∀ above ∈ whole, ¬above <+: entry.relative) (reason : String)
      (hreason : entry.reason = some reason) :
    Surveyed home listed whole entry rest (⟨entry.relative, measure home entry.relative, some reason⟩ ::
      surveyFrom home listed (whole ++ [entry.relative]) rest)
  | left (hreason : entry.reason = none)
      (hleft : holdsAnother listed entry.relative = true ∨ nodalWrote home entry.relative = true) :
    Surveyed home listed whole entry rest (surveyFrom home listed whole rest)
  | kept (hfree : ∀ above ∈ whole, ¬above <+: entry.relative)
      (halone : holdsAnother listed entry.relative = false) :
    Surveyed home listed whole entry rest (⟨entry.relative, measure home entry.relative, none⟩ ::
      surveyFrom home listed whole rest)

theorem surveyFrom_cons (whole : List TreePath) (entry : Ignored) (rest : List Ignored) :
    Surveyed home listed whole entry rest (surveyFrom home listed whole (entry :: rest)) := by
  unfold surveyFrom
  by_cases hunder : whole.any (·.isPrefixOf entry.relative) = true
  · rw [if_pos hunder]
    obtain ⟨above, hmem, hstarts⟩ := List.any_eq_true.mp hunder
    exact .under above hmem (List.isPrefixOf_iff_prefix.mp hstarts)
  · rw [if_neg hunder]
    have hfree : ∀ above ∈ whole, ¬above <+: entry.relative := by
      intro above hmem hstarts
      exact hunder (List.any_eq_true.mpr ⟨above, hmem, List.isPrefixOf_iff_prefix.mpr hstarts⟩)
    cases hreason : entry.reason with
    | some reason => exact .dropped hfree reason hreason
    | none =>
      dsimp only
      split_ifs with hleft
      · exact .left hreason (Bool.or_eq_true_iff.mp hleft)
      · rw [Bool.not_eq_true, Bool.or_eq_false_iff] at hleft
        exact .kept hfree hleft.1

/-- A candidate is one of the listed paths, under none of the directories that answer for it, with the
size of what is there. -/
theorem mem_surveyFrom {candidate : Candidate}
    (h : candidate ∈ surveyFrom home listed whole rest) :
    (∀ above ∈ whole, ¬above <+: candidate.path) ∧
      candidate.bytes = measure home candidate.path ∧
      ∃ entry ∈ rest, entry.relative = candidate.path := by
  induction rest generalizing whole with
  | nil => cases h
  | cons entry rest ih =>
    have hlater {whole' : List TreePath} (hsub : ∀ above ∈ whole, above ∈ whole')
        (hmem : candidate ∈ surveyFrom home listed whole' rest) :
        (∀ above ∈ whole, ¬above <+: candidate.path) ∧
          candidate.bytes = measure home candidate.path ∧
          ∃ other ∈ entry :: rest, other.relative = candidate.path := by
      obtain ⟨hfree, hbytes, other, hother, hpath⟩ := ih hmem
      exact ⟨fun above habove ↦ hfree above (hsub above habove), hbytes, other,
        List.mem_cons_of_mem _ hother, hpath⟩
    have hstep := @surveyFrom_cons κ home listed whole entry rest
    generalize surveyFrom home listed whole (entry :: rest) = candidates at h hstep
    cases hstep with
    | under above hmem hunder => exact hlater (fun _ ↦ id) h
    | left hreason hleft => exact hlater (fun _ ↦ id) h
    | dropped hfree reason hreason =>
      rcases List.mem_cons.mp h with rfl | h
      · exact ⟨hfree, rfl, entry, List.mem_cons_self, rfl⟩
      · exact hlater (fun _ ↦ List.mem_append_left _) h
    | kept hfree halone =>
      rcases List.mem_cons.mp h with rfl | h
      · exact ⟨hfree, rfl, entry, List.mem_cons_self, rfl⟩
      · exact hlater (fun _ ↦ id) h

/-- No candidate is inside another. -/
theorem surveyFrom_apart (hlisted : ∀ entry ∈ rest, entry ∈ listed)
    (hordered : rest.Pairwise fun first later ↦ ¬later.relative <+: first.relative) :
    (surveyFrom home listed whole rest).Pairwise fun first later ↦ Apart first.path later.path := by
  induction rest generalizing whole with
  | nil => exact List.Pairwise.nil
  | cons entry rest ih =>
    obtain ⟨hentry, hrest⟩ := List.forall_mem_cons.mp hlisted
    obtain ⟨hbefore, hordered⟩ := List.pairwise_cons.mp hordered
    have hnotAbove {whole' : List TreePath} {candidate : Candidate}
        (hmem : candidate ∈ surveyFrom home listed whole' rest) :
        ¬candidate.path <+: entry.relative := by
      obtain ⟨-, -, other, hother, hpath⟩ := mem_surveyFrom hmem
      exact hpath ▸ hbefore other hother
    have hstep := @surveyFrom_cons κ home listed whole entry rest
    generalize surveyFrom home listed whole (entry :: rest) = candidates at hstep
    cases hstep with
    | under above hmem hunder => exact ih hrest hordered
    | left hreason hleft => exact ih hrest hordered
    | dropped hfree reason hreason =>
      refine List.pairwise_cons.mpr ⟨fun candidate hmem ↦ ⟨?_, hnotAbove hmem⟩, ih hrest hordered⟩
      exact (mem_surveyFrom hmem).1 entry.relative (List.mem_append_right _ (List.mem_singleton_self _))
    | kept hfree halone =>
      refine List.pairwise_cons.mpr ⟨fun candidate hmem ↦ ⟨fun hinside ↦ ?_, hnotAbove hmem⟩,
        ih hrest hordered⟩
      obtain ⟨-, -, other, hother, hpath⟩ := mem_surveyFrom hmem
      have hinner : holdsAnother listed entry.relative = true := by
        refine List.any_eq_true.mpr ⟨other, hrest other hother, ?_⟩
        have hne : other.relative ≠ entry.relative := by
          intro hsame
          exact hbefore other hother (hsame ▸ List.prefix_rfl)
        rw [Bool.and_eq_true, decide_eq_true_eq, List.isPrefixOf_iff_prefix]
        exact ⟨hne, hpath ▸ hinside⟩
      rw [halone] at hinner
      cases hinner

/-- Every listed entry is under a candidate, or was left to another or to Nodal. -/
theorem surveyFrom_covers {entry : Ignored} (h : entry ∈ rest) :
    (∃ above ∈ whole, above <+: entry.relative) ∨
      (∃ candidate ∈ surveyFrom home listed whole rest, candidate.path <+: entry.relative) ∨
      holdsAnother listed entry.relative = true ∨ nodalWrote home entry.relative = true := by
  induction rest generalizing whole with
  | nil => cases h
  | cons first rest ih =>
    have hstep := @surveyFrom_cons κ home listed whole first rest
    generalize surveyFrom home listed whole (first :: rest) = candidates at hstep
    rcases List.mem_cons.mp h with rfl | h
    · cases hstep with
      | under above hmem hunder => exact .inl ⟨above, hmem, hunder⟩
      | left hreason hleft => exact .inr (.inr hleft)
      | dropped hfree reason hreason => exact .inr (.inl ⟨_, List.mem_cons_self, List.prefix_rfl⟩)
      | kept hfree halone => exact .inr (.inl ⟨_, List.mem_cons_self, List.prefix_rfl⟩)
    · cases hstep with
      | under above hmem hunder => exact ih h
      | left hreason hleft => exact ih h
      | dropped hfree reason hreason =>
        rcases @ih (whole ++ [first.relative]) h with ⟨above, hmem, hunder⟩ | hcovered | hleft
        · rcases List.mem_append.mp hmem with hmem | hmem
          · exact .inl ⟨above, hmem, hunder⟩
          · rw [List.mem_singleton.mp hmem] at hunder
            exact .inr (.inl ⟨_, List.mem_cons_self, hunder⟩)
        · obtain ⟨candidate, hmem, hunder⟩ := hcovered
          exact .inr (.inl ⟨candidate, List.mem_cons_of_mem _ hmem, hunder⟩)
        · exact .inr (.inr hleft)
      | kept hfree halone =>
        rcases @ih whole h with habove | ⟨candidate, hmem, hunder⟩ | hleft
        · exact .inl habove
        · exact .inr (.inl ⟨candidate, List.mem_cons_of_mem _ hmem, hunder⟩)
        · exact .inr (.inr hleft)

end Survey

/-- Something at or under a path that is not a directory and that Nodal did not write. A link counts by
its own name and by what it leads to. -/
def HoldsForeign (home : Home κ) (relative : TreePath) : Prop :=
  ∃ path entry, home.tree.get? path = some entry ∧ entry.isDirectory = false ∧ relative <+: path ∧
    path ∉ WRITTEN ∧ nodalWrote home path = false

/-- A path that holds what Nodal did not write is not one that Nodal wrote. -/
theorem not_nodalWrote {relative found : TreePath} {entry : Entry κ} (hne : relative ≠ [])
    (hentry : home.tree.get? found = some entry) (hfile : entry.isDirectory = false)
    (hunder : relative <+: found) (hnot : found ∉ WRITTEN) (hforeign : nodalWrote home found = false) :
    nodalWrote home relative = false := by
  by_cases hsame : relative = found
  · rw [hsame, hforeign]
  · have hdirectory := FileTree.directory_of_prefix hentry hunder hne hsame
    have hmem : (found, entry) ∈ home.tree.under relative :=
      FileTree.mem_under.mpr ⟨hentry, hunder, Ne.symm hsame⟩
    rw [nodalWrote, hdirectory, Bool.eq_false_iff]
    intro hall
    have hwritten := List.all_eq_true.mp hall _ hmem
    rw [hfile, Bool.false_or, List.contains_iff_mem] at hwritten
    exact hnot hwritten

/-- Each listed path that holds what Nodal did not write is under a candidate, or a candidate is in it. -/
theorem covered {records : List TreePath} (hlisting : Listing home records) {entry : Ignored}
    (hlisted : entry ∈ entries home records) (hforeign : HoldsForeign home entry.relative) :
    let candidates := surveyFrom home (entries home records) [] (entries home records)
    (∃ candidate ∈ candidates, candidate.path <+: entry.relative) ∨
      ∃ candidate ∈ candidates, entry.relative <+: candidate.path := by
  obtain ⟨found, content, hcontent, hfile, hunder, hnot, hnotWrote⟩ := hforeign
  -- Each listed path inside this one and above what it holds is one step nearer to that.
  generalize hdepth : found.length - entry.relative.length = depth
  induction depth using Nat.strong_induction_on generalizing entry with
  | _ depth ih =>
    obtain ⟨hrecord, hne, -, -, -⟩ := mem_entries.mp hlisted
    rcases @surveyFrom_covers κ home (entries home records) _ [] entry hlisted with
      ⟨above, hmem, -⟩ | habove | hanother | hwrote
    · cases hmem
    · exact .inl habove
    · have hinside : ∃ other ∈ records, other ≠ entry.relative ∧ entry.relative <+: other := by
        obtain ⟨other, hother, hin⟩ := List.any_eq_true.mp hanother
        rw [Bool.and_eq_true, decide_eq_true_eq, List.isPrefixOf_iff_prefix] at hin
        exact ⟨other.relative, (mem_entries.mp hother).1, hin⟩
      obtain ⟨inner, hinner, hproper, hbelow, habove⟩ :=
        hlisting.whole _ hrecord hinside found content hcontent hfile hunder
      have hlonger : entry.relative.length < inner.length := by
        refine lt_of_le_of_ne hbelow.length_le fun hlength ↦ hproper ?_
        exact (hbelow.eq_of_length hlength).symm
      have hinnerNe : inner ≠ [] := fun hnil ↦ by simp [hnil] at hlonger
      obtain ⟨there, hthere⟩ : ∃ there, home.tree.get? inner = some there := by
        by_cases hsame : inner = found
        · exact ⟨content, hsame ▸ hcontent⟩
        · exact ⟨_, FileTree.directory_of_prefix hcontent habove hinnerNe hsame⟩
      have hlistedInner : (⟨inner, there.isDirectory⟩ : Ignored) ∈ entries home records :=
        mem_entries.mpr ⟨hinner, hinnerNe, there, hthere, rfl⟩
      have hshorter : found.length - inner.length < depth := by
        have hle := habove.length_le
        omega
      rcases ih _ hshorter hlistedInner habove rfl with ⟨candidate, hmem, hover⟩ | ⟨candidate, hmem, hin⟩
      · rcases List.prefix_or_prefix_of_prefix hover hbelow with hover | hin
        · exact .inl ⟨candidate, hmem, hover⟩
        · exact .inr ⟨candidate, hmem, hin⟩
      · exact .inr ⟨candidate, hmem, hbelow.trans hin⟩
    · rw [not_nodalWrote hne hcontent hfile hunder hnot hnotWrote] at hwrote
      cases hwrote

/-! ### What a sweep does -/

section Sweep

variable {removing : Removing κ} {candidates : List Candidate}

theorem removed_sweep (candidates : List Candidate) (swept : FileTree κ × Report) :
    (candidates.foldl (sweepOne removing) swept).2.removed = swept.2.removed ++
      (candidates.filterMap Candidate.removal).filter (removing.refuses ·.path = none) := by
  induction candidates generalizing swept with
  | nil => simp
  | cons candidate candidates ih =>
    rw [List.foldl_cons, ih]
    cases hreason : candidate.reason with
    | none => simp [sweepOne, hreason, Candidate.removal, Report.keep]
    | some reason =>
      cases hrefused : removing.refuses candidate.path with
      | none => simp [sweepOne, hreason, hrefused, Candidate.removal]
      | some why => simp [sweepOne, hreason, hrefused, Candidate.removal, Report.keep]

/-- What was dropped and what was kept are what the candidates hold. -/
theorem bytes_sweep (candidates : List Candidate) (swept : FileTree κ × Report) :
    (candidates.foldl (sweepOne removing) swept).2.bytes +
        (candidates.foldl (sweepOne removing) swept).2.keptBytes =
      swept.2.bytes + swept.2.keptBytes + (candidates.map Candidate.bytes).sum := by
  induction candidates generalizing swept with
  | nil => simp
  | cons candidate candidates ih =>
    have hstep : (sweepOne removing swept candidate).2.bytes +
        (sweepOne removing swept candidate).2.keptBytes =
          swept.2.bytes + swept.2.keptBytes + candidate.bytes := by
      cases hreason : candidate.reason with
      | none =>
        simp only [sweepOne, hreason, Report.keep]
        omega
      | some reason =>
        cases hrefused : removing.refuses candidate.path with
        | none =>
          simp only [sweepOne, hreason, hrefused]
          omega
        | some why =>
          simp only [sweepOne, hreason, hrefused, Report.keep]
          omega
    rw [List.foldl_cons, ih, hstep, List.map_cons, List.sum_cons]
    omega

variable (hleft : ∀ (tree : FileTree κ) (path other : TreePath), ¬path <+: other →
  (removing.left tree path).get? other = tree.get? other)

include hleft

/-- A path under no directory that was to go is left as it was. -/
theorem get?_sweep_of_not_under {other : TreePath} (swept : FileTree κ × Report)
    (h : ∀ removal ∈ candidates.filterMap Candidate.removal, ¬removal.path <+: other) :
    (candidates.foldl (sweepOne removing) swept).1.get? other = swept.1.get? other := by
  induction candidates generalizing swept with
  | nil => rfl
  | cons candidate candidates ih =>
    rw [List.foldl_cons]
    cases hreason : candidate.reason with
    | none =>
      rw [ih _ (by simpa [Candidate.removal, hreason] using h)]
      simp [sweepOne, hreason]
    | some reason =>
      have hhere : Candidate.removal candidate = some ⟨candidate.path, candidate.bytes, reason⟩ := by
        simp [Candidate.removal, hreason]
      rw [List.filterMap_cons_some hhere, List.forall_mem_cons] at h
      rw [ih _ h.2]
      cases hrefused : removing.refuses candidate.path with
      | none => simp [sweepOne, hreason, hrefused, FileTree.get?_remove, h.1]
      | some why => simp [sweepOne, hreason, hrefused, hleft _ _ _ h.1]

/-- Nothing is left under a directory that went. -/
theorem get?_sweep_of_removed {other : TreePath} (swept : FileTree κ × Report)
    (hapart : candidates.Pairwise fun first later ↦ Apart first.path later.path)
    {removal : Removal} (hremoval : removal ∈ candidates.filterMap Candidate.removal)
    (hgone : removing.refuses removal.path = none) (hunder : removal.path <+: other) :
    (candidates.foldl (sweepOne removing) swept).1.get? other = none := by
  induction candidates generalizing swept with
  | nil => cases hremoval
  | cons candidate candidates ih =>
    obtain ⟨hfirst, hrest⟩ := List.pairwise_cons.mp hapart
    rw [List.foldl_cons]
    obtain ⟨source, hsource, hnamed⟩ := List.mem_filterMap.mp hremoval
    rcases List.mem_cons.mp hsource with rfl | hlater
    · obtain ⟨reason, hreason, rfl⟩ := Option.map_eq_some_iff.mp hnamed
      have hothers : ∀ later ∈ candidates.filterMap Candidate.removal, ¬later.path <+: other := by
        intro later hmem hover
        obtain ⟨next, hnext, hname⟩ := List.mem_filterMap.mp hmem
        obtain ⟨_, _, rfl⟩ := Option.map_eq_some_iff.mp hname
        exact (List.prefix_or_prefix_of_prefix hunder hover).elim (hfirst next hnext).1
          (hfirst next hnext).2
      rw [get?_sweep_of_not_under hleft _ hothers]
      simp only at hgone
      simp [sweepOne, hreason, hgone, FileTree.get?_remove, hunder]
    · exact ih _ hrest (List.mem_filterMap.mpr ⟨source, hlater, hnamed⟩)

end Sweep

/-! ### Everything once -/

/-- How a prune accounts for what is listed: every path once, and every byte. -/
structure Accounted (home : Home κ) (removing : Removing κ)
    (listed : Option (Except String (List TreePath))) : Prop where
  apart : (survey home listed).candidates.Pairwise fun first later ↦ Apart first.path later.path
  covered : ∀ records, listed = some (.ok records) → ∀ entry ∈ entries home records,
    HoldsForeign home entry.relative →
      (∃! candidate, candidate ∈ (survey home listed).candidates ∧
        candidate.path <+: entry.relative) ∨
      ∃ candidate ∈ (survey home listed).candidates, entry.relative <+: candidate.path
  removed : (sweep home removing listed).2.removed =
    (wouldRemove home listed).filter (removing.refuses ·.path = none)
  gone : ∀ removal ∈ (sweep home removing listed).2.removed, ∀ path, removal.path <+: path →
    (sweep home removing listed).1.get? path = none
  untouched : ∀ path, (∀ removal ∈ wouldRemove home listed, ¬removal.path <+: path) →
    (sweep home removing listed).1.get? path = home.tree.get? path
  bytes : (sweep home removing listed).2.bytes + (sweep home removing listed).2.keptBytes =
    ((survey home listed).candidates.map Candidate.bytes).sum
  once : ((survey home listed).candidates.map Candidate.bytes).sum =
    ((home.tree.rows.filter fun row ↦ (survey home listed).candidates.any
      (·.path.isPrefixOf row.1)).map home.counted).sum

/-- Two candidates over one path are one. -/
theorem candidate_eq_of_over {candidates : List Candidate} {first second : Candidate} {path : TreePath}
    (hapart : candidates.Pairwise fun first later ↦ Apart first.path later.path)
    (hfirst : first ∈ candidates) (hsecond : second ∈ candidates) (hover : first.path <+: path)
    (hover' : second.path <+: path) : first = second := by
  have hsymm : Std.Symm fun (first later : Candidate) ↦ Apart first.path later.path :=
    ⟨fun _ _ h ↦ And.symm h⟩
  by_contra hne
  obtain ⟨hnot, hnot'⟩ := hapart.forall hfirst hsecond hne
  exact (List.prefix_or_prefix_of_prefix hover hover').elim hnot hnot'

/-- A prune accounts for everything once. A listed path that holds nothing but what Nodal wrote, or
nothing, is the one kind that is left out.

Assumes: Git lists each path once and after what it is in, and a directory with a listed path inside
holds nothing but what is listed; a refused removal changes nothing outside its directory. -/
theorem accounted {removing : Removing κ} {listed : Option (Except String (List TreePath))}
    (hlisting : ∀ records, listed = some (.ok records) → Listing home records)
    (hleft : ∀ (tree : FileTree κ) (path other : TreePath), ¬path <+: other →
      (removing.left tree path).get? other = tree.get? other) :
    Accounted home removing listed := by
  have hapart : (survey home listed).candidates.Pairwise fun first later ↦
      Apart first.path later.path := by
    cases listed with
    | none => exact List.Pairwise.nil
    | some result =>
      cases result with
      | error _ => exact List.Pairwise.nil
      | ok records =>
        exact surveyFrom_apart (fun _ ↦ id) (entries_ordered (hlisting records rfl).ordered)
  have hshape : ∀ candidate ∈ (survey home listed).candidates,
      candidate.path ≠ [] ∧ candidate.bytes = measure home candidate.path := by
    cases listed with
    | none => exact List.forall_mem_nil _
    | some result =>
      cases result with
      | error _ => exact List.forall_mem_nil _
      | ok records =>
        intro candidate hmem
        obtain ⟨-, hbytes, entry, hentry, hpath⟩ := mem_surveyFrom hmem
        exact ⟨hpath ▸ (mem_entries.mp hentry).2.1, hbytes⟩
  refine ⟨hapart, ?_, ?_, ?_, ?_, ?_, ?_⟩
  · rintro records rfl entry hentry hforeign
    rcases Prune.covered (hlisting records rfl) hentry hforeign with ⟨candidate, hmem, hover⟩ | hinside
    · refine .inl ⟨candidate, ⟨hmem, hover⟩, fun other ⟨hother, hover'⟩ ↦ ?_⟩
      exact candidate_eq_of_over hapart hother hmem hover' hover
    · exact .inr hinside
  · rw [sweep, removed_sweep, List.nil_append]
    rfl
  · intro removal hmem path hunder
    rw [sweep, removed_sweep, List.nil_append, List.mem_filter, decide_eq_true_eq] at hmem
    exact get?_sweep_of_removed hleft _ hapart hmem.1 hmem.2 hunder
  · exact fun path h ↦ get?_sweep_of_not_under hleft _ h
  · rw [sweep, bytes_sweep]
    simp
  · have hbytes : (survey home listed).candidates.map Candidate.bytes =
        ((survey home listed).candidates.map Candidate.path).map (measure home) := by
      rw [List.map_map]
      exact List.map_congr_left fun candidate hmem ↦ (hshape candidate hmem).2
    rw [hbytes, sum_measure]
    · simp only [List.any_map]
      rfl
    · intro path hpath
      obtain ⟨candidate, hmem, rfl⟩ := List.mem_map.mp hpath
      exact (hshape candidate hmem).1
    · exact List.pairwise_map.mpr hapart

/-! ### One home -/

/-- The entries of a home with a package's dependencies, a file of a person's and one of Nodal's. -/
def keptRows : List (TreePath × Entry ℕ) :=
  [([".env.local"], .file 5), ([".nodal"], .directory), ([".nodal", "id"], .file 2),
    (["apps"], .directory), (["apps", "node_modules"], .directory),
    (["apps", "node_modules", "x.js"], .file 3)]

private theorem nodup_keptRows : (keptRows.map Prod.fst).Nodup := by decide

private theorem rooted_keptRows : ∀ row ∈ keptRows, row.1 ≠ [] ∧
    (row.1.dropLast = [] ∨ (row.1.dropLast, Entry.directory) ∈ keptRows) := by
  decide

def keptHome : Home ℕ where
  name := "/trash/unit"
  tree := ⟨keptRows, nodup_keptRows, rooted_keptRows⟩
  follow _ := .other
  len
    | .file size => size
    | .directory | .symlink _ | .other => 0

/-- What Git lists of it. -/
def keptRecords : List TreePath := [[".env.local"], [".nodal"], ["apps"], ["apps", "node_modules"]]

/-- Every removal goes through. -/
def willing : Removing ℕ := ⟨fun _ ↦ none, fun tree _ ↦ tree⟩

theorem listing_keptRecords : Listing keptHome keptRecords where
  ordered := by decide
  whole := by
    have hrows : ∀ record ∈ keptRecords,
        (∃ other ∈ keptRecords, other ≠ record ∧ record <+: other) →
          ∀ row ∈ keptRows, row.2.isDirectory = false → record <+: row.1 →
            ∃ inner ∈ keptRecords, inner ≠ record ∧ record <+: inner ∧ inner <+: row.1 := by
      decide
    intro record hrecord hother path entry hentry
    exact hrows record hrecord hother (path, entry) (FileTree.mem_rows_iff.mpr hentry)

/-- Its dependencies go, and the rest of it is kept. -/
theorem accounted_keptHome : Accounted keptHome willing (some (.ok keptRecords)) := by
  refine accounted (fun records h ↦ ?_) (fun _ _ _ _ ↦ rfl)
  rw [← Except.ok.inj (Option.some.inj h)]
  exact listing_keptRecords

/-- The entry of a home with a directory that an ignore rule covers and nothing is in. -/
def emptiedRows : List (TreePath × Entry ℕ) := [(["scratch"], .directory)]

private theorem nodup_emptiedRows : (emptiedRows.map Prod.fst).Nodup := by decide

private theorem rooted_emptiedRows : ∀ row ∈ emptiedRows, row.1 ≠ [] ∧
    (row.1.dropLast = [] ∨ (row.1.dropLast, Entry.directory) ∈ emptiedRows) := by
  decide

def emptiedHome : Home ℕ := { keptHome with tree := ⟨emptiedRows, nodup_emptiedRows, rooted_emptiedRows⟩ }

/-- An ignored directory with nothing in it is listed, Nodal writes nothing there, and it is under no
candidate and over none. -/
theorem emptied_left_out : Listing emptiedHome [["scratch"]] ∧
    ⟨["scratch"], true⟩ ∈ entries emptiedHome [["scratch"]] ∧
      (∀ written ∈ WRITTEN, ¬["scratch"] <+: written) ∧
        (survey emptiedHome (some (.ok [["scratch"]]))).candidates = [] := by
  refine ⟨⟨by decide, ?_⟩, by decide, by decide, by decide⟩
  intro record hrecord hother
  have halone : ¬∃ other ∈ [["scratch"]], other ≠ record ∧ record <+: other := by
    rw [List.mem_singleton.mp hrecord]
    decide
  exact absurd hother halone

end Nodal.Workspace.Prune
