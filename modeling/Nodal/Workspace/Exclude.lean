import Nodal.Foundation.FileTree

/-!
# What a unit home does not receive

`workspace/exclude.rs` and the names of `workspace/relocate.rs`: one table of directories, read twice.
A clone leaves out the rows that are not kept where they sit at the root of the tree; a relocation
looks for the rows marked so anywhere under the home. A recipe adds to both lists.

Every row carries where it came from. A row of the table is a guess about a name, and yields where
the commit tracks what it names; a row the project wrote is an instruction, and does not.
-/

set_option autoImplicit false

namespace Nodal.Workspace

open Foundation

/-! ### The table -/

/-- One directory the prior art names, and what is done with it. -/
structure Row where
  path : TreePath
  keep : Bool
  /-- Whether a copy of it at another path must be removed rather than trusted. -/
  invalidate : Bool
  reason : String
  deriving DecidableEq, Repr

/-- A row a unit home receives. -/
def kept (path : TreePath) (reason : String) : Row := ⟨path, true, false, reason⟩

/-- A row a clone leaves out. -/
def dropped (path : TreePath) (reason : String) : Row := ⟨path, false, false, reason⟩

/-- A row a clone leaves out and a home removes wherever under it the directory sits. -/
def droppedEverywhere (path : TreePath) (reason : String) : Row := ⟨path, false, true, reason⟩

/-- Every directory this class of tool treats as generated state, and the answer for each one. -/
def ROWS : List Row :=
  [dropped [".claude", "worktrees"] "checkouts another tool made, which the clone would multiply",
    dropped [".nodal"] "the state of the copy it was found in",
    dropped ["test-results"] "output of a run that did not happen here",
    dropped ["coverage"] "output of a run that did not happen here",
    droppedEverywhere [".next", "cache"] "a build cache that records its own path",
    droppedEverywhere ["__pycache__"] "compiled modules that record their own path",
    kept ["node_modules"] "installed dependencies, kept warm",
    kept [".pnpm-store"] "the dependency store, kept warm",
    kept [".venv"] "installed dependencies, kept warm",
    kept ["target"] "build output, kept warm",
    kept ["dist"] "build output, kept warm",
    kept ["build"] "build output, kept warm",
    kept [".next"] "build output, kept warm without its cache",
    kept [".nuxt"] "build output, kept warm",
    kept [".svelte-kit"] "build output, kept warm",
    kept [".turbo"] "a task cache, kept warm",
    kept [".vite"] "a task cache, kept warm",
    kept [".parcel-cache"] "a task cache, kept warm",
    kept [".cache"] "a task cache, kept warm"]

/-- The rows a home must not keep at a path other than the one they were made at. -/
def invalidated : List Row :=
  ROWS.filter (·.invalidate)

/-- The rows a tool writes again from the tree that is still there. -/
def regenerable : List Row :=
  ROWS.filter fun row ↦ row.keep || row.invalidate

/-- The reason the table gives for dropping a path, when it holds it. -/
def reasonFor (path : TreePath) : Option String :=
  (ROWS.find? fun row ↦ !row.keep && row.path = path).map Row.reason

/-! ### A path somebody wrote -/

/-- One component of a path as it is written. -/
inductive Component
  | normal (part : String)
  | curDir
  | parentDir
  | rootDir
  deriving DecidableEq, Repr

/-- The components that name something, or nothing where one cannot name anything inside a tree. -/
def normals : List Component → Option TreePath
  | [] => some []
  | .normal part :: rest => (normals rest).map (part :: ·)
  | .curDir :: rest => normals rest
  | .parentDir :: _ | .rootDir :: _ => none

/-- A path as a plain relative one, or nothing when it cannot name anything inside a tree. -/
def normalise (path : List Component) : Option TreePath :=
  (normals path).filter (· ≠ [])

/-! ### What a clone leaves out -/

/-- Where a row on an exclusion list came from. -/
inductive Origin
  | default
  | recipe
  deriving DecidableEq, Repr

/-- One row of an exclusion list. -/
structure Excluded where
  path : TreePath
  origin : Origin
  deriving DecidableEq, Repr

/-- The paths a clone leaves out. -/
structure Excludes where
  rows : List Excluded
  deriving DecidableEq, Repr

namespace Excludes

/-- Add one path from one source. A path the list already holds takes the origin of a recipe. -/
def add (list : Excludes) (origin : Origin) (path : TreePath) : Excludes :=
  if list.rows.any (·.path = path) then
    ⟨list.rows.map fun row ↦
      if row.path = path ∧ origin = .recipe then { row with origin := .recipe } else row⟩
  else ⟨list.rows ++ [⟨path, origin⟩]⟩

/-- Add paths from one source, in order. -/
def extend (list : Excludes) (paths : List TreePath) (origin : Origin) : Excludes :=
  paths.foldl (add · origin) list

/-- The list every clone is given: the rows of the table that are not kept. -/
def defaultList : Excludes :=
  extend ⟨[]⟩ ((ROWS.filter (!·.keep)).map Row.path) .default

/-- The default list with a recipe's `base.exclude` added. -/
def withRecipe (recipe : List (List Component)) : Excludes :=
  defaultList.extend (recipe.filterMap normalise) .recipe

/-- Whether a clone leaves out a path. -/
def excludes (list : Excludes) (relative : TreePath) : Bool :=
  list.rows.any (·.path.isPrefixOf relative)

/-- Take a path off the list. -/
def keep (list : Excludes) (path : TreePath) : Excludes :=
  ⟨list.rows.filter (·.path ≠ path)⟩

theorem excludes_iff {list : Excludes} {relative : TreePath} :
    list.excludes relative = true ↔ ∃ row ∈ list.rows, row.path <+: relative := by
  simp [excludes]

/-- What is under a path that is left out is left out. -/
theorem excludes_of_prefix {list : Excludes} {above relative : TreePath}
    (h : list.excludes above = true) (hstarts : above <+: relative) :
    list.excludes relative = true := by
  obtain ⟨row, hrow, hunder⟩ := excludes_iff.mp h
  exact excludes_iff.mpr ⟨row, hrow, hunder.trans hstarts⟩

end Excludes

/-! ### What a relocation looks for -/

/-- Why a path a project named is removed. -/
def RECIPE_REASON : String := "named by the project as a cache that records its own path"

/-- One cache name a relocator looks for: it matches a directory whose path ends with it. -/
structure Named where
  path : TreePath
  reason : String
  deriving DecidableEq, Repr

/-- The names, in the order they are tried. -/
structure InvalidateCache where
  names : List Named
  deriving DecidableEq, Repr

namespace InvalidateCache

/-- The names the table holds. -/
def defaultList : InvalidateCache :=
  ⟨invalidated.map fun row ↦ ⟨row.path, row.reason⟩⟩

/-- Add one path a recipe names, where no name has it. -/
def add (list : InvalidateCache) (path : TreePath) : InvalidateCache :=
  if list.names.any (·.path = path) then list else ⟨list.names ++ [⟨path, RECIPE_REASON⟩]⟩

/-- The default list with the paths a recipe names added. -/
def withRecipe (recipe : List (List Component)) : InvalidateCache :=
  (recipe.filterMap normalise).foldl add defaultList

/-- Why a directory cannot be kept, or nothing when no name matches it. -/
def matched (list : InvalidateCache) (relative : TreePath) : Option String :=
  (list.names.find? (·.path.isSuffixOf relative)).map Named.reason

end InvalidateCache

end Nodal.Workspace
