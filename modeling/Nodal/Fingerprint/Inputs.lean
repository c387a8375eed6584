import Mathlib.Data.List.Lex
import Nodal.Foundation.Utf8

/-!
# Which paths feed which part of a fingerprint

`fingerprint/inputs.rs`: the table of input classes, each a part of a fingerprint, the key the part
belongs to, and the selectors of the paths that feed it. A path of a tree is its names from the root
down, and its text is the names with slashes between them (`TreePath.names_eq_of_text`).
-/

set_option autoImplicit false

namespace Nodal.Fingerprint

open Foundation Foundation.Text

/-! ### Strings and paths -/

/-- A string of the program. No allocation is larger than `isize::MAX` bytes. -/
structure Str where
  text : Text
  fits : (bytes text).length < 2 ^ 63
  deriving DecidableEq

theorem Str.text_inj {first second : Str} : first.text = second.text ↔ first = second := by
  refine ⟨fun h ↦ ?_, congrArg _⟩
  cases first
  cases second
  cases h
  rfl

/-- A name that a directory of a Git tree can hold. -/
def Plain (name : Text) : Prop :=
  name ≠ [] ∧ '/' ∉ name ∧ name ≠ ".".toList ∧ name ≠ "..".toList

instance (name : Text) : Decidable (Plain name) :=
  inferInstanceAs (Decidable (_ ∧ _))

/-- Names with slashes between them. -/
def joinedNames (names : List Text) : Text := List.intercalate ['/'] names

/-- The path of an entry of a tree, relative to the root of the repository. -/
structure TreePath where
  names : List Text
  nonempty : names ≠ []
  plain : ∀ name ∈ names, Plain name
  fits : (bytes (joinedNames names)).length < 2 ^ 63
  deriving DecidableEq

namespace TreePath

/-- The path as Git writes it. -/
def text (path : TreePath) : Text := joinedNames path.names

def fileName (path : TreePath) : Option Text := path.names.getLast?

theorem split_text (path : TreePath) : split '/' path.text = path.names :=
  split_intercalate path.nonempty fun name hname ↦ (path.plain name hname).2.1

theorem names_inj {first second : TreePath} : first.names = second.names ↔ first = second := by
  refine ⟨fun h ↦ ?_, congrArg _⟩
  cases first
  cases second
  cases h
  rfl

/-- Two paths with one text are one path. -/
theorem text_inj {first second : TreePath} : first.text = second.text ↔ first = second := by
  refine ⟨fun h ↦ names_inj.mp ?_, congrArg _⟩
  rw [← split_text, ← split_text, h]

end TreePath

/-! ### The table -/

/-- The parts a fingerprint is composed of. -/
inductive FingerprintPart
  | toolchain
  | dependencies
  | schema
  | services
  | recipe
  | generated
  | secrets
  deriving DecidableEq

/-- Which of the two keys a class contributes to. -/
inductive Key
  | workspace
  | schema
  deriving DecidableEq

/-- How a row selects paths out of a tree. -/
inductive Selector
  /-- Exactly this path. -/
  | path (exact : Text)
  /-- Any file with this name. -/
  | name (name : Text)
  /-- Any file whose name starts with this. -/
  | namePrefix (start : Text)
  /-- Every entry under this directory. -/
  | dir (dir : Text)
  deriving DecidableEq

namespace Selector

/-- Whether this selector covers a path. -/
def isMatch : Selector → TreePath → Bool
  | .path exact, file => file.names = split '/' exact
  | .name expected, file => file.fileName = some expected
  | .namePrefix start, file => file.fileName.any start.isPrefixOf
  | .dir under, file => (split '/' under).isPrefixOf file.names && file.names ≠ split '/' under

end Selector

/-- One input class: a named part of a fingerprint and the paths that feed it. -/
structure Class where
  part : FingerprintPart
  key : Key
  selectors : List Selector
  deriving DecidableEq

/-- Whether any selector of this class covers a path. -/
def Class.isMatch (row : Class) (path : TreePath) : Bool := row.selectors.any (·.isMatch path)

/-- Every class, in the order a fingerprint composes them. -/
def CLASSES : List Class := [
  { part := .toolchain
    key := .workspace
    selectors := [
      .name ".nvmrc".toList, .name ".node-version".toList, .name ".tool-versions".toList,
      .name "mise.toml".toList, .name ".mise.toml".toList, .name ".python-version".toList,
      .name ".ruby-version".toList, .name ".java-version".toList, .name "rust-toolchain".toList,
      .name "rust-toolchain.toml".toList] },
  { part := .dependencies
    key := .workspace
    selectors := [
      .name "package.json".toList, .name ".npmrc".toList, .name ".yarnrc.yml".toList,
      .name "pnpm-workspace.yaml".toList, .name "pnpm-lock.yaml".toList,
      .name "package-lock.json".toList, .name "npm-shrinkwrap.json".toList,
      .name "yarn.lock".toList, .name "bun.lock".toList, .name "bun.lockb".toList,
      .name "Cargo.toml".toList, .name "Cargo.lock".toList, .name "go.mod".toList,
      .name "go.sum".toList, .name "pyproject.toml".toList, .name "poetry.lock".toList,
      .name "uv.lock".toList, .name "requirements.txt".toList, .name "Pipfile.lock".toList,
      .name "Gemfile".toList, .name "Gemfile.lock".toList, .name "composer.json".toList,
      .name "composer.lock".toList] },
  { part := .services
    key := .workspace
    selectors := [
      .namePrefix "Dockerfile".toList, .namePrefix "docker-compose".toList,
      .name ".dockerignore".toList, .name "compose.yml".toList, .name "compose.yaml".toList,
      .path "supabase/config.toml".toList] },
  { part := .recipe
    key := .workspace
    selectors := [
      .path "nodal.toml".toList, .path "turbo.json".toList, .path "nx.json".toList,
      .path "lerna.json".toList, .path ".env.example".toList] },
  { part := .schema
    key := .schema
    selectors := [
      .dir "supabase/migrations".toList, .path "supabase/config.toml".toList,
      .path "supabase/seed.sql".toList, .dir "prisma/migrations".toList,
      .path "prisma/schema.prisma".toList, .dir "db/migrations".toList, .dir "db/migrate".toList,
      .dir "migrations".toList] }]

/-! ### Entries -/

/-- What a tree entry points at. -/
inductive Kind
  | blob
  | tree
  | commit
  | tag
  deriving DecidableEq

/-- One entry of a tree at a commit. -/
structure Entry where
  mode : Str
  kind : Kind
  oid : Str
  path : TreePath
  deriving DecidableEq

/-- Whether an entry names content rather than a subtree. -/
def isContent (entry : Entry) : Bool := entry.kind = .blob || entry.kind = .commit

/-- One tree entry a class selected, reduced to what a fingerprint covers. -/
structure Input where
  path : TreePath
  mode : Str
  oid : Str
  deriving DecidableEq

def Entry.input (entry : Entry) : Input := ⟨entry.path, entry.mode, entry.oid⟩

/-- What a class selects of a listing, in the order of the listing. -/
def Class.selected (row : Class) (entries : List Entry) : List Input :=
  ((entries.filter isContent).filter (row.isMatch ·.path)).map Entry.input

end Nodal.Fingerprint
