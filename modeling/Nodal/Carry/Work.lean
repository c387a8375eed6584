import Nodal.Foundation.Patch

/-!
# What a checkout holds that no commit does

`git/carry.rs`, the reading: two patches and a list of paths, with what refuses to be carried. The
first patch is what the index has over `HEAD`, the second what the working tree has over the index,
and the paths are the ones Git tracks nothing of and no ignore rule covers.

Git is a parameter: how it prints a difference, how long that is, and where it puts a stretch of text
it found at another place than the patch names.
-/

set_option autoImplicit false

namespace Nodal.Carry

open Foundation

/-- A path inside a repository, by its components. -/
abbrev RelPath := List String

/-- The files of a tree, by their paths and lines. A line has its own ending in it. -/
abbrev Tree := Patch.Tree RelPath String

/-- A patch as Git prints one. -/
abbrev Patch := List (Patch.Change RelPath String)

/-! ### A status reading -/

/-- How one path differs on one side. -/
inductive Change
  | unmodified
  | added
  | modified
  | deleted
  | renamed
  | copied
  | typeChanged
  | other (letter : Char)
  deriving DecidableEq, Repr

/-- The status of one path. -/
inductive State
  | tracked (index worktree : Change)
  | unmerged
  | untracked
  | ignored
  deriving DecidableEq, Repr

/-- What a record says of a path that may be a submodule. -/
inductive Submodule
  | no
  | yes (commitMoved modified untracked : Bool)
  deriving DecidableEq, Repr

namespace Submodule

def isOne : Submodule → Bool
  | no => false
  | yes _ _ _ => true

/-- Whether the submodule's own working tree holds work no commit of its own holds. -/
def holdsWork : Submodule → Bool
  | no => false
  | yes _ modified untracked => modified || untracked

end Submodule

/-- One entry of a status listing. -/
structure Entry where
  path : RelPath
  state : State
  submodule : Submodule
  deriving DecidableEq, Repr

/-- What `lstat` says of a path. -/
inductive Kind
  | file
  | symlink
  | directory
  | special (what : String)
  deriving DecidableEq, Repr

/-- What a path is, in the words a refusal uses. -/
def Kind.words : Kind → String
  | directory => "a directory"
  | special what => what
  | file | symlink => "neither a regular file nor a symbolic link"

/-- A checkout as a carry reads it. -/
structure Checkout where
  /-- The branch `HEAD` names and the commit it is on. -/
  position : Option (String × String)
  /-- What that commit has. -/
  head : Tree
  index : Tree
  work : Tree
  entries : List Entry
  /-- What `git ls-files --unmerged` lists. -/
  unmerged : List RelPath
  lstat : RelPath → Option Kind
  /-- How long what is at a path is. -/
  length : RelPath → ℕ

/-- What the working tree has of the paths the index has. -/
def Checkout.tracked (checkout : Checkout) : Tree := fun path ↦
  if (checkout.index path).isSome then checkout.work path else none

/-- Entries that represent work a commit would capture. -/
def Checkout.uncommitted (checkout : Checkout) : List Entry :=
  checkout.entries.filter (·.state ≠ .ignored)

/-- What Git does with patches. -/
structure Git where
  /-- What `git diff` prints of two trees. -/
  diff : Tree → Tree → Patch
  /-- How long a patch is. -/
  bytes : Patch → ℕ
  /-- What a file is after stretches that were found at other places. -/
  elsewhere : List (Patch.Hunk String) → List String → List String

/-! ### The reading -/

/-- How many paths one carry may bring across. -/
def MAX_FILES : ℕ := 5000

/-- How many bytes one carry may bring across. -/
def MAX_BYTES : ℕ := 64 * 1024 * 1024

/-- How much work a carry moved, and of which kind. -/
structure Report where
  staged : ℕ
  unstaged : ℕ
  untracked : ℕ
  files : ℕ
  bytes : ℕ
  deriving DecidableEq, Repr

/-- Whether the checkout had nothing to carry. -/
def Report.carriedNothing (report : Report) : Bool := report.files = 0

/-- What a checkout holds that no commit does. -/
structure Work where
  head : String
  staged : Patch
  unstaged : Patch
  untracked : List RelPath
  report : Report
  deriving DecidableEq, Repr

inductive Error
  | carryUnmerged
  | carryUnanchored
  | carrySubmoduleWork (paths : List RelPath)
  | carryUnsupportedKind (path : RelPath) (kind : String)
  | carryTooLarge (files bytes : ℕ)
  | carryCollision (path : RelPath)
  | io (path : RelPath) (why : String)
  /-- `git apply` did not take a patch. -/
  | git
  deriving DecidableEq, Repr

/-- The submodules whose own working tree holds work. -/
def holdingWork (checkout : Checkout) : List RelPath :=
  (checkout.uncommitted.filter (·.submodule.holdsWork)).map Entry.path

/-- The first carried path that is neither a regular file nor a link. One that is not there is no
kind. -/
def unsupported (checkout : Checkout) : Option (RelPath × Kind) :=
  (checkout.uncommitted.filter (!·.submodule.isOne)).findSome? fun entry ↦
    match checkout.lstat entry.path with
    | none | some .file | some .symlink => none
    | some kind => some (entry.path, kind)

/-- The untracked paths, in the order Git listed them. -/
def untrackedIn (checkout : Checkout) : List RelPath :=
  (checkout.entries.filter (·.state = .untracked)).map Entry.path

/-- How many paths of each kind a status reading holds. -/
def count (checkout : Checkout) : Report :=
  let entries := checkout.uncommitted
  let sides := entries.filterMap fun entry ↦ match entry.state with
    | .tracked index worktree => some (index, worktree)
    | .unmerged | .untracked | .ignored => none
  { staged := (sides.filter (·.1 ≠ .unmodified)).length
    unstaged := (sides.filter (·.2 ≠ .unmodified)).length
    untracked := (entries.filter (·.state = .untracked)).length
    files := entries.length
    bytes := 0 }

/-- What the whole carried set weighs, up to the largest number a byte count holds. -/
def weigh (checkout : Checkout) (untracked : List RelPath) (patches : ℕ) : ℕ :=
  untracked.foldl (fun bytes path ↦
    if (checkout.lstat path).isSome then min (bytes + checkout.length path) (2 ^ 64 - 1) else bytes)
    (min patches (2 ^ 64 - 1))

/-- Read everything a checkout holds that no commit does, and refuse what cannot be carried. -/
def read (git : Git) (checkout : Checkout) : Except Error Work :=
  if checkout.unmerged ≠ [] then .error .carryUnmerged
  else match checkout.position with
  | none => .error .carryUnanchored
  | some (_, head) =>
    if holdingWork checkout ≠ [] then .error (.carrySubmoduleWork (holdingWork checkout))
    else match unsupported checkout with
    | some (path, kind) => .error (.carryUnsupportedKind path kind.words)
    | none =>
      let staged := git.diff checkout.head checkout.index
      let unstaged := git.diff checkout.index checkout.tracked
      let untracked := untrackedIn checkout
      let bytes := weigh checkout untracked (git.bytes staged + git.bytes unstaged)
      let report := { count checkout with bytes }
      if report.files > MAX_FILES ∨ report.bytes > MAX_BYTES then
        .error (.carryTooLarge report.files report.bytes)
      else .ok { head, staged, unstaged, untracked, report }

/-- What a reading that was not refused holds. -/
theorem read_eq_ok {git : Git} {checkout : Checkout} {work : Work}
    (h : read git checkout = .ok work) :
    work.staged = git.diff checkout.head checkout.index ∧
      work.unstaged = git.diff checkout.index checkout.tracked ∧
      work.untracked = untrackedIn checkout := by
  unfold read at h
  split at h
  · cases h
  · split at h
    · cases h
    · split at h
      · cases h
      · split at h
        · cases h
        · dsimp only at h
          split at h
          · cases h
          · cases h
            exact ⟨rfl, rfl, rfl⟩

end Nodal.Carry
