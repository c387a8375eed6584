import Mathlib.Algebra.GroupWithZero.Nat
import Mathlib.Data.List.Dedup
import Mathlib.Data.List.Sort
import Nodal.Foundation.Ancestry

/-!
# Repositories on one disk, and what Git is asked of them

`git/mod.rs`, `git/refs.rs`, `git/status.rs`, `git/layout.rs`: a repository as the readings see it.
Its refs, its `HEAD`, the commits and the objects its store has, and the files it writes about
itself. A commit's identifier hashes its parents, so which parents a commit has is a fact of the
disk and not of one repository; a shallow repository cuts some of them off.

Every reading is one invocation of `git` in one directory, and any of them may fail: it may exit
with a failure, or it may not start or print nothing readable. Which do is a field of the disk, so a
statement about a disk holds whatever fails on it.

A ref name is the list of its parts, and a commit's identifier is the number its hex spells.
-/

set_option autoImplicit false

namespace Nodal.Git

open Foundation.Ancestry

/-- The identifier of a commit. -/
structure Oid where
  value : ℕ
  deriving DecidableEq, Repr

/-- A tree or a blob. -/
structure Object where
  value : ℕ
  deriving DecidableEq, Repr

/-- Where a repository is. -/
abbrev Path := String

/-- A path inside a repository, by its components. -/
abbrev RelPath := List String

/-- Whole seconds since the epoch. -/
abbrev Seconds := ℕ

/-! ### Refs -/

/-- The full name of a ref, by its parts: `refs/heads/main` is `["refs", "heads", "main"]`. -/
abbrev RefName := List String

instance lawfulBEq_refName : LawfulBEq RefName :=
  inferInstance

/-- A ref and what it points at. -/
structure Ref where
  name : RefName
  oid : Oid
  deriving DecidableEq, Repr

/-- Where Nodal keeps its own refs inside a unit's repository. -/
def NAMESPACE : RefName := ["refs", "nodal"]

/-- Where a repository keeps its own branches. -/
def HEADS : RefName := ["refs", "heads"]

/-- Where a repository keeps its reading of a remote. -/
def TRACKING : RefName := ["refs", "remotes"]

/-- The ref under a remote that names a default branch rather than one. -/
def DEFAULT : RefName := ["HEAD"]

/-- The remote every question about the remote is about. -/
def REMOTE : String := "origin"

/-- What a name is called inside a namespace, for a name that is in it. -/
def stripPrefix (space name : RefName) : Option RefName :=
  if space.isPrefixOf name ∧ space.length < name.length then some (name.drop space.length) else none

/-- Whether a name starts with a namespace. -/
def startsWith (space name : RefName) : Bool :=
  (stripPrefix space name).isSome

/-- What `HEAD` names: a ref, born or not, or a commit. -/
inductive Head
  | symbolic (name : RefName)
  | detached (oid : Oid)
  deriving DecidableEq, Repr

/-! ### The working tree -/

/-- The status of one path. -/
inductive State
  | tracked
  | unmerged
  | untracked
  | ignored
  deriving DecidableEq, Repr

/-- One entry of a status listing. -/
structure Entry where
  path : RelPath
  state : State
  deriving DecidableEq, Repr

/-- Whether this entry represents work that a commit would capture. -/
def Entry.isUncommitted (entry : Entry) : Bool :=
  entry.state ≠ .ignored

/-- An ignored path of a home: what it holds, and whether a rule calls it regenerable. -/
structure Candidate where
  path : RelPath
  regenerable : Bool
  bytes : ℕ
  deriving DecidableEq, Repr

/-! ### The record of a fetch -/

/-- What one line of `FETCH_HEAD` is about. -/
inductive Fetched
  | branch (name : RefName)
  | tag (name : RefName)
  | head
  deriving DecidableEq, Repr

/-- One line of `FETCH_HEAD`: what the fetch saw, and the url it saw it at. -/
structure Line where
  oid : Oid
  what : Fetched
  url : String
  deriving DecidableEq, Repr

/-- The record of the last fetch, dated by the file. -/
structure FetchHead where
  lines : List Line
  written : Seconds
  deriving DecidableEq, Repr

/-! ### A repository -/

/-- One repository. Its store lists every commit before its parents. -/
structure Repository (history : Oid → List Oid) where
  refs : List Ref
  head : Head
  commits : List Oid
  ordered : NewestFirst history commits
  objects : List Object
  /-- The `shallow` file: the commits the history is cut at. -/
  shallow : Option (List Oid)
  /-- Whether `objects/info/alternates` is there. -/
  alternates : Bool
  /-- Whether a setting says it is a partial clone. -/
  promisor : Bool
  remotes : List String
  /-- The url of `origin`. -/
  origin : Option String
  /-- Whether a fetch refspec of `origin` brings in every branch. -/
  complete : Bool
  status : List Entry
  ignored : List Candidate
  fetchHead : Option FetchHead
  /-- When a ref last moved, where a log or a loose file says. -/
  moved : RefName → Option Seconds

namespace Repository

variable {history : Oid → List Oid} (repository : Repository history)

/-- The parents a commit has in this repository. -/
def parents (commit : Oid) : List Oid :=
  if commit ∈ repository.shallow.getD [] then [] else history commit

theorem parents_subset (commit : Oid) : repository.parents commit ⊆ history commit := by
  unfold parents
  split
  · exact List.nil_subset _
  · exact List.Subset.refl _

theorem newestFirst : NewestFirst repository.parents repository.commits :=
  repository.ordered.imp fun hne ↦ ⟨hne.1, fun hparent ↦ hne.2 (repository.parents_subset _ hparent)⟩

/-- Every commit the tips reach in this store, newest first. -/
def reach (tips : List Oid) : List Oid :=
  walk repository.parents tips repository.commits

/-- A tip reaches a commit of this store through the store's own commits. -/
def Holds (tip commit : Oid) : Prop :=
  tip ∈ repository.commits ∧ Reaches repository.parents repository.commits tip commit

theorem mem_reach_iff {tips : List Oid} {commit : Oid} :
    commit ∈ repository.reach tips ↔ ∃ tip ∈ tips, repository.Holds tip commit :=
  mem_walk_iff repository.newestFirst

theorem Holds.descends {tip commit : Oid} {repository : Repository history}
    (h : repository.Holds tip commit) : Descends history tip commit :=
  h.2.descends repository.parents_subset

/-- The commit `HEAD` names, where it names one. -/
def headCommit : Option Oid :=
  match repository.head with
  | .symbolic name => (repository.refs.find? (·.name = name)).map Ref.oid
  | .detached oid => some oid

/-- The refs this repository keeps of its own accord. -/
def ownRefs : List Ref :=
  repository.refs.filter (!startsWith TRACKING ·.name)

/-- The tips of `--all`, and of `--exclude=refs/remotes/* --all`. -/
def all (tracking : Bool) : List Oid :=
  ((if tracking then repository.refs else repository.ownRefs).map Ref.oid) ++
    repository.headCommit.toList

/-- What this repository keeps of its own accord: its own refs, and what it has checked out. -/
def ownTips : List Oid :=
  repository.all false

end Repository

/-! ### A disk -/

/-- One invocation of `git`, or one file of Git's that is read without it. -/
inductive Command
  | gitDir
  | status
  | remote
  | remoteUrl
  | forEachRef (space : RefName)
  | symbolicRef
  | revParseHead
  | headFile
  | refspecs
  | promisor
  | stores (wanted : List Oid)
  | unreached (stored : List Oid) (tracking : Bool)
  | among (revs held : List Oid)
  | parents (commits : List Oid)
  | objects (commits boundary : List Oid)
  | fetchHead
  deriving DecidableEq, Repr

/-- How an invocation fails: `git` exits with a failure, or it does not start or says nothing
readable. -/
inductive Failure
  | exit
  | other
  deriving DecidableEq, Repr

/-- A reading that needs another goes as far as that one does. -/
theorem bind_eq_ok {ε α β : Type} {reading : Except ε α} {next : α → Except ε β} {b : β}
    (h : reading >>= next = .ok b) : ∃ a, reading = .ok a ∧ next a = .ok b := by
  cases reading with
  | error failure => cases h
  | ok a => exact ⟨a, rfl, h⟩

/-- A reading whose answer passes a check has answered. -/
theorem answered_of_any {α : Type} {reading : Except Failure α} {check : α → Bool}
    (h : reading.toOption.any check = true) : ∃ a, reading = .ok a ∧ check a = true := by
  cases reading with
  | error failure => cases h
  | ok a => exact ⟨a, rfl, h⟩

/-- Everything the readings touch. -/
structure Disk where
  /-- The parents a commit's identifier hashes. -/
  history : Oid → List Oid
  /-- The trees and blobs a commit adds to its parents'. -/
  adds : Oid → List Object
  /-- What Git finds when it is run in a directory. -/
  repository : Path → Option (Repository history)
  /-- The directory a checkout shares with its worktrees, as its own files name it. -/
  commonDir : Path → Option Path
  /-- Whether `.git` is a directory of the checkout's own. -/
  ordinary : Path → Bool
  /-- A path with every symbolic link on it resolved. -/
  resolve : Path → Path
  /-- The same, for a path that is there. -/
  canonicalize : Path → Option String
  /-- The grouping name of an `origin` url. -/
  normalize : String → String
  /-- What repository a remote url names. -/
  identity : String → Option String
  /-- When a clone last heard from a remote, by the files it wrote. -/
  heard : Path → Option ℕ
  /-- Which invocations fail. -/
  fails : Path → Command → Option Failure

namespace Disk

variable (disk : Disk)

/-- Run `git` in a directory and take its answer whatever the exit code. -/
def ran (path : Path) (command : Command) :
    Except Failure (Option (Repository disk.history)) :=
  match disk.fails path command with
  | some .other => .error .other
  | some .exit => .ok none
  | none => .ok (disk.repository path)

/-- Run `git` in a directory. A failing exit is a failure. -/
def runOk {α : Type} (path : Path) (command : Command) (answers : Repository disk.history → α) :
    Except Failure α :=
  match disk.ran path command with
  | .error failure => .error failure
  | .ok none => .error .exit
  | .ok (some repository) => .ok (answers repository)

variable {disk} {path : Path} {command : Command}

theorem runOk_eq_ok {α : Type} {answers : Repository disk.history → α} {answer : α}
    (h : disk.runOk path command answers = .ok answer) :
    ∃ repository, disk.repository path = some repository ∧ answer = answers repository := by
  unfold runOk ran at h
  cases hfails : disk.fails path command with
  | none =>
    cases hrepository : disk.repository path with
    | none => simp [hfails, hrepository] at h
    | some repository =>
      simp only [hfails, hrepository, Except.ok.injEq] at h
      exact ⟨repository, rfl, h.symm⟩
  | some failure => cases failure <;> simp [hfails] at h

/-- An invocation that does not fail in a repository answers. -/
theorem runOk_of_repository {α : Type} {answers : Repository disk.history → α}
    {repository : Repository disk.history} (hfails : disk.fails path command = none)
    (hrepository : disk.repository path = some repository) :
    disk.runOk path command answers = .ok (answers repository) := by
  simp [runOk, ran, hfails, hrepository]

variable (disk)

/-- Open a repository, asking Git whether it is one. -/
def openRepository (path : Path) : Except Failure Unit :=
  disk.runOk path .gitDir fun _ ↦ ()

/-- The status of a repository. -/
def status (path : Path) : Except Failure (List Entry) :=
  disk.runOk path .status Repository.status

/-- Every remote a repository names. -/
def remotes (path : Path) : Except Failure (List String) :=
  disk.runOk path .remote Repository.remotes

/-- The url of `origin`, nothing where the repository has no such remote. -/
def remoteUrl (path : Path) : Except Failure (Option String) :=
  (disk.ran path .remoteUrl).map (·.bind Repository.origin)

/-- Every ref of a repository. -/
def allRefs (path : Path) : Except Failure (List Ref) :=
  disk.runOk path (.forEachRef []) Repository.refs

/-- The refs of a repository under one namespace. -/
def listRefs (path : Path) (space : RefName) : Except Failure (List Ref) :=
  disk.runOk path (.forEachRef space) fun repository ↦
    repository.refs.filter (startsWith space ·.name)

/-- The branch `HEAD` names, nothing where it is detached. -/
def currentBranch (path : Path) : Except Failure (Option RefName) :=
  (disk.ran path .symbolicRef).map (·.bind fun repository ↦
    match repository.head with
    | .symbolic name => some ((stripPrefix HEADS name).getD (name.drop 1))
    | .detached _ => none)

/-- The commit `HEAD` names. A `HEAD` that names none is a failing exit. -/
def revParseHead (path : Path) : Except Failure Oid := do
  let named ← disk.runOk path .revParseHead Repository.headCommit
  match named with
  | some oid => .ok oid
  | none => .error .exit

/-- Whether the checkout's own `.git` holds a `shallow` file. -/
def shallowFile (path : Path) : Bool :=
  disk.ordinary path && (disk.repository path).any (·.shallow.isSome)

/-- What the `HEAD` file holds, where the files of the repository can be found and read. -/
def headFile (path : Path) : Option Head :=
  if (disk.commonDir path).isSome then (disk.runOk path .headFile Repository.head).toOption else none

end Disk

/-! ### Ordinary repositories -/

/-- An ordinary clone with a clean working tree and no remote. -/
def Repository.ordinary {history : Oid → List Oid} (refs : List Ref) (head : Head)
    (commits : List Oid) (ordered : NewestFirst history commits) : Repository history :=
  { refs, head, commits, ordered, objects := [], shallow := none, alternates := false
    promisor := false, remotes := [], origin := none, complete := true, status := [], ignored := []
    fetchHead := none, moved := fun _ ↦ none }

/-- A disk of repositories each of which has a git directory of its own. -/
def Disk.ordinaries (history : Oid → List Oid) (adds : Oid → List Object)
    (repository : Path → Option (Repository history)) (fails : Path → Command → Option Failure) :
    Disk :=
  { history, adds, repository, fails, commonDir := fun path ↦ some (path ++ "/.git")
    ordinary := fun _ ↦ true, resolve := id, canonicalize := some, normalize := id, identity := some
    heard := fun _ ↦ none }

end Nodal.Git
