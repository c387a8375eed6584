import Nodal.Removal.Findings
import Nodal.Lifecycle.Performed

/-!
# What a reclaim acts on

`lifecycle/ops/reclaim.rs`: the home and the other repositories of the machine, the directories that
are there, the refs of the remotes, and what each thing a reclaim does changes of them. A reading of
the home is one moment, and so is a person's hook, a delete on the remote and the move.

Others write at any moment and may write anything. The log keeps, newest first, what was read, what was
written and by whom; nothing reads it.
-/

set_option autoImplicit false

namespace Nodal.Reclaim

open Git Removal Foundation Foundation.Ancestry

/-! ### One unit -/

/-- What a reclaim is about and what it was asked for. -/
structure Setting where
  unit : String
  slug : String
  home : Path
  /-- Where the home goes. -/
  trash : Path
  /-- The project's checkout. -/
  root : Path
  /-- Whether Nodal made the home. -/
  managed : Bool
  force : Bool
  prune : Bool
  deriving DecidableEq, Repr

/-- Nodal's own refs for one unit, `refs/nodal/<unit>/`. -/
def space (unit : String) : RefName := NAMESPACE ++ [unit]

/-- The ref of a forced reclaim's snapshot. -/
def wip (unit : String) : RefName := space unit ++ ["wip"]

/-- The ref a home is recorded on before an operation. -/
def pre (unit operation : String) : RefName := space unit ++ ["pre", operation]

/-! ### The disk -/

/-- Put a repository at a path, or none. -/
def place (disk : Disk) (path : Path) (repository : Option (Repository disk.history)) : Disk :=
  { disk with repository := Function.update disk.repository path repository }

/-- What stands at one path, moved to another. -/
def relocate (disk : Disk) (source dest : Path) : Disk :=
  place (place disk dest (disk.repository source)) source none

/-- A repository with a snapshot of it on a ref: a new commit on `HEAD`, which nothing names yet. -/
def recordedOn {history : Oid → List Oid} (repository : Repository history) (name : RefName)
    (made : Oid) : Option (Repository history) :=
  if h : NewestFirst history (made :: repository.commits) ∧ made ∉ repository.refs.map Ref.oid ∧
      repository.headCommit ≠ some made ∧ repository.head ≠ .symbolic name then
    some { repository with
      refs := ⟨name, made⟩ :: repository.refs.filter (·.name ≠ name)
      commits := made :: repository.commits
      ordered := h.1 }
  else none

/-- A repository with what a rule calls regenerable removed, but for what would not go. -/
def swept {history : Oid → List Oid} (goes : RelPath → Bool) (repository : Repository history) :
    Repository history :=
  { repository with
    ignored := repository.ignored.filter fun found ↦ !(found.regenerable && goes found.path) }

/-- A repository without some of the files Nodal wrote into it. -/
def unadopted {history : Oid → List Oid} (goes : RelPath → Bool) (repository : Repository history) :
    Repository history :=
  { repository with
    status := repository.status.filter fun entry ↦ !(isNodalsOwn entry && goes entry.path) }

/-! ### The world -/

/-- What happened. A disk is as it was and as it is after. -/
inductive Event
  /-- The home was read, over this disk. -/
  | read (input : Input) (disk : Disk)
  /-- There was no home to read. -/
  | gone
  /-- The `pre_reclaim` hook ended well, or there was none to run. -/
  | passed
  /-- Refs went from a remote. -/
  | deleted (names : List RefName)
  /-- The hook or another process wrote. -/
  | wrote (before after : Disk)
  /-- The home was recorded on a ref of Nodal's. -/
  | recorded (before after : Disk)
  /-- The home was moved away. -/
  | moved (before after : Disk)
  /-- The home was moved back. -/
  | returned (before after : Disk)
  /-- What can be built again was removed, or what Nodal wrote. -/
  | trimmed (before after : Disk)

/-- Whether the reclaim was begun, is running in a process, or has ended there. -/
inductive Turn
  | before
  | of (process : Lifecycle.Process)
  | over
  deriving DecidableEq, Repr

/-- The machine a reclaim runs on. -/
structure Site where
  disk : Disk
  /-- The directories that are there. -/
  there : Path → Bool
  /-- The refs each remote holds. -/
  remote : String → List RefName
  turn : Turn
  log : List Event

/-- What a process may leave of the machine. -/
structure Left where
  disk : Disk
  there : Path → Bool
  remote : String → List RefName

/-! ### Commands -/

/-- The phases whose hook a reclaim runs. -/
inductive Phase
  | preReclaim
  | postReclaim
  deriving DecidableEq, Repr

/-- Which way the home is moved. -/
inductive Way
  | away
  | back
  deriving DecidableEq, Repr

/-- What a reclaim does, and what others do. -/
inductive Command
  /-- The unit's rows, the hold on its home, the project's row. -/
  | rows
  /-- Whether the home is there, and whose marker it carries. -/
  | placed
  /-- What the project's recipe declares regenerable. -/
  | recipe
  /-- The repositories beside the project's checkout. -/
  | siblings
  | assess (input : Input)
  | processes
  /-- The state directory, the approvals, and the end of the transaction. -/
  | prepared
  | snapshot (name : RefName)
  | hook (phase : Phase)
  | tethers
  | wasPushed
  | isDir (path : Path)
  | openRepository (path : Path)
  | remotes (path : Path)
  /-- `git ls-remote`. -/
  | lsRemote (remote : String) (space : RefName)
  /-- `git push --delete`. -/
  | delete (remote : String) (names : List RefName)
  | stop
  | createParent (path : Path)
  | rename (way : Way)
  | sweep (path : Path)
  | unadopt
  /-- Another process writes. -/
  | write

/-- What a command answers. -/
@[reducible] def Command.Answer : Command → Type
  | rows | prepared | hook _ | delete _ _ | stop | createParent _ | rename _ | unadopt => Except String Unit
  | placed | wasPushed | snapshot _ => Except String Bool
  | recipe => List RelPath
  | siblings => List Path
  | assess _ => Except Failure (Assessment × Verdict)
  | processes => Runtime
  | tethers => Except String (List ℕ)
  | isDir _ => Bool
  | openRepository _ => Except Failure Unit
  | remotes _ => Except Failure (List String)
  | lsRemote _ _ => Except String (List RefName)
  | sweep _ | write => Unit

/-- What is left open about a command. -/
@[reducible] def Command.Choice : Command → Type
  | rows | placed | prepared | stop | createParent _ | rename _ | lsRemote _ _ => Except String Unit
  | recipe => List RelPath
  | siblings => List Path
  | assess _ => Seconds
  | processes => Runtime
  | snapshot _ => Except String (Option Oid)
  | hook _ => Except String Unit × Left
  | tethers => Except String (List ℕ)
  | wasPushed => Except String Bool
  | delete _ _ => Except (String × (RefName → Bool)) Unit
  | sweep _ => RelPath → Bool
  | unadopt => Except String Unit × (RelPath → Bool)
  | write => Left
  | isDir _ | openRepository _ | remotes _ => Unit

namespace Site

/-- The machine after something changed the disk. -/
def change (site : Site) (disk : Disk) (event : Disk → Disk → Event) : Site :=
  { site with disk, log := event site.disk disk :: site.log }

/-- The machine after something was seen. -/
def note (site : Site) (event : Event) : Site := { site with log := event :: site.log }

/-- The machine as another process left it. -/
def leave (site : Site) (left : Left) : Site :=
  { site.change left.disk .wrote with there := left.there, remote := left.remote }

/-- A directory moved, with what it holds. -/
def move (site : Site) (source dest : Path) (event : Disk → Disk → Event) : Site :=
  { site.change (relocate site.disk source dest) event with
    there := Function.update (Function.update site.there dest true) source false }

/-- The repository at a path, changed where there is one. -/
def edit (site : Site) (path : Path)
    (f : Repository site.disk.history → Repository site.disk.history) : Site :=
  match site.disk.repository path with
  | none => site
  | some repository => site.change (place site.disk path (some (f repository))) .trimmed

/-- Refs taken off a remote. -/
def unref (site : Site) (remote : String) (names : List RefName) : Site :=
  { site with
    remote := Function.update site.remote remote ((site.remote remote).filter (· ∉ names))
    log := .deleted names :: site.log }

end Site

/-- The names that are Nodal's own to delete. -/
def owned (names : List RefName) : List RefName := names.filter (startsWith NAMESPACE)

variable (setting : Setting)

/-- The ends of a move. -/
def Way.source : Way → Path
  | away => setting.home
  | back => setting.trash

def Way.dest : Way → Path
  | away => setting.trash
  | back => setting.home

def Way.event : Way → Disk → Disk → Event
  | away => .moved
  | back => .returned

/-- What one command answers and does. -/
def perform : (command : Command) → command.Choice → Site → command.Answer × Site
  | .rows, found, s => (found, s)
  | .placed, marker, s =>
    if s.there setting.home then (marker.map fun _ ↦ true, s) else (.ok false, s.note .gone)
  | .recipe, declared, s => (declared, s)
  | .siblings, siblings, s => (siblings, s)
  | .assess input, now, s =>
    match assess s.disk input with
    | .error failure => (.error failure, s)
    | .ok assessment =>
      (.ok (assessment, assessment.verdict s.disk [] now), s.note (.read input s.disk))
  | .processes, seen, s => (seen, s)
  | .prepared, ended, s => (ended, s)
  | .snapshot name, made, s =>
    match made, s.disk.repository setting.home with
    | .error why, _ => (.error why, s)
    | .ok _, none => (.error "not a repository", s)
    | .ok made, some repository =>
      -- A repository whose `HEAD` has no commit has nothing to record.
      match repository.headCommit, made.bind (recordedOn repository name) with
      | none, _ => (.ok false, s)
      | some _, none => (.error "the snapshot could not be made", s)
      | some _, some after => (.ok true, s.change (place s.disk setting.home (some after)) .recorded)
  | .hook phase, (ended, left), s =>
    let s := s.leave left
    (ended, if phase = .preReclaim ∧ ended.isOk then s.note .passed else s)
  | .tethers, groups, s => (groups, s)
  | .wasPushed, pushed, s => (pushed, s)
  | .isDir path, _, s => (s.there path, s)
  | .openRepository path, _, s => (s.disk.openRepository path, s)
  | .remotes path, _, s => (s.disk.remotes path, s)
  | .lsRemote remote space, reached, s =>
    (reached.map fun _ ↦ (s.remote remote).filter (startsWith space), s)
  | .delete remote names, sent, s =>
    if owned names = [] then (.ok (), s)
    else match sent with
      | .ok _ => (.ok (), s.unref remote (owned names))
      | .error (why, went) => (.error why, s.unref remote ((owned names).filter went))
  | .stop, stopped, s => (stopped, s)
  | .createParent _, made, s => (made, s)
  | .rename way, renamed, s =>
    match renamed with
    | .error why => (.error why, s)
    | .ok _ =>
      if s.there (way.source setting) then
        (.ok (), s.move (way.source setting) (way.dest setting) way.event)
      else (.error "No such file or directory", s)
  | .sweep path, goes, s => ((), s.edit path (swept goes))
  | .unadopt, (ended, goes), s => (ended, s.edit setting.home (unadopted goes))
  | .write, left, s => ((), s.leave left)

end Nodal.Reclaim
