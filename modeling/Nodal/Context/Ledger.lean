import Nodal.Git.Checkout
import Nodal.Model.Shapes

/-!
# What is read of a unit, and what its siblings are doing

`git/history.rs`, `context/survey.rs`, `context/ledger.rs`: a survey holds what the registry and Git say of
each unit of a project. Of a range of commits it holds no more than a page. The ledger of a unit names every
other unit whose work is off the base, with Git's count of its commits beside the page of them.
-/

set_option autoImplicit false

namespace Nodal.Context.Memory

open Foundation
open Model (Scalar)
open Git (Divergence Integration)
open Git.Status (Change)

/-! ### Rows of the registry -/

abbrev UnitId := Scalar Model.Shapes.ULID.accepts

abbrev Slug := Scalar Model.SLUG

abbrev BranchName := Scalar Model.Shapes.BRANCH.accepts

abbrev Objective := Scalar Model.LINE

abbrev ActorName := Scalar Model.LINE

abbrev EnvName := Scalar Model.ENV_NAME

/-- An object id, as `git` prints it and as the registry holds it. -/
abbrev Oid := Scalar Model.Shapes.OBJECT_ID.accepts

/-- The characters an instant is displayed with. -/
def INSTANT : Text → Bool :=
  Model.accepts 35 fun value ↦ value.all fun c ↦ c.isDigit || ['-', ':', '.', 'T', 'Z'].contains c

/-- An instant, as it is displayed. -/
abbrev Timestamp := Scalar INSTANT

inductive UnitStatus
  | opened
  | review
  | merged
  | archived
  deriving DecidableEq

/-- How a fact is known: Nodal watched it happen, or somebody said so. -/
inductive Epistemic
  | observed
  | stated
  deriving DecidableEq

structure UnitRow where
  id : UnitId
  slug : Slug
  objective : Option Objective
  objectiveEpistemic : Option Epistemic
  branch : BranchName
  /-- The commit the unit forked from. -/
  baseCommit : Option Oid
  status : UnitStatus

inductive EventKind
  | attached
  | detached
  | command
  | commit
  | testResult
  | failure
  | fileTouched
  | finding
  | decision
  | question
  | handoff
  | sync
  | note
  | verdict
  deriving DecidableEq

structure Event where
  ts : Timestamp
  actor : ActorName
  kind : EventKind
  epistemic : Epistemic
  body : Text
  refs : List (Text × Text)

/-- Read one of an event's references. -/
def reference (event : Event) (name : Text) : Option Text :=
  (event.refs.find? (·.1 = name)).map Prod.snd

/-! ### What a branch did -/

structure Commit where
  oid : Oid
  subject : Text

def SHORT : ℕ := 7

def Commit.short (commit : Commit) : Text := commit.oid.text.take SHORT

/-- One file a range of commits changed. -/
structure FileChange where
  change : Change
  path : Text
  origin : Option Text

/-- The single letter Git uses for a change. -/
def FileChange.letter (file : FileChange) : Char :=
  match file.change with
  | .added => 'A'
  | .modified | .unmodified => 'M'
  | .deleted => 'D'
  | .renamed => 'R'
  | .copied => 'C'
  | .typeChanged => 'T'
  | .other code => code

/-- The word for a ref a branch is measured against. -/
def readable (reference : Text) : Text :=
  let namespaces : List (Text × Text) :=
    [("refs/nodal/origin/".toList, "origin/".toList), ("refs/nodal/checkout/".toList, []),
      ("refs/remotes/".toList, []), ("refs/heads/".toList, [])]
  match namespaces.find? fun (beginning, _) ↦ beginning.isPrefixOf reference with
  | some (beginning, shown) => shown ++ reference.drop beginning.length
  | none => reference

/-- What lies between the commit the branch and the base last agreed on, and each of the two. -/
structure Ranges where
  commit : Oid
  /-- The files that differ between the commit and the branch. -/
  touched : List FileChange
  /-- The commits from the commit to the branch, newest first. -/
  commits : List Commit
  /-- The commits from the commit to the base, newest first. -/
  gained : List Commit

/-- What Git answers for a home. -/
structure Reading where
  /-- The ref the branch is measured against. -/
  reference : Text
  divergence : Divergence
  integration : Integration
  /-- What the working tree holds that no commit does. -/
  uncommitted : List FileChange
  /-- `none` where the branch and the base agree on no commit. -/
  ranges : Option Ranges

/-- How many commits are read from a range. -/
def COMMITS : ℕ := 64

/-- The three readings taken from the commit the branch and the base last agreed on. -/
def since (ranges : Ranges) : List FileChange × List Commit × List Commit :=
  (ranges.touched, ranges.commits.take COMMITS, ranges.gained.take COMMITS)

/-- Where a unit's branch stands, and what it and the base have done since they parted. -/
structure Work where
  base : Text
  baseCommit : Option Oid
  forkedAt : Option Oid
  divergence : Divergence
  integration : Integration
  uncommitted : List FileChange
  touched : List FileChange
  commits : List Commit
  gained : List Commit

/-- What Git says about one home. -/
def work (unit : UnitRow) (reading : Reading) : Work :=
  let (touched, commits, gained) := match reading.ranges with
    | some ranges => since ranges
    | none => ([], [], [])
  { base := readable reading.reference
    baseCommit := reading.ranges.map Ranges.commit
    forkedAt := unit.baseCommit
    divergence := reading.divergence
    integration := reading.integration
    uncommitted := reading.uncommitted
    touched := touched
    commits := commits
    gained := gained }

/-! ### A unit as the project holds it -/

/-- How many of a unit's own commands the memory carries. -/
def COMMANDS : ℕ := 10

/-- How many stated notes and handoffs it carries. -/
def STATED : ℕ := 20

/-- How many test results are read. -/
def TESTS : ℕ := 1

/-- What there is to read of one unit: its row, its home, its log newest first, and what Git answers. -/
structure Source where
  unit : UnitRow
  home : Option Text
  /-- `none` where there is no home, or none that Git answers for. -/
  reading : Option Reading
  commands : List Event
  tests : List Event
  /-- Its notes and handoffs. -/
  notes : List Event
  /-- What could not be read, and why. -/
  troubles : List Text
  /-- The names its manifest marks as stand-ins. -/
  standIns : List EnvName

/-- One unit as the project holds it now. -/
structure Snapshot where
  unit : UnitRow
  home : Option Text
  work : Option Work
  commands : List Event
  tests : List Event
  stated : List Event
  notes : List Text
  standIns : List EnvName

/-- The snapshot of one unit, with its log read from the registry. -/
def snapshot (source : Source) : Snapshot where
  unit := source.unit
  home := source.home
  work := source.reading.map (work source.unit)
  commands := source.commands.take COMMANDS
  tests := source.tests.take TESTS
  stated := (source.notes.take STATED).filter (·.epistemic = .stated)
  notes := source.troubles
  standIns := source.standIns

/-- Whether a sibling's ledger names this unit. -/
def Snapshot.isInFlight (snapshot : Snapshot) : Bool :=
  snapshot.unit.status = .opened || snapshot.unit.status = .review

/-! ### The ledger -/

/-- How many lines one sibling may take. -/
def CAP : ℕ := 40

/-- One sibling, before the cap is applied to it. -/
structure Entry where
  heading : Text
  /-- The revision it is measured against, when it could be measured. -/
  base : Option Text
  /-- How many commits its branch holds that the base does not. -/
  ahead : ℕ
  uncommitted : ℕ
  /-- Its commits, newest first, as many as were read. -/
  commits : List Text
  files : List Text
  /-- Why there is nothing to say about it, when there is nothing. -/
  trouble : Option Text

/-- What the branch this unit merges into has gained since the unit left it. -/
structure Gained where
  base : Text
  /-- How many commits it gained. -/
  total : ℕ
  /-- The newest of them. -/
  commits : List Text

structure Ledger where
  gained : Option Gained
  siblings : List Entry

/-- One commit, as a line a person can paste into `git show`. -/
def commitLine (commit : Commit) : Text := commit.short ++ ' ' :: commit.subject

/-- One changed file, with the letter Git gives the change. -/
def fileLine (file : FileChange) : Text :=
  match file.origin with
  | some origin => file.letter :: ' ' :: file.path ++ " (from ".toList ++ origin ++ [')']
  | none => file.letter :: ' ' :: file.path

/-- What is said about a unit with nothing to read. -/
def noHome (other : Snapshot) : Text :=
  if other.home.isSome then "its home is here but Git could not be asked about it".toList
  else "no home on this machine".toList

/-- One sibling's entry, uncapped. -/
def entry (other : Snapshot) : Entry :=
  let heading := other.unit.slug.text ++ " · ".toList ++ other.unit.branch.text
  match other.work with
  | none => ⟨heading, none, 0, 0, [], [], some (noHome other)⟩
  | some work =>
    ⟨heading, some work.base, work.divergence.ahead, work.uncommitted.length,
      work.commits.map commitLine, work.touched.map fileLine, none⟩

/-- What the base has gained since the subject's base commit. -/
def gained (subject : Snapshot) : Option Gained :=
  subject.work.map fun work ↦ ⟨work.base, work.divergence.behind, work.gained.map commitLine⟩

/-- The units a ledger names. -/
def others (subject : Snapshot) (project : List Snapshot) : List Snapshot :=
  project.filter fun other ↦ other.unit.id ≠ subject.unit.id && other.isInFlight

/-- Compile the ledger one unit reads, from the survey of the whole project. -/
def ledger (subject : Snapshot) (project : List Snapshot) : Ledger where
  gained := gained subject
  siblings := (others subject project).map entry

end Nodal.Context.Memory
