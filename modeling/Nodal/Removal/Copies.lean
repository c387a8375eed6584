import Nodal.Removal.Elsewhere

/-!
# Where else a commit lives, and what a store must show before it vouches

`lifecycle/uniqueness.rs`, `lifecycle/complete.rs` and the types of `lifecycle/assess.rs`. A store
that reaches a commit vouches for the work only where nothing it says about itself speaks against
it, and where the walk of the commits it is asked about finds every object.
-/

set_option autoImplicit false

namespace Nodal.Removal

open Git Foundation.Ancestry

/-- How many paths or commits one group names before it only counts them. -/
def SAMPLE : ℕ := 10

/-! ### The remote question -/

/-- Whether anything on this machine could check a home's own remote-tracking refs. -/
inductive Witness
  | unchecked
  | checked (readIn : List Path) (unobserved : List Unobserved)
  | direct (readIn : List Path)
  | noRemote
  deriving DecidableEq, Repr

namespace Witness

/-- Which case this is, for a home with these remotes and this reading of them. -/
def of (remotes : List String) (found : Elsewhere) : Witness :=
  if remotes = [] then .noRemote
  else if found.witnesses = [] then .unchecked
  else if found.direct then .direct found.witnesses
  else .checked found.witnesses found.unobserved

/-- Whether this reading leaves the remote question open. -/
def isUnchecked : Witness → Bool
  | unchecked => true
  | checked _ unobserved => !unobserved.isEmpty
  | direct _ | noRemote => false

/-- Whether this reading settled the remote question. -/
def settled : Witness → Bool
  | noRemote | direct _ => true
  | unchecked | checked _ _ => false

/-- The repositories whose reading stands behind this one. -/
def readers : Witness → List Path
  | checked readIn _ | direct readIn => readIn
  | unchecked | noRemote => []

end Witness

/-! ### Completeness -/

/-- Why one store may not stand as a second copy of the commits it holds. -/
inductive Lacking
  | sameRepository
  | borrowed
  | isPartial
  | shallow
  | missing (objects : ℕ)
  | unreadable
  deriving DecidableEq, Repr

/-- What a report says about a store this is true of. -/
def Lacking.because : Lacking → String
  | sameRepository => "holds them and is a worktree of this home, so its objects go with the home"
  | borrowed => "holds them and borrows its objects from another store, which this removal " ++
      "or a collection elsewhere may take"
  | isPartial => "holds them and is a partial clone, so it holds the commits and not the work"
  | shallow => "holds them and is shallow, so it promises no history behind a tip"
  | missing _ => "holds them and does not hold every object behind them"
  | unreadable => "holds them and could not be read"

/-- One store that holds commits of a home and may not stand as a copy of them. -/
structure Incomplete where
  store : Path
  lacking : Lacking
  deriving DecidableEq, Repr

/-- The clause a refusal adds about this store. -/
def Incomplete.because (incomplete : Incomplete) : String :=
  incomplete.store ++ " " ++ incomplete.lacking.because

/-- What a store says about itself, or nothing when it says nothing against itself. A store whose
git directory cannot be found says nothing. -/
def admits (disk : Disk) (store home : Path) : Option Lacking := do
  let common ← disk.commonDir store
  let repository := disk.repository store
  if (disk.commonDir home).any (disk.resolve · = disk.resolve common) then
    some .sameRepository
  else if repository.any (·.alternates) then some .borrowed
  else if repository.any (·.shallow.isSome) then some .shallow
  else if (disk.isPartial store).toOption.getD false then some .isPartial
  else none

/-- Whether a store that admits nothing against itself is missing an object anyway. -/
def incomplete (disk : Disk) (store home : Path) (claimed : List Oid) : Option Lacking :=
  match disk.boundaryOf home claimed with
  | .error _ => some .unreadable
  | .ok boundary => match disk.missingObjects store claimed boundary with
    | .ok 0 => none
    | .ok objects => some (.missing objects)
    | .error _ => some .unreadable

/-! ### Commits -/

/-- Why a person is needed, in the order a report ranks it. -/
inductive Needs
  | uniqueLoss
  | blockingRuntime
  | unknownEvidence
  | diverged
  | review
  | nothing
  deriving DecidableEq, Repr

/-- Where a reason sorts. -/
def Needs.rank : Needs → ℕ
  | uniqueLoss => 0
  | blockingRuntime => 1
  | unknownEvidence => 2
  | diverged => 3
  | review => 4
  | nothing => 5

/-- Where else a commit of a home lives. -/
inductive Copies
  | onlyHere (witness : Witness)
  | secondLocalCopy (heldBy : Path)
  | remoteProved (witness : Witness)
  | notChecked (witness : Witness) (stores : List Incomplete)
  deriving DecidableEq, Repr

namespace Copies

/-- The words a report prints over the group. -/
def label : Copies → String
  | onlyHere witness => if witness.settled then "only here" else "only here by the newest reading"
  | secondLocalCopy _ => "second local copy"
  | remoteProved _ => "proved on the remote"
  | notChecked _ _ => "not checked"

/-- Why a reclaim would stop over it, when it would. -/
def needs : Copies → Option Needs
  | onlyHere _ => some .uniqueLoss
  | notChecked _ _ => some .unknownEvidence
  | secondLocalCopy _ | remoteProved _ => none

/-- A group is over work that would be lost, over work nobody could check, or over neither. -/
theorem needs_cases (copies : Copies) : copies.needs = none ∨ copies.needs = some .uniqueLoss ∨
    copies.needs = some .unknownEvidence := by
  cases copies <;> simp [needs]

/-- Whether removing this home leaves the commit readable somewhere. -/
def survives (copies : Copies) : Bool :=
  copies.needs.isNone

/-- The words a refusal is raised under, which name the store where there is one. -/
def detail (copies : Copies) (count : ℕ) : String :=
  let said := copies.label ++ " (" ++ toString count ++ ")"
  match copies with
  | notChecked _ stores => stores.foldl (fun said store ↦ said ++ "; " ++ store.because) said
  | _ => said

/-- The stores a disposition credits. -/
def holders : Copies → List Path
  | secondLocalCopy heldBy => [heldBy]
  | remoteProved witness => witness.readers
  | onlyHere _ | notChecked _ _ => []

end Copies

/-- The home's commits under one disposition. -/
structure CommitGroup where
  copies : Copies
  count : ℕ
  sample : List Oid
  deriving DecidableEq, Repr

/-- One commit group, or nothing when the disposition covers no commit. -/
def commitGroup (copies : Copies) (commits : List Oid) : Option CommitGroup :=
  if commits = [] then none else some ⟨copies, commits.length, commits.take SAMPLE⟩

/-! ### Files and state -/

/-- What a reclaim does with the home itself. -/
inductive Fate
  | trashed
  | leftInPlace
  deriving DecidableEq, Repr

/-- What a home holds that a reclaim has an opinion about. -/
inductive Held
  | uncommitted
  | untracked
  | untrackedDeclared
  | localState
  | generated
  deriving DecidableEq, Repr

namespace Held

/-- The words a report prints over the group. -/
def label : Held → String
  | uncommitted => "uncommitted changes"
  | untracked => "untracked files"
  | untrackedDeclared => "untracked files the project calls regenerable"
  | localState => "local state no tool writes again"
  | generated => "build output and installed dependencies"

/-- Whether a reclaim refuses rather than going ahead over it. -/
def refuses : Held → Bool
  | uncommitted | untracked | untrackedDeclared => true
  | localState | generated => false

end Held

/-- The paths of one home under one disposition. -/
structure PathGroup where
  held : Held
  fate : Fate
  count : ℕ
  sample : List RelPath
  bytes : Option ℕ
  deriving DecidableEq, Repr

/-! ### Runtime -/

/-- The signals attribution reads. -/
inductive Source
  | environment
  | cwd
  | docker
  | listener
  deriving DecidableEq, Repr

/-- How far a signal got. -/
inductive Reach
  | unread
  | part
  deriving DecidableEq, Repr

/-- A signal that could not be read, or not in full, and why. -/
structure Note where
  signal : Source
  why : String
  reach : Reach
  deriving DecidableEq, Repr

/-- Whether this note says that a signal did not run. -/
def Note.unread (note : Note) (signal : Source) : Bool :=
  note.signal = signal ∧ note.reach = .unread

/-- A process that only stands in a home. -/
structure Standing where
  pid : ℕ
  command : Option String
  holding : Option String
  deriving DecidableEq, Repr

/-- What it is and which process it is. -/
def Standing.label (standing : Standing) : String :=
  let what := standing.command.getD "unnamed command"
  let named := what ++ " (pid " ++ toString standing.pid ++ ")"
  match standing.holding with
  | some held => named ++ " " ++ held
  | none => named

/-- What is running against one unit, as far as a move of its home asks. -/
structure Runtime where
  bystanders : List Standing
  notes : List Note
  deriving DecidableEq, Repr

/-- Why a home cannot be moved over what the process table said. -/
inductive Unmovable
  | standing (bystanders : List Standing)
  | unread (note : Note)
  deriving DecidableEq, Repr

/-- Why a move of the home would refuse over this reading. -/
def unmovable (runtime : Runtime) : Option Unmovable :=
  match runtime.notes.find? (·.unread .environment) with
  | some note => some (.unread note)
  | none => if runtime.bystanders = [] then none else some (.standing runtime.bystanders)

end Nodal.Removal
