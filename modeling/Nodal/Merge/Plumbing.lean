import Nodal.Foundation.Program
import Nodal.Merge.Commands

/-!
# The Git half of a merge

`git/merge.rs`, and what it and `lifecycle/ops/merge.rs` ask of `git/mod.rs`, `git/refs.rs` and
`lifecycle/marker.rs`: commit, squash, rebase, fast-forward. Each function is an attempt over the
commands, in the order the source runs them. `ran` is `cmd::run_ok`, where a command that exits with
a failure is an error; `asked` is `cmd::run`, where it is an answer.
-/

set_option autoImplicit false

namespace Nodal.Merge

open Git Foundation Foundation.Attempt

/-- What a function of a merge is: commands, ending in a value or an error. -/
abbrev Script : Type → Type := Attempt Command Command.Answer String

/-! ### Errors -/

/-- A commit's identifier, as Git prints it. -/
def hex (oid : Oid) : String :=
  let digits := Nat.toDigits 16 oid.value
  String.ofList (List.replicate (40 - digits.length) '0' ++ digits)

/-- A branch without the namespace it is in. -/
def short (branch : RefName) : String :=
  String.intercalate "/" ((stripPrefix HEADS branch).getD branch)

/-- `Error::GitSpawn`. -/
def gitSpawn (source : String) : String := "could not run git: " ++ source

/-- `Error::GitUnknownBranch`. -/
def gitUnknownBranch (repo : Path) (branch : String) : String :=
  repo ++ " has no branch \"" ++ branch ++ "\""

/-- `Error::MergeTargetMoved`. -/
def mergeTargetMoved (branch : RefName) (found : Oid) : String :=
  short branch ++ " has moved to " ++ hex found ++
    " since the rebase; run `nodal merge` again to rebase onto it, or stop"

/-- `Error::HomeUnmarked`. -/
def homeUnmarked (home : Path) : String :=
  home ++ " carries no marker, so it is not a home Nodal may act on"

/-- `Error::MergeNotStopped`. -/
def mergeNotStopped (slug : String) : String :=
  slug ++ " is not in the middle of a merge"

/-- Where a side is, as errors name it. -/
def Setting.at (setting : Setting) : Side → Path
  | .home => setting.home
  | .source => setting.root

namespace Plumbing

variable (setting : Setting)

/-! ### Running a command -/

/-- Run a command, and fail when it exits with a failure. -/
def ran (command : Command) : Script command.Yields := do
  match ← call command with
  | .ok value => pure value
  | .error (.exit text) => throw text
  | .error (.spawn source) => throw (gitSpawn source)

/-- Run a command. One that exits with a failure answers nothing. -/
def asked (command : Command) : Script (Option command.Yields) := do
  match ← call command with
  | .ok value => pure (some value)
  | .error (.exit _) => pure none
  | .error (.spawn source) => throw (gitSpawn source)

/-! ### Readings -/

/-- The object a ref points at. -/
def readRef (side : Side) (name : RefName) : Script (Option Oid) := asked (.showRef side name)

/-- Whether a repository is in the middle of a rebase. A file that cannot be looked at is not there. -/
def rebasing : Script Bool := do
  match ← call Command.statRebase with
  | .ok _ => pure true
  | .error _ => pure false

/-- Whether the home is in the middle of a rebase. -/
def isRebasing : Script Bool := do
  ran .gitDir
  rebasing

/-- The branch that is checked out. -/
def currentBranch (side : Side) : Script (Option RefName) := asked (.symbolicRef side)

/-- Whether every commit of the earlier is in the later, or in `HEAD`. -/
def isAncestor (side : Side) (earlier : Oid) (later : Option Oid) : Script Bool := do
  return (← asked (.isAncestor side earlier later)).isSome

/-- Whether a branch is the one a repository has checked out. -/
def checkedOut (side : Side) (branch : RefName) : Script Bool := do
  return (← asked (.symbolicRef side)) = some branch

/-! ### Moving a branch -/

/-- Move a branch, through the working tree when that branch is the checked-out one. -/
def moveBranch (side : Side) (why : Why) (branch : RefName) (dest : Oid) : Script PUnit := do
  if ← checkedOut side branch then
    ran (.resetKeep side why dest)
  else
    ran (.branchForce side why branch dest)

/-- Move a branch of the project's checkout to a commit, and only when that is a fast-forward. -/
def fastForward (branch : RefName) (dest : Oid) : Script Bool := do
  match ← readRef .source branch with
  | none => throw (gitUnknownBranch (setting.at .source) (short branch))
  | some found =>
    if found = dest then
      return false
    if !(← isAncestor .source found (some dest)) then
      throw (mergeTargetMoved branch found)
    moveBranch .source (.forward found) branch dest
    return true

/-- Put a branch back at a commit it used to point at. -/
def restore (side : Side) (branch : RefName) (dest : Oid) : Script PUnit := do
  if (← readRef side branch) = some dest then
    return
  moveBranch side .restore branch dest

/-! ### Committing -/

/-- Who a commit is by. Where the repository does not say, Nodal's own name is used. -/
def identity : Script PUnit := do
  let _ ← asked .identity

/-- Commit every tracked change and every untracked file that no ignore rule covers. -/
def commitAll : Script (Option Oid) := do
  ran .addAll
  if (← asked .diffCached).isSome then
    return none
  identity
  ran .commit
  return some (← ran .revParseHead)

/-- Take back a commit and leave what it held in the working tree. -/
def uncommit (dest : Oid) : Script PUnit := do
  if (← ran .revParseHead) = dest then
    return
  ran (.resetMixed dest)

/-- Fold everything the branch has since its merge base with `onto` into one commit. -/
def squash (onto : Oid) : Script (Option Oid) := do
  let base ← ran (.mergeBase onto)
  if (← ran (.count base)) < 2 then
    return none
  identity
  let commit ← ran (.commitTree base)
  ran (.resetSoft commit)
  return some commit

/-! ### Rebasing -/

/-- What a rebase did. -/
inductive Rebased
  | done
  | conflict
  deriving DecidableEq, Repr

/-- Run one rebase command, and read a conflict as an answer rather than a failure. -/
def runRebase (command : Command) : Script Rebased := do
  identity
  match ← call command with
  | .ok _ => pure .done
  | .error (.spawn source) => throw (gitSpawn source)
  | .error (.exit text) =>
    if ← rebasing then
      return .conflict
    throw text

/-- Carry on a rebase a person has resolved the conflicts of. -/
def resume : Script Rebased := do
  if !(← rebasing) then
    return .done
  runRebase .rebaseContinue

/-- Rebase the checked-out branch onto a commit. -/
def rebase (onto : Oid) : Script Rebased := do
  ran .gitDir
  if ← rebasing then
    return ← resume
  if ← isAncestor .home onto none then
    return .done
  runRebase (.rebase onto)

/-- Stop a rebase and put the branch back where it was. -/
def abort : Script PUnit := do
  ran .gitDir
  if !(← rebasing) then
    return
  ran .rebaseAbort

/-! ### Fetching -/

/-- Fetch one branch of the project's checkout into a ref of Nodal's own. -/
def fetchBranch (branch dest : RefName) : Script Oid := do
  ran (.fetchBranch branch dest)
  match ← readRef .home dest with
  | some oid => pure oid
  | none => throw (gitUnknownBranch (setting.at .home) (short branch))

/-- Fetch one branch of the home, keeping no ref for it. -/
def fetchObjects (branch : RefName) : Script PUnit := ran (.fetchObjects branch)

end Plumbing

end Nodal.Merge
