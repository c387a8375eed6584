import Nodal.Lifecycle.Beside
import Nodal.Merge.Steps

/-!
# Runs of merges

The machine of everything that happens to a home and to the project's checkout: merges, the rollback
of a merge whose process is gone, `merge --abort`, commits a person makes in the home, and commits
somebody adds to the branch of the checkout. Processes run at once and may die between any two
effects.

A merge enters with what `prepare` read, and its rollback with what the journal kept of it.
-/

set_option autoImplicit false

namespace Nodal.Merge

open Git Foundation Foundation.Attempt Lifecycle

variable (setting : Setting)

/-- What a process was called for. -/
inductive Job
  | merge (id : OperationId) (params : Params)
  | rollBack (id : OperationId) (params : Params)
  /-- `merge --abort` of the merge that stopped. -/
  | abort (id : OperationId)
  | work
  | advance

/-- How the commands of a merge are performed. What the registry write of a merge changes is not in
either repository. -/
def performance : Performance Command World Command.Answer Command.Choice where
  act := perform setting
  register _ _ w := .ok (nothing, w)

/-- What a process of a merge does. -/
abbrev Doing : Type → Type := Program (Act Command) (Act.Answer Command.Answer)

/-- Whether a function answered without an error. -/
def succeeds {ε β : Type} (p : Doing (Except ε β)) : Doing Bool := do
  return (← p).toBool

/-- The program of a job, which ends with whether it answered without an error. -/
def programOf : Job → Doing Bool
  | .merge id params =>
    succeeds (operated (deeds setting id params) (run id (plan setting params))).run
  | .rollBack id params =>
    succeeds (operated (deeds setting id params) (Lifecycle.rollBack id (plan setting params))).run
  | .abort _ => succeeds (outside (abortMerge setting).run)
  | .work => succeeds (outside (call Command.work : Script (Command.Answer .work)).run)
  | .advance => succeeds (outside (call Command.advance : Script (Command.Answer .advance)).run)

/-- What `prepare` reads and refuses before it makes a plan. -/
def prepared (params : Params) (w : World) : Bool :=
  w.home.marker = some setting.unit &&
    params.resuming = w.home.rebasing.isSome &&
    w.home.rebasing.elim (w.home.head = .symbolic setting.branch)
      (fun rebasing ↦ rebasing.branch = setting.branch) &&
    w.ref .home setting.branch = some params.head &&
    w.ref .source params.target.branch = some params.target.oid

/-- A run whose row is open and whose process is gone. -/
def isGone (id : OperationId) (w : Lifecycle.World) : Bool :=
  (w.journal.operations.get? id).any fun row ↦
    row.state = .running && w.processes.all fun process ↦ process.owner ≠ row.owner

/-- The processes that are alive after one more has arrived. -/
def arrived (process : Process) (w : Performed World) : Performed World :=
  { w with journal := { w.journal with
      processes := process :: w.journal.processes, past := process :: w.journal.past } }

/-- A process enters. -/
def enter (process : Process) (job : Job) (w : Performed World) : Option (Performed World) :=
  if w.journal.admits process then
    match job with
    | .merge id params =>
      if id ∉ w.journal.named ∧ w.journal.journal.operations.get? id = none ∧
          prepared setting params w.outside then
        let w := arrived process w
        some ⟨{ w.journal with named := id :: w.journal.named },
          { w.outside with
            current := id, plans := Function.update w.outside.plans id (some params) }⟩
      else none
    | .rollBack id params =>
      if isGone id w.journal ∧ w.outside.plans id = some params then
        let w := arrived process w
        some { w with outside := { w.outside with current := id } }
      else none
    | .abort id =>
      let w := arrived process w
      some { w with outside := { w.outside with current := id } }
    | .work | .advance => some (arrived process w)
  else none

/-- The processes over one home and one checkout. -/
def machine : Machine Process Job (Performed World) (Act Command) (Act.Answer Command.Answer)
    (Act.Choice Command.Choice) Bool where
  program _ := programOf setting
  enter := enter setting
  leave process w := { w with journal := depart process w.journal }
  perform := (performance setting).perform

/-- What the outside chooses where every command runs: the commit each makes or names, and how a
rebase ends. -/
def granted (made : Command → Oid) (outcome : Outcome) : (act : Act Command) → act.Choice Command.Choice
  | .journal effect =>
    match effect with
    | .isRunning _ _ => false
    | .rebuild _ _ | .snapshot _ _ _ | .endApply _ _ => .error ""
    | .endUndo _ _ => .ok ()
    | .commit _ _ _ => .ok nothing
    | .start _ _ | .markStep _ _ | .finish _ _ | .reopen _ | .steps _ | .unfinished | .beginApply _ _
    | .beginUndo _ _ => ()
  | .outside command =>
    match command with
    | .commit => .ok (made .commit)
    | .mergeBase onto => .ok (made (.mergeBase onto))
    | .commitTree base => .ok (made (.commitTree base))
    | .snapshot name => .ok (made (.snapshot name))
    | .advance => .ok (made .advance)
    | .rebase _ | .rebaseContinue => .ok outcome
    | .work => .ok (made .work, ∅)
    | .showRef _ _ | .gitDir | .statRebase | .revParse _ | .revParseHead | .symbolicRef _
    | .fetchBranch _ _ | .fetchObjects _ | .addAll | .diffCached | .identity | .count _
    | .resetSoft _ | .resetMixed _ | .isAncestor _ _ _ | .rebaseAbort | .resetKeep _ _ _
    | .branchForce _ _ _ _ | .updateRef _ _ | .deleteRef _ | .readMarker => .ok ⟨⟩

/-- The journal and the repositories, and what each live process has left to do. -/
abbrev Stage : Type :=
  Config Process (Performed World) (Act Command) (Act.Answer Command.Answer) Bool

/-- One step of a history. -/
abbrev Happening : Type := Label Process Job (Act Command) (Act.Choice Command.Choice)

end Nodal.Merge
