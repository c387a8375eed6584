import Nodal.Lifecycle.World

/-!
# The runner

`lifecycle/mod.rs`: `run` applies a plan and writes its registry rows, `retry` carries on with a run
that a failed step left behind, and `resolve` finishes or undoes the runs whose process is gone.
Each function is an attempt over the effects of `Nodal.Lifecycle.World`, in the order the source
makes them; where the source writes `?`, the `do` block stops at the error.

The three loops that apply steps are one loop of the source written three times, and are
`applySteps` here with what differs as its arguments: which steps are done already, and what is
written down before the failure of a step is returned.
-/

set_option autoImplicit false

namespace Nodal.Lifecycle

open Nodal.Foundation Nodal.Foundation.Attempt

/-- What a function of the runner is. -/
abbrev Run : Type → Type := Attempt Effect Effect.Answer Error

/-- The ref a home is recorded on before an operation, `refs/nodal/<unit>/pre/<operation>`. -/
structure Reference where
  unit : String
  operation : OperationId
  deriving DecidableEq, Repr

/-- What a finished run of a plan left behind, for the caller that started it. -/
structure Done where
  id : OperationId
  record : Option Reference
  outputs : Outputs
  committed : Output

/-- What `resolve` did about one unfinished operation. -/
inductive Action
  | inProgress
  | elsewhere
  | rolledBack (undone : List String)
  | resumed (applied : List String)
  | unknown
  | unresolved (why : String)
  | failed (key why : String)
  deriving DecidableEq, Repr

/-- One unfinished operation and what became of it. -/
structure Resolution where
  id : OperationId
  kind : String
  subject : String
  action : Action
  deriving DecidableEq, Repr

/-! ### Writing down where a run is -/

/-- Write down where a step has got to and what it produced. A `null` output is not written. -/
def mark (id : OperationId) (step : ℕ × String) (state : StepState) (output : Option Output) :
    Run Unit :=
  call (Effect.markStep id
    { position := step.1, key := step.2, state, output := output.filter fun o ↦ !o.isNull })

/-- Move a run out of `running`, and insist that there was one to move. -/
def close (id : OperationId) (kind : String) (state : State) : Run Unit := do
  let changed : Bool ← call (Effect.finish id state)
  if changed then pure () else throw (.operationVanished id kind)

/-- What `close` is told an operation is when it is being kept rather than undone. -/
def keptKind : String := "operation"

/-- Write down what a failed step reported, and close the run as `failed`. -/
def keep (id : OperationId) (step : ℕ × String) (why : Error) : Run Unit := do
  mark id step .applying (some (.failed why.display))
  close id keptKind .failed

/-- Put a `failed` run back into `running`, under this process. -/
def reopen (id : OperationId) (kind : String) : Run Unit := do
  let changed : Bool ← call (Effect.reopen id)
  if changed then pure () else throw (.operationVanished id kind)

/-- Commit the home a mutating plan is about, before the plan touches it. -/
def record (plan : Plan) (id : OperationId) : Run (Except String (Option Reference)) :=
  match plan.records with
  | none => pure (.ok none)
  | some records => do
    let taken : Except String Bool ← call (Effect.snapshot id records plan.kind)
    match taken with
    | .error why => pure (.error why)
    | .ok true => pure (.ok (some ⟨records.unit, id⟩))
    | .ok false => pure (.ok none)

/-- The registry rows and the record that the operation finished, written together. -/
def commit (id : OperationId) (plan : Plan) (outputs : Outputs) : Run Output := do
  let committed : Except Error Output ← call (Effect.commit id plan.kind outputs)
  match committed with
  | .ok output => pure output
  | .error why => throw why

/-! ### One step -/

/-- `step.apply()`. -/
def apply (id : OperationId) (position : ℕ) : Run (Except String Output) := do
  let _ ← call (Effect.beginApply id position)
  call (Effect.endApply id position)

/-- `step.undo()`. -/
def undo (id : OperationId) (position : ℕ) : Run (Except String Unit) := do
  let _ ← call (Effect.beginUndo id position)
  call (Effect.endUndo id position)

/-! ### Undoing -/

/-- How far `undoSteps` got. -/
inductive Undone
  | all (keys : List String)
  | stopped (key why : String)
  deriving DecidableEq, Repr

/-- The steps of a run that may have changed something. -/
def actedPositions (id : OperationId) : Run (List StepRecord) := do
  let steps : List StepRecord ← call (Effect.steps id)
  pure (steps.filter fun step ↦ step.state.mayHaveActed)

/-- The loop of `undoSteps`, over the steps it has left. -/
def undoEach (id : OperationId) (acted : List StepRecord) :
    List (Step × ℕ) → List String → Run Undone
  | [], undone => pure (.all undone)
  | (step, position) :: rest, undone =>
    if acted.any fun record ↦ record.position = position then do
      match ← undo id position with
      | .error source => pure (.stopped step.key source)
      | .ok _ => do
        mark id (position, step.key) .undone none
        undoEach id acted rest (undone ++ [step.key])
    else undoEach id acted rest undone

/-- Undo a run's steps in reverse, stopping at the first undo that fails. -/
def undoSteps (id : OperationId) (plan : Plan) : Run Undone := do
  let acted ← actedPositions id
  undoEach id acted plan.positioned.reverse []

/-- Undo what a failing run applied, and mark it rolled back. -/
def undoApplied (id : OperationId) (plan : Plan) : Run Unit := do
  match ← undoSteps id plan with
  | .all _ => close id plan.kind .rolledBack
  | .stopped key why => do
    close id plan.kind .failed
    throw (.operationUndo id plan.kind key why)

/-! ### Applying -/

/-- The loop of `run`, `retry` and `resume`, over the steps it has left: apply each one that is not
`done`, and do `failing` before the failure of one is returned. -/
def applySteps (id : OperationId) (kind : String) (done : List (ℕ × String))
    (failing : ℕ × String → Error → Run Unit) :
    List (Step × ℕ) → Outputs → List String → Run (Outputs × List String)
  | [], outputs, applied => pure (outputs, applied)
  | (step, position) :: rest, outputs, applied =>
    if (position, step.key) ∈ done then applySteps id kind done failing rest outputs applied
    else do
      mark id (position, step.key) .applying none
      match ← apply id position with
      | .ok output => do
        mark id (position, step.key) .applied (some output)
        applySteps id kind done failing rest (outputs.record step.key output)
          (applied ++ [step.key])
      | .error source => do
        failing (position, step.key) (.operationStep id kind step.key source)
        throw (.operationStep id kind step.key source)

/-- Which steps of a run are already done, by position and key. -/
def appliedKeys (id : OperationId) : Run (List (ℕ × String)) := do
  let steps : List StepRecord ← call (Effect.steps id)
  pure ((steps.filter fun step ↦ step.state = .applied).map fun step ↦ (step.position, step.key))

/-- What the applied steps of a run produced, read out of the journal. -/
def journalOutputs (id : OperationId) : Run Outputs := do
  let steps : List StepRecord ← call (Effect.steps id)
  pure (recordedOutputs steps)

/-- What `run` does about a step that failed, before it returns the failure. -/
def failedRun (id : OperationId) (plan : Plan) (step : ℕ × String) (failure : Error) : Run Unit :=
  if plan.recovery = .resume then keep id step failure else undoApplied id plan

/-- Run a plan: apply every step, then write the registry rows in one transaction. -/
def run (id : OperationId) (plan : Plan) : Run Done := do
  let _ ← call (Effect.start id plan)
  match ← record plan id with
  | .error why => do
    close id plan.kind .failed
    throw (.other why)
  | .ok recorded => do
    let (outputs, _) ← applySteps id plan.kind [] (failedRun id plan) plan.positioned Outputs.new []
    match ← (commit id plan outputs).outcome with
    | .ok committed => pure { id, record := recorded, outputs, committed }
    | .error source => do
      undoApplied id plan
      throw source

/-- Carry on with a run that a failed step left behind. -/
def retry (id : OperationId) (plan : Plan) : Run Done := do
  reopen id plan.kind
  let done ← appliedKeys id
  let outputs ← journalOutputs id
  let (outputs, _) ← applySteps id plan.kind done (keep id) plan.positioned outputs []
  let committed ← commit id plan outputs
  pure { id, record := none, outputs, committed }

/-! ### Resolving -/

/-- Undo every step of a rebuilt plan that the journal says may have acted. -/
def rollBack (id : OperationId) (plan : Plan) : Run Action := do
  match ← undoSteps id plan with
  | .all undone => do
    close id plan.kind .rolledBack
    pure (.rolledBack undone)
  | .stopped key why => do
    close id plan.kind .failed
    pure (.failed key why)

/-- Apply the steps a rebuilt plan has left, then commit it. -/
def resume (id : OperationId) (plan : Plan) : Run Action := do
  let done ← appliedKeys id
  let outputs ← journalOutputs id
  let (outputs, applied) ←
    applySteps id plan.kind done (fun _ _ ↦ pure ()) plan.positioned outputs []
  let _ ← commit id plan outputs
  pure (.resumed applied)

/-- Finish or undo one operation whose process is gone. -/
def takeOver (record : Operation) (rebuilders : List String) : Run Action := do
  let rebuilt : Option (Except String Plan) ← call (Effect.rebuild rebuilders record)
  match rebuilt with
  | none => pure .unknown
  | some (.error why) => pure (.unresolved why)
  | some (.ok plan) =>
    match record.recovery with
    | .rollBack => rollBack record.id plan
    | .resume => resume record.id plan

/-- What an owner is to the process asking (`Owner::state`). -/
def Owner.stateFor (owner here : Owner) (id : OperationId) : Run Liveness :=
  if owner.host ≠ here.host then pure .elsewhere
  else if owner.pid = here.pid then pure .running
  else do
    let running : Bool ← call (Effect.isRunning id owner.pid)
    pure (if running then .running else .gone)

/-- What `resolve` does about one unfinished operation. -/
def actOn (here : Owner) (rebuilders : List String) (record : Operation) : Run Action := do
  match ← record.owner.stateFor here record.id with
  | .running => pure .inProgress
  | .elsewhere => pure .elsewhere
  | .gone => takeOver record rebuilders

/-- The loop of `resolve`, over the operations it has left. -/
def resolveEach (here : Owner) (rebuilders : List String) :
    List Operation → List Resolution → Run (List Resolution)
  | [], resolutions => pure resolutions
  | record :: rest, resolutions => do
    let action ← actOn here rebuilders record
    resolveEach here rebuilders rest
      (resolutions ++ [{ id := record.id, kind := record.kind, subject := record.subject, action }])

/-- Report every unfinished operation and resolve the ones that are ours to resolve. -/
def resolve (here : Owner) (rebuilders : List String) : Run (List Resolution) := do
  let unfinished : List Operation ← call Effect.unfinished
  resolveEach here rebuilders unfinished []

end Nodal.Lifecycle
