import Nodal.Foundation.Machine
import Nodal.Lifecycle.Journal

/-!
# The world the runner acts on

What one effect of the runner does. A `World` is the journal, the processes that are alive, and a
log of what happened to each run: the writes the runner made and the moments a step began or ended
to be applied or undone. The log is not read by any program; the results about the runner are
stated over it.

An effect is the smallest thing that happens at once: one statement of the journal, one transaction,
one question about a process. The `apply` and the `undo` of a step are two effects each, a beginning
and an end, so that a process can die, or another one act, while it is inside a step.

`view` is what the world holds of one run. An effect about another run leaves it as it was
(`view_perform_of_ne`).
-/

set_option autoImplicit false

namespace Nodal.Lifecycle

open Nodal.Foundation

/-- A process: the owner it writes into the journal, and a number no other process ever has, since
the identifiers of processes are used again. -/
structure Process where
  owner : Owner
  serial : ℕ
  deriving DecidableEq, Repr

/-- What was done about one step. -/
inductive Deed
  | applying
  | applied
  | applyFailed
  | undoing
  | undone
  | undoFailed
  deriving DecidableEq, Repr

/-- What happened to a run. -/
inductive Event
  | started
  | reopened
  | found
  | passed
  | marked (step : StepRecord)
  | closed (state : State)
  | committed (outputs : Outputs)
  | acted (position : ℕ) (deed : Deed)

/-- The journal, who is alive, which identifiers are taken, and the log of each run, newest first. -/
structure World where
  journal : Journal
  processes : List Process
  past : List Process
  named : List OperationId
  log : OperationId → List (Process × Event)

/-- What the runner does. -/
inductive Effect
  | start (id : OperationId) (plan : Plan)
  | markStep (id : OperationId) (step : StepRecord)
  | finish (id : OperationId) (state : State)
  | reopen (id : OperationId)
  | steps (id : OperationId)
  | unfinished
  | isRunning (id : OperationId) (pid : ℕ)
  | rebuild (rebuilders : List String) (record : Operation)
  | snapshot (id : OperationId) (records : Records) (kind : String)
  | beginApply (id : OperationId) (position : ℕ)
  | endApply (id : OperationId) (position : ℕ)
  | beginUndo (id : OperationId) (position : ℕ)
  | endUndo (id : OperationId) (position : ℕ)
  | commit (id : OperationId) (kind : String) (outputs : Outputs)

namespace Effect

/-- The run an effect is about. -/
def about : Effect → Option OperationId
  | start id _ | markStep id _ | finish id _ | reopen id | steps id | isRunning id _
  | snapshot id _ _ | beginApply id _ | endApply id _ | beginUndo id _ | endUndo id _
  | commit id _ _ => some id
  | rebuild _ record => some record.id
  | unfinished => none

/-- What an effect is answered. -/
def Answer : Effect → Type
  | start _ _ | markStep _ _ | beginApply _ _ | beginUndo _ _ => Unit
  | finish _ _ | reopen _ | isRunning _ _ => Bool
  | steps _ => List StepRecord
  | unfinished => List Operation
  | rebuild _ _ => Option (Except String Plan)
  | snapshot _ _ _ => Except String Bool
  | endApply _ _ => Except String Output
  | endUndo _ _ => Except String Unit
  | commit _ _ _ => Except Error Output

/-- What the outside decides about an effect: whether a process that is not one of ours has the
identifier asked for, what a plan is rebuilt to, what a step or a registry write answers. -/
def Choice : Effect → Type
  | isRunning _ _ => Bool
  | rebuild _ _ => Except String Plan
  | snapshot _ _ _ => Except String Bool
  | endApply _ _ => Except String Output
  | endUndo _ _ => Except String Unit
  | commit _ _ _ => Except String Output
  | _ => Unit

end Effect

namespace World

/-- Add what happened to the log of a run. -/
def note (w : World) (id : OperationId) (process : Process) (event : Event) : World :=
  { w with log := Function.update w.log id ((process, event) :: w.log id) }

/-- `is_running`: a process with this identifier is alive on the host. Identifiers are `pid_t`. -/
def isRunning (w : World) (host : String) (pid : ℕ) (other : Bool) : Bool :=
  pid < 2 ^ 31 && ((w.processes.any fun process ↦ process.owner = ⟨host, pid⟩) || other)

end World

/-- What one effect answers and does. -/
def perform (process : Process) : (effect : Effect) → effect.Choice → World → effect.Answer × World
  | .start id plan, _, w =>
    ((), World.note { w with journal := w.journal.start id plan process.owner } id process .started)
  | .markStep id step, _, w =>
    ((), World.note { w with journal := w.journal.markStep id step } id process (.marked step))
  | .finish id state, _, w =>
    if w.journal.isOpen id then
      (true, World.note { w with journal := w.journal.finish id state } id process (.closed state))
    else (false, w)
  | .reopen id, _, w =>
    if w.journal.isFailed id then
      (true, World.note { w with journal := w.journal.reopen id process.owner } id process .reopened)
    else (false, w)
  | .steps id, _, w => (w.journal.stepsOf id, w)
  | .unfinished, _, w => (w.journal.unfinished, w)
  | .isRunning id pid, other, w =>
    if w.isRunning process.owner.host pid other then (true, w)
    else (false, w.note id process .found)
  | .rebuild rebuilders record, rebuilt, w =>
    if record.kind ∈ rebuilders then
      match rebuilt with
      | .ok plan => (some (.ok plan), w)
      | .error why => (some (.error why), w.note record.id process .passed)
    else (none, w.note record.id process .passed)
  | .snapshot _ _ _, taken, w => (taken, w)
  | .beginApply id position, _, w => ((), w.note id process (.acted position .applying))
  | .endApply id position, .ok output, w => (.ok output, w.note id process (.acted position .applied))
  | .endApply id position, .error why, w => (.error why, w.note id process (.acted position .applyFailed))
  | .beginUndo id position, _, w => ((), w.note id process (.acted position .undoing))
  | .endUndo id position, .ok _, w => (.ok (), w.note id process (.acted position .undone))
  | .endUndo id position, .error why, w => (.error why, w.note id process (.acted position .undoFailed))
  | .commit _ _ _, .error why, w => (.error (.other why), w)
  | .commit id kind outputs, .ok output, w =>
    -- One transaction: the registry rows and the move out of `running`, or neither.
    if w.journal.isOpen id then
      (.ok output, World.note { w with journal := w.journal.finish id .committed } id process
        (.committed outputs))
    else (.error (.operationVanished id kind), w)

/-! ### What the world holds of one run -/

/-- The row of a run, its steps, and its log. -/
structure View where
  row : Option Operation
  steps : Table ℕ StepRecord
  log : List (Process × Event)

namespace View

/-- The view after something was added to the log. -/
def note (v : View) (process : Process) (event : Event) : View :=
  { v with log := (process, event) :: v.log }

/-- The state the row of the run is in. -/
def state (v : View) : Option State := v.row.map Operation.state

/-- The view after the row of a step was written. -/
def markStep (v : View) (step : StepRecord) : View :=
  { v with
    steps := v.steps.set step.position (Journal.merged step (v.steps.get? step.position)) }

/-- The view after the row of the run was moved to another state. -/
def move (v : View) (state : State) : View :=
  { v with row := v.row.map fun row ↦ { row with state } }

/-- The view after the row of the run was put under another owner. -/
def own (v : View) (owner : Owner) : View :=
  { v with row := v.row.map fun row ↦ { row with host := owner.host, pid := owner.pid } }

variable {v : View} {process : Process} {event : Event} {step : StepRecord} {final : State}
  {owner : Owner}

@[simp] theorem note_row : (v.note process event).row = v.row := rfl
@[simp] theorem note_steps : (v.note process event).steps = v.steps := rfl
@[simp] theorem note_log : (v.note process event).log = (process, event) :: v.log := rfl
@[simp] theorem note_state : (v.note process event).state = v.state := rfl
@[simp] theorem markStep_row : (v.markStep step).row = v.row := rfl
@[simp] theorem markStep_log : (v.markStep step).log = v.log := rfl
@[simp] theorem markStep_state : (v.markStep step).state = v.state := rfl
@[simp] theorem move_steps : (v.move final).steps = v.steps := rfl
@[simp] theorem move_log : (v.move final).log = v.log := rfl
@[simp] theorem own_steps : (v.own owner).steps = v.steps := rfl
@[simp] theorem own_log : (v.own owner).log = v.log := rfl

@[simp] theorem own_state : (v.own owner).state = v.state := by
  simp [state, own, Function.comp_def]

@[simp] theorem move_row_ne_none : (v.move final).row ≠ none ↔ v.row ≠ none := by
  simp [move]

@[simp] theorem own_row_ne_none : (v.own owner).row ≠ none ↔ v.row ≠ none := by
  simp [own]

theorem row_ne_none {state : State} (h : v.state = some state) : v.row ≠ none := by
  intro hrow
  simp [View.state, hrow] at h

theorem move_state : (v.move final).state = v.state.map fun _ ↦ final := by
  simp [state, move, Function.comp_def]

theorem get?_markStep {position : ℕ} : (v.markStep step).steps.get? position =
    if position = step.position then some (Journal.merged step (v.steps.get? position))
    else v.steps.get? position := by
  by_cases h : position = step.position
  · simp [markStep, h]
  · simp [markStep, h, Table.get?_set_of_ne h]

end View

/-- What the world holds of one run. -/
def World.view (w : World) (id : OperationId) : View where
  row := w.journal.operations.get? id
  steps := w.journal.steps id
  log := w.log id

section Views

variable {w : World} {id other : OperationId} {process : Process} {event : Event}

@[simp] theorem view_note_self : (w.note id process event).view id =
    (w.view id).note process event := by
  simp [World.note, World.view, View.note]

theorem view_note_of_ne (h : other ≠ id) :
    (w.note id process event).view other = w.view other := by
  simp [World.note, World.view, Function.update_of_ne h]

theorem isOpen_iff : w.journal.isOpen id = true ↔ (w.view id).state = some .running := by
  simp [Journal.isOpen, World.view, View.state, Option.any_eq_true]

theorem isFailed_iff : w.journal.isFailed id = true ↔ (w.view id).state = some .failed := by
  simp [Journal.isFailed, World.view, View.state, Option.any_eq_true]

/-- An effect about another run leaves what the world holds of this one as it was. -/
theorem view_perform_of_ne {effect : Effect} (h : effect.about ≠ some id)
    (choice : effect.Choice) : (perform process effect choice w).2.view id = w.view id := by
  cases effect with
  | start other plan =>
    have hne : id ≠ other := fun heq ↦ h (heq ▸ rfl)
    rw [perform, view_note_of_ne hne]
    simp [World.view, Journal.start, Table.get?_set_of_ne hne]
  | markStep other step =>
    have hne : id ≠ other := fun heq ↦ h (heq ▸ rfl)
    rw [perform, view_note_of_ne hne]
    simp [World.view, Journal.markStep, Function.update_of_ne hne]
  | finish other state =>
    have hne : id ≠ other := fun heq ↦ h (heq ▸ rfl)
    rw [perform]
    split
    · rw [view_note_of_ne hne]
      simp [World.view, Journal.finish, Table.get?_modify_of_ne hne]
    · rfl
  | reopen other =>
    have hne : id ≠ other := fun heq ↦ h (heq ▸ rfl)
    rw [perform]
    split
    · rw [view_note_of_ne hne]
      simp [World.view, Journal.reopen, Table.get?_modify_of_ne hne]
    · rfl
  | steps other => rfl
  | unfinished => rfl
  | isRunning other pid =>
    have hne : id ≠ other := fun heq ↦ h (heq ▸ rfl)
    rw [perform]
    split
    · rfl
    · exact view_note_of_ne hne
  | rebuild rebuilders record =>
    have hne : id ≠ record.id := fun heq ↦ h (heq ▸ rfl)
    simp only [perform]
    split
    · split
      · rfl
      · exact view_note_of_ne hne
    · exact view_note_of_ne hne
  | snapshot other records kind => rfl
  | beginApply other position | beginUndo other position =>
    exact view_note_of_ne fun heq ↦ h (heq ▸ rfl)
  | endApply other position | endUndo other position =>
    cases choice <;> exact view_note_of_ne fun heq ↦ h (heq ▸ rfl)
  | commit other kind outputs =>
    have hne : id ≠ other := fun heq ↦ h (heq ▸ rfl)
    cases choice with
    | error why => rfl
    | ok output =>
      rw [perform]
      split
      · rw [view_note_of_ne hne]
        simp [World.view, Journal.finish, Table.get?_modify_of_ne hne]
      · rfl

theorem note_log_cases : (w.note id process event).log other = w.log other ∨
    (w.note id process event).log other = (process, event) :: w.log other := by
  by_cases h : other = id
  · subst h
    exact .inr (Function.update_self ..)
  · exact .inl (Function.update_of_ne h _ _)

/-- An effect changes nothing about who is alive, and writes no event but one of its own process. -/
theorem perform_keeps (effect : Effect) (choice : effect.Choice) :
    (perform process effect choice w).2.processes = w.processes ∧
      (perform process effect choice w).2.past = w.past ∧
      ((perform process effect choice w).2.log id = w.log id ∨
        ∃ event, (perform process effect choice w).2.log id = (process, event) :: w.log id) := by
  have hnote : ∀ (w : World) other event, (w.note other process event).processes = w.processes ∧
      (w.note other process event).past = w.past ∧
      ((w.note other process event).log id = w.log id ∨
        ∃ event', (w.note other process event).log id = (process, event') :: w.log id) :=
    fun w other event ↦ ⟨rfl, rfl, note_log_cases.imp_right fun h ↦ ⟨event, h⟩⟩
  have hsame : w.processes = w.processes ∧ w.past = w.past ∧ (w.log id = w.log id ∨
      ∃ event, w.log id = (process, event) :: w.log id) := ⟨rfl, rfl, .inl rfl⟩
  cases effect with
  | start other plan => exact hnote _ _ _
  | markStep other step => exact hnote _ _ _
  | finish other state | reopen other =>
    rw [perform]
    split
    · exact hnote _ _ _
    · exact hsame
  | steps other => exact hsame
  | unfinished => exact hsame
  | isRunning other pid =>
    rw [perform]
    split
    · exact hsame
    · exact hnote _ _ _
  | rebuild rebuilders record =>
    simp only [perform]
    split
    · split
      · exact hsame
      · exact hnote _ _ _
    · exact hnote _ _ _
  | snapshot other records kind => exact hsame
  | beginApply other position | beginUndo other position => exact hnote _ _ _
  | endApply other position | endUndo other position => cases choice <;> exact hnote _ _ _
  | commit other kind outputs =>
    cases choice with
    | error why => exact hsame
    | ok output =>
      rw [perform]
      split
      · exact hnote _ _ _
      · exact hsame

@[simp] theorem perform_processes (effect : Effect) (choice : effect.Choice) :
    (perform process effect choice w).2.processes = w.processes :=
  (@perform_keeps w 0 process effect choice).1

@[simp] theorem perform_past (effect : Effect) (choice : effect.Choice) :
    (perform process effect choice w).2.past = w.past :=
  (@perform_keeps w 0 process effect choice).2.1

theorem perform_log (effect : Effect) (choice : effect.Choice) :
    (perform process effect choice w).2.log id = w.log id ∨
      ∃ event, (perform process effect choice w).2.log id = (process, event) :: w.log id :=
  (perform_keeps effect choice).2.2

/-! ### What an effect does to the run it is about -/

@[simp] theorem view_start (plan : Plan) (choice : (Effect.start id plan).Choice) :
    (perform process (.start id plan) choice w).2.view id =
      View.note { w.view id with row := some (Journal.opened id plan process.owner) } process
        .started := by
  simp [perform, World.view, Journal.start, World.note, View.note]

@[simp] theorem view_markStep (step : StepRecord) (choice : (Effect.markStep id step).Choice) :
    (perform process (.markStep id step) choice w).2.view id =
      ((w.view id).markStep step).note process (.marked step) := by
  simp [perform, World.view, Journal.markStep, World.note, View.note, View.markStep]

/-- Where the row is `running`, the run is closed. -/
theorem perform_finish_open (process : Process) (state : State) (choice : (Effect.finish id state).Choice)
    (h : (w.view id).state = some .running) :
    (perform process (.finish id state) choice w).1 = true ∧
      (perform process (.finish id state) choice w).2.view id =
        ((w.view id).move state).note process (.closed state) := by
  have hopen := isOpen_iff.mpr h
  obtain ⟨row, hrow, hstate⟩ := Option.map_eq_some_iff.mp h
  simp only [perform, hopen, if_true, view_note_self]
  refine ⟨rfl, ?_⟩
  simp [World.view, View.move, View.note, Journal.finish, Journal.finished, show
    w.journal.operations.get? id = some row from hrow, hstate]

/-- Where the row is not `running`, nothing is closed. -/
theorem perform_finish_closed (state : State) (choice : (Effect.finish id state).Choice)
    (h : (w.view id).state ≠ some .running) :
    perform process (.finish id state) choice w = (false, w) := by
  have hopen : w.journal.isOpen id = false := by
    simpa using mt isOpen_iff.mp h
  simp only [perform, hopen]
  rfl

/-- Where the row is `failed`, the run is reopened under the process that asks. -/
theorem perform_reopen_failed (process : Process) (choice : (Effect.reopen id).Choice) (h : (w.view id).state = some .failed) :
    (perform process (.reopen id) choice w).1 = true ∧
      (perform process (.reopen id) choice w).2.view id =
        (((w.view id).move .running).own process.owner).note process .reopened := by
  have hfailed := isFailed_iff.mpr h
  obtain ⟨row, hrow, hstate⟩ := Option.map_eq_some_iff.mp h
  simp only [perform, hfailed, if_true, view_note_self]
  refine ⟨rfl, ?_⟩
  simp [World.view, View.move, View.own, View.note, Journal.reopen, Journal.reopened, show
    w.journal.operations.get? id = some row from hrow, hstate]

/-- Where the row is not `failed`, nothing is reopened. -/
theorem perform_reopen_other (choice : (Effect.reopen id).Choice) (h : (w.view id).state ≠ some .failed) :
    perform process (.reopen id) choice w = (false, w) := by
  have hfailed : w.journal.isFailed id = false := by
    simpa using mt isFailed_iff.mp h
  simp only [perform, hfailed]
  rfl

/-- A registry write that succeeds on an open run commits it. -/
theorem perform_commit_open (process : Process) (kind : String) (outputs : Outputs) (output : Output)
    (h : (w.view id).state = some .running) :
    perform process (.commit id kind outputs) (.ok output) w = (.ok output,
      World.note { w with journal := w.journal.finish id .committed } id process
        (.committed outputs)) ∧
      (perform process (.commit id kind outputs) (.ok output) w).2.view id =
        ((w.view id).move .committed).note process (.committed outputs) := by
  have hopen := isOpen_iff.mpr h
  obtain ⟨row, hrow, hstate⟩ := Option.map_eq_some_iff.mp h
  simp only [perform, hopen, if_true, view_note_self]
  simp [World.view, View.move, View.note, Journal.finish, Journal.finished, show
    w.journal.operations.get? id = some row from hrow, hstate]

end Views

end Nodal.Lifecycle
