import Mathlib.Data.Nat.Basic
import Nodal.Foundation.Table
import Nodal.Lifecycle.Step

/-!
# The journal

`lifecycle/journal.rs` and `lifecycle/owner.rs`: the rows an operation writes about itself while it
runs. `operations` holds one row a run, `steps` one row for each step a run reached. Every function
here is one statement of the source, on the two tables; the times a row was written at are left
out, since no decision reads them.
-/

set_option autoImplicit false

namespace Nodal.Lifecycle

open Nodal.Foundation

/-! ### Whose run it is -/

/-- The process that started an operation, or took it up again. -/
structure Owner where
  host : String
  pid : ℕ
  deriving DecidableEq, Repr

/-- What became of the process that started an operation. -/
inductive Liveness
  | running
  | elsewhere
  | gone
  deriving DecidableEq, Repr

/-! ### The rows -/

/-- How far an operation got. -/
inductive State
  | running
  | committed
  | rolledBack
  | failed
  deriving DecidableEq, Repr

/-- How far one step got. -/
inductive StepState
  | applying
  | applied
  | undone
  deriving DecidableEq, Repr

/-- Whether a step in this state may have changed something that needs undoing. -/
def StepState.mayHaveActed : StepState → Bool
  | applying => true
  | applied => true
  | undone => false

/-- One run of an operation, as the journal has it. -/
structure Operation where
  id : OperationId
  kind : String
  subject : String
  params : String
  recovery : Recovery
  state : State
  host : String
  pid : ℕ
  deriving DecidableEq, Repr

/-- The process a run is recorded under. -/
def Operation.owner (operation : Operation) : Owner := ⟨operation.host, operation.pid⟩

/-- One step of a run, as the journal has it. -/
structure StepRecord where
  position : ℕ
  key : String
  state : StepState
  output : Option Output
  deriving DecidableEq, Repr

/-- The two tables of the journal. The row of a run holds the identifier it is found under. -/
structure Journal where
  operations : Table OperationId Operation
  steps : OperationId → Table ℕ StepRecord
  keyed : ∀ id row, operations.get? id = some row → row.id = id

namespace Journal

theorem keyed_empty (id : OperationId) (row : Operation)
    (h : (∅ : Table OperationId Operation).get? id = some row) : row.id = id := by
  rw [Table.get?_empty] at h
  cases h

/-- The row `start` inserts. -/
def opened (id : OperationId) (plan : Plan) (owner : Owner) : Operation where
  id := id
  kind := plan.kind
  subject := plan.subject
  params := plan.params
  recovery := plan.recovery
  state := .running
  host := owner.host
  pid := owner.pid

/-- A statement that rewrites the row of one run and leaves its identifier. -/
private theorem keyed_modify (journal : Journal) (id : OperationId) (f : Operation → Operation)
    (hf : ∀ row, (f row).id = row.id) (other : OperationId) (row : Operation)
    (h : (journal.operations.modify id f).get? other = some row) : row.id = other := by
  by_cases hother : other = id
  · subst hother
    rw [Table.get?_modify_self] at h
    obtain ⟨old, hold, rfl⟩ := Option.map_eq_some_iff.mp h
    rw [hf, journal.keyed _ _ hold]
  · rw [Table.get?_modify_of_ne hother] at h
    exact journal.keyed _ _ h

/-- Write down that a run has started, before anything is done. -/
def start (journal : Journal) (id : OperationId) (plan : Plan) (owner : Owner) : Journal :=
  { journal with
    operations := journal.operations.set id (opened id plan owner)
    keyed := fun other row h ↦ by
      rw [Table.get?_set] at h
      split at h
      · rename_i hother
        exact Option.some.inj h ▸ hother.symm
      · exact journal.keyed _ _ h }

/-- What `mark_step` leaves in a row: `COALESCE(excluded.output, operation_step.output)` keeps the
output of the row that was there where the new one is absent. -/
def merged (step : StepRecord) (existing : Option StepRecord) : StepRecord :=
  { step with output := step.output.or (existing.bind StepRecord.output) }

/-- Record where one step has got to, creating its row the first time. -/
def markStep (journal : Journal) (id : OperationId) (step : StepRecord) : Journal :=
  { journal with
    steps := Function.update journal.steps id ((journal.steps id).set step.position
      (merged step ((journal.steps id).get? step.position))) }

/-- Whether `finish` finds a row to move: one of this run that is still `running`. -/
def isOpen (journal : Journal) (id : OperationId) : Bool :=
  (journal.operations.get? id).any fun row ↦ row.state = .running

/-- What `finish` sets in a row: its state, where it is `running`. -/
def finished (state : State) (row : Operation) : Operation :=
  if row.state = .running then { row with state := state } else row

/-- Move a run out of `running`, where it is there. -/
def finish (journal : Journal) (id : OperationId) (state : State) : Journal :=
  { journal with
    operations := journal.operations.modify id (finished state)
    keyed := keyed_modify journal id _ fun row ↦ by unfold finished; split <;> rfl }

/-- Whether `reopen` finds a row to move: one of this run that is `failed`. -/
def isFailed (journal : Journal) (id : OperationId) : Bool :=
  (journal.operations.get? id).any fun row ↦ row.state = .failed

/-- What `reopen` sets in a row: its state and its owner, where it is `failed`. -/
def reopened (owner : Owner) (row : Operation) : Operation :=
  if row.state = .failed then
    { row with state := .running, host := owner.host, pid := owner.pid }
  else row

/-- Put a `failed` run back into `running`, under a new owner, where it is there. -/
def reopen (journal : Journal) (id : OperationId) (owner : Owner) : Journal :=
  { journal with
    operations := journal.operations.modify id (reopened owner)
    keyed := keyed_modify journal id _ fun row ↦ by unfold reopened; split <;> rfl }

/-- Every run that never finished, oldest first. -/
def unfinished (journal : Journal) : List Operation :=
  journal.operations.values.filter fun row ↦ row.state = .running

/-- The steps of a run, in plan order. -/
def stepsOf (journal : Journal) (id : OperationId) : List StepRecord := (journal.steps id).values

theorem mem_unfinished_iff {journal : Journal} {row : Operation} :
    row ∈ journal.unfinished ↔ journal.operations.get? row.id = some row ∧ row.state = .running := by
  simp only [unfinished, List.mem_filter, Table.mem_values_iff, decide_eq_true_eq]
  constructor
  · rintro ⟨⟨id, hrow⟩, hstate⟩
    rw [journal.keyed id row hrow]
    exact ⟨hrow, hstate⟩
  · rintro ⟨hrow, hstate⟩
    exact ⟨⟨_, hrow⟩, hstate⟩

/-- `unfinished` is ordered by identifier, and names no run twice. -/
theorem unfinished_ordered (journal : Journal) :
    (journal.unfinished.map Operation.id).Pairwise (· < ·) := by
  have hrows : journal.operations.rows.Pairwise fun row row' ↦ row.2.id < row'.2.id :=
    journal.operations.sorted.imp_of_mem fun {row row'} hrow hrow' hlt ↦ by
      rwa [journal.keyed _ _ (Table.mem_rows_iff.mp hrow),
        journal.keyed _ _ (Table.mem_rows_iff.mp hrow')]
  have hvalues : journal.operations.values.Pairwise fun row row' ↦ row.id < row'.id :=
    List.pairwise_map.mpr hrows
  exact List.pairwise_map.mpr (hvalues.filter _)

end Journal

/-- What one row adds to the outputs. -/
def recordRow (outputs : Outputs) (row : StepRecord) : Outputs :=
  match row.output with
  | some output => outputs.record row.key output
  | none => outputs

/-- What the applied steps of a run produced, ready for the run's commit (`journal::outputs`). -/
def recordedOutputs (steps : List StepRecord) : Outputs :=
  (steps.filter fun step ↦ step.state = .applied).foldl recordRow Outputs.new

end Nodal.Lifecycle
