import Mathlib.Algebra.GroupWithZero.Nat
import Mathlib.Logic.Function.Basic
import Mathlib.Tactic.Common

/-!
# What an operation is made of

`lifecycle/step.rs`: a `Plan` is a list of steps, each with an `apply` and an `undo`, and one
registry write at the end. What a step or the registry write does, and what it answers, is outside
the program; a plan here holds what the runner itself reads of it: its kind, its subject, its
parameters, its recovery, the key of each step, and the home to record before the first step.

A step answers an `Output`, which is JSON. The runner looks at one thing about it, whether it is
`null`, and writes one shape of its own, `{"failed": ...}`. `Outputs` is the map from step keys the
registry write is handed.
-/

set_option autoImplicit false

namespace Nodal.Lifecycle

instance lawfulBEq_positionAndKey : LawfulBEq (ℕ × String) :=
  inferInstance

/-- The identifier of a run. Identifiers are read in their own order, as the text of a ULID is. -/
abbrev OperationId := ℕ

/-- What one step hands to the registry write that ends the operation. -/
inductive Output
  /-- The answer of a step that learned nothing the registry write needs. -/
  | null
  /-- The object `{"failed": why}`. -/
  | failed (why : String)
  /-- Any other value, by its JSON text. -/
  | value (json : String)
  deriving DecidableEq, Repr

/-- The answer of a step that learned nothing. -/
def nothing : Output := .null

/-- Whether an output is `null`. -/
def Output.isNull : Output → Bool
  | .null => true
  | _ => false

@[simp] theorem Output.isNull_iff {output : Output} : output.isNull = true ↔ output = .null := by
  cases output <;> simp [Output.isNull]

/-- What every step of a run produced, by step key. -/
abbrev Outputs := String → Option Output

namespace Outputs

/-- What a plan that has not run yet produced. -/
def new : Outputs := fun _ ↦ none

/-- Record what one step produced. `nothing` is not recorded. -/
def record (outputs : Outputs) (key : String) (output : Output) : Outputs :=
  if output.isNull then outputs else Function.update outputs key (some output)

variable {outputs : Outputs} {key key' : String} {output : Output}

@[simp] theorem record_null : outputs.record key .null = outputs := rfl

theorem record_of_ne_null (h : output ≠ .null) :
    outputs.record key output = Function.update outputs key (some output) := by
  simp [record, h]

theorem record_self : outputs.record key output key =
    if output = .null then outputs key else some output := by
  by_cases h : output = .null
  · simp [h]
  · simp [record_of_ne_null h, h]

theorem record_of_ne (h : key' ≠ key) : outputs.record key output key' = outputs key' := by
  unfold record
  split
  · rfl
  · exact Function.update_of_ne h _ _

end Outputs

/-- What to do with an operation whose process died before it finished. -/
inductive Recovery
  | resume
  | rollBack
  deriving DecidableEq, Repr

/-- One unit of work in a plan. What the journal knows of it is its key. -/
structure Step where
  key : String
  deriving DecidableEq, Repr

/-- The home a mutating plan records before it touches anything. -/
structure Records where
  unit : String
  home : String
  deriving DecidableEq, Repr

/-- An operation as a list of steps and the registry write that finishes it. `fits` bounds its
length by what `position_of` can convert, the index of a step as a `u32`. -/
structure Plan where
  kind : String
  subject : String
  params : String
  recovery : Recovery
  steps : List Step
  records : Option Records
  fits : steps.length ≤ 2 ^ 32

namespace Plan

/-- The key of every step, in order. -/
def keys (plan : Plan) : List String := plan.steps.map Step.key

/-- Each step with its position, in the order the steps are applied. -/
def positioned (plan : Plan) : List (Step × ℕ) := plan.steps.zipIdx

theorem mem_positioned_iff {plan : Plan} {step : Step} {position : ℕ} :
    (step, position) ∈ plan.positioned ↔ plan.steps[position]? = some step :=
  List.mem_zipIdx_iff_getElem?

end Plan

/-! ### Errors -/

/-- What stops an operation. The failure of a step, of an undo, of a registry write or of anything
outside is its rendered text. -/
inductive Error
  | operationStep (operation : OperationId) (kind key source : String)
  | operationUndo (operation : OperationId) (kind key why : String)
  | operationVanished (operation : OperationId) (kind : String)
  | other (text : String)
  deriving DecidableEq, Repr

/-- The text of an error. -/
def Error.display : Error → String
  | operationStep _ kind key source => kind ++ " failed at step " ++ key.quote ++ ": " ++ source
  | operationUndo _ kind key why =>
    kind ++ " could not be undone at step " ++ key.quote ++ ": " ++ why
  | operationVanished _ kind => kind ++ " finished but its journal entry is not there to close"
  | other text => text

end Nodal.Lifecycle
