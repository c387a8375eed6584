import Nodal.Foundation.Interpret
import Nodal.Lifecycle.History

/-!
# The runner over steps that do something

The runner sees a step by its key. Here a step is two programs, one that applies it and one that
undoes it, over operations on whatever the steps act on. `operated` is a function of the runner with
those programs in the places where it applies and undoes: what is left of its own effects are the
statements of the journal. The registry write and the move of the run to `committed` are one
transaction, so they are one effect here as well, and what the write does is a function.
-/

set_option autoImplicit false

namespace Nodal.Lifecycle

open Nodal.Foundation

variable {G σ : Type} {A C : G → Type}

/-- What a process of an operation does: a statement of the journal, or an operation outside it. -/
inductive Act (G : Type)
  | journal (effect : Effect)
  | outside (operation : G)

/-- What it is answered. -/
@[reducible] def Act.Answer (A : G → Type) : Act G → Type
  | journal effect => effect.Answer
  | outside operation => A operation

/-- What the outside decides about it. -/
@[reducible] def Act.Choice (C : G → Type) : Act G → Type
  | journal effect => effect.Choice
  | outside operation => C operation

/-- What the steps of one operation do, by position. -/
structure Deeds (G : Type) (A : G → Type) where
  /-- Record the home the operation is about. -/
  snapshot : Program G A (Except String Bool)
  apply : ℕ → Program G A (Except String Output)
  undo : ℕ → Program G A (Except String Unit)

/-- The journal, and what the steps act on. -/
structure Performed (σ : Type) where
  journal : World
  outside : σ

/-- How operations outside the journal are performed, and what a registry write does. -/
structure Performance (G σ : Type) (A C : G → Type) where
  act : (operation : G) → C operation → σ → A operation × σ
  register : OperationId → Outputs → σ → Except String (Output × σ)

/-- The operations of the steps, without a journal. -/
def Performance.bare (performance : Performance G σ A C) : Machine Unit Unit σ G A C Unit where
  program _ _ := .done ()
  enter _ _ s := some s
  leave _ s := s
  perform _ := performance.act

/-- A program over the operations outside, as part of a process of an operation. -/
def outside {α : Type} (p : Program G A α) : Program (Act G) (Act.Answer A) α :=
  p.interpret fun operation ↦ .perform (.outside operation) .done

/-- A process is inside a step while it performs the program of the step. -/
def handled (deeds : Deeds G A) :
    (effect : Effect) → Program (Act G) (Act.Answer A) effect.Answer
  | .snapshot _ _ _ => outside deeds.snapshot
  | .beginApply _ _ | .beginUndo _ _ => .done ()
  | .endApply _ position => outside (deeds.apply position)
  | .endUndo _ position => outside (deeds.undo position)
  | effect => .perform (.journal effect) .done

/-- A function of the runner over steps that do something. -/
def operated {α : Type} (deeds : Deeds G A) (x : Run α) :
    Attempt (Act G) (Act.Answer A) Error α :=
  ExceptT.mk (x.run.interpret (handled deeds))

/-- The registry write and the move to `committed`, or neither. -/
def committing (performance : Performance G σ A C) (process : Process) (id : OperationId)
    (kind : String) (outputs : Outputs) (choice : Except String Output) (w : Performed σ) :
    Except Error Output × Performed σ :=
  match choice with
  | .error why => (.error (.other why), w)
  | .ok _ =>
    match performance.register id outputs w.outside with
    | .error why => (.error (.other why), w)
    | .ok (output, outside) =>
      if w.journal.journal.isOpen id then
        (.ok output, ⟨(perform process (.commit id kind outputs) (.ok output) w.journal).2, outside⟩)
      else (.error (.operationVanished id kind), w)

/-- A statement of the journal. -/
def stated (performance : Performance G σ A C) (process : Process) :
    (effect : Effect) → effect.Choice → Performed σ → effect.Answer × Performed σ
  | .commit id kind outputs, choice, w => committing performance process id kind outputs choice w
  | effect, choice, w =>
    let result := perform process effect choice w.journal
    (result.1, { w with journal := result.2 })

/-- What one act answers and does. -/
def Performance.perform (performance : Performance G σ A C) (process : Process) :
    (act : Act G) → act.Choice C → Performed σ → act.Answer A × Performed σ
  | .journal effect, choice, w => stated performance process effect choice w
  | .outside operation, choice, w =>
    let result := performance.act operation choice w.outside
    (result.1, { w with outside := result.2 })

/-- A registry write is made with the move to `committed`, or nothing is. -/
theorem committing_cases (performance : Performance G σ A C) (process : Process) (id : OperationId)
    (kind : String) (outputs : Outputs) (choice : Except String Output) (w : Performed σ) :
    (∃ why, committing performance process id kind outputs choice w = (.error why, w)) ∨
      ∃ output outside, performance.register id outputs w.outside = .ok (output, outside) ∧
        w.journal.journal.isOpen id = true ∧
        committing performance process id kind outputs choice w = (.ok output,
          ⟨(perform process (.commit id kind outputs) (.ok output) w.journal).2, outside⟩) := by
  cases choice with
  | error why => exact .inl ⟨_, rfl⟩
  | ok value =>
    dsimp only [committing]
    split
    · exact .inl ⟨_, rfl⟩
    · next output outside hregister =>
      split
      · next hopen => exact .inr ⟨output, outside, hregister, hopen, rfl⟩
      · exact .inl ⟨_, rfl⟩

section Interpreting

variable {deeds : Deeds G A} {α β : Type}

theorem operated_run (x : Run α) : (operated deeds x).run = x.run.interpret (handled deeds) := rfl

/-- What is sequenced is operated one after the other. -/
theorem operated_bind (x : Run α) (f : α → Run β) :
    operated deeds (x >>= f) = operated deeds x >>= fun value ↦ operated deeds (f value) := by
  refine congrArg ExceptT.mk ?_
  rw [Attempt.run_bind, Program.interpret_bind]
  congr 1
  funext result
  cases result <;> rfl

theorem operated_outcome (x : Run α) :
    operated deeds x.outcome = (operated deeds x).outcome := by
  refine congrArg ExceptT.mk ?_
  change (x.run >>= fun result ↦ Program.done (Except.ok result)).interpret _ = _
  rw [Program.interpret_bind]
  rfl

theorem operated_apply (id : OperationId) (position : ℕ) :
    (operated deeds (apply id position)).run =
      outside (deeds.apply position) >>= fun answer ↦ .done (Except.ok answer) := rfl

theorem operated_undo (id : OperationId) (position : ℕ) :
    (operated deeds (undo id position)).run =
      outside (deeds.undo position) >>= fun answer ↦ .done (Except.ok answer) := rfl

end Interpreting

end Nodal.Lifecycle
