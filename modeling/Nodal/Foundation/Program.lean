import Mathlib.Tactic.Common

/-!
# Programs that perform effects

A `Program` is a tree: it has ended with a value, or it performs an effect and continues with the
answer. The tree says nothing of what an effect does; a machine does that, one effect at a time, so
a program can be stopped between any two of its effects and programs can be interleaved. An
`Attempt` is a program that may end with an error, and its `do` blocks stop at the first one.

`Uses` bounds the effects a program may still perform; it is what a frame argument needs to know of
the part of a program that is about something else. `Ends` bounds the value it may end with.
-/

set_option autoImplicit false

namespace Nodal.Foundation

/-- A computation over effects `E`, each answered by a value of type `R effect`. -/
inductive Program (E : Type) (R : E → Type) (α : Type) : Type
  | done (value : α)
  | perform (effect : E) (next : R effect → Program E R α)

namespace Program

variable {E : Type} {R : E → Type} {α β : Type}

/-- Continue a program with the value it ends with. -/
def bind : Program E R α → (α → Program E R β) → Program E R β
  | done value, f => f value
  | perform effect next, f => perform effect fun answer ↦ (next answer).bind f

instance : Monad (Program E R) where
  pure := done
  bind := bind

@[simp] theorem pure_eq (value : α) : (pure value : Program E R α) = done value := rfl

@[simp] theorem done_bind (value : α) (f : α → Program E R β) : (done value >>= f) = f value := rfl

@[simp] theorem perform_bind (effect : E) (next : R effect → Program E R α)
    (f : α → Program E R β) :
    (perform effect next >>= f) = perform effect fun answer ↦ next answer >>= f := rfl

/-- Every effect a program may still perform satisfies `allowed`, whatever it is answered. -/
def Uses (allowed : E → Prop) : Program E R α → Prop
  | done _ => True
  | perform effect next => allowed effect ∧ ∀ answer, (next answer).Uses allowed

@[simp] theorem uses_done (allowed : E → Prop) (value : α) :
    (done value : Program E R α).Uses allowed := trivial

theorem Uses.bind {allowed : E → Prop} {p : Program E R α} {f : α → Program E R β}
    (hp : p.Uses allowed) (hf : ∀ value, (f value).Uses allowed) : (p >>= f).Uses allowed := by
  induction p with
  | done value => exact hf value
  | perform effect next ih => exact ⟨hp.1, fun answer ↦ ih answer (hp.2 answer)⟩

theorem Uses.mono {allowed allowed' : E → Prop} {p : Program E R α} (h : p.Uses allowed)
    (himp : ∀ effect, allowed effect → allowed' effect) : p.Uses allowed' := by
  induction p with
  | done value => trivial
  | perform effect next ih => exact ⟨himp effect h.1, fun answer ↦ ih answer (h.2 answer)⟩

/-- Whatever a program is answered, the value it ends with satisfies `P`. -/
def Ends (P : α → Prop) : Program E R α → Prop
  | done value => P value
  | perform _ next => ∀ answer, (next answer).Ends P

theorem ends_of_forall {P : α → Prop} {p : Program E R α} (h : ∀ value, P value) : p.Ends P := by
  induction p with
  | done value => exact h value
  | perform effect next ih => exact ih

theorem Ends.bind {P : β → Prop} {Q : α → Prop} {p : Program E R α} {f : α → Program E R β}
    (hp : p.Ends Q) (hf : ∀ value, Q value → (f value).Ends P) : (p >>= f).Ends P := by
  induction p with
  | done value => exact hf value hp
  | perform effect next ih => exact fun answer ↦ ih answer (hp answer)

end Program

/-! ### Programs that may fail -/

/-- A program that ends with a value or with an error. -/
abbrev Attempt (E : Type) (R : E → Type) (ε : Type) : Type → Type := ExceptT ε (Program E R)

namespace Attempt

open Program

variable {E : Type} {R : E → Type} {ε α β : Type}

/-- Perform one effect and answer what it was answered. -/
def call (effect : E) : Attempt E R ε (R effect) :=
  ExceptT.mk (perform effect fun answer ↦ done (.ok answer))

/-- Run an attempt and answer how it ended, so that the program can go on after an error. -/
def outcome (x : Attempt E R ε α) : Attempt E R ε (Except ε α) :=
  ExceptT.mk (x.run >>= fun result ↦ done (.ok result))

@[simp] theorem run_pure (value : α) :
    (pure value : Attempt E R ε α).run = done (.ok value) := rfl

@[simp] theorem run_throw (error : ε) :
    (throw error : Attempt E R ε α).run = done (.error error) := rfl

theorem run_bind (x : Attempt E R ε α) (f : α → Attempt E R ε β) :
    (x >>= f).run = x.run >>= fun result ↦
      match result with
      | .ok value => (f value).run
      | .error error => done (.error error) := rfl

@[simp] theorem run_call_bind (effect : E) (f : R effect → Attempt E R ε β) :
    (call effect >>= f).run = perform effect fun answer ↦ (f answer).run := rfl

@[simp] theorem run_call (effect : E) :
    (call effect : Attempt E R ε (R effect)).run =
      perform effect fun answer ↦ done (.ok answer) := rfl

theorem uses_bind {allowed : E → Prop} {x : Attempt E R ε α} {f : α → Attempt E R ε β}
    (hx : x.run.Uses allowed) (hf : ∀ value, (f value).run.Uses allowed) :
    (x >>= f).run.Uses allowed := by
  rw [run_bind]
  refine hx.bind fun result ↦ ?_
  cases result with
  | ok value => exact hf value
  | error error => trivial

theorem uses_call {allowed : E → Prop} {effect : E} (heffect : allowed effect) :
    (call effect : Attempt E R ε (R effect)).run.Uses allowed :=
  ⟨heffect, fun _ ↦ trivial⟩

theorem ends_bind {P : Except ε β → Prop} {Q : Except ε α → Prop} {x : Attempt E R ε α}
    {f : α → Attempt E R ε β} (hx : x.run.Ends Q) (hvalue : ∀ value, Q (.ok value) → (f value).run.Ends P)
    (herror : ∀ error, Q (.error error) → P (.error error)) : (x >>= f).run.Ends P := by
  rw [run_bind]
  refine hx.bind fun result hresult ↦ ?_
  cases result with
  | ok value => exact hvalue value hresult
  | error error => exact herror error hresult

theorem uses_outcome {allowed : E → Prop} {x : Attempt E R ε α} (hx : x.run.Uses allowed) :
    x.outcome.run.Uses allowed :=
  hx.bind fun _ ↦ trivial

end Attempt

end Nodal.Foundation
