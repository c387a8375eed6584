import Nodal.Foundation.Contract

/-!
# Programs whose effects are programs

A program over some effects becomes a program over others when each effect is handled: answered by a
program over the others. What is handled keeps its shape, so a contract of the whole follows from
contracts of the handlers.
-/

set_option autoImplicit false

namespace Nodal.Foundation

namespace Program

variable {E E' : Type} {R : E → Type} {R' : E' → Type} {α β : Type}
  {handler : (effect : E) → Program E' R' (R effect)}

/-- Answer every effect by its handler. -/
def interpret (handler : (effect : E) → Program E' R' (R effect)) :
    Program E R α → Program E' R' α
  | done value => done value
  | perform effect next => handler effect >>= fun answer ↦ (next answer).interpret handler

@[simp] theorem interpret_done (value : α) :
    (done value : Program E R α).interpret handler = done value := rfl

@[simp] theorem interpret_perform (effect : E) (next : R effect → Program E R α) :
    (perform effect next).interpret handler =
      handler effect >>= fun answer ↦ (next answer).interpret handler := rfl

theorem bind_assoc' {γ : Type} (p : Program E R α) (f : α → Program E R β)
    (g : β → Program E R γ) : (p >>= f) >>= g = p >>= fun value ↦ f value >>= g := by
  induction p with
  | done value => rfl
  | perform effect next ih =>
    simp only [perform_bind]
    exact congrArg (perform effect) (funext fun answer ↦ ih answer)

theorem interpret_bind (p : Program E R α) (f : α → Program E R β) :
    (p >>= f).interpret handler =
      p.interpret handler >>= fun value ↦ (f value).interpret handler := by
  induction p with
  | done value => rfl
  | perform effect next ih =>
    simp only [perform_bind, interpret_perform, bind_assoc', ih]

theorem Uses.interpret {allowed : E → Prop} {allowed' : E' → Prop} {p : Program E R α}
    (hp : p.Uses allowed) (hhandler : ∀ effect, allowed effect → (handler effect).Uses allowed') :
    (p.interpret handler).Uses allowed' := by
  induction p with
  | done value => trivial
  | perform effect next ih =>
    exact (hhandler effect hp.1).bind fun answer ↦ ih answer (hp.2 answer)

end Program

section Contracts

variable {ι J σ E E' α β : Type} {R : E → Type} {R' C : E' → Type}
  {M : Machine ι J σ E' R' C α} {K : Contract ι σ E' C} {i : ι}
  {handler : (effect : E) → Program E' R' (R effect)} {p : Program E R β} {s : σ}

/-- Where the handlers of what a program performs keep the contract from wherever they are called, the
whole does. -/
theorem safe_interpret_of_uses {allowed : E → Prop} (huses : p.Uses allowed)
    (hhandler : ∀ effect s, allowed effect → Safe M K i (fun _ _ ↦ True) (handler effect) s) :
    Safe M K i (fun _ _ ↦ True) (p.interpret handler) s := by
  induction p generalizing s with
  | done value => exact fun _ _ _ ↦ trivial
  | perform effect next ih =>
    exact safe_bind ((hhandler effect s huses.1).mono fun answer t _ ↦ ih answer (huses.2 answer))

/-- Where every handler keeps the contract from wherever it is called, the whole does. -/
theorem safe_interpret (hhandler : ∀ effect s, Safe M K i (fun _ _ ↦ True) (handler effect) s) :
    Safe M K i (fun _ _ ↦ True) (p.interpret handler) s := by
  have huses : p.Uses fun _ ↦ True := by
    clear hhandler
    induction p with
    | done value => trivial
    | perform effect next ih => exact ⟨trivial, ih⟩
  exact safe_interpret_of_uses huses fun effect s _ ↦ hhandler effect s

end Contracts

end Nodal.Foundation
