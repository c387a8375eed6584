import Nodal.Foundation.Contract

/-!
# What an attempt leads to, beside others

An attempt that is performed between the effects of others: from one assertion it leads to another
where it ends with a value, and to a third where it ends with an error. An assertion is of use only as
far as the others leave it alone (`Stable`), so the rules ask for that where an effect is performed or
an attempt ends.
-/

set_option autoImplicit false

namespace Nodal.Foundation

variable {ι J σ E α β γ ε : Type} {R C : E → Type}

/-- What the others leave alone. -/
def Stable (K : Contract ι σ E C) (i : ι) (P : σ → Prop) : Prop :=
  ∀ s t, K.rely i s t → K.inv t → P s → P t

/-- From `P` an attempt keeps the contract and ends with a value and `Q`, or with an error and `F`. -/
def Yields (M : Machine ι J σ E R C α) (K : Contract ι σ E C) (i : ι) (F P : σ → Prop)
    (x : Attempt E R ε β) (Q : β → σ → Prop) : Prop :=
  ∀ s, P s → Safe M K i (fun result s ↦
    match result with
    | .ok value => Q value s
    | .error _ => F s) x.run s

section Rules

variable {M : Machine ι J σ E R C α} {K : Contract ι σ E C} {i : ι} {F P P' : σ → Prop}
  {x : Attempt E R ε β} {Q Q' : β → σ → Prop}

theorem Stable.and (hP : Stable K i P) (hP' : Stable K i P') : Stable K i fun s ↦ P s ∧ P' s :=
  fun s t hrely hinv h ↦ ⟨hP s t hrely hinv h.1, hP' s t hrely hinv h.2⟩

theorem Yields.mono (h : Yields M K i F P x Q) (hpre : ∀ s, P' s → P s)
    (hpost : ∀ value s, Q value s → Q' value s) : Yields M K i F P' x Q' := by
  intro s hs
  refine (h s (hpre s hs)).mono fun result t hresult ↦ ?_
  cases result with
  | ok value => exact hpost value t hresult
  | error why => exact hresult

theorem yields_pure {value : β} (hQ : Stable K i (Q value)) (h : ∀ s, P s → Q value s) :
    Yields M K i F P (pure value : Attempt E R ε β) Q :=
  fun s hs t hrely hinv ↦ hQ s t hrely hinv (h s hs)

theorem yields_throw {error : ε} (hF : Stable K i F) (h : ∀ s, P s → F s) :
    Yields M K i F P (throw error : Attempt E R ε β) Q :=
  fun s hs t hrely hinv ↦ hF s t hrely hinv (h s hs)

theorem yields_bind {f : β → Attempt E R ε γ} {T : γ → σ → Prop} (hF : Stable K i F)
    (hx : Yields M K i F P x Q) (hf : ∀ value, Yields M K i F (Q value) (f value) T) :
    Yields M K i F P (x >>= f) T := by
  intro s hs
  refine safe_attempt_bind ((hx s hs).mono fun result t hresult ↦ ?_)
  cases result with
  | ok value => exact hf value t hresult
  | error why => exact fun u hrely hinv ↦ hF t u hrely hinv hresult

/-- One effect between two moments of the invariant. -/
theorem yields_call_of_inv {effect : E} {T : R effect → σ → Prop} (hP : Stable K i P)
    (hT : ∀ answer, Stable K i (T answer)) (hpre : ∀ s, K.inv s → P s → K.pre i effect s)
    (hstep : ∀ choice s, K.inv s → K.assume i effect choice s → P s →
      T (M.perform i effect choice s).1 (M.perform i effect choice s).2) :
    Yields M K i F P (Attempt.call effect : Attempt E R ε (R effect)) T := by
  intro s hs t hrely hinv
  have ht := hP s t hrely hinv hs
  refine ⟨hpre t hinv ht, fun choice hchoice u hafter hinv' ↦ ?_⟩
  exact hT _ _ u hafter hinv' (hstep choice t hinv hchoice ht)

/-- One effect, from an assertion the others leave alone to another. -/
theorem yields_call {effect : E} {T : R effect → σ → Prop} (hP : Stable K i P)
    (hT : ∀ answer, Stable K i (T answer)) (hpre : ∀ s, K.inv s → P s → K.pre i effect s)
    (hstep : ∀ choice s, K.assume i effect choice s → P s →
      T (M.perform i effect choice s).1 (M.perform i effect choice s).2) :
    Yields M K i F P (Attempt.call effect : Attempt E R ε (R effect)) T :=
  yields_call_of_inv hP hT hpre fun choice s _ ↦ hstep choice s

end Rules

end Nodal.Foundation
