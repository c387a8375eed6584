import Nodal.Foundation.Yields
import Nodal.Lifecycle.Performed

/-!
# What the loops of the runner lead to

The two loops of the runner over steps that do something, beside other processes: one applies the steps
the journal does not call applied, one undoes those that acted. What holds where a step is next is an
assertion by position, and each statement of the loop leads from one to another.
-/

set_option autoImplicit false

namespace Nodal.Lifecycle

open Nodal.Foundation Nodal.Foundation.Attempt

variable {G σ J α β γ ε : Type} {A C : G → Type}

/-- An attempt over operations outside the journal, as part of a process. -/
def within (x : Attempt G A ε β) : Attempt (Act G) (Act.Answer A) ε β := ExceptT.mk (outside x.run)

section Within

variable {M : Machine Process J (Performed σ) (Act G) (Act.Answer A) (Act.Choice C) α}
  {K : Contract Process (Performed σ) (Act G) (Act.Choice C)} {i : Process}
  {F P : Performed σ → Prop}

theorem within_bind (x : Attempt G A ε β) (f : β → Attempt G A ε γ) :
    within (x >>= f) = within x >>= fun value ↦ within (f value) := by
  refine congrArg ExceptT.mk ?_
  rw [run_bind, outside, Program.interpret_bind]
  change _ = outside x.run >>= _
  congr 1
  funext result
  cases result <;> rfl

theorem yields_within_bind {x : Attempt G A ε β} {f : β → Attempt G A ε γ}
    {Q : β → Performed σ → Prop} {T : γ → Performed σ → Prop} (hF : Stable K i F)
    (hx : Yields M K i F P (within x) Q) (hf : ∀ value, Yields M K i F (Q value) (within (f value)) T) :
    Yields M K i F P (within (x >>= f)) T := by
  rw [within_bind]
  exact yields_bind hF hx hf

theorem yields_within_pure {value : β} {Q : β → Performed σ → Prop} (hQ : Stable K i (Q value))
    (h : ∀ w, P w → Q value w) : Yields M K i F P (within (pure value : Attempt G A ε β)) Q :=
  yields_pure hQ h

theorem yields_within_throw {error : ε} {Q : β → Performed σ → Prop} (hF : Stable K i F)
    (h : ∀ w, P w → F w) : Yields M K i F P (within (throw error : Attempt G A ε β)) Q :=
  yields_throw hF h

end Within

/-! ### The loops -/

section Loops

variable {M : Machine Process J (Performed σ) (Act G) (Act.Answer A) (Act.Choice C) α}
  {K : Contract Process (Performed σ) (Act G) (Act.Choice C)} {i : Process}
  {F P : Performed σ → Prop} {deeds : Deeds G A} {id : OperationId}

theorem yields_operated_bind {x : Run β} {f : β → Run γ} {Q : β → Performed σ → Prop}
    {T : γ → Performed σ → Prop} (hF : Stable K i F) (hx : Yields M K i F P (operated deeds x) Q)
    (hf : ∀ value, Yields M K i F (Q value) (operated deeds (f value)) T) :
    Yields M K i F P (operated deeds (x >>= f)) T := by
  rw [operated_bind]
  exact yields_bind hF hx hf

theorem yields_operated_pure {value : β} {Q : β → Performed σ → Prop} (hQ : Stable K i (Q value))
    (h : ∀ w, P w → Q value w) : Yields M K i F P (operated deeds (pure value)) Q :=
  yields_pure hQ h

theorem yields_operated_throw {error : Error} {Q : β → Performed σ → Prop} (hF : Stable K i F)
    (h : ∀ w, P w → F w) : Yields M K i F P (operated deeds (throw error)) Q :=
  yields_throw hF h

/-- A program outside the journal whose failure is looked at. -/
theorem yields_looked {x : Attempt G A String β} {Q : β → Performed σ → Prop}
    (hx : Yields M K i F P (within x) Q) :
    Yields M K i F P
      (ExceptT.mk (outside x.run >>= fun answer ↦ .done (.ok answer)) :
        Attempt (Act G) (Act.Answer A) Error (Except String β))
      fun answer w ↦ match answer with
        | .ok value => Q value w
        | .error _ => F w := by
  intro w hw
  refine safe_map ((hx w hw).mono fun answer t hanswer ↦ ?_)
  cases answer <;> exact hanswer

/-- An attempt whose outcome is looked at. -/
theorem yields_outcome {x : Run β} {Q : β → Performed σ → Prop}
    (hx : Yields M K i F P (operated deeds x) Q) :
    Yields M K i F P (operated deeds x.outcome) fun result w ↦
      match result with
      | .ok value => Q value w
      | .error _ => F w := by
  rw [operated_outcome]
  intro w hw
  refine safe_map ((hx w hw).mono fun result t hresult ↦ ?_)
  cases result <;> exact hresult

/-- What every effect of a process and all the others keep is there to the end. -/
theorem yields_frame {x : Attempt (Act G) (Act.Answer A) ε β} {Q : β → Performed σ → Prop}
    {H : Performed σ → Prop} (hrely : ∀ s t, K.rely i s t → H s → H t)
    (hperform : ∀ effect choice t, H t → H (M.perform i effect choice t).2)
    (hx : Yields M K i F P x Q) :
    Yields M K i (fun w ↦ F w ∧ H w) (fun w ↦ P w ∧ H w) x fun value w ↦ Q value w ∧ H w := by
  rintro w ⟨hP, hH⟩
  have huses : x.run.Uses fun _ ↦ True := by
    induction x.run with
    | done value => trivial
    | perform effect next ih => exact ⟨trivial, ih⟩
  refine ((hx w hP).frame huses hrely (fun effect choice t _ ↦ hperform effect choice t) hH).mono
    fun result t hresult ↦ ?_
  cases result <;> exact hresult

/-- What a step of the run leads to where it is applied. -/
structure Leads (M : Machine Process J (Performed σ) (Act G) (Act.Answer A) (Act.Choice C) α)
    (K : Contract Process (Performed σ) (Act G) (Act.Choice C)) (i : Process) (F : Performed σ → Prop)
    (deeds : Deeds G A) (id : OperationId) (step : Step) (k : ℕ)
    (stands trying made next : Performed σ → Prop) : Prop where
  tried : Yields M K i F stands (operated deeds (mark id (k, step.key) .applying none)) fun _ ↦ trying
  applied : Yields M K i F trying (operated deeds (apply id k)) fun answer w ↦
    match answer with
    | .ok _ => made w
    | .error _ => F w
  marked : ∀ output, Yields M K i F made
    (operated deeds (mark id (k, step.key) .applied (some output))) fun _ ↦ next

/-- The loop that applies the steps that are not done, from step `k` on. -/
theorem yields_applySteps {kind : String} {done : List (ℕ × String)}
    {failing : ℕ × String → Error → Run Unit} {stands trying made : ℕ → Performed σ → Prop}
    (hF : Stable K i F) (hstands : ∀ k, Stable K i (stands k))
    (hfailing : ∀ step why, Yields M K i F F (operated deeds (failing step why)) fun _ ↦ F)
    {steps : List Step} {k : ℕ}
    (hleads : ∀ j step, steps[j]? = some step → Leads M K i F deeds id step (k + j) (stands (k + j))
      (trying (k + j)) (made (k + j)) (stands (k + j + 1)))
    (hskips : ∀ j step, steps[j]? = some step → (k + j, step.key) ∈ done → ∀ w, stands (k + j) w →
      stands (k + j + 1) w)
    {outputs : Outputs} {applied : List String} :
    Yields M K i F (stands k) (operated deeds
      (applySteps id kind done failing (steps.zipIdx k) outputs applied))
      fun _ ↦ stands (k + steps.length) := by
  induction steps generalizing k outputs applied with
  | nil => exact yields_operated_pure (hstands _) fun _ h ↦ h
  | cons step steps ih =>
    have hrest {outputs : Outputs} {applied : List String} :
        Yields M K i F (stands (k + 1)) (operated deeds
          (applySteps id kind done failing (steps.zipIdx (k + 1)) outputs applied))
          fun _ ↦ stands (k + (step :: steps).length) := by
      have hlength : k + 1 + steps.length = k + (step :: steps).length := by
        rw [List.length_cons]
        omega
      rw [← hlength]
      refine ih (fun j other hother ↦ ?_) fun j other hother ↦ ?_
      · rw [show k + 1 + j = k + (j + 1) by omega]
        exact hleads (j + 1) other hother
      · rw [show k + 1 + j = k + (j + 1) by omega]
        exact hskips (j + 1) other hother
    have hlead : Leads M K i F deeds id step k (stands k) (trying k) (made k) (stands (k + 1)) :=
      hleads 0 step rfl
    rw [List.zipIdx_cons]
    unfold applySteps
    split
    · next hdone =>
      have hskip : ∀ w, stands k w → stands (k + 1) w := hskips 0 step rfl hdone
      exact hrest.mono hskip fun _ _ h ↦ h
    · refine yields_operated_bind hF hlead.tried fun _ ↦ ?_
      refine yields_operated_bind hF hlead.applied fun answer ↦ ?_
      cases answer with
      | ok output => exact yields_operated_bind hF (hlead.marked output) fun _ ↦ hrest
      | error source =>
        exact yields_operated_bind hF (hfailing _ _) fun _ ↦ yields_operated_throw hF fun _ h ↦ h

/-- The loop that applies the steps of a plan. -/
theorem yields_applyPlan (stands trying made : ℕ → Performed σ → Prop) {plan : Plan} {kind : String}
    {done : List (ℕ × String)} {failing : ℕ × String → Error → Run Unit}
    (hF : Stable K i F) (hstands : ∀ k, Stable K i (stands k))
    (hfailing : ∀ step why, Yields M K i F F (operated deeds (failing step why)) fun _ ↦ F)
    (hleads : ∀ k step, plan.steps[k]? = some step →
      Leads M K i F deeds id step k (stands k) (trying k) (made k) (stands (k + 1)))
    (hskips : ∀ k step, plan.steps[k]? = some step → (k, step.key) ∈ done → ∀ w, stands k w →
      stands (k + 1) w)
    {outputs : Outputs} {applied : List String} :
    Yields M K i F (stands 0) (operated deeds
      (applySteps id kind done failing plan.positioned outputs applied))
      fun _ ↦ stands plan.steps.length := by
  have hsteps := @yields_applySteps _ _ _ _ _ _ M K i F deeds id kind done failing stands trying made hF
    hstands hfailing plan.steps 0 (fun j step hstep ↦ (Nat.zero_add j).symm ▸ hleads j step hstep)
    (fun j step hstep ↦ (Nat.zero_add j).symm ▸ hskips j step hstep) outputs applied
  rwa [Nat.zero_add] at hsteps

/-- The loop that undoes what acted, from step `k` down. -/
theorem yields_undoEach (stands undone : ℕ → Performed σ → Prop) {acted : List StepRecord}
    (hF : Stable K i F) (hstands : Stable K i (stands 0)) {steps : List Step}
    (hundoes : ∀ k step, steps[k]? = some step → Yields M K i F (stands (k + 1))
      (operated deeds (undo id k)) fun answer w ↦
        match answer with
        | .ok _ => undone k w
        | .error _ => F w)
    (hmarks : ∀ k step, steps[k]? = some step → Yields M K i F (undone k)
      (operated deeds (mark id (k, step.key) .undone none)) fun _ ↦ stands k)
    (hskips : ∀ k step, steps[k]? = some step → (¬∃ row ∈ acted, row.position = k) →
      ∀ w, stands (k + 1) w → stands k w) {keys : List String} :
    Yields M K i F (stands steps.length)
      (operated deeds (undoEach id acted steps.zipIdx.reverse keys)) fun result w ↦
        match result with
        | .all _ => stands 0 w
        | .stopped _ _ => F w := by
  induction steps using List.reverseRecOn generalizing keys with
  | nil => exact yields_operated_pure hstands fun _ h ↦ h
  | append_singleton steps step ih =>
    have hbefore {k : ℕ} {other : Step} (h : steps[k]? = some other) :
        (steps ++ [step])[k]? = some other := by
      rw [List.getElem?_append_left (List.getElem?_eq_some_iff.mp h).1, h]
    have hlast : (steps ++ [step])[steps.length]? = some step := by simp
    have hrest {keys : List String} : Yields M K i F (stands steps.length)
        (operated deeds (undoEach id acted steps.zipIdx.reverse keys)) fun result w ↦
          match result with
          | .all _ => stands 0 w
          | .stopped _ _ => F w :=
      ih (fun k other h ↦ hundoes k other (hbefore h)) (fun k other h ↦ hmarks k other (hbefore h))
        fun k other h ↦ hskips k other (hbefore h)
    have hreverse : (steps ++ [step]).zipIdx.reverse = (step, steps.length) :: steps.zipIdx.reverse := by
      simp [List.zipIdx_append]
    rw [hreverse, List.length_append, List.length_singleton]
    unfold undoEach
    split
    · refine yields_operated_bind hF (hundoes _ _ hlast) fun answer ↦ ?_
      cases answer with
      | ok _ => exact yields_operated_bind hF (hmarks _ _ hlast) fun _ ↦ hrest
      | error source => exact yields_operated_pure hF fun _ h ↦ h
    · next hacted =>
      refine hrest.mono (hskips _ _ hlast ?_) fun _ _ h ↦ h
      rintro ⟨row, hrow, hposition⟩
      exact hacted (List.any_eq_true.mpr ⟨row, hrow, decide_eq_true hposition⟩)

end Loops

end Nodal.Lifecycle
