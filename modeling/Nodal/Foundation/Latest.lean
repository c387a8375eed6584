import Mathlib.Data.List.Infix
import Mathlib.Tactic.Common

/-!
# The latest offer before a call

Marks come one after another. An offer takes the place of the one before it, a call uses up the offer that
stands, and what it called for is taken where the call is for taking. A value is taken exactly when it was
offered before a call that takes, with neither an offer nor a call between the two (`mem_taken_iff`).
-/

set_option autoImplicit false

namespace Nodal.Foundation.Latest

variable {β : Type}

/-- What one mark does. -/
inductive Mark (β : Type)
  | offer (value : Option β)
  | call (takes : Bool)
  | neither

open Mark

/-- What the calls take, from the offer that stands at first. -/
def taken : Option β → List (Mark β) → List β
  | _, [] => []
  | _, offer value :: rest => taken value rest
  | standing, call takes :: rest => (if takes then standing.toList else []) ++ taken none rest
  | standing, neither :: rest => taken standing rest

/-- The marks begin with a call that takes, after marks that do nothing. -/
def Called (marks : List (Mark β)) : Prop :=
  ∃ between after, marks = between ++ call true :: after ∧ ∀ mark ∈ between, mark = neither

/-- A value is offered, and then called for before anything else is offered or called for. -/
def Answered (value : β) (marks : List (Mark β)) : Prop :=
  ∃ before rest, marks = before ++ offer (some value) :: rest ∧ Called rest

variable {value : β} {mark : Mark β} {marks rest : List (Mark β)} {standing : Option β}

theorem not_called_nil : ¬Called ([] : List (Mark β)) := by
  rintro ⟨between, after, h, -⟩
  cases between <;> cases h

theorem called_cons_iff : Called (mark :: rest) ↔ mark = call true ∨ mark = neither ∧ Called rest := by
  constructor
  · rintro ⟨between, after, h, hbetween⟩
    cases between with
    | nil => exact .inl (List.cons.inj h).1
    | cons first between =>
      obtain ⟨rfl, hrest⟩ := List.cons.inj h
      obtain ⟨hfirst, hothers⟩ := List.forall_mem_cons.mp hbetween
      exact .inr ⟨hfirst, between, after, hrest, hothers⟩
  · rintro (rfl | ⟨rfl, between, after, rfl, hbetween⟩)
    · exact ⟨[], rest, rfl, List.forall_mem_nil _⟩
    · exact ⟨neither :: between, after, rfl, List.forall_mem_cons.mpr ⟨rfl, hbetween⟩⟩

theorem not_answered_nil : ¬Answered value [] := by
  rintro ⟨before, rest, h, -⟩
  cases before <;> cases h

theorem answered_cons_iff : Answered value (mark :: rest) ↔
    mark = offer (some value) ∧ Called rest ∨ Answered value rest := by
  constructor
  · rintro ⟨before, after, h, hcalled⟩
    cases before with
    | nil =>
      obtain ⟨rfl, rfl⟩ := List.cons.inj h
      exact .inl ⟨rfl, hcalled⟩
    | cons first before => exact .inr ⟨before, after, (List.cons.inj h).2, hcalled⟩
  · rintro (⟨rfl, hcalled⟩ | ⟨before, after, rfl, hcalled⟩)
    · exact ⟨[], rest, rfl, hcalled⟩
    · exact ⟨mark :: before, after, rfl, hcalled⟩

/-- Marks that do nothing take nothing. -/
theorem taken_append (h : ∀ mark ∈ marks, mark = neither) :
    taken standing (marks ++ rest) = taken standing rest := by
  induction marks with
  | nil => rfl
  | cons mark marks ih =>
    obtain ⟨rfl, hmarks⟩ := List.forall_mem_cons.mp h
    exact ih hmarks

/-- A value is taken exactly when it stands at first or was offered, and is called for. -/
theorem mem_taken_iff : value ∈ taken standing marks ↔
    standing = some value ∧ Called marks ∨ Answered value marks := by
  induction marks generalizing standing with
  | nil => simp [taken, not_called_nil, not_answered_nil]
  | cons mark rest ih =>
    rw [answered_cons_iff, called_cons_iff]
    cases mark with
    | offer offered => simp [taken, ih]
    | call takes => cases takes <;> simp [taken, ih]
    | neither => simp [taken, ih]

end Nodal.Foundation.Latest
