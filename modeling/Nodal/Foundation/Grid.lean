import Mathlib.Tactic.Common

/-!
# Tables that are filled from their end

A `Grid` is a table of rows of one length, whose cells are read and written only where they are, and
`countdown` is a loop over the numbers below a bound, the largest first. What such a loop keeps is said for
the number it has come down to (`countdown_of_step`).
-/

set_option autoImplicit false

namespace Nodal.Foundation

/-! ### Loops -/

/-- A loop over the numbers below a bound, from the largest to zero, which a failed pass ends. -/
def countdown {σ : Type} (body : ℕ → σ → Option σ) : ℕ → σ → Option σ
  | 0, s => some s
  | n + 1, s => (body n s).bind (countdown body n)

/-- The rule of a loop: each pass that begins with what holds above its number ends, and with what holds at
it. -/
theorem countdown_of_step {σ : Type} {body : ℕ → σ → Option σ} {holds : ℕ → σ → Prop} {n : ℕ}
    (hstep : ∀ k < n, ∀ s, holds (k + 1) s → ∃ s', body k s = some s' ∧ holds k s') {s : σ}
    (h : holds n s) : ∃ s', countdown body n s = some s' ∧ holds 0 s' := by
  induction n generalizing s with
  | zero => exact ⟨s, rfl, h⟩
  | succ n ih =>
    obtain ⟨next, hnext, hholds⟩ := hstep n (Nat.lt_succ_self n) s h
    rw [countdown, hnext]
    exact ih (fun k hk ↦ hstep k (Nat.lt_succ_of_lt hk)) hholds

/-! ### Tables -/

/-- Rows of one length. -/
structure Grid (α : Type) where
  rows : ℕ
  cols : ℕ
  cell : ℕ → ℕ → α

namespace Grid

variable {α : Type} {grid : Grid α} {i j : ℕ} {value : α}

/-- A table with the same value everywhere. -/
def full (rows cols : ℕ) (value : α) : Grid α := ⟨rows, cols, fun _ _ ↦ value⟩

def get? (grid : Grid α) (i j : ℕ) : Option α :=
  if i < grid.rows ∧ j < grid.cols then some (grid.cell i j) else none

def set? (grid : Grid α) (i j : ℕ) (value : α) : Option (Grid α) :=
  if i < grid.rows ∧ j < grid.cols then
    some { grid with cell := fun i' j' ↦ if i' = i ∧ j' = j then value else grid.cell i' j' }
  else none

theorem get?_eq (hi : i < grid.rows) (hj : j < grid.cols) : grid.get? i j = some (grid.cell i j) :=
  if_pos ⟨hi, hj⟩

/-- Writing a cell changes that cell. -/
theorem set?_eq (hi : i < grid.rows) (hj : j < grid.cols) : ∃ grid' : Grid α,
    grid.set? i j value = some grid' ∧ grid'.rows = grid.rows ∧ grid'.cols = grid.cols ∧
      grid'.cell i j = value ∧
        ∀ i' j', ¬(i' = i ∧ j' = j) → grid'.cell i' j' = grid.cell i' j' :=
  ⟨_, if_pos ⟨hi, hj⟩, rfl, rfl, if_pos ⟨rfl, rfl⟩, fun _ _ hother ↦ if_neg hother⟩

end Grid

end Nodal.Foundation
