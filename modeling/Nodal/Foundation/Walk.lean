import Mathlib.Data.List.Basic
import Mathlib.Tactic.Common

/-!
# A walk that keeps what it has still to visit on a stack

A visit of one place answers with the places to go to next, and the last of them is visited first.
The walk is cut at a bound. What each visit keeps holds where the walk ends (`visiting_keeps`), and a
bound no shorter than everything ever met leaves nothing unvisited (`visiting_done`).
-/

set_option autoImplicit false

namespace Nodal.Foundation

variable {α σ ε : Type}

/-- Visit what is pending, the last that was pushed first, for at most so many visits. What is left
pending, and the state. -/
def visiting (visit : α → σ → Except ε (List α × σ)) :
    ℕ → List α → σ → Except ε (List α × σ)
  | 0, pending, s => .ok (pending, s)
  | _ + 1, [], s => .ok ([], s)
  | bound + 1, first :: rest, s =>
    match visit first s with
    | .error failure => .error failure
    | .ok (next, s') => visiting visit bound (next.reverse ++ rest) s'

variable {visit : α → σ → Except ε (List α × σ)} {bound : ℕ} {seen pending left : List α} {s s' : σ}

/-- What each visit keeps holds where the walk ends: nothing is left, or the bound is spent. -/
theorem visiting_keeps {Inv : List α → List α → σ → Prop}
    (hstep : ∀ seen first rest s next s', Inv seen (first :: rest) s →
      visit first s = .ok (next, s') → Inv (first :: seen) (next.reverse ++ rest) s')
    (hstart : Inv seen pending s) (h : visiting visit bound pending s = .ok (left, s')) :
    ∃ seen', Inv seen' left s' ∧ (left = [] ∨ seen'.length = seen.length + bound) := by
  induction bound generalizing seen pending s with
  | zero =>
    cases h
    exact ⟨seen, hstart, Or.inr rfl⟩
  | succ bound ih =>
    cases pending with
    | nil =>
      cases h
      exact ⟨seen, hstart, Or.inl rfl⟩
    | cons first rest =>
      unfold visiting at h
      split at h
      · cases h
      · next next s₁ hvisit =>
        obtain ⟨seen', hinv, hend⟩ := ih (hstep _ _ _ _ _ _ hstart hvisit) h
        refine ⟨seen', hinv, hend.imp_right fun hlength ↦ ?_⟩
        rw [hlength, List.length_cons]
        omega

/-- A walk that never meets more places than its bound leaves none unvisited. -/
theorem visiting_done {Inv : List α → List α → σ → Prop}
    (hstep : ∀ seen first rest s next s', Inv seen (first :: rest) s →
      visit first s = .ok (next, s') → Inv (first :: seen) (next.reverse ++ rest) s')
    (hbound : ∀ seen pending s, Inv seen pending s → seen.length + pending.length ≤ bound)
    (hstart : Inv [] pending s) (h : visiting visit bound pending s = .ok (left, s')) :
    left = [] ∧ ∃ seen', Inv seen' [] s' := by
  obtain ⟨seen', hinv, hend⟩ := visiting_keeps hstep hstart h
  have hnil : left = [] := by
    rcases hend with hnil | hlength
    · exact hnil
    · have hmet := hbound _ _ _ hinv
      rw [hlength, List.length_nil] at hmet
      exact List.length_eq_zero_iff.mp (by omega)
  exact ⟨hnil, seen', hnil ▸ hinv⟩

end Nodal.Foundation
