import Mathlib.Data.List.Sublists
import Mathlib.Order.Bounds.Basic

/-!
# The longest common subsequence of two lists

`common` is its length, by the recursion on the heads of the lists: equal heads are both taken, and of two
that differ one is passed over. It is the greatest length of a list that is inside both (`isGreatest_common`),
so taking an equal pair is never worse than passing over one of it (`common_cons_self`).
-/

set_option autoImplicit false

namespace Nodal.Foundation

variable {α : Type} [DecidableEq α]

/-- The length of the longest list inside both. -/
def common : List α → List α → ℕ
  | [], _ => 0
  | _ :: _, [] => 0
  | a :: s, b :: t => if a = b then common s t + 1 else max (common s (b :: t)) (common (a :: s) t)
  termination_by s t => s.length + t.length

@[simp] theorem common_nil_left (t : List α) : common [] t = 0 := by
  rw [common]

@[simp] theorem common_nil_right (s : List α) : common s [] = 0 := by
  cases s with
  | nil => rw [common]
  | cons a s => rw [common]

theorem common_cons_cons (a b : α) (s t : List α) : common (a :: s) (b :: t) =
    if a = b then common s t + 1 else max (common s (b :: t)) (common (a :: s) t) := by
  rw [common]

theorem common_cons_self (a : α) (s t : List α) : common (a :: s) (a :: t) = common s t + 1 := by
  rw [common_cons_cons, if_pos rfl]

theorem common_cons_ne {a b : α} (h : a ≠ b) (s t : List α) :
    common (a :: s) (b :: t) = max (common s (b :: t)) (common (a :: s) t) := by
  rw [common_cons_cons, if_neg h]

/-- A list of the greatest length is inside both. -/
theorem exists_common (s t : List α) :
    ∃ both : List α, both.Sublist s ∧ both.Sublist t ∧ both.length = common s t := by
  induction s, t using common.induct with
  | case1 t => exact ⟨[], List.nil_sublist _, List.nil_sublist _, (common_nil_left t).symm⟩
  | case2 a s => exact ⟨[], List.nil_sublist _, List.nil_sublist _, (common_nil_right _).symm⟩
  | case3 s b t ih =>
    obtain ⟨both, hs, ht, hlength⟩ := ih
    exact ⟨b :: both, hs.cons_cons b, ht.cons_cons b, by rw [common_cons_self, List.length_cons, hlength]⟩
  | case4 a s b t hne ihs iht =>
    rw [common_cons_ne hne]
    rcases le_total (common s (b :: t)) (common (a :: s) t) with hle | hle
    · obtain ⟨both, hs, ht, hlength⟩ := iht
      exact ⟨both, hs, ht.cons b, by rw [hlength, max_eq_right hle]⟩
    · obtain ⟨both, hs, ht, hlength⟩ := ihs
      exact ⟨both, hs.cons a, ht, by rw [hlength, max_eq_left hle]⟩

/-- No list inside both is longer. -/
theorem length_le_common {both s t : List α} (hs : both.Sublist s) (ht : both.Sublist t) :
    both.length ≤ common s t := by
  induction s, t using common.induct generalizing both with
  | case1 t =>
    rw [List.sublist_nil.mp hs]
    exact Nat.zero_le _
  | case2 a s =>
    rw [List.sublist_nil.mp ht]
    exact Nat.zero_le _
  | case3 s b t ih =>
    have hrest := ih hs.tail ht.tail
    rw [List.length_tail] at hrest
    rw [common_cons_self]
    omega
  | case4 a s b t hne ihs iht =>
    rw [common_cons_ne hne]
    cases hs with
    | cons _ hs => exact (ihs hs ht).trans (le_max_left _ _)
    | cons_cons _ hs =>
      cases ht with
      | cons _ ht => exact (iht (hs.cons_cons a) ht).trans (le_max_right _ _)
      | cons_cons _ ht => exact absurd rfl hne

theorem isGreatest_common (s t : List α) :
    IsGreatest {n | ∃ both : List α, both.Sublist s ∧ both.Sublist t ∧ both.length = n} (common s t) := by
  refine ⟨exists_common s t, ?_⟩
  rintro n ⟨both, hs, ht, rfl⟩
  exact length_le_common hs ht

theorem common_le_cons_right (b : α) (s t : List α) : common s t ≤ common s (b :: t) := by
  obtain ⟨both, hs, ht, hlength⟩ := exists_common s t
  rw [← hlength]
  exact length_le_common hs (ht.cons b)

end Nodal.Foundation
