import Mathlib.Data.List.Sort

/-!
# What holds of a list that was sorted by a key

A stable sort puts two elements in the order of their keys, and keeps the order of two with one key. So
a relation holds of every pair of the sorted list where it holds of each pair of the list in the order
the keys put it (`pairwise_insertionSort_iff`).
-/

set_option autoImplicit false

namespace Nodal.Foundation.Sorted

variable {α κ : Type} [LinearOrder κ] {key : α → κ} {R : α → α → Prop} {a : α} {l : List α}

/-- Two elements stand in a relation in the order their keys put them, the first first where they tie. -/
def InKeyOrder (key : α → κ) (R : α → α → Prop) (a b : α) : Prop :=
  (key a ≤ key b → R a b) ∧ (key b < key a → R b a)

theorem pairwise_orderedInsert_iff (hsorted : l.Pairwise (key · ≤ key ·)) :
    (l.orderedInsert (key · ≤ key ·) a).Pairwise R ↔
      (∀ b ∈ l, InKeyOrder key R a b) ∧ l.Pairwise R := by
  induction l with
  | nil => simp
  | cons b l ih =>
    obtain ⟨hfirst, hrest⟩ := List.pairwise_cons.mp hsorted
    rw [List.orderedInsert_cons]
    split
    · next hab =>
      have hall : ∀ c ∈ b :: l, key a ≤ key c := by
        intro c hc
        rcases List.mem_cons.mp hc with rfl | hc
        · exact hab
        · exact hab.trans (hfirst c hc)
      rw [List.pairwise_cons]
      refine and_congr_left fun _ ↦ forall₂_congr fun c hc ↦ ?_
      simp [InKeyOrder, hall c hc, (hall c hc).not_gt]
    · next hab =>
      have hba : key b < key a := not_le.mp hab
      rw [List.pairwise_cons, List.pairwise_cons, ih hrest]
      simp only [List.mem_orderedInsert, List.mem_cons, forall_eq_or_imp, InKeyOrder, hba, hab]
      tauto

/-- A relation holds of every pair of a sorted list where it holds of each pair in the order of the
keys. -/
theorem pairwise_insertionSort_iff : (l.insertionSort (key · ≤ key ·)).Pairwise R ↔
    l.Pairwise (InKeyOrder key R) := by
  have htrans : IsTrans α (key · ≤ key ·) := ⟨fun _ _ _ hab hbc ↦ hab.trans hbc⟩
  have htotal : Std.Total (key · ≤ key ·) := ⟨fun a b ↦ le_total (key a) (key b)⟩
  induction l with
  | nil => simp
  | cons a l ih =>
    rw [List.insertionSort_cons, List.pairwise_cons]
    refine (pairwise_orderedInsert_iff (List.pairwise_insertionSort _ l)).trans (and_congr ?_ ih)
    simp only [List.mem_insertionSort]

end Nodal.Foundation.Sorted
