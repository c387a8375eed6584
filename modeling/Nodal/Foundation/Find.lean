import Mathlib.Algebra.GroupWithZero.Nat
import Mathlib.Data.List.Infix
import Mathlib.Tactic.Common

/-!
# Where a pattern first occurs

The first index at which a pattern occurs in a list (`indexOf_eq_some_iff`), and what becomes of it
when lists are put together. A value the pattern does not hold parts the occurrences before it from
those after it (`infix_append_cons_iff`), so a list can be searched piece by piece, and replacing values
by others that the pattern does not hold either changes nothing (`infix_append_flatMap_iff`).
-/

set_option autoImplicit false

namespace Nodal.Foundation.Find

variable {α : Type} {pattern text before after : List α} {x : α} {i j : ℕ}

/-! ### Pieces -/

theorem prefix_append_cons_iff (hx : x ∉ pattern) :
    pattern <+: before ++ x :: after ↔ pattern <+: before := by
  constructor
  · intro h
    rcases List.prefix_or_prefix_of_prefix h (List.prefix_append before (x :: after)) with hle | hle
    · exact hle
    · obtain ⟨more, rfl⟩ := hle
      rw [List.prefix_append_right_inj] at h
      cases more with
      | nil => simp
      | cons c more =>
        obtain rfl := (List.cons_prefix_cons.mp h).1
        simp at hx
  · exact fun h ↦ h.trans (List.prefix_append _ _)

/-- An occurrence does not reach over a value the pattern does not hold. -/
theorem infix_append_cons_iff (hpattern : pattern ≠ []) (hx : x ∉ pattern) :
    pattern <:+: before ++ x :: after ↔ pattern <:+: before ∨ pattern <:+: after := by
  induction before with
  | nil =>
    have hnot : ¬pattern <+: x :: after := by
      intro h
      have hnil := (@prefix_append_cons_iff α pattern [] after x hx).mp h
      exact hpattern (List.prefix_nil.mp hnil)
    simp [List.infix_cons_iff, hnot, hpattern]
  | cons c before ih =>
    have hhere := @prefix_append_cons_iff α pattern (c :: before) after x hx
    simp only [List.cons_append, List.infix_cons_iff] at hhere ⊢
    rw [hhere, or_assoc]
    exact or_congr_right ih

/-- Nor does it begin before its own first value. -/
theorem infix_append_of_disjoint (hpattern : pattern ≠ []) (h : ∀ c ∈ before, c ∉ pattern) :
    pattern <:+: before ++ after ↔ pattern <:+: after := by
  induction before with
  | nil => rfl
  | cons c before ih =>
    obtain ⟨hc, hbefore⟩ := List.forall_mem_cons.mp h
    have hcons := @infix_append_cons_iff α pattern [] (before ++ after) c hpattern hc
    rw [List.cons_append, ← List.nil_append (c :: (before ++ after)), hcons, ih hbefore]
    simp [hpattern]

/-- Values that are each kept, or are ones the pattern does not hold and become others it does not hold,
keep its occurrences. -/
theorem infix_append_flatMap_iff {each : α → List α} (hpattern : pattern ≠ [])
    (heach : ∀ c, each c = [c] ∨
      c ∉ pattern ∧ ∃ first rest, each c = first :: rest ∧ ∀ d ∈ first :: rest, d ∉ pattern) :
    pattern <:+: before ++ text.flatMap each ↔ pattern <:+: before ++ text := by
  induction text generalizing before with
  | nil => rfl
  | cons c text ih =>
    rw [List.flatMap_cons]
    rcases heach c with hkept | ⟨hc, first, rest, hbecomes, hothers⟩
    · rw [hkept, ← List.append_assoc, ih, List.append_assoc, List.singleton_append]
    · obtain ⟨hfirst, hrest⟩ := List.forall_mem_cons.mp hothers
      rw [hbecomes, List.cons_append, infix_append_cons_iff hpattern hfirst,
        infix_append_of_disjoint hpattern hrest, infix_append_cons_iff hpattern hc]
      have htext := @ih []
      rw [List.nil_append, List.nil_append] at htext
      rw [htext]

/-! ### The first occurrence -/

variable [DecidableEq α]

/-- The index of the first occurrence of a pattern. -/
def indexOf (pattern : List α) : List α → Option ℕ
  | [] => if pattern = [] then some 0 else none
  | c :: rest => if pattern <+: c :: rest then some 0 else (indexOf pattern rest).map (· + 1)

theorem indexOf_nil : indexOf pattern [] = if pattern = [] then some 0 else none := rfl

theorem indexOf_cons (c : α) (rest : List α) : indexOf pattern (c :: rest) =
    if pattern <+: c :: rest then some 0 else (indexOf pattern rest).map (· + 1) := rfl

theorem indexOf_eq_none_iff : indexOf pattern text = none ↔ ¬pattern <:+: text := by
  induction text with
  | nil => by_cases h : pattern = [] <;> simp [indexOf_nil, h]
  | cons c text ih =>
    rw [indexOf_cons]
    split_ifs with h
    · simp [List.infix_cons_iff, h]
    · rw [Option.map_eq_none_iff, ih, List.infix_cons_iff, not_or]
      exact (and_iff_right h).symm

theorem indexOf_eq_some_iff : indexOf pattern text = some i ↔
    i ≤ text.length ∧ pattern <+: text.drop i ∧ ∀ j < i, ¬pattern <+: text.drop j := by
  induction text generalizing i with
  | nil =>
    by_cases h : pattern = []
    · simp only [indexOf_nil, h, if_true, Option.some.injEq, List.length_nil, Nat.le_zero]
      constructor
      · rintro rfl
        exact ⟨rfl, List.nil_prefix, fun j hj ↦ absurd hj j.not_lt_zero⟩
      · exact fun hi ↦ hi.1.symm
    · simp [indexOf_nil, h]
  | cons c text ih =>
    rw [indexOf_cons]
    split_ifs with h
    · simp only [Option.some.injEq]
      constructor
      · rintro rfl
        exact ⟨Nat.zero_le _, h, fun j hj ↦ absurd hj j.not_lt_zero⟩
      · intro ⟨_, _, hfirst⟩
        by_contra hne
        exact hfirst 0 (by omega) h
    · cases i with
      | zero => simp [h]
      | succ i =>
        rw [Option.map_eq_some_iff]
        constructor
        · intro ⟨k, hk, hsucc⟩
          obtain rfl : k = i := by omega
          obtain ⟨hle, hhere, hfirst⟩ := ih.mp hk
          refine ⟨Nat.succ_le_succ hle, hhere, fun j hj ↦ ?_⟩
          cases j with
          | zero => exact h
          | succ j => exact hfirst j (by omega)
        · intro ⟨hle, hhere, hfirst⟩
          refine ⟨i, ih.mpr ⟨Nat.le_of_succ_le_succ hle, hhere, fun j hj ↦ ?_⟩, rfl⟩
          exact hfirst (j + 1) (by omega)

theorem indexOf_of_prefix (h : pattern <+: text) : indexOf pattern text = some 0 :=
  indexOf_eq_some_iff.mpr ⟨Nat.zero_le _, h, fun j hj ↦ absurd hj j.not_lt_zero⟩

/-- The first occurrence is no later than any. -/
theorem exists_indexOf_le (h : pattern <+: text.drop i) :
    ∃ j ≤ i, indexOf pattern text = some j := by
  cases hfound : indexOf pattern text with
  | none =>
    rw [indexOf_eq_none_iff] at hfound
    exact absurd (h.isInfix.trans (List.drop_suffix i text).isInfix) hfound
  | some j =>
    refine ⟨j, ?_, rfl⟩
    by_contra hlater
    rw [indexOf_eq_some_iff] at hfound
    exact hfound.2.2 i (by omega) h

/-- An occurrence ends inside the list. -/
theorem indexOf_add_length_le (h : indexOf pattern text = some i) :
    i + pattern.length ≤ text.length := by
  rw [indexOf_eq_some_iff] at h
  obtain ⟨_, hhere, -⟩ := h
  have hlength := hhere.length_le
  rw [List.length_drop] at hlength
  omega

theorem indexOf_append_of_some (h : indexOf pattern before = some i) :
    indexOf pattern (before ++ after) = some i := by
  have hends := indexOf_add_length_le h
  rw [indexOf_eq_some_iff] at h
  obtain ⟨hle, hhere, hfirst⟩ := h
  have hdrop (j : ℕ) (hj : j ≤ i) : (before ++ after).drop j = before.drop j ++ after :=
    List.drop_append_of_le_length (by omega)
  refine indexOf_eq_some_iff.mpr ⟨by rw [List.length_append]; omega, ?_, fun j hj hthere ↦ ?_⟩
  · rw [hdrop i le_rfl]
    exact hhere.trans (List.prefix_append _ _)
  · rw [hdrop j hj.le] at hthere
    refine hfirst j hj (List.prefix_of_prefix_length_le hthere (List.prefix_append _ _) ?_)
    rw [List.length_drop]
    omega

/-- What comes before a value the pattern does not hold, and does not hold the pattern, is passed over. -/
theorem indexOf_append_cons (hpattern : pattern ≠ []) (hx : x ∉ pattern)
    (hbefore : ¬pattern <:+: before) : indexOf pattern (before ++ x :: after) =
      (indexOf pattern after).map (· + (before.length + 1)) := by
  induction before with
  | nil =>
    have hnot : ¬pattern <+: x :: after := by
      intro h
      have hnil := (@prefix_append_cons_iff α pattern [] after x hx).mp h
      exact hpattern (List.prefix_nil.mp hnil)
    rw [List.nil_append, indexOf_cons, if_neg hnot]
    rfl
  | cons c before ih =>
    have hnot : ¬pattern <+: c :: (before ++ x :: after) := fun h ↦
      hbefore ((@prefix_append_cons_iff α pattern (c :: before) after x hx).mp h).isInfix
    have hrest : ¬pattern <:+: before := fun h ↦ hbefore (h.trans (List.suffix_cons c before).isInfix)
    rw [List.cons_append, indexOf_cons, if_neg hnot, ih hrest, Option.map_map]
    congr 1

/-- The first of one value. -/
theorem indexOf_singleton_append (h : x ∉ before) :
    indexOf [x] (before ++ x :: after) = some before.length := by
  refine indexOf_eq_some_iff.mpr ⟨by simp, by simp, fun j hj hthere ↦ ?_⟩
  rw [List.drop_append_of_le_length hj.le, List.drop_eq_getElem_cons hj, List.cons_append] at hthere
  have hsame := (List.cons_prefix_cons.mp hthere).1
  exact h (hsame ▸ List.getElem_mem hj)

end Nodal.Foundation.Find
