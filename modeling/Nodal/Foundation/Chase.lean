import Mathlib.Data.List.Basic
import Mathlib.Tactic.Common

/-!
# A chase along links that may go round in a circle

Each place has one link to a next place at most. A chase follows the links for a bounded number of
steps, stops at the first goal, and gives up at a place it has been at. Giving up there loses nothing:
the chase finds a goal exactly where a chain of links no longer than the bound leads to one
(`chase_iff`).
-/

set_option autoImplicit false

namespace Nodal.Foundation

variable {α : Type}

/-- A chain of so many links. -/
inductive Chain (link : α → α → Prop) : ℕ → α → α → Prop
  | one {a b : α} : link a b → Chain link 1 a b
  | more {n : ℕ} {a b c : α} : link a b → Chain link n b c → Chain link (n + 1) a c

/-- Follow the links for so many steps, stopping at a goal, and giving up where the chase has been. -/
def chase [DecidableEq α] (goal : α → Bool) (next : α → Option α) :
    ℕ → List α → Option α → Bool
  | 0, _, _ => false
  | _ + 1, _, none => false
  | bound + 1, been, some place =>
    if goal place then true
    else if place ∈ been then false
    else chase goal next bound (place :: been) (next place)

/-- A goal is so many steps away at most. -/
def Leads (goal : α → Bool) (next : α → Option α) : ℕ → Option α → Prop
  | 0, _ => False
  | bound + 1, at' => ∃ place, at' = some place ∧
      (goal place = true ∨ Leads goal next bound (next place))

variable {goal : α → Bool} {next : α → Option α}

/-- From the places of a circle without a goal no goal is reached. -/
theorem not_leads {circle : List α}
    (hcircle : ∀ place ∈ circle, ∃ after ∈ circle, next place = some after ∧ goal after = false)
    (bound : ℕ) {place : α} (hplace : place ∈ circle) : ¬ Leads goal next bound (next place) := by
  induction bound generalizing place with
  | zero => exact id
  | succ bound ih =>
    rintro ⟨after, hnext, hleads⟩
    obtain ⟨other, hother, hsame, hgoal⟩ := hcircle place hplace
    obtain rfl : other = after := Option.some.inj (hsame.symm.trans hnext)
    rcases hleads with hfound | hmore
    · rw [hgoal] at hfound
      cases hfound
    · exact ih hother hmore

variable [DecidableEq α]

/-- Giving up at a place the chase has been at loses nothing: the places since then are a circle, and
each was no goal when the chase came to it. -/
theorem chase_iff_leads (bound : ℕ) {been : List α} {at' : Option α}
    (hbeen : ∀ place ∈ been, next place = at' ∨
      ∃ after ∈ been, next place = some after ∧ goal after = false) :
    chase goal next bound been at' = true ↔ Leads goal next bound at' := by
  induction bound generalizing been at' with
  | zero => simp [chase, Leads]
  | succ bound ih =>
    cases at' with
    | none => simp [chase, Leads]
    | some place =>
      have hleads : Leads goal next (bound + 1) (some place) ↔
          goal place = true ∨ Leads goal next bound (next place) := by
        constructor
        · rintro ⟨other, hother, h⟩
          exact Option.some.inj hother ▸ h
        · exact fun h ↦ ⟨place, rfl, h⟩
      rw [chase, hleads]
      split_ifs with hgoal hmem
      · exact iff_of_true rfl (Or.inl hgoal)
      · have hnot : goal place = false := by simpa using hgoal
        refine iff_of_false id ?_
        rintro (hfound | hmore)
        · exact hgoal hfound
        · refine not_leads ?_ bound hmem hmore
          intro one hone
          rcases hbeen one hone with hlast | hearlier
          · exact ⟨place, hmem, hlast, hnot⟩
          · exact hearlier
      · have hnot : goal place = false := by simpa using hgoal
        rw [ih, or_iff_right hgoal]
        intro one hone
        rcases List.mem_cons.mp hone with rfl | hold
        · exact Or.inl rfl
        · right
          rcases hbeen one hold with hlast | ⟨after, hafter, hlink, hmiss⟩
          · exact ⟨place, List.mem_cons_self, hlast, hnot⟩
          · exact ⟨after, List.mem_cons_of_mem _ hafter, hlink, hmiss⟩

omit [DecidableEq α] in
theorem leads_iff (bound : ℕ) (start : α) : Leads goal next bound (next start) ↔
    ∃ n ≤ bound, ∃ place, goal place = true ∧
      Chain (fun a b ↦ next a = some b) n start place := by
  induction bound generalizing start with
  | zero =>
    refine iff_of_false id ?_
    rintro ⟨n, hn, place, -, hchain⟩
    cases hchain with
    | one => exact absurd hn (by decide)
    | more => exact absurd hn (Nat.not_succ_le_zero _)
  | succ bound ih =>
    constructor
    · rintro ⟨place, hnext, hgoal | hmore⟩
      · exact ⟨1, Nat.succ_le_succ (Nat.zero_le _), place, hgoal, .one hnext⟩
      · obtain ⟨n, hn, goalPlace, hgoal, hchain⟩ := (ih place).mp hmore
        exact ⟨n + 1, Nat.succ_le_succ hn, goalPlace, hgoal, .more hnext hchain⟩
    · rintro ⟨n, hn, place, hgoal, hchain⟩
      cases hchain with
      | one hlink => exact ⟨place, hlink, Or.inl hgoal⟩
      | more hlink hrest =>
        exact ⟨_, hlink, Or.inr ((ih _).mpr ⟨_, Nat.le_of_succ_le_succ hn, place, hgoal, hrest⟩)⟩

/-- The chase finds a goal exactly where a chain no longer than the bound leads to one. -/
theorem chase_iff (bound : ℕ) (start : α) :
    chase goal next bound [start] (next start) = true ↔
      ∃ n ≤ bound, ∃ place, goal place = true ∧
        Chain (fun a b ↦ next a = some b) n start place := by
  rw [chase_iff_leads, leads_iff]
  intro place hplace
  exact Or.inl (by rw [List.mem_singleton.mp hplace])

end Nodal.Foundation
