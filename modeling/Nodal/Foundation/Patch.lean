import Mathlib.Algebra.GroupWithZero.Nat
import Mathlib.Data.List.Infix
import Mathlib.Tactic.Common

/-!
# Patches over trees of files

A patch is a list of entries, one for each file it changes: what is there before and after, and the
stretches of text it replaces. It is accepted where the text of each stretch is found in the file at
some offset, and where each stands at the place it names the result is the one the patch describes.

A patch describes two trees (`Describes`), and read backwards it describes them the other way round.
Over a tree that agrees with the first where the patch touches it, it is accepted and ends in the
second (`accepts_of_describes`, `apply_of_describes`). Where each text is merely found, it may be
accepted over other trees as well.
-/

set_option autoImplicit false

namespace Nodal.Foundation.Patch

/-! ### Text -/

variable {π α : Type}

/-- A stretch of lines: where and what it was, and where and what it is after. -/
structure Hunk (α : Type) where
  oldAt : ℕ
  oldText : List α
  newAt : ℕ
  newText : List α
  deriving DecidableEq, Repr

/-- The same stretch read backwards. -/
def Hunk.swap (hunk : Hunk α) : Hunk α := ⟨hunk.newAt, hunk.newText, hunk.oldAt, hunk.oldText⟩

@[simp] theorem Hunk.swap_swap (hunk : Hunk α) : hunk.swap.swap = hunk := rfl

section Splice

variable [DecidableEq α]

/-- Replace each stretch at the place it names, in lines that start at a given one. -/
def splice : ℕ → List (Hunk α) → List α → Option (List α)
  | _, [], lines => some lines
  | start, hunk :: rest, lines =>
    let kept := lines.take (hunk.oldAt - start)
    let left := lines.drop (hunk.oldAt - start)
    if start ≤ hunk.oldAt ∧ hunk.oldText <+: left then
      (splice (hunk.oldAt + hunk.oldText.length) rest (left.drop hunk.oldText.length)).map
        (kept ++ hunk.newText ++ ·)
    else none

/-- A stretch that stands at its place is found. -/
theorem infix_of_splice {start : ℕ} {hunks : List (Hunk α)} {lines result : List α}
    (h : splice start hunks lines = some result) : ∀ hunk ∈ hunks, hunk.oldText <:+: lines := by
  induction hunks generalizing start lines result with
  | nil => simp
  | cons first rest ih =>
    unfold splice at h
    dsimp only at h
    split at h
    · next hfits =>
      obtain ⟨rest', hrest, _⟩ := Option.map_eq_some_iff.mp h
      have hdrop : lines.drop (first.oldAt - start) <:+: lines := (List.drop_suffix _ _).isInfix
      intro hunk hhunk
      rcases List.mem_cons.mp hhunk with rfl | hhunk
      · exact hfits.2.isInfix.trans hdrop
      · exact (ih hrest hunk hhunk).trans ((List.drop_suffix _ _).isInfix.trans hdrop)
    · cases h

end Splice

/-! ### Trees -/

/-- What a file is: a regular one, one that may be run, or a link, whose text is where it leads. -/
inductive Mode
  | regular
  | executable
  | symlink
  deriving DecidableEq, Repr

/-- Whether two files are of one type. -/
def Mode.sameType (mode mode' : Mode) : Bool :=
  decide (mode = .symlink) == decide (mode' = .symlink)

@[simp] theorem Mode.sameType_self (mode : Mode) : mode.sameType mode = true := by
  simp [sameType]

structure File (α : Type) where
  mode : Mode
  lines : List α
  deriving DecidableEq, Repr

/-- The files of a tree, by their paths. -/
abbrev Tree (π α : Type) := π → Option (File α)

/-- The change of one file: no old side for one that is made, and no new side for one that goes. -/
structure Change (π α : Type) where
  old : Option (π × Mode)
  new : Option (π × Mode)
  hunks : List (Hunk α)
  deriving DecidableEq, Repr

namespace Change

variable (change : Change π α)

def oldPath : Option π := change.old.map Prod.fst

def newPath : Option π := change.new.map Prod.fst

/-- The same change read backwards. -/
def swap : Change π α := ⟨change.new, change.old, change.hunks.map Hunk.swap⟩

@[simp] theorem swap_oldPath : change.swap.oldPath = change.newPath := rfl

@[simp] theorem swap_newPath : change.swap.newPath = change.oldPath := rfl

end Change

/-- A patch read backwards. -/
def reverse (patch : List (Change π α)) : List (Change π α) :=
  patch.map Change.swap

/-- The text of one side of a change: nothing for a side that is not there. -/
def textOf (tree : Tree π α) (side : Option (π × Mode)) : List α :=
  ((side.bind fun side ↦ tree side.1).map File.lines).getD []

/-! ### Accepting a patch -/

variable [DecidableEq π] [DecidableEq α]

/-- Whether a change finds what it changes: a file of its type, with the text of each stretch in it
somewhere, and nothing else where the file goes. -/
def finds (tree : Tree π α) (change : Change π α) : Bool :=
  match change.old with
  | none => true
  | some (path, mode) => match tree path with
    | none => false
    | some file => file.mode.sameType mode &&
        change.hunks.all (fun hunk ↦ decide (hunk.oldText <:+: file.lines)) &&
        (change.new.isSome || decide (splice 0 change.hunks file.lines = some []))

/-- Whether the place of what a change makes is free, or the patch frees it. -/
def makes (tree : Tree π α) (patch : List (Change π α)) (change : Change π α) : Bool :=
  match change.newPath with
  | none => true
  | some path => decide (change.oldPath = some path) || (tree path).isNone ||
      patch.any fun other ↦ decide (other.oldPath = some path) && decide (other.newPath ≠ some path)

/-- Whether a patch is accepted over a tree. -/
def accepts (tree : Tree π α) (patch : List (Change π α)) : Bool :=
  patch.all fun change ↦ finds tree change && makes tree patch change

/-! ### What a patch ends in -/

/-- The text a change leaves: the one it describes where each stretch is at its place, and otherwise
wherever the stretches were found. -/
def content (elsewhere : List (Hunk α) → List α → List α) (tree : Tree π α)
    (change : Change π α) : List α :=
  (splice 0 change.hunks (textOf tree change.old)).getD
    (elsewhere change.hunks (textOf tree change.old))

/-- The file a change writes at a path, where it writes there. -/
def writes (elsewhere : List (Hunk α) → List α → List α) (tree : Tree π α) (path : π)
    (change : Change π α) : Option (File α) :=
  match change.new with
  | none => none
  | some (place, mode) =>
    if place = path then some ⟨mode, content elsewhere tree change⟩ else none

/-- A tree after a patch: what it writes, less what it takes away. -/
def apply (elsewhere : List (Hunk α) → List α → List α) (tree : Tree π α)
    (patch : List (Change π α)) : Tree π α := fun path ↦
  match patch.findSome? (writes elsewhere tree path) with
  | some file => some file
  | none => if patch.any (fun change ↦ decide (change.oldPath = some path)) then none else tree path

/-! ### What a patch describes -/

omit [DecidableEq π] [DecidableEq α]

/-- A path a patch reads or writes. -/
def Touched (patch : List (Change π α)) (path : π) : Prop :=
  ∃ change ∈ patch, change.oldPath = some path ∨ change.newPath = some path

theorem touched_reverse {patch : List (Change π α)} {path : π} :
    Touched (reverse patch) path ↔ Touched patch path := by
  simp [Touched, reverse, or_comm]

variable [DecidableEq α]

/-- A patch is the difference of two trees, in changes of files each at its place. -/
structure Describes (before after : Tree π α) (patch : List (Change π α)) : Prop where
  old : ∀ change ∈ patch, ∀ path mode, change.old = some (path, mode) →
    ∃ file, before path = some file ∧ file.mode = mode
  new : ∀ change ∈ patch, ∀ path mode, change.new = some (path, mode) →
    ∃ file, after path = some file ∧ file.mode = mode
  turns : ∀ change ∈ patch,
    splice 0 change.hunks (textOf before change.old) = some (textOf after change.new)
  turnsBack : ∀ change ∈ patch,
    splice 0 (change.hunks.map Hunk.swap) (textOf after change.new) = some (textOf before change.old)
  oldOnce : ∀ change ∈ patch, ∀ change' ∈ patch, ∀ path,
    change.oldPath = some path → change'.oldPath = some path → change = change'
  newOnce : ∀ change ∈ patch, ∀ change' ∈ patch, ∀ path,
    change.newPath = some path → change'.newPath = some path → change = change'
  /-- What goes goes. -/
  leaves : ∀ change ∈ patch, ∀ path, change.oldPath = some path →
    (∀ other ∈ patch, other.newPath ≠ some path) → after path = none
  /-- What is made was not there. -/
  starts : ∀ change ∈ patch, ∀ path, change.newPath = some path →
    (∀ other ∈ patch, other.oldPath ≠ some path) → before path = none
  covers : ∀ path, before path ≠ after path → Touched patch path
  /-- No patch lists no change. -/
  changes : patch ≠ [] → before ≠ after

variable {before after tree : Tree π α} {patch : List (Change π α)} {path : π}
  {elsewhere : List (Hunk α) → List α → List α}

/-- Read backwards, a patch describes its trees the other way round. -/
theorem Describes.reverse (h : Describes before after patch) :
    Describes after before (reverse patch) := by
  have hmem {change : Change π α} (hchange : change ∈ Patch.reverse patch) :
      ∃ other ∈ patch, change = other.swap := by
    obtain ⟨other, hother, rfl⟩ := List.mem_map.mp hchange
    exact ⟨other, hother, rfl⟩
  have hback {change : Change π α} (hchange : change ∈ patch) : change.swap ∈ Patch.reverse patch :=
    List.mem_map_of_mem hchange
  refine ⟨?_, ?_, ?_, ?_, ?_, ?_, ?_, ?_, ?_, ?_⟩
  · intro change hchange
    obtain ⟨other, hother, rfl⟩ := hmem hchange
    exact h.new other hother
  · intro change hchange
    obtain ⟨other, hother, rfl⟩ := hmem hchange
    exact h.old other hother
  · intro change hchange
    obtain ⟨other, hother, rfl⟩ := hmem hchange
    exact h.turnsBack other hother
  · intro change hchange
    obtain ⟨other, hother, rfl⟩ := hmem hchange
    have hhunks : other.swap.hunks.map Hunk.swap = other.hunks := by
      simp [Change.swap, Function.comp_def]
    rw [hhunks]
    exact h.turns other hother
  · intro change hchange change' hchange' path hpath hpath'
    obtain ⟨other, hother, rfl⟩ := hmem hchange
    obtain ⟨other', hother', rfl⟩ := hmem hchange'
    rw [h.newOnce other hother other' hother' path hpath hpath']
  · intro change hchange change' hchange' path hpath hpath'
    obtain ⟨other, hother, rfl⟩ := hmem hchange
    obtain ⟨other', hother', rfl⟩ := hmem hchange'
    rw [h.oldOnce other hother other' hother' path hpath hpath']
  · intro change hchange path hpath hnone
    obtain ⟨other, hother, rfl⟩ := hmem hchange
    exact h.starts other hother path hpath fun another hanother ↦ hnone _ (hback hanother)
  · intro change hchange path hpath hnone
    obtain ⟨other, hother, rfl⟩ := hmem hchange
    exact h.leaves other hother path hpath fun another hanother ↦ hnone _ (hback hanother)
  · exact fun path hne ↦ touched_reverse.mpr (h.covers path hne.symm)
  · exact fun hne ↦ (h.changes fun hnil ↦ hne (by simp [Patch.reverse, hnil])).symm

variable [DecidableEq π]

/-- Whether a patch is accepted is a matter of where it is touched. -/
theorem accepts_congr {tree' : Tree π α}
    (hagree : ∀ path, Touched patch path → tree path = tree' path) :
    accepts tree patch = accepts tree' patch := by
  have hold (change : Change π α) (hchange : change ∈ patch) :
      finds tree change = finds tree' change := by
    unfold finds
    cases hside : change.old with
    | none => rfl
    | some side =>
      have hpath : change.oldPath = some side.1 := by simp [Change.oldPath, hside]
      simp only [hagree side.1 ⟨change, hchange, Or.inl hpath⟩]
  have hnew (change : Change π α) (hchange : change ∈ patch) :
      makes tree patch change = makes tree' patch change := by
    unfold makes
    cases hpath : change.newPath with
    | none => rfl
    | some path => simp only [hagree path ⟨change, hchange, Or.inr hpath⟩]
  rw [Bool.eq_iff_iff]
  simp only [accepts, List.all_eq_true]
  refine forall₂_congr fun change hchange ↦ ?_
  rw [hold change hchange, hnew change hchange]

/-- What a patch is accepted over: a tree that agrees with the one it starts from where it is
touched. -/
theorem accepts_of_describes (h : Describes before after patch)
    (hagree : ∀ path, Touched patch path → tree path = before path) :
    accepts tree patch = true := by
  refine List.all_eq_true.mpr fun change hchange ↦ Bool.and_eq_true_iff.mpr ⟨?_, ?_⟩
  · unfold finds
    split
    · rfl
    · next path mode hold =>
      have hpath : change.oldPath = some path := by simp [Change.oldPath, hold]
      obtain ⟨file, hfile, hmode⟩ := h.old change hchange path mode hold
      rw [hagree path ⟨change, hchange, Or.inl hpath⟩, hfile]
      have hturns := h.turns change hchange
      have htext : textOf before change.old = file.lines := by simp [textOf, hold, hfile]
      rw [htext] at hturns
      simp only [hmode, Mode.sameType_self, Bool.true_and, Bool.and_eq_true, List.all_eq_true,
        decide_eq_true_eq, Bool.or_eq_true]
      refine ⟨infix_of_splice hturns, ?_⟩
      cases hnew : change.new with
      | some side => exact Or.inl rfl
      | none =>
        rw [hnew] at hturns
        exact Or.inr hturns
  · unfold makes
    split
    · rfl
    · next path hpath =>
      simp only [Bool.or_eq_true, decide_eq_true_eq, List.any_eq_true, Bool.and_eq_true,
        Option.isNone_iff_eq_none]
      by_cases hold : ∃ other ∈ patch, other.oldPath = some path
      · obtain ⟨other, hother, hother'⟩ := hold
        by_cases hsame : other.newPath = some path
        · obtain rfl := h.newOnce other hother change hchange path hsame hpath
          exact Or.inl (Or.inl hother')
        · exact Or.inr ⟨other, hother, hother', hsame⟩
      · refine Or.inl (Or.inr ?_)
        rw [hagree path ⟨change, hchange, Or.inr hpath⟩]
        exact h.starts change hchange path hpath fun other hother heq ↦ hold ⟨other, hother, heq⟩

/-- What a patch ends in: the tree it describes where it is touched, and the rest as it was. -/
theorem apply_of_describes (h : Describes before after patch)
    (hagree : ∀ path, Touched patch path → tree path = before path) :
    (Touched patch path → apply elsewhere tree patch path = after path) ∧
      (¬Touched patch path → apply elsewhere tree patch path = tree path) := by
  have hcontent (change : Change π α) (hchange : change ∈ patch) :
      content elsewhere tree change = textOf after change.new := by
    have htext : textOf tree change.old = textOf before change.old := by
      unfold textOf
      cases hold : change.old with
      | none => rfl
      | some side =>
        simp only [Option.bind_some]
        rw [hagree side.1 ⟨change, hchange, Or.inl (by simp [Change.oldPath, hold])⟩]
    rw [content, htext, h.turns change hchange, Option.getD_some]
  have hwrites (change : Change π α) (hchange : change ∈ patch) :
      (change.newPath = some path → writes elsewhere tree path change = after path) ∧
        (change.newPath ≠ some path → writes elsewhere tree path change = none) := by
    unfold writes Change.newPath
    cases hnew : change.new with
    | none => simp
    | some side =>
      obtain ⟨place, mode⟩ := side
      constructor
      · intro hplace
        obtain rfl : place = path := by simpa using hplace
        obtain ⟨file, hfile, hmode⟩ := h.new change hchange place mode hnew
        simp [hcontent change hchange, textOf, hnew, hfile, ← hmode]
      · intro hplace
        have hne : place ≠ path := by simpa using hplace
        simp [hne]
  unfold apply
  by_cases hnew : ∃ change ∈ patch, change.newPath = some path
  · obtain ⟨change, hchange, hpath⟩ := hnew
    have hsome : patch.findSome? (writes elsewhere tree path) = after path := by
      obtain ⟨⟨place, mode⟩, hside, rfl⟩ := Option.map_eq_some_iff.mp hpath
      obtain ⟨file, hfile, _⟩ := h.new change hchange place mode hside
      have hwritten := (hwrites change hchange).1 hpath
      cases hfound : patch.findSome? (writes elsewhere tree place) with
      | none =>
        have hnone := List.findSome?_eq_none_iff.mp hfound change hchange
        rw [hwritten, hfile] at hnone
        cases hnone
      | some found =>
        obtain ⟨other, hother, hmade⟩ := List.exists_of_findSome?_eq_some hfound
        by_cases hsame : other.newPath = some place
        · rw [← hmade, (hwrites other hother).1 hsame]
        · rw [(hwrites other hother).2 hsame] at hmade
          cases hmade
    have htouched : Touched patch path := ⟨change, hchange, Or.inr hpath⟩
    rw [hsome]
    obtain ⟨⟨place, mode⟩, hside, rfl⟩ := Option.map_eq_some_iff.mp hpath
    obtain ⟨file, hfile, _⟩ := h.new change hchange place mode hside
    rw [hfile]
    exact ⟨fun _ ↦ rfl, fun huntouched ↦ absurd htouched huntouched⟩
  · have hunwritten (change : Change π α) (hchange : change ∈ patch) :
        change.newPath ≠ some path := fun hpath ↦ hnew ⟨change, hchange, hpath⟩
    have hnone : patch.findSome? (writes elsewhere tree path) = none :=
      List.findSome?_eq_none_iff.mpr fun change hchange ↦
        (hwrites change hchange).2 (hunwritten change hchange)
    rw [hnone]
    dsimp only
    split
    · next hold =>
      obtain ⟨change, hchange, hpath⟩ := List.any_eq_true.mp hold
      have hpath : change.oldPath = some path := of_decide_eq_true hpath
      exact ⟨fun _ ↦ (h.leaves change hchange path hpath hunwritten).symm,
        fun huntouched ↦ absurd ⟨change, hchange, Or.inl hpath⟩ huntouched⟩
    · next hkept =>
      refine ⟨fun htouched ↦ ?_, fun _ ↦ rfl⟩
      obtain ⟨change, hchange, hpath | hpath⟩ := htouched
      · exact absurd (List.any_eq_true.mpr ⟨change, hchange, decide_eq_true hpath⟩) hkept
      · exact absurd hpath (hunwritten change hchange)

end Nodal.Foundation.Patch
