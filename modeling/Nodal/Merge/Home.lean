import Nodal.Lifecycle.Links
import Nodal.Merge.Runs

/-!
# What the commands of a merge leave of a home

What a home still has of what it had when the merge began, and what each script of the merge does to
it. `At` is the home on its branch with every file that Git does not ignore as it was; `Stopped` is
the home in the middle of a rebase of that branch, and `Moved` the home after one.
-/

set_option autoImplicit false

namespace Nodal.Merge

open Git Foundation Foundation.Attempt Lifecycle Lifecycle.TakenBack Plumbing

variable (setting : Setting) (start : World)

/-! ### What is kept -/

/-- A file Git does not ignore: one the index has, or one no rule covers. -/
def Spared (path : Path) : Prop :=
  start.home.index.get? path ≠ none ∨ setting.ignored start.home.work path = false

/-- Every file that Git does not ignore is as it was. -/
def Same (work : Tree) : Prop :=
  ∀ path, Spared setting start path → work.get? path = start.home.work.get? path

/-- What no step of a merge touches, and what the unit's premerge ref holds. -/
structure Kept (record : Option Oid) (w : World) : Prop where
  marker : w.home.marker = some setting.unit
  home : w.home.store = start.home.store
  source : w.source.store = start.source.store
  record : w.ref .home (premerge setting.unit) = record

/-- The home is on its branch, at a commit, and its files are as they were. -/
structure At (record : Option Oid) (tip : Oid) (w : World) : Prop
    extends Kept setting start record w where
  head : w.home.head = .symbolic setting.branch
  rebasing : w.home.rebasing = none
  branch : w.ref .home setting.branch = some tip
  files : Same setting start w.home.work

/-- The same before anything touched the files: what the index has lost is no file. -/
structure Before (record : Option Oid) (tip : Oid) (w : World) : Prop
    extends At setting start record tip w where
  work : w.home.work = start.home.work
  tracked : ∀ path, start.home.index.get? path ≠ none → w.home.index.get? path = none →
    start.home.work.get? path = none

/-- The files were those of a commit, but for the untracked ones. -/
structure WasClean (tip : Oid) : Prop where
  laid : ∀ path, (setting.tree tip).get? path ≠ none →
    start.home.work.get? path = (setting.tree tip).get? path
  tracked : ∀ path, start.home.index.get? path ≠ none → (setting.tree tip).get? path = none →
    start.home.work.get? path = none

/-- A rebase of the branch stopped. -/
structure Stopped (record : Option Oid) (tip : Oid) (w : World) : Prop
    extends Kept setting start record w where
  clean : WasClean setting start tip
  rebasing : ∃ rebasing, w.home.rebasing = some rebasing ∧ rebasing.branch = setting.branch ∧
    rebasing.original = tip
  spares : spares setting (setting.tree tip) w.home.index start.home.work w.home.work = true

/-- The branch was rebased from a commit. -/
structure Moved (record : Option Oid) (tip : Oid) (w : World) : Prop
    extends Kept setting start record w where
  clean : WasClean setting start tip
  head : w.home.head = .symbolic setting.branch
  rebasing : w.home.rebasing = none
  rebased : ∃ moved, w.ref .home setting.branch = some moved ∧
    lays (setting.tree tip) (setting.tree moved) w.home.work = true ∧
    spares setting (setting.tree tip) (setting.tree moved) start.home.work w.home.work = true

variable {setting start} {record : Option Oid} {tip dest : Oid} {w w' : World}

/-! ### Trees -/

/-- A condition on the paths of some trees holds of every path it holds of where there is no file. -/
private theorem forall_paths {trees : List Tree} {P : Path → Prop}
    (hnone : ∀ path, (∀ tree ∈ trees, tree.get? path = none) → P path)
    (h : ∀ path ∈ Tree.paths trees, P path) (path : Path) : P path := by
  by_cases hpath : path ∈ Tree.paths trees
  · exact h path hpath
  · refine hnone path fun tree htree ↦ ?_
    by_contra hsome
    exact hpath (Tree.mem_paths_iff.mpr ⟨tree, htree, hsome⟩)

theorem spares_iff {before after work work' : Tree} :
    spares setting before after work work' = true ↔ ∀ path, before.get? path = none →
      setting.ignored work path = false ∨ work.get? path = none →
        (after.get? path ≠ none → work.get? path = none) ∧
          (after.get? path = none → work'.get? path = work.get? path) := by
  rw [spares, decide_eq_true_iff]
  refine ⟨fun h ↦ forall_paths (fun path hnone ↦ ?_) h, fun h path _ ↦ h path⟩
  intro _ _
  have hafter := hnone after (by simp)
  have hwork := hnone work (by simp)
  have hwork' := hnone work' (by simp)
  exact ⟨fun hsome ↦ absurd hafter hsome, fun _ ↦ hwork'.trans hwork.symm⟩

theorem lays_iff {before after work' : Tree} :
    lays before after work' = true ↔ ∀ path, (after.get? path ≠ none →
      work'.get? path = after.get? path) ∧
        (after.get? path = none → before.get? path ≠ none → work'.get? path = none) := by
  rw [lays, decide_eq_true_iff]
  refine ⟨fun h ↦ forall_paths (fun path hnone ↦ ?_) h, fun h path _ ↦ h path⟩
  have hafter := hnone after (by simp)
  have hbefore := hnone before (by simp)
  exact ⟨fun hsome ↦ absurd hafter hsome, fun _ hsome ↦ absurd hbefore hsome⟩

theorem get?_keptWork (before after work : Tree) (path : Path) :
    (keptWork before after work).get? path =
      if before.get? path = after.get? path then work.get? path else after.get? path := by
  refine Tree.get?_across fun hnone ↦ ?_
  have hafter := hnone after (by simp)
  have hwork := hnone work (by simp)
  split
  · exact hwork
  · exact hafter

theorem get?_hardWork (index after work : Tree) (path : Path) :
    (hardWork index after work).get? path =
      if after.get? path ≠ none then after.get? path
      else if index.get? path ≠ none then none else work.get? path := by
  refine Tree.get?_across fun hnone ↦ ?_
  simp [hnone after (by simp), hnone work (by simp)]

theorem get?_staged (setting : Setting) (index work : Tree) (path : Path) :
    (staged setting index work).get? path =
      if index.get? path = none ∧ setting.ignored work path = true then none else work.get? path := by
  refine Tree.get?_across fun hnone ↦ ?_
  simp [hnone work (by simp)]

/-! ### What the states lead to -/

/-- Where a file is spared, an untracked one was not there or is not ignored. -/
theorem WasClean.exposed (h : WasClean setting start tip) {path : Path}
    (hpath : Spared setting start path) (hnone : (setting.tree tip).get? path = none) :
    setting.ignored start.home.work path = false ∨ start.home.work.get? path = none :=
  hpath.symm.imp_right fun hindex ↦ h.tracked path hindex hnone

/-- The rebase is thrown away: the tracked files are those of the commit it began at. -/
theorem Stopped.same_hardWork (h : Stopped setting start record tip w) :
    Same setting start (hardWork w.home.index (setting.tree tip) w.home.work) := by
  intro path hpath
  rw [get?_hardWork]
  by_cases hlaid : (setting.tree tip).get? path = none
  · have hspares := spares_iff.mp h.spares path hlaid (h.clean.exposed hpath hlaid)
    rw [if_neg (not_not.mpr hlaid)]
    split
    · next hindex => exact (hspares.1 hindex).symm
    · next hindex => exact hspares.2 (not_not.mp hindex)
  · rw [if_pos hlaid]
    exact (h.clean.laid path hlaid).symm

/-- The branch is put back over a rebase: every file the rebase wrote is as it was before it. -/
theorem same_keptWork (hclean : WasClean setting start tip) {moved : Oid} {work : Tree}
    (hlays : lays (setting.tree tip) (setting.tree moved) work = true)
    (hspares : spares setting (setting.tree tip) (setting.tree moved) start.home.work work = true)
    (htree : setting.tree tip = setting.tree dest) :
    Same setting start (keptWork (setting.tree moved) (setting.tree dest) work) := by
  intro path hpath
  rw [get?_keptWork, ← htree]
  have hlaid := lays_iff.mp hlays path
  by_cases hnone : (setting.tree tip).get? path = none
  · have hspared := spares_iff.mp hspares path hnone (hclean.exposed hpath hnone)
    split
    · next heq => exact hspared.2 (heq.trans hnone)
    · next hne =>
      rw [hnone]
      exact (hspared.1 fun hmoved ↦ hne (hmoved.trans hnone.symm)).symm
  · split
    · next heq =>
      have hsome : (setting.tree moved).get? path ≠ none := fun hmoved ↦ hnone (heq.symm.trans hmoved)
      rw [hlaid.1 hsome, heq]
      exact (hclean.laid path hnone).symm
    · exact (hclean.laid path hnone).symm

end Nodal.Merge
