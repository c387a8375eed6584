import Nodal.Removal.Assess

/-!
# The commits a remote tip holds under another name

`lifecycle/assess.rs`, the rows beside a refusal: a commit of the home whose tree a remote tip already
holds, under another identifier. The tips are the mirror's and then the home's own readings of a remote,
looked up by tree, and of several tips with one tree the last is found. Where that one is the commit
itself the row is dropped, so a commit has its row exactly where the last tip with its tree is another
commit (`told_iff`).
-/

set_option autoImplicit false

namespace Nodal.Removal

open Git

/-- The readings of trees of one home: what each commit names, and which readings fail. -/
structure Trees where
  tree : Oid → Object
  fails : List Oid → Option Failure

/-- The tree each of these commits names, in the order they were given. -/
def Trees.treesOf (trees : Trees) (commits : List Oid) : Except Failure (List Object) :=
  match trees.fails commits with
  | some failure => .error failure
  | none => .ok (commits.map trees.tree)

/-- A commit of this home whose tree a remote tip already holds, under another id. -/
structure SameContent where
  commit : Oid
  reference : RefName
  tip : Oid
  tree : Object
  deriving DecidableEq, Repr

/-- Where a home keeps its copy of the checkout's reading of a remote. -/
def ORIGIN : RefName := ["refs", "nodal", "origin"]

/-- The namespaces a remote tip is read out of, inside the home. -/
def REMOTE_NAMESPACES : List RefName := [ORIGIN, TRACKING]

/-- The tips of the remote namespaces. -/
def remoteTips (disk : Disk) (home : Path) : Except Failure (List Ref) := do
  let found ← REMOTE_NAMESPACES.mapM (disk.listRefs home)
  return found.flatten

/-- What a map collected from pairs has for a key: the last of them with it. -/
def collected {κ ν : Type} [DecidableEq κ] (pairs : List (κ × ν)) (key : κ) : Option ν :=
  (pairs.reverse.find? (·.1 = key)).map Prod.snd

/-- The row of a commit, where the tip found for its tree is another commit. -/
def rowOf (byTree : Object → Option Ref) (tree : Object) (commit : Oid) : Option SameContent := do
  let held ← byTree tree
  if commit = held.oid then none else some ⟨commit, held.name, held.oid, tree⟩

/-- The rows themselves, for a caller that has the commits and wants the failure. -/
def rewritten (disk : Disk) (trees : Trees) (home : Path) (kept : List Oid) :
    Except Failure (List SameContent) := do
  let tips ← remoteTips disk home
  if tips = [] then return []
  let treesOfTips ← trees.treesOf (tips.map Ref.oid)
  let treesOfKept ← trees.treesOf kept
  return (treesOfKept.zip kept).filterMap fun (tree, commit) ↦
    rowOf (collected (treesOfTips.zip tips)) tree commit

/-- Every commit of the kept ones whose tree a remote tip already holds, and why the trees could not be
read, where they could not. -/
def sameContent (disk : Disk) (trees : Trees) (home : Path) (kept : List Oid) :
    List SameContent × Option Failure :=
  if kept = [] then ([], none)
  else match rewritten disk trees home kept with
    | .ok rows => (rows, none)
    | .error failure => ([], some failure)

/-! ### What the rows should tell -/

/-- A tip holds the content of a commit under another identifier. -/
def HoldsContent (trees : Trees) (tip : Ref) (commit : Oid) : Prop :=
  trees.tree tip.oid = trees.tree commit ∧ tip.oid ≠ commit

/-- Each commit whose content a tip holds has one row, which names such a tip, no other commit has one,
and there is none of any other commit. -/
structure Told (trees : Trees) (tips : List Ref) (kept : List Oid) (rows : List SameContent) :
    Prop where
  row : ∀ commit ∈ kept, (∃ tip ∈ tips, HoldsContent trees tip commit) →
    ∃ tip ∈ tips, HoldsContent trees tip commit ∧
      rows.filter (·.commit = commit) = [⟨commit, tip.name, tip.oid, trees.tree commit⟩]
  none : ∀ commit ∈ kept, (¬ ∃ tip ∈ tips, HoldsContent trees tip commit) →
    rows.filter (·.commit = commit) = []
  kept : ∀ row ∈ rows, row.commit ∈ kept

/-- No commit of the kept ones is itself the last tip with its tree, where another tip holds its content.
Only a tip listed before it can. -/
def Unshadowed (trees : Trees) (tips : List Ref) (kept : List Oid) : Prop :=
  ∀ before tip after, tips = before ++ tip :: after → tip.oid ∈ kept →
    (∀ later ∈ after, trees.tree later.oid ≠ trees.tree tip.oid) →
      ∀ earlier ∈ before, ¬ HoldsContent trees earlier tip.oid

/-! ### The tip that is found -/

variable {trees : Trees} {tips : List Ref} {kept : List Oid}

/-- Looking a tree up is looking for it from the last tip back. -/
theorem collected_zip (tree : Object) :
    collected ((tips.map fun tip ↦ trees.tree tip.oid).zip tips) tree =
      tips.reverse.find? (trees.tree ·.oid = tree) := by
  have hpairs : (tips.map fun tip ↦ trees.tree tip.oid).zip tips =
      tips.map fun tip ↦ (trees.tree tip.oid, tip) := by
    induction tips with
    | nil => rfl
    | cons tip tips ih => simp [ih]
  rw [hpairs, collected, ← List.map_reverse, List.find?_map, Option.map_map]
  exact Option.map_id_apply

/-- The tip found for a tree is the last one that has it. -/
theorem collected_eq_some_iff {tree : Object} {tip : Ref} :
    collected ((tips.map fun tip ↦ trees.tree tip.oid).zip tips) tree = some tip ↔
      trees.tree tip.oid = tree ∧ ∃ before after, tips = before ++ tip :: after ∧
        ∀ later ∈ after, trees.tree later.oid ≠ tree := by
  rw [collected_zip, List.find?_eq_some_iff_append]
  simp only [decide_eq_true_eq, Bool.not_eq_true', decide_eq_false_iff_not]
  refine and_congr_right fun _ ↦ ?_
  constructor
  · rintro ⟨after, before, hreverse, hafter⟩
    refine ⟨before.reverse, after.reverse, ?_, ?_⟩
    · rw [← List.reverse_reverse tips, hreverse]
      simp
    · exact fun later hlater ↦ hafter later (List.mem_reverse.mp hlater)
  · rintro ⟨before, after, rfl, hafter⟩
    refine ⟨after.reverse, before.reverse, by simp, ?_⟩
    exact fun later hlater ↦ hafter later (List.mem_reverse.mp hlater)

/-- A tree no tip has is not found. -/
theorem collected_eq_none_iff {tree : Object} :
    collected ((tips.map fun tip ↦ trees.tree tip.oid).zip tips) tree = none ↔
      ∀ tip ∈ tips, trees.tree tip.oid ≠ tree := by
  rw [collected_zip, List.find?_eq_none]
  simp

/-! ### The rows of one commit -/

/-- The rows a home's tips make of the kept commits. -/
def rowsOf (trees : Trees) (tips : List Ref) (kept : List Oid) : List SameContent :=
  kept.filterMap fun commit ↦ rowOf
    (collected ((tips.map fun tip ↦ trees.tree tip.oid).zip tips)) (trees.tree commit) commit

/-- Where the readings answer, the rows are those of the home's tips. -/
theorem sameContent_eq {disk : Disk} {home : Path} (htips : remoteTips disk home = .ok tips)
    (hreads : ∀ commits, trees.fails commits = none) :
    sameContent disk trees home kept = (rowsOf trees tips kept, none) := by
  have htrees (commits : List Oid) : trees.treesOf commits = .ok (commits.map trees.tree) := by
    rw [Trees.treesOf, hreads]
  have hpaired (byTree : Object → Option Ref) : ((kept.map trees.tree).zip kept).filterMap
      (fun (tree, commit) ↦ rowOf byTree tree commit) =
        kept.filterMap fun commit ↦ rowOf byTree (trees.tree commit) commit := by
    induction kept with
    | nil => rfl
    | cons commit kept ih => simp [List.filterMap_cons, ih]
  have hoids : (tips.map Ref.oid).map trees.tree = tips.map fun tip ↦ trees.tree tip.oid :=
    List.map_map
  have hrewritten : rewritten disk trees home kept = .ok (rowsOf trees tips kept) := by
    rw [rewritten, htips]
    change (if tips = [] then Except.ok [] else _) = _
    split_ifs with hnone
    · have hrow (commit : Oid) : rowOf (collected ([].zip [])) (trees.tree commit) commit = none :=
        rfl
      rw [hnone, rowsOf]
      simp only [List.map_nil, hrow, List.filterMap_none]
    · change (do
        let treesOfTips ← trees.treesOf (tips.map Ref.oid)
        let treesOfKept ← trees.treesOf kept
        pure ((treesOfKept.zip kept).filterMap fun (tree, commit) ↦
          rowOf (collected (treesOfTips.zip tips)) tree commit)) = _
      rw [htrees, htrees, hoids]
      exact congrArg Except.ok (hpaired _)
  unfold sameContent
  split_ifs with hkept
  · rw [hkept]
    rfl
  · rw [hrewritten]

/-- The rows of one commit are the row it makes. -/
theorem filter_rowsOf {commit : Oid} (hkept : kept.Nodup) (h : commit ∈ kept) :
    (rowsOf trees tips kept).filter (·.commit = commit) =
      (rowOf (collected ((tips.map fun tip ↦ trees.tree tip.oid).zip tips)) (trees.tree commit)
        commit).toList := by
  set row : Oid → Option SameContent := fun commit ↦ rowOf
    (collected ((tips.map fun tip ↦ trees.tree tip.oid).zip tips)) (trees.tree commit) commit
  have hrow : ∀ other, (row other).filter (·.commit = commit) =
      if other = commit then row other else none := by
    intro other
    cases hmade : row other with
    | none => simp
    | some made =>
      obtain ⟨held, -, hmade⟩ := Option.bind_eq_some_iff.mp hmade
      split_ifs at hmade
      obtain rfl := Option.some.inj hmade
      by_cases hsame : other = commit <;> simp [hsame]
  have hone : kept.filter (· = commit) = [commit] := by
    rw [List.filter_eq, List.count_eq_one_of_mem hkept h]
    rfl
  calc (kept.filterMap row).filter (·.commit = commit)
      = kept.filterMap fun other ↦ if other = commit then row other else none := by
        rw [List.filter_filterMap]
        exact congrArg (List.filterMap · kept) (funext hrow)
    _ = (kept.filter (· = commit)).filterMap row := by
        rw [List.filterMap_filter]
        simp only [decide_eq_true_eq]
    _ = (row commit).toList := by
        rw [hone, List.filterMap_cons]
        cases row commit <;> rfl

/-- A row is made of the last tip with the commit's tree, where that is another commit. -/
theorem rowOf_eq_some_iff {commit : Oid} {row : SameContent} :
    rowOf (collected ((tips.map fun tip ↦ trees.tree tip.oid).zip tips)) (trees.tree commit) commit =
        some row ↔
      ∃ before tip after, tips = before ++ tip :: after ∧ HoldsContent trees tip commit ∧
        (∀ later ∈ after, trees.tree later.oid ≠ trees.tree commit) ∧
        row = ⟨commit, tip.name, tip.oid, trees.tree commit⟩ := by
  rw [rowOf, Option.bind_eq_bind, Option.bind_eq_some_iff]
  constructor
  · rintro ⟨tip, hfound, hmade⟩
    obtain ⟨htree, before, after, happend, hafter⟩ := collected_eq_some_iff.mp hfound
    split_ifs at hmade with hself
    exact ⟨before, tip, after, happend, ⟨htree, Ne.symm hself⟩, hafter, (Option.some.inj hmade).symm⟩
  · rintro ⟨before, tip, after, happend, ⟨htree, hother⟩, hafter, rfl⟩
    exact ⟨tip, collected_eq_some_iff.mpr ⟨htree, before, after, happend, hafter⟩,
      if_neg hother.symm⟩

/-- The rows tell what they should exactly where no kept commit is itself the last tip with its tree
while another tip holds its content. Assumes: the commits are kept once each, and the trees of the home
and of its tips are read. -/
theorem told_iff {disk : Disk} {home : Path} (hkept : kept.Nodup)
    (htips : remoteTips disk home = .ok tips) (hreads : ∀ commits, trees.fails commits = none) :
    Told trees tips kept (sameContent disk trees home kept).1 ↔ Unshadowed trees tips kept := by
  rw [sameContent_eq htips hreads]
  constructor
  · intro htold before tip after happend hmem hafter earlier hearlier hholds
    have hlast : collected ((tips.map fun tip ↦ trees.tree tip.oid).zip tips)
        (trees.tree tip.oid) = some tip :=
      collected_eq_some_iff.mpr ⟨rfl, before, after, happend, hafter⟩
    obtain ⟨_, _, _, hrow⟩ := htold.row tip.oid hmem
      ⟨earlier, happend ▸ List.mem_append_left _ hearlier, hholds⟩
    rw [filter_rowsOf hkept hmem, rowOf, hlast, Option.bind_eq_bind, Option.bind_some,
      if_pos rfl] at hrow
    cases hrow
  · intro hunshadowed
    refine ⟨?_, ?_, ?_⟩
    · rintro commit hmem ⟨holder, hholder, hholds⟩
      cases hfound : collected ((tips.map fun tip ↦ trees.tree tip.oid).zip tips)
          (trees.tree commit) with
      | none => exact absurd hholds.1 (collected_eq_none_iff.mp hfound holder hholder)
      | some tip =>
        obtain ⟨htree, before, after, happend, hafter⟩ := collected_eq_some_iff.mp hfound
        have hother : tip.oid ≠ commit := by
          rintro rfl
          refine hunshadowed before tip after happend hmem hafter holder ?_ hholds
          rw [happend, List.mem_append, List.mem_cons] at hholder
          rcases hholder with hbefore | rfl | hlater
          · exact hbefore
          · exact absurd rfl hholds.2
          · exact absurd hholds.1 (hafter holder hlater)
        refine ⟨tip, happend ▸ List.mem_append_right _ List.mem_cons_self, ⟨htree, hother⟩, ?_⟩
        rw [filter_rowsOf hkept hmem,
          rowOf_eq_some_iff.mpr ⟨before, tip, after, happend, ⟨htree, hother⟩, hafter, rfl⟩]
        rfl
    · intro commit hmem hnone
      rw [filter_rowsOf hkept hmem]
      cases hrow : rowOf (collected ((tips.map fun tip ↦ trees.tree tip.oid).zip tips))
          (trees.tree commit) commit with
      | none => rfl
      | some row =>
        obtain ⟨before, tip, after, happend, hholds, -, -⟩ := rowOf_eq_some_iff.mp hrow
        exact absurd ⟨tip, happend ▸ List.mem_append_right _ List.mem_cons_self, hholds⟩ hnone
    · intro row hrow
      obtain ⟨commit, hmem, hmade⟩ := List.mem_filterMap.mp hrow
      obtain ⟨-, -, -, -, -, -, rfl⟩ := rowOf_eq_some_iff.mp hmade
      exact hmem

/-! ### A commit the home's own ref names -/

/-- A home whose remote-tracking ref names its commit, while the mirror has the rewritten one. -/
private def forcePushed : Disk :=
  .ordinaries (fun _ ↦ []) (fun _ ↦ [])
    (fun path ↦ if path = "/home" then
        some (.ordinary [⟨["refs", "nodal", "origin", "topic"], ⟨2⟩⟩,
          ⟨["refs", "remotes", "origin", "topic"], ⟨1⟩⟩] (.detached ⟨1⟩) [⟨2⟩, ⟨1⟩] (by decide))
      else none) fun _ _ ↦ none

/-- The two commits have one tree. -/
private def oneTree : Trees := ⟨fun _ ↦ ⟨7⟩, fun _ ↦ none⟩

private def forcePushedTips : List Ref :=
  [⟨["refs", "nodal", "origin", "topic"], ⟨2⟩⟩, ⟨["refs", "remotes", "origin", "topic"], ⟨1⟩⟩]

theorem told_iff_forcePushed :
    Told oneTree forcePushedTips [⟨1⟩] (sameContent forcePushed oneTree "/home" [⟨1⟩]).1 ↔
      Unshadowed oneTree forcePushedTips [⟨1⟩] :=
  told_iff (by decide) (by decide) fun _ ↦ rfl

/-- The home's commit gets no row, though the mirror's tip has its tree under another identifier. -/
theorem rewritten_commit_untold : ¬ ∀ (disk : Disk) (trees : Trees) (home : Path) (tips : List Ref)
    (kept : List Oid), kept.Nodup → remoteTips disk home = .ok tips →
      (∀ commits, trees.fails commits = none) →
        Told trees tips kept (sameContent disk trees home kept).1 := by
  intro hall
  have htold := hall forcePushed oneTree "/home" forcePushedTips [⟨1⟩] (by decide) (by decide)
    fun _ ↦ rfl
  obtain ⟨_, _, _, hrow⟩ := htold.row ⟨1⟩ List.mem_cons_self
    ⟨⟨["refs", "nodal", "origin", "topic"], ⟨2⟩⟩, List.mem_cons_self, rfl, by decide⟩
  have hnone : (sameContent forcePushed oneTree "/home" [⟨1⟩]).1 = [] := by decide
  rw [hnone] at hrow
  cases hrow

end Nodal.Removal
