import Nodal.Lifecycle.Performed
import Nodal.Merge.Plumbing

/-!
# The steps of a merge

`lifecycle/ops/merge.rs`: the steps of the plan, which stages a plan has, and `merge --abort`. A
step is the two scripts that apply and undo it. What the last step answers is what the registry
write is built from, and a merge whose rebase stopped commits like any other.
-/

set_option autoImplicit false

namespace Nodal.Merge

open Git Foundation Foundation.Attempt Lifecycle Plumbing

/-- A step: its name in the journal, what applies it and what undoes it. -/
structure Work where
  key : String
  apply : Script Output
  undo : Script Unit

variable (setting : Setting)

/-! ### What the steps share -/

/-- `Git::delete_ref`. -/
def deleteRef (name : RefName) : Script Unit := ran (.deleteRef name)

/-- The branch a home is on, which every step of a merge acts on. -/
def branchOf : Script RefName := do
  match ← currentBranch .home with
  | some branch => pure branch
  | none => throw (gitUnknownBranch setting.home "HEAD")

/-- The unit a home is marked for. -/
def markerOf : Script String := do
  match ← ran .readMarker with
  | some unit => pure unit
  | none => throw (homeUnmarked setting.home)

/-- Put a branch back at the commit a ref of Nodal's own recorded. -/
def restoreHead (reference : RefName) : Script Unit := do
  match ← readRef .home reference with
  | none => return
  | some oid => restore .home (← branchOf setting) oid

/-- What the last step of a merge found and did. -/
structure Sent where
  /-- Whether the home is in the middle of a rebase. -/
  stopped : Bool
  /-- Whether the target branch moved. -/
  forwarded : Bool
  deriving DecidableEq, Repr

/-- This, as the step returns it. -/
def Sent.value (sent : Sent) : Output :=
  .value ("\x7b\"forwarded\":" ++ toString sent.forwarded ++ ",\"stopped\":" ++
    toString sent.stopped ++ "\x7d")

/-- The key of the last step. -/
def FORWARD : String := "target.forward"

/-! ### The steps -/

/-- Fetch the branch the work merges into, from the project's own checkout. -/
def FetchTarget (goal : Target) (dest : RefName) : Work where
  key := "target.fetch"
  apply := do
    let found ← fetchBranch setting goal.branch dest
    if found = goal.oid then
      return nothing
    throw (mergeTargetMoved goal.branch found)
  undo := deleteRef dest

/-- Commit everything the home holds onto the unit's branch. -/
def CommitWork (head : Oid) : Work where
  key := "work.commit"
  apply := do
    let _ ← commitAll
    return nothing
  undo := uncommit head

/-- Write the branch tip to the ref the squash may be undone from. -/
def RecordPremerge (reference : RefName) : Work where
  key := "premerge.record"
  apply := do
    -- A ref that is already there is left as it is, whoever wrote it.
    if (← readRef .home reference).isSome then
      return nothing
    let head ← ran .revParseHead
    ran (.updateRef reference head)
    return nothing
  undo := deleteRef reference

/-- Fold the branch into one commit on its merge base with the target. -/
def Squash (onto : Oid) (reference : RefName) : Work where
  key := "branch.squash"
  apply := do
    let _ ← squash onto
    return nothing
  undo := restoreHead setting reference

/-- Rebase the branch onto the target. -/
def Rebase (onto : Oid) : Work where
  key := "branch.rebase"
  apply := do
    let _ ← rebase onto
    return nothing
  undo := do
    abort
    restoreHead setting (premerge (← markerOf setting))

/-- Move the target branch in the project's own checkout, by fast-forward. -/
def Forward (goal : Target) : Work where
  key := FORWARD
  apply := do
    if ← isRebasing then
      return Sent.value ⟨true, false⟩
    let tip ← ran (.revParse setting.branch)
    fetchObjects setting.branch
    let moved ← fastForward setting goal.branch tip
    return Sent.value ⟨false, moved⟩
  undo := restore .source goal.branch goal.oid

/-! ### The plan -/

/-- The steps that rewrite the unit's branch, which a resumed merge has behind it. -/
def rewriting (params : Params) : List Work :=
  (if params.stages.commit then [CommitWork params.head] else []) ++
    if params.stages.squash then
      [RecordPremerge (premerge setting.unit),
        Squash setting params.target.oid (premerge setting.unit)]
    else []

/-- The steps of a merge: fetch, commit, record, squash, rebase, fast-forward. -/
def works (params : Params) : List Work :=
  [FetchTarget setting params.target (target setting.unit)] ++
    (if params.resuming then [] else rewriting setting params) ++
    (if params.stages.rebase then [Rebase setting params.target.oid] else []) ++
    [Forward setting params.target]

theorem length_rewriting (params : Params) : (rewriting setting params).length ≤ 3 := by
  unfold rewriting
  split <;> split <;> simp

/-- A merge has six steps at most. -/
theorem length_works (params : Params) : (works setting params).length ≤ 6 := by
  have hrewriting : (if params.resuming then [] else rewriting setting params).length ≤ 3 := by
    split
    · simp
    · exact length_rewriting setting params
  have hrebase : (if params.stages.rebase then [Rebase setting params.target.oid] else []).length
      ≤ 1 := by
    split <;> simp
  unfold works
  simp only [List.length_append, List.length_singleton]
  omega

/-- The plan of a merge. -/
def plan (params : Params) : Plan where
  kind := "merge"
  subject := setting.slug
  params := toString (repr params)
  recovery := .rollBack
  steps := (works setting params).map fun work ↦ ⟨work.key⟩
  records := some ⟨setting.unit, setting.home⟩
  fits := by
    have hlength := length_works setting params
    rw [List.length_map]
    omega

/-- The snapshot of the home before the first step. A home Git cannot open takes none. -/
def snapshot (id : OperationId) : Script Bool := do
  match ← call Command.gitDir with
  | .error _ => return false
  | .ok _ => ran (.snapshot (pre setting.unit (toString id)))

/-- What the steps of a merge do, by position. -/
def deeds (id : OperationId) (params : Params) : Deeds Command Command.Answer where
  snapshot := (snapshot setting id).run
  apply position := ((works setting params)[position]?.elim (throw "no such step") Work.apply).run
  undo position := ((works setting params)[position]?.elim (throw "no such step") Work.undo).run

/-! ### Stopping a merge -/

/-- Stop a rebase a merge left, and put the branch back where the merge found it. -/
def abortMerge : Script Unit := do
  if !(← isRebasing) then
    throw (mergeNotStopped setting.slug)
  Plumbing.abort
  match ← readRef .home (premerge setting.unit) with
  | none => pure ()
  | some oid => do
    restore .home setting.branch oid
    deleteRef (premerge setting.unit)
  deleteRef (target setting.unit)

end Nodal.Merge
