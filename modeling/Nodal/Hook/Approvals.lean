import Mathlib.Data.String.Basic
import Nodal.Foundation.Session
import Nodal.Foundation.Table

/-!
# Which hooks a machine has approved

`lifecycle/hooks.rs` and `model/recipe.rs`: the phases a recipe may declare a command for, and the
file that records, for each project, the digest of each command a person approved. `approve` reads
the whole file, replaces one project's entry and writes the whole file back.

A project is named by its resolved path. How a path is resolved, how a command is digested and how
the file's text stands for its entries are the host's (`Host`).
-/

set_option autoImplicit false

namespace Nodal.Hook

open Foundation

/-! ### What a recipe declares -/

inductive Phase
  | preNew
  | postNew
  | preMerge
  | postMerge
  | preReclaim
  | postReclaim
  deriving DecidableEq, Repr

/-- Every phase, in the order they are declared and approved. -/
def PHASES : List Phase := [.preNew, .postNew, .preMerge, .postMerge, .preReclaim, .postReclaim]

/-- The key a phase has in a recipe and in the approvals file. -/
def Phase.key : Phase → String
  | preNew => "pre_new"
  | postNew => "post_new"
  | preMerge => "pre_merge"
  | postMerge => "post_merge"
  | preReclaim => "pre_reclaim"
  | postReclaim => "post_reclaim"

/-- The commands of a recipe. -/
structure Hooks where
  preNew : Option String
  postNew : Option String
  preMerge : Option String
  postMerge : Option String
  preReclaim : Option String
  postReclaim : Option String
  deriving DecidableEq, Repr

/-- The command a recipe declares for a phase. -/
def Phase.command (hooks : Hooks) : Phase → Option String
  | preNew => hooks.preNew
  | postNew => hooks.postNew
  | preMerge => hooks.preMerge
  | postMerge => hooks.postMerge
  | preReclaim => hooks.preReclaim
  | postReclaim => hooks.postReclaim

theorem Phase.key_injective : Function.Injective Phase.key := by
  intro phase phase' h
  cases phase <;> cases phase' <;> first | rfl | exact absurd h (by decide)

/-! ### The record -/

/-- The digest of each approved command, by project and phase key. -/
abbrev Approvals := Table String (Table String String)

/-- What the record relies on besides itself. -/
structure Host where
  /-- A project's directory with every link resolved, as text. -/
  keyOf : String → String
  digest : String → String
  /-- The document of a record, when it can be written. -/
  encode : Approvals → Option String
  /-- The record a document holds, when it is one. -/
  decode : String → Option Approvals

/-- What the record relies on being so: the text of a command is pinned by its digest, and a document
that was written is read back. An empty document records nothing. -/
structure Host.Faithful (host : Host) : Prop where
  digest : Function.Injective host.digest
  decode : ∀ {approvals text}, host.encode approvals = some text → host.decode text = some approvals
  empty : host.decode "" = some ∅

inductive Error
  | io (why : String)
  | recipe
  | storeEncode
  deriving DecidableEq, Repr

/-- The digests of everything a recipe declares, by phase key. -/
def approvedOf (host : Host) (hooks : Hooks) : Table String String :=
  PHASES.foldl (fun approved phase ↦ match phase.command hooks with
    | some command => approved.set phase.key (host.digest command)
    | none => approved) ∅

namespace Approvals

/-- Approve every command a project declares now, and forget whatever it declared before. -/
def approve (host : Host) (approvals : Approvals) (project : String) (hooks : Hooks) : Approvals :=
  let approved := approvedOf host hooks
  let key := host.keyOf project
  if approved = ∅ then approvals.filter fun row _ ↦ decide (row ≠ key)
  else approvals.set key approved

/-- Whether this exact command is approved for this project's phase. -/
def allows (host : Host) (approvals : Approvals) (project : String) (phase : Phase)
    (command : String) : Bool :=
  match (approvals.get? (host.keyOf project)).bind fun approved ↦ approved.get? phase.key with
  | none => false
  | some approved => approved = host.digest command

end Approvals

/-- The record a file holds: one that is not there holds nothing. -/
def opened (host : Host) (file : Option String) : Option Approvals :=
  match file with
  | none => some ∅
  | some text => host.decode text

/-! ### What an approval leaves -/

variable {host : Host} {hooks : Hooks} {project project' : String} {phase : Phase}
  {approvals : Approvals} {command : String}

/-- What the digests of a recipe hold at a phase. -/
theorem get?_approvedOf :
    (approvedOf host hooks).get? phase.key = (phase.command hooks).map host.digest := by
  have hempty (key : String) : (∅ : Table String String).get? key = none := rfl
  have hstep (table : Table String String) (first : Phase) :
      (match first.command hooks with
        | some command => table.set first.key (host.digest command)
        | none => table).get? phase.key =
      if phase = first ∧ (phase.command hooks).isSome then (phase.command hooks).map host.digest
      else table.get? phase.key := by
    cases hfirst : first.command hooks with
    | none =>
      by_cases hphase : phase = first
      · simp [hphase, hfirst]
      · simp [hphase]
    | some command =>
      by_cases hphase : phase = first
      · simp [hphase, hfirst]
      · simp [hphase, Table.get?_set, Phase.key_injective.eq_iff]
  simp only [approvedOf, PHASES, List.foldl_cons, List.foldl_nil, hstep, hempty]
  cases phase <;> cases Phase.command hooks _ <;> simp

theorem approvedOf_eq_empty_iff :
    approvedOf host hooks = ∅ ↔ ∀ phase : Phase, phase.command hooks = none := by
  constructor
  · intro h phase
    have hget : (approvedOf host hooks).get? phase.key = _ := get?_approvedOf
    rw [h] at hget
    simpa using hget.symm
  · intro h
    have hnone (table : Table String String) (phase : Phase) :
        (match phase.command hooks with
          | some command => table.set phase.key (host.digest command)
          | none => table) = table := by
      rw [h phase]
    simp only [approvedOf, PHASES, List.foldl_cons, List.foldl_nil, hnone]

/-- What an approval leaves at each key. -/
theorem get?_approve {key : String} : (approvals.approve host project hooks).get? key =
    if key = host.keyOf project then
      if approvedOf host hooks = ∅ then none else some (approvedOf host hooks)
    else approvals.get? key := by
  unfold Approvals.approve
  by_cases hempty : approvedOf host hooks = ∅
  · by_cases hkey : key = host.keyOf project
    · simp [Table.get?_filter, hempty, hkey]
    · simp only [hempty, if_true, Table.get?_filter, hkey, if_false, ne_eq, not_false_eq_true,
        decide_true]
      cases approvals.get? key <;> rfl
  · simp [Table.get?_set, hempty]

/-- After an approval a command is allowed exactly where the project declares it now, and another
project's are as they were. -/
theorem allows_approve (hhost : host.Faithful) :
    (approvals.approve host project hooks).allows host project' phase command =
      if host.keyOf project' = host.keyOf project then
        decide (phase.command hooks = some command)
      else approvals.allows host project' phase command := by
  unfold Approvals.allows
  rw [get?_approve]
  by_cases hkey : host.keyOf project' = host.keyOf project
  · rw [if_pos hkey, if_pos hkey]
    by_cases hempty : approvedOf host hooks = ∅
    · have hcommand := approvedOf_eq_empty_iff.mp hempty phase
      simp [hempty, hcommand]
    · rw [if_neg hempty, Option.bind_some, get?_approvedOf]
      cases phase.command hooks with
      | none => simp
      | some declared => simp [hhost.digest.eq_iff]
  · rw [if_neg hkey, if_neg hkey]

end Nodal.Hook
