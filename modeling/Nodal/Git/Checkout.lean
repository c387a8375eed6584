import Nodal.Git.Status

/-!
# A repository, its worktrees, and where a branch stands

`git/integration.rs`, `git/outside.rs`, `git/worktree.rs`: what a repository and each working tree of it
answer. A working tree has its own `HEAD` and its own uncommitted paths, and shares the refs and the
commits. Whether an invocation of `git` answers is the working tree's own, so a statement about a working
tree holds whatever fails in it.

A count of commits is of those a revision reaches and the held ones do not, so it is zero where the held
ones reach every commit of the revision (`countOutside_eq_zero_iff`).
-/

set_option autoImplicit false

namespace Nodal.Git

open Foundation Foundation.Ancestry

/-! ### What is there -/

/-- What merging one commit into another comes to. -/
inductive Merged
  | clean (tree : Object)
  | conflict
  deriving DecidableEq

/-- One repository: its commits and their trees, its refs, and what it is configured with. -/
structure Checkout where
  parents : Oid → List Oid
  commits : List Oid
  ordered : NewestFirst parents commits
  tree : Oid → Object
  merge : Oid → Oid → Merged
  refs : List Ref
  /-- What a name is before any namespace is looked in: an object id, or a file of the git directory. -/
  literal : RefName → Option Oid
  remotes : List String
  /-- The ref a branch is configured to follow. -/
  upstream : RefName → Option RefName

/-- One thing that is asked of a working tree. -/
inductive Query
  | gitDir
  | status
  | remote
  | trackingTips
  | countOutside
  | revList
  | mergeTree
  | revParse
  | mergeBase
  | log
  deriving DecidableEq

/-- One working tree of a repository. -/
structure Worktree where
  head : Head
  changed : List Status.Changed
  /-- Which questions fail in it. -/
  fails : Query → Option Failure

/-- The answer of a question, where it does not fail. -/
def Worktree.ask {α : Type} (worktree : Worktree) (query : Query) (answer : α) : Except Failure α :=
  match worktree.fails query with
  | some failure => .error failure
  | none => .ok answer

namespace Checkout

variable (checkout : Checkout)

/-- The commit a ref holds. -/
def ref (name : RefName) : Option Oid := (checkout.refs.find? (·.name = name)).map Ref.oid

/-- The commit a revision names: the first of the namespaces that has it. -/
def resolve (name : RefName) : Option Oid :=
  checkout.literal name <|> checkout.ref name <|> checkout.ref ("refs" :: name) <|>
    checkout.ref (["refs", "tags"] ++ name) <|> checkout.ref (HEADS ++ name) <|>
    checkout.ref (TRACKING ++ name) <|> checkout.ref (TRACKING ++ name ++ DEFAULT)

/-- The commit `HEAD` names, where it names one. -/
def headCommit (worktree : Worktree) : Option Oid :=
  match worktree.head with
  | .symbolic name => checkout.ref name
  | .detached oid => some oid

/-- Every commit some tips reach. -/
def reach (tips : List Oid) : List Oid := walk checkout.parents tips checkout.commits

/-- How many commits of a revision none of the held ones reaches. A revision that names nothing is
ignored, and so is a held commit that is not here. -/
def countOutside (rev : Option Oid) (held : List Oid) : ℕ :=
  (outside checkout.parents rev.toList held checkout.commits).length

/-- The tips of the remote-tracking refs. -/
def seenOnRemotes : List Oid := (checkout.refs.filter (startsWith TRACKING ·.name)).map Ref.oid

/-! ### Status -/

/-- A full object id, in hex. -/
def hex (oid : Oid) : Text :=
  let digits := Nat.toDigits 16 oid.value
  List.replicate (40 - digits.length) '0' ++ digits

/-- A ref, as it is written after a namespace. -/
def written (name : RefName) : Text := ("/".intercalate name).toList

/-- What Git has to say of a working tree. An upstream is named wherever one is configured; how far it
is away is said where both it and the branch are there. -/
def listing (worktree : Worktree) : Status.Listing where
  oid := (checkout.headCommit worktree).map hex
  branch := match worktree.head with
    | .symbolic name => some (written ((stripPrefix HEADS name).getD name))
    | .detached _ => none
  upstream := match worktree.head with
    | .symbolic name => (checkout.upstream name).map fun upstream ↦
        written ((stripPrefix TRACKING upstream).getD upstream)
    | .detached _ => none
  distance := match worktree.head with
    | .symbolic name => do
        let upstream ← (checkout.upstream name).bind checkout.ref
        let tip ← checkout.ref name
        return (checkout.countOutside tip [upstream], checkout.countOutside upstream [tip])
    | .detached _ => none
  changed := worktree.changed

/-- One `git status`, read. -/
def status (worktree : Worktree) : Except Failure Status.Summary := do
  let records ← worktree.ask .status (checkout.listing worktree).records
  match Status.parse records with
  | .ok summary => return summary
  | .error _ => throw .other

end Checkout

/-! ### Standing -/

/-- How far a branch has moved from the branch it merges into, in commits. -/
structure Divergence where
  ahead : ℕ
  behind : ℕ
  deriving DecidableEq

/-- Whether the base has moved under the branch. -/
def Divergence.isBehind (divergence : Divergence) : Bool := 0 < divergence.behind

/-- Why a branch counts as integrated. -/
inductive Reason
  | ancestor
  | absorbed
  deriving DecidableEq

/-- What merging a branch into its base would do. -/
inductive Integration
  | unknown
  | integrated (reason : Reason)
  | opened
  | conflict
  deriving DecidableEq

/-- Whether the base carries every change of the branch. -/
def Integration.isIntegrated : Integration → Bool
  | .integrated _ => true
  | _ => false

/-- Where the checked-out branch stands against one base. -/
structure Standing where
  base : RefName
  divergence : Divergence
  integration : Integration
  deriving DecidableEq

namespace Checkout

variable (checkout : Checkout)

/-- How many commits each side of `base...HEAD` has that the other does not. -/
def counts (worktree : Worktree) (base head : Oid) : Except Failure Divergence := do
  let (ahead, behind) ← worktree.ask .revList
    (checkout.countOutside head [base], checkout.countOutside base [head])
  if ahead < 2 ^ 32 ∧ behind < 2 ^ 32 then return ⟨ahead, behind⟩ else throw .other

/-- What merging `HEAD` into `base` would do, for a branch that is ahead of it. -/
def verdict (worktree : Worktree) (base head : Oid) : Except Failure Integration :=
  match worktree.ask .mergeTree (checkout.merge base head) with
  | .error .exit => .ok .unknown
  | .error .other => .error .other
  | .ok .conflict => .ok .conflict
  | .ok (.clean produced) => do
    let tree ← worktree.ask .revParse (checkout.tree base)
    return if produced = tree then .integrated .absorbed else .opened

/-- Where `HEAD` stands against a base. -/
def standing (worktree : Worktree) (base : RefName) : Except Failure Standing :=
  match checkout.resolve base, checkout.headCommit worktree with
  | some baseOid, some head => do
    let divergence ← checkout.counts worktree baseOid head
    let integration ← if divergence.ahead = 0 then pure (.integrated .ancestor)
      else checkout.verdict worktree baseOid head
    return ⟨base, divergence, integration⟩
  | _, _ => .error .exit

variable {checkout} {worktree : Worktree} {base : RefName} {held : List Oid} {tip commit : Oid}

/-! ### What the counts say -/

@[simp] theorem reach_nil : checkout.reach [] = [] := by
  rw [List.eq_nil_iff_forall_not_mem]
  intro commit hcommit
  obtain ⟨tip, htip, -⟩ := (mem_walk_iff checkout.ordered).mp hcommit
  cases htip

/-- A count of zero says that the held commits reach every commit of the revision. -/
theorem countOutside_eq_zero_iff {rev : Option Oid} : checkout.countOutside rev held = 0 ↔
    ∀ commit ∈ checkout.reach rev.toList, commit ∈ checkout.reach held := by
  rw [countOutside, List.length_eq_zero_iff, List.eq_nil_iff_forall_not_mem]
  simp only [mem_outside, not_and, not_not]
  rfl

/-- What some tips reach, one of them reaches. -/
theorem mem_reach_iff {tips : List Oid} :
    commit ∈ checkout.reach tips ↔ ∃ tip ∈ tips, commit ∈ checkout.reach [tip] := by
  simp only [reach, mem_walk_iff checkout.ordered, List.mem_singleton, exists_eq_left]

theorem mem_reach_seenOnRemotes_iff : commit ∈ checkout.reach checkout.seenOnRemotes ↔
    ∃ ref ∈ checkout.refs, startsWith TRACKING ref.name = true ∧ commit ∈ checkout.reach [ref.oid] := by
  rw [mem_reach_iff]
  simp only [seenOnRemotes, List.mem_map, List.mem_filter]
  constructor
  · rintro ⟨_, ⟨ref, ⟨href, htracking⟩, rfl⟩, hcommit⟩
    exact ⟨ref, href, htracking, hcommit⟩
  · rintro ⟨ref, href, htracking, hcommit⟩
    exact ⟨ref.oid, ⟨ref, ⟨href, htracking⟩, rfl⟩, hcommit⟩

theorem ask_eq_ok_iff {α : Type} {query : Query} {answer given : α} :
    worktree.ask query answer = .ok given ↔ worktree.fails query = none ∧ answer = given := by
  unfold Worktree.ask
  cases worktree.fails query <;> simp

/-- A branch that is ahead of its base and integrated has a commit the base does not, and to merge it
changes no file. -/
theorem standing_landed {standing : Standing} (h : checkout.standing worktree base = .ok standing)
    (hintegrated : standing.integration.isIntegrated = true) (hahead : 0 < standing.divergence.ahead) :
    ∃ target head, checkout.resolve base = some target ∧ checkout.headCommit worktree = some head ∧
      (∃ commit ∈ checkout.reach [head], commit ∉ checkout.reach [target]) ∧
      checkout.merge target head = .clean (checkout.tree target) := by
  unfold Checkout.standing at h
  split at h
  · next target head hbase hhead =>
    refine ⟨target, head, hbase, hhead, ?_⟩
    obtain ⟨divergence, hdivergence, h⟩ := bind_eq_ok h
    by_cases hpositive : divergence.ahead = 0
    · rw [if_pos hpositive] at h
      cases h
      exact absurd hpositive hahead.ne'
    rw [if_neg hpositive] at h
    obtain ⟨integration, hverdict, h⟩ := bind_eq_ok h
    cases h
    constructor
    · obtain ⟨⟨ahead, behind⟩, hcounts, hdivergence⟩ := bind_eq_ok hdivergence
      obtain ⟨-, hcounts⟩ := ask_eq_ok_iff.mp hcounts
      by_contra hnone
      push Not at hnone
      have hzero : checkout.countOutside head [target] = 0 := countOutside_eq_zero_iff.mpr hnone
      rw [hzero, Prod.mk.injEq] at hcounts
      by_cases hfits : ahead < 2 ^ 32 ∧ behind < 2 ^ 32
      · simp only [hfits] at hdivergence
        cases hdivergence
        exact hpositive hcounts.1.symm
      · simp only [hfits, if_false] at hdivergence
        cases hdivergence
    · unfold verdict at hverdict
      split at hverdict
      · cases hverdict
        cases hintegrated
      · cases hverdict
      · cases hverdict
        cases hintegrated
      · next produced hmerged =>
        obtain ⟨-, hmerged⟩ := ask_eq_ok_iff.mp hmerged
        obtain ⟨tree, htree, hverdict⟩ := bind_eq_ok hverdict
        obtain ⟨-, rfl⟩ := ask_eq_ok_iff.mp htree
        split at hverdict
        · next hsame => rw [hmerged, hsame]
        · cases hverdict
          cases hintegrated
  · cases h

end Checkout

end Nodal.Git
