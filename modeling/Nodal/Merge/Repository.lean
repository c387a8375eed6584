import Nodal.Foundation.Table
import Nodal.Git.Repository
import Nodal.Lifecycle.Step
import Mathlib.Data.String.Basic

/-!
# A home, the project's checkout, and the commands of a merge

`git/merge.rs`, `git/refs.rs`: what the commands a merge runs do to the home they run in and to the
project's own checkout. A commit is named by what it holds, so what a commit's parents are and which
files it has is one fact for both; a repository is where its refs point, where `HEAD` is, and for the
home its index, its working tree and the rebase it is in the middle of. A linked worktree shares the
refs of the checkout it was made from, so where refs are kept is part of a repository.

What Git leaves open is chosen outside: which commit a command makes, which of several merge bases it
names, how a rebase ends, and whether the command runs at all.
-/

set_option autoImplicit false

namespace Nodal.Merge

open Git Foundation Foundation.Ancestry Lifecycle

/-! ### Commits -/

/-- The files of a commit, an index or a working tree. -/
abbrev Tree := Table Path String

/-- The commits there are, newest first, and what each holds. -/
structure History where
  commits : List Oid
  parents : Oid → List Oid
  tree : Oid → Tree
  ordered : NewestFirst parents commits
  closed : ∀ commit ∈ commits, ∀ parent ∈ parents commit, parent ∈ commits

namespace History

variable (history : History)

/-- What a commit reaches. -/
def reach (tip : Oid) : List Oid := walk history.parents [tip] history.commits

/-- Whether every commit of the earlier is in the later. -/
def isAncestor (earlier later : Oid) : Bool := earlier ∈ history.reach later

/-- What `tip` reaches and `base` does not. -/
def range (base tip : Oid) : List Oid := outside history.parents [tip] [base] history.commits

/-- A best common ancestor of two commits. -/
def isMergeBase (left right base : Oid) : Bool :=
  base ∈ history.reach left ∧ base ∈ history.reach right ∧
    ∀ commit ∈ history.reach left, commit ∈ history.reach right →
      base ∈ history.reach commit → commit = base

variable {history} {a b c base tip : Oid}

theorem mem_reach_iff : c ∈ history.reach tip ↔
    tip ∈ history.commits ∧ Reaches history.parents history.commits tip c := by
  rw [reach, mem_walk_iff history.ordered]
  simp

theorem mem_commits_of_mem_reach (h : c ∈ history.reach tip) : c ∈ history.commits :=
  walk_sublist.subset h

theorem reach_trans (hab : b ∈ history.reach a) (hbc : c ∈ history.reach b) :
    c ∈ history.reach a := by
  obtain ⟨ha, hab⟩ := mem_reach_iff.mp hab
  exact mem_reach_iff.mpr ⟨ha, hab.trans (mem_reach_iff.mp hbc).2⟩

theorem mem_reach_parent (hc : c ∈ history.commits) (h : b ∈ history.parents c) :
    b ∈ history.reach c :=
  mem_reach_iff.mpr ⟨hc, Relation.ReflTransGen.single ⟨h, history.closed c hc b h⟩⟩

theorem mem_range_iff : c ∈ history.range base tip ↔
    c ∈ history.reach tip ∧ c ∉ history.reach base :=
  mem_outside

end History

/-- What does not change while a unit is merged. -/
structure Setting extends History where
  /-- Which paths of a working tree its exclude rules cover. -/
  ignored : Tree → Path → Bool
  /-- The unit, as its refs and its marker name it. -/
  unit : String
  slug : String
  /-- The branch of the unit. -/
  branch : RefName
  branch_heads : startsWith HEADS branch = true
  /-- A branch of the project's checkout. -/
  watched : RefName
  watched_heads : startsWith HEADS watched = true
  /-- Where the home is, and where the project's checkout is, as errors name them. -/
  home : Git.Path
  root : Git.Path

/-! ### Refs -/

/-- The ref that holds a unit's branch as it was before a merge squashed it. -/
def premerge (unit : String) : RefName := NAMESPACE ++ [unit, "premerge"]

/-- The ref a merge fetches the branch it merges into onto. -/
def target (unit : String) : RefName := NAMESPACE ++ [unit, "target"]

/-- The ref one operation's snapshot of the home is written to. -/
def pre (unit operation : String) : RefName := NAMESPACE ++ [unit, "pre", operation]

theorem startsWith_premerge (unit : String) : startsWith HEADS (premerge unit) = false := rfl

theorem startsWith_target (unit : String) : startsWith HEADS (target unit) = false := rfl

theorem startsWith_pre (unit operation : String) : startsWith HEADS (pre unit operation) = false :=
  rfl

/-! ### What a merge is planned from -/

/-- The branch the work is merged into, and where it stood when the plan was made. -/
structure Target where
  branch : RefName
  heads : startsWith HEADS branch = true
  oid : Oid
  deriving DecidableEq, Repr

/-- Which stages of a merge run. -/
structure Stages where
  commit : Bool
  squash : Bool
  rebase : Bool
  deriving DecidableEq, Repr

/-- Everything the plan is built from, and the whole of what the journal keeps. -/
structure Params where
  target : Target
  /-- The commit the branch of the unit pointed at before the merge touched it. -/
  head : Oid
  stages : Stages
  /-- Whether the run continues a rebase an earlier one stopped in. -/
  resuming : Bool
  deriving DecidableEq, Repr

/-! ### Repositories -/

/-- A rebase in progress: the branch it is about, where that branch was, and what it goes onto. -/
structure Rebasing where
  branch : RefName
  original : Oid
  onto : Oid
  deriving DecidableEq, Repr

/-- The home of a unit. -/
structure Home where
  /-- Where its refs are kept. -/
  store : ℕ
  head : Head
  index : Tree
  work : Tree
  rebasing : Option Rebasing
  marker : Option String
  deriving DecidableEq

/-- The project's own checkout. Its working tree matters where a command refuses it. -/
structure Source where
  store : ℕ
  head : Head
  deriving DecidableEq

/-- The commits a squash folded away: what `tip` reaches and `folded` does not. -/
structure Fold where
  run : OperationId
  tip : Oid
  folded : Oid
  /-- Where the unit's premerge ref pointed. -/
  record : Option Oid
  deriving DecidableEq

/-- The two repositories, and what has happened to them. -/
structure World where
  refs : ℕ → RefName → Option Oid
  home : Home
  source : Source
  /-- What the journal keeps of each run. -/
  plans : OperationId → Option Params
  /-- The run at work. -/
  current : OperationId
  /-- The commit the target was at, where the last to move it was a merge's fast-forward. -/
  forwarded : Option Oid
  /-- The commits the target reached that a merge did not put there. -/
  others : List Oid
  /-- The squashes that rewrote the branch and were not undone. -/
  folds : List Fold

/-- Which of the two repositories a command runs in. -/
inductive Side
  | home
  | source
  deriving DecidableEq

namespace World

variable (w : World)

/-- The value of a ref. -/
def ref : Side → RefName → Option Oid
  | .home, name => w.refs w.home.store name
  | .source, name => w.refs w.source.store name

/-- Where `HEAD` is. -/
def head : Side → Head
  | .home => w.home.head
  | .source => w.source.head

/-- Point a ref of a store somewhere, or delete it. -/
def setRef (store : ℕ) (name : RefName) (value : Option Oid) : World :=
  { w with refs := Function.update w.refs store (Function.update (w.refs store) name value) }

/-- The commit `HEAD` of the home names. -/
def tip : Option Oid :=
  match w.home.head with
  | .symbolic name => w.ref .home name
  | .detached oid => some oid

/-- Move what `HEAD` of the home names. -/
def moveHead (dest : Oid) : World :=
  match w.home.head with
  | .symbolic name => w.setRef w.home.store name (some dest)
  | .detached _ => { w with home := { w.home with head := .detached dest } }

variable {w} {store store' : ℕ} {name name' : RefName} {value : Option Oid} {dest : Oid} {side : Side}

@[simp] theorem setRef_home : (w.setRef store name value).home = w.home := rfl
@[simp] theorem setRef_source : (w.setRef store name value).source = w.source := rfl

theorem refs_setRef_self : (w.setRef store name value).refs store name = value := by
  simp [setRef]

theorem refs_setRef_of_ne (h : store' ≠ store ∨ name' ≠ name) :
    (w.setRef store name value).refs store' name' = w.refs store' name' := by
  by_cases hstore : store' = store
  · subst hstore
    have hname := h.resolve_left fun hne ↦ hne rfl
    simp [setRef, Function.update_of_ne hname]
  · simp [setRef, Function.update_of_ne hstore]

end World

end Nodal.Merge
