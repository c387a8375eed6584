import Mathlib.Data.List.Sort
import Mathlib.Data.Set.Card
import Nodal.Doctor.OnlyHere
import Nodal.Git.Checkout
import Nodal.Locks.Hold

/-!
# Which branches the report states the unpushed commits of

`doctor/branches.rs`, `doctor/worktrees.rs`, `doctor/mod.rs`: two audits of one repository, and the report
that holds both. The branch audit leaves out what a working tree has checked out, and the worktree audit
states that where it reads the working tree: not for the checkout itself, nor for one that is locked or that
Git calls prunable, nor where a reading fails.

A branch neither audit leaves out is stated with the number of its commits that no tip the survey saw
reaches, and a number that is stated of a branch is that number (`unpushed_stated`).
-/

set_option autoImplicit false

namespace Nodal.Doctor.Unpushed

open Git Foundation Foundation.Ancestry
open Locks (Timestamp)
open OnlyHere (Section)

/-! ### What is read -/

/-- The tips one repository's rows are counted against, and whether the remote itself was read. -/
structure Read where
  tips : List Oid
  checked : Bool

/-- A branch's name, with `refs/heads/` off the front of it as often as it stands there. -/
def trimStartMatches : RefName → RefName
  | "refs" :: "heads" :: part :: rest => trimStartMatches (part :: rest)
  | name => name

/-- One working tree of a repository, as `git worktree list` names it. -/
structure Registered where
  path : Path
  /-- A repository with no working tree is named without a branch. -/
  bare : Bool
  worktree : Worktree
  /-- The reason of a lock, empty where none was given. -/
  locked : Option Text
  /-- Why Git calls it prunable, empty where it does not say. -/
  prunable : Option Text

/-- The branch it has checked out, nothing where its `HEAD` is detached. -/
def Registered.branch (registered : Registered) : Option RefName :=
  if registered.bare then none
  else match registered.worktree.head with
    | .symbolic name => some (trimStartMatches name)
    | .detached _ => none

/-- One thing a repository is asked at its root. -/
inductive Asked
  | opened
  | worktrees
  | symbolicRef
  | branchExists (name : RefName)
  | merged
  | locals
  | countOutside (name : RefName)
  deriving DecidableEq

/-- One repository the survey reads. -/
structure Surveyed where
  checkout : Checkout
  root : Path
  worktrees : List Registered
  /-- What `refs/remotes/origin/HEAD` points at. -/
  originHead : Option RefName
  /-- How Git prints a ref in short, which is longer where another ref shares the name. -/
  short : RefName → RefName
  /-- When a commit was made. -/
  committed : Oid → ℤ
  fails : Asked → Option Failure
  /-- What the survey saw of the remote. -/
  seen : Read

/-- Where the repositories are, and what is read of a directory. -/
structure Scope where
  /-- The repository the command was run in. -/
  root : Option Surveyed
  /-- The repositories of the other projects. -/
  others : List Surveyed
  ownedElsewhere : List Path
  resolve : Path → Path
  /-- What is left of a path after another, where it is that path or inside it. -/
  stripPrefix : Path → Path → Option Path
  /-- The size of a directory, and whether it is the whole of it. -/
  measure : Path → ℕ × Bool
  /-- The first prompt of the session that ran in a directory, where there are session records. -/
  sessions : Option (Path → Option String)

namespace Surveyed

variable (surveyed : Surveyed)

/-- The answer of a question, where it does not fail. -/
def ask {α : Type} (asked : Asked) (answer : α) : Except Failure α :=
  match surveyed.fails asked with
  | some failure => .error failure
  | none => .ok answer

/-- The answer of a question whose failing exit is an answer too. -/
def ran {α : Type} (asked : Asked) (answer otherwise : α) : Except Failure α :=
  match surveyed.fails asked with
  | some .exit => .ok otherwise
  | some .other => .error .other
  | none => .ok answer

/-- Every ref under `refs/heads/`. -/
def heads : List Ref := surveyed.checkout.refs.filter (startsWith HEADS ·.name)

/-! ### The branch audit -/

/-- One local branch, as the repository's refs state it. -/
structure Local where
  name : RefName
  committed : ℤ
  upstream : Option RefName
  upstreamGone : Bool

/-- What one record says of a branch. -/
def localOf (ref : Ref) : Local where
  name := surveyed.short ref.name
  committed := surveyed.committed ref.oid
  upstream := (surveyed.checkout.upstream ref.name).map surveyed.short
  upstreamGone := (surveyed.checkout.upstream ref.name).any (surveyed.checkout.ref · = none)

/-- Every local branch. -/
def localBranches : Except Failure (List Local) :=
  surveyed.ask .locals (surveyed.heads.map surveyed.localOf)

/-- The branches tried where the remote's default branch is not known, in order. -/
def FALLBACK : List RefName := [["main"], ["master"]]

/-- Whether a branch is there. -/
def branchExists (name : RefName) : Except Failure Bool :=
  surveyed.ran (.branchExists name) (surveyed.checkout.ref (HEADS ++ name)).isSome false

/-- The first of some branches that is there. -/
def firstThere : List RefName → Except Failure (Option RefName)
  | [] => .ok none
  | name :: rest => do
    if ← surveyed.branchExists name then return some name
    firstThere rest

/-- The branch this checkout treats as its default. -/
def baseOf : Except Failure (Option RefName) := do
  let reference ← surveyed.ran .symbolicRef surveyed.originHead none
  match reference.bind (Git.stripPrefix TRACKING) with
  | some short => return some short
  | none => surveyed.firstThere FALLBACK

/-- The names of the branches a base already holds. A base that is no revision holds none. -/
def mergedInto (base : RefName) : Except Failure (List RefName) :=
  surveyed.ran .merged (match surveyed.checkout.resolve base with
    | some tip => (surveyed.heads.filter (·.oid ∈ surveyed.checkout.reach [tip])).map
        fun ref ↦ surveyed.short ref.name
    | none => []) []

/-- What the default branch already holds, nothing where there is none. -/
def mergedOf : Option RefName → Except Failure (List RefName)
  | some base => surveyed.mergedInto base
  | none => .ok []

/-- Every working tree the repository names. -/
def list : Except Failure (List Registered) :=
  surveyed.ask .worktrees surveyed.worktrees

/-- Every branch some working tree of this repository has checked out. -/
def checkedOut : Except Failure (List RefName) := do
  return (← surveyed.list).filterMap Registered.branch

/-- What the full name of a branch names: the ref of that name, before any namespace is looked in. -/
def revision (name : RefName) : Option Oid :=
  surveyed.checkout.ref (HEADS ++ name) <|> surveyed.checkout.resolve (HEADS ++ name)

end Surveyed

/-- Where the commits of a branch are. -/
inductive Standing
  | onlyHere
  | unpushed
  | merged
  | onRemote
  | seenOnRemote
  deriving DecidableEq

/-- One branch no working tree has checked out. -/
structure BranchRow where
  name : RefName
  standing : Standing
  unpushed : ℕ
  upstream : Option RefName
  committed : Timestamp
  upstreamGone : Bool

/-- The branch section of the report. -/
structure Branches where
  base : Option RefName
  rows : List BranchRow
  checked : Bool

/-- Which bucket a branch is in. -/
def standingOf (unpushed : ℕ) (checked merged : Bool) : Standing :=
  match decide (0 < unpushed), checked with
  | true, true => .onlyHere
  | true, false => .unpushed
  | false, checked => if merged then .merged else if checked then .onRemote else .seenOnRemote

/-- Whether a row comes before another: more unpushed commits, then older, then by name. -/
def loudest (left right : BranchRow) : Bool :=
  if left.unpushed ≠ right.unpushed then right.unpushed < left.unpushed
  else if left.committed.unixSeconds ≠ right.committed.unixSeconds then
    left.committed.unixSeconds < right.committed.unixSeconds
  else !List.lex (Checkout.written right.name) (Checkout.written left.name)
    fun first second : Char ↦ first.toNat < second.toNat

namespace Surveyed

variable (surveyed : Surveyed)

/-- One branch as a row. -/
def row (branch : Local) (merged : List RefName) (now : Timestamp) : Except Failure BranchRow := do
  let unpushed ← surveyed.ask (.countOutside branch.name)
    (surveyed.checkout.countOutside (surveyed.revision branch.name) surveyed.seen.tips)
  return { name := branch.name
           standing := standingOf unpushed surveyed.seen.checked (branch.name ∈ merged)
           unpushed
           upstream := branch.upstream
           committed := (Timestamp.fromUnixSeconds branch.committed).getD now
           upstreamGone := branch.upstreamGone }

/-- Audit the local branches of a repository. A root that does not open has none. -/
def branches (now : Timestamp) : Except Failure Branches :=
  match surveyed.fails .opened with
  | some _ => .ok ⟨none, [], false⟩
  | none => do
    let held ← surveyed.checkedOut
    let base ← surveyed.baseOf
    let merged ← surveyed.mergedOf base
    let locals ← surveyed.localBranches
    let rows ← (locals.filter (·.name ∉ held)).mapM (surveyed.row · merged now)
    return ⟨base, rows.insertionSort (loudest · · = true), surveyed.seen.checked⟩

end Surveyed

/-! ### The worktree audit -/

/-- One thing a row says. -/
inductive Said
  | locked
  | reason (why : Text)
  | notInspected
  | prunable
  | notACheckout
  | branch (name : RefName)
  | detached
  | noRemote
  | onTheRemote
  | seenOnARemote
  /-- `only here 3`. -/
  | onlyHere (kept : ℕ)
  /-- `unpushed 3`. -/
  | unpushed (kept : ℕ)
  | notRead
  | dirty (paths : ℕ)
  | behind (commits : ℕ)
  deriving DecidableEq

/-- One working tree the report has a row for. -/
structure Finding where
  what : Path
  /-- The size, where it was measured, and whether it is the whole of it. -/
  bytes : Option (ℕ × Bool)
  state : List Said
  intent : Option String

/-- The word for the commits of a working tree that no tip reaches. -/
def counted (kept : Except Failure ℕ) (checked : Bool) : Said :=
  match kept, checked with
  | .ok 0, true => .onTheRemote
  | .ok 0, false => .seenOnARemote
  | .ok kept, true => .onlyHere kept
  | .ok kept, false => .unpushed kept
  | .error _, _ => .notRead

/-- What is said of a working tree's remote, nothing where it could not be listed. -/
def remoteOf (surveyed : Surveyed) (registered : Registered) : List Said :=
  match registered.worktree.ask .remote surveyed.checkout.remotes with
  | .error _ => []
  | .ok [] => [.noRemote]
  | .ok (_ :: _) =>
    [counted (registered.worktree.ask .countOutside
      (surveyed.checkout.countOutside (surveyed.checkout.headCommit registered.worktree)
        surveyed.seen.tips)) surveyed.seen.checked]

/-- What is said of a working tree's changes, nothing where they could not be read. -/
def changesOf (surveyed : Surveyed) (registered : Registered) : List Said :=
  match surveyed.checkout.status registered.worktree with
  | .error _ => []
  | .ok status =>
    (if 0 < status.uncommitted.length then [.dirty status.uncommitted.length] else []) ++
      if 0 < status.behind then [.behind status.behind] else []

/-- What Git says about a working tree. A read that fails leaves its fact off the row. -/
def state (surveyed : Surveyed) (registered : Registered) : List Said :=
  match registered.worktree.fails .gitDir with
  | some _ => [.notACheckout]
  | none =>
    (match registered.branch with
      | some branch => .branch branch
      | none => .detached) :: (remoteOf surveyed registered ++ changesOf surveyed registered)

/-- A locked working tree: the lock, the reason, and nothing that would need a look inside. -/
def locked (reason : Text) : List Said :=
  .locked :: (if Text.trim reason = [] then [] else [.reason (Text.trim reason)]) ++ [.notInspected]

/-- A working tree Git calls prunable: Git's word, and its reason. -/
def prunable (reason : Text) : List Said :=
  .prunable :: if Text.trim reason = [] then [] else [.reason (Text.trim reason)]

namespace Scope

variable (scope : Scope)

/-- Which section a path belongs to. -/
def sectionOf (path : Path) : Section :=
  if scope.ownedElsewhere.any fun owned ↦ (scope.stripPrefix owned (scope.resolve path)).isSome
  then .elsewhere else .here

/-- One working tree as a row, named inside the checkout where it is inside it. -/
def one (surveyed : Surveyed) (registered : Registered) : Finding :=
  let path := scope.resolve registered.path
  let what := (scope.stripPrefix (scope.resolve surveyed.root) path).getD path
  match registered.locked with
  | some reason => ⟨what, none, locked reason, none⟩
  | none => match registered.prunable with
    | some reason => ⟨what, some (scope.measure path), prunable reason, none⟩
    | none => match scope.sectionOf surveyed.root with
      | .elsewhere => ⟨what, some (scope.measure path), [], none⟩
      | .here => ⟨what, some (scope.measure path), state surveyed registered,
          scope.sessions.bind (· path)⟩

/-- Every working tree the repository names, other than the checkout itself. -/
def find (surveyed : Surveyed) : Except Failure (List Finding) :=
  match surveyed.fails .opened with
  | some _ => .ok []
  | none => do
    let registered ← surveyed.list
    return (registered.filter fun registered ↦
      scope.resolve registered.path ≠ scope.resolve surveyed.root).map (scope.one surveyed)

/-! ### The report -/

/-- A row with the repository it is about. -/
structure Row where
  about : Surveyed
  finding : Finding

/-- The worktree rows of this project and of the others, and the branches of the checkout. -/
structure Report where
  here : List Row
  elsewhere : List Row
  branches : Branches

/-- A row with everything but its name and its size taken off. -/
def plain (row : Row) : Row :=
  { row with finding := { row.finding with state := [], intent := none } }

/-- The worktree rows of one repository. -/
def audit (surveyed : Surveyed) : Except Failure (List Row) := do
  return (← scope.find surveyed).map (⟨surveyed, ·⟩)

/-- Every repository the survey reads. -/
def surveyed : List Surveyed := scope.root.toList ++ scope.others

/-- The branches of the checkout, none where the command was run in no repository. -/
def branches (now : Timestamp) : Except Failure Branches :=
  match scope.root with
  | some root => root.branches now
  | none => .ok ⟨none, [], false⟩

/-- Read every repository, and say what each holds. -/
def survey (now : Timestamp) : Except Failure Report := do
  let found ← scope.surveyed.mapM scope.audit
  let branches ← scope.branches now
  return { here := found.flatten.filter fun row ↦ scope.sectionOf row.about.root = .here
           elsewhere := (found.flatten.filter fun row ↦
             scope.sectionOf row.about.root = .elsewhere).map plain
           branches }

end Scope

/-! ### What a branch holds, and what is stated of it -/

/-- A working tree has a branch checked out. -/
def Registered.Holds (registered : Registered) (branch : RefName) : Prop :=
  registered.bare = false ∧ registered.worktree.head = .symbolic (HEADS ++ branch)

namespace Surveyed

variable (surveyed : Surveyed)

/-- The commit a local branch holds. -/
def tip (branch : RefName) : Option Oid := surveyed.checkout.ref (HEADS ++ branch)

/-- The commits of a branch that no tip the survey saw reaches. -/
def outsideOf (branch : RefName) : Set Oid :=
  {commit | (∃ tip ∈ (surveyed.tip branch).toList, tip ∈ surveyed.checkout.commits ∧
      Reaches surveyed.checkout.parents surveyed.checkout.commits tip commit) ∧
    ¬ ∃ held ∈ surveyed.seen.tips, held ∈ surveyed.checkout.commits ∧
      Reaches surveyed.checkout.parents surveyed.checkout.commits held commit}

/-- A name is that of a local branch. -/
def HasBranch (branch : RefName) : Prop := HEADS ++ branch ∈ surveyed.heads.map Ref.name

instance (branch : RefName) : Decidable (surveyed.HasBranch branch) :=
  inferInstanceAs (Decidable (_ ∈ _))

/-- No working tree is said to have a branch checked out. -/
def Unheld (branch : RefName) : Prop :=
  ∀ registered ∈ surveyed.worktrees, registered.branch ≠ some branch

/-- How many commits of a branch no tip the survey saw reaches. -/
noncomputable def unpushed (branch : RefName) : ℕ := (surveyed.outsideOf branch).ncard

/-- A branch is called by one name: Git prints it by what follows `refs/heads/`, and a working tree is
said to have it checked out exactly where it does. -/
structure Plain (branch : RefName) : Prop where
  short : surveyed.short (HEADS ++ branch) = branch
  apart : ∀ registered ∈ surveyed.worktrees,
    registered.branch = some branch ↔ registered.Holds branch

/-- A working tree opens, has a remote, and its commits are counted. -/
structure Readable (registered : Registered) : Prop where
  opened : registered.worktree.fails .gitDir = none
  listed : registered.worktree.fails .remote = none
  remotes : surveyed.checkout.remotes ≠ []
  counted : registered.worktree.fails .countOutside = none

end Surveyed

/-- A row states a branch and a number of its commits. -/
def Finding.States (finding : Finding) (branch : RefName) (count : ℕ) : Prop :=
  .branch branch ∈ finding.state ∧ (.onlyHere count ∈ finding.state ∨ .unpushed count ∈ finding.state)

/-- A row of the loud bucket states a branch and a number of its commits. -/
def BranchRow.States (row : BranchRow) (branch : RefName) (count : ℕ) : Prop :=
  row.name = branch ∧ row.unpushed = count ∧ (row.standing = .onlyHere ∨ row.standing = .unpushed)

namespace Scope

variable (scope : Scope)

/-- A row of the report states a branch of a repository and a number of its commits. -/
def States (report : Report) (surveyed : Surveyed) (branch : RefName) (count : ℕ) : Prop :=
  (scope.root = some surveyed ∧ ∃ row ∈ report.branches.rows, row.States branch count) ∨
    ∃ row ∈ report.here ++ report.elsewhere, row.about = surveyed ∧ row.finding.States branch count

/-- One of the two audits reads a branch: no working tree has it checked out, or one does that is read. -/
def Audited (surveyed : Surveyed) (branch : RefName) : Prop :=
  surveyed.fails .opened = none ∧
    ((scope.root = some surveyed ∧ ∀ registered ∈ surveyed.worktrees, ¬ registered.Holds branch) ∨
      (scope.sectionOf surveyed.root = .here ∧ ∃ registered ∈ surveyed.worktrees,
        registered.Holds branch ∧ scope.resolve registered.path ≠ scope.resolve surveyed.root ∧
          registered.locked = none ∧ registered.prunable = none ∧ surveyed.Readable registered))

/-- Every branch with an unpushed commit is stated with their number, and none without one is. -/
def HidesNothing (now : Timestamp) : Prop :=
  ∀ report, scope.survey now = .ok report → ∀ surveyed ∈ scope.surveyed, ∀ branch,
    surveyed.HasBranch branch →
      (0 < surveyed.unpushed branch →
        scope.States report surveyed branch (surveyed.unpushed branch)) ∧
      ∀ count, scope.States report surveyed branch count → 0 < surveyed.unpushed branch

end Scope

variable {scope : Scope} {surveyed : Surveyed} {branch : RefName} {registered : Registered}
  {now : Timestamp} {count : ℕ}

/-! ### The count -/

/-- What is counted of a branch is how many of its commits no tip the survey saw reaches. -/
theorem countOutside_tip : surveyed.checkout.countOutside (surveyed.tip branch) surveyed.seen.tips =
    surveyed.unpushed branch := by
  have hset : surveyed.outsideOf branch =
      {commit | commit ∈ outside surveyed.checkout.parents (surveyed.tip branch).toList
        surveyed.seen.tips surveyed.checkout.commits} := by
    ext commit
    simp only [Surveyed.outsideOf, Set.mem_ofPred_eq, mem_outside, mem_walk_iff surveyed.checkout.ordered]
  rw [Surveyed.unpushed, hset, ← List.coe_toFinset, Set.ncard_coe_finset,
    List.toFinset_card_of_nodup (outside_nodup surveyed.checkout.ordered)]
  rfl

/-- The full name of a local branch names what the branch holds. -/
theorem revision_of_hasBranch (hlocal : surveyed.HasBranch branch) :
    surveyed.revision branch = surveyed.tip branch := by
  obtain ⟨ref, href, hname⟩ := List.mem_map.mp hlocal
  have hthere : (surveyed.checkout.ref (HEADS ++ branch)).isSome := by
    rw [Checkout.ref, Option.isSome_map, List.find?_isSome]
    exact ⟨ref, (List.mem_filter.mp href).1, by simpa using hname⟩
  obtain ⟨tip, htip⟩ := Option.isSome_iff_exists.mp hthere
  simp [Surveyed.revision, Surveyed.tip, htip]

/-! ### The branch audit -/

theorem ask_eq_ok {α : Type} {asked : Asked} {answer given : α}
    (h : surveyed.ask asked answer = .ok given) : answer = given := by
  unfold Surveyed.ask at h
  split at h
  · cases h
  · exact Except.ok.inj h

/-- What a traversal that answers holds is what it was answered of each. -/
theorem mem_of_mapM {α β : Type} {read : α → Except Failure β} {as : List α} {bs : List β}
    (h : as.mapM read = .ok bs) {b : β} : b ∈ bs ↔ ∃ a ∈ as, read a = .ok b := by
  induction as generalizing bs with
  | nil =>
    rw [List.mapM_nil] at h
    cases h
    simp
  | cons a as ih =>
    rw [List.mapM_cons] at h
    obtain ⟨first, hfirst, h⟩ := bind_eq_ok h
    obtain ⟨rest, hrest, h⟩ := bind_eq_ok h
    cases h
    rw [List.mem_cons, ih hrest, List.exists_mem_cons_iff, hfirst]
    simp [eq_comm]

theorem exists_of_mapM {α β : Type} {read : α → Except Failure β} {as : List α} {bs : List β}
    (h : as.mapM read = .ok bs) : ∀ a ∈ as, ∃ b, read a = .ok b := by
  induction as generalizing bs with
  | nil => simp
  | cons a as ih =>
    rw [List.mapM_cons] at h
    obtain ⟨first, hfirst, h⟩ := bind_eq_ok h
    obtain ⟨rest, hrest, -⟩ := bind_eq_ok h
    exact List.forall_mem_cons.mpr ⟨⟨first, hfirst⟩, ih hrest⟩

/-- A branch row is in the loud bucket exactly where it has a number to state. -/
theorem standingOf_loud_iff {unpushed : ℕ} {checked merged : Bool} :
    (standingOf unpushed checked merged = .onlyHere ∨ standingOf unpushed checked merged = .unpushed) ↔
      0 < unpushed := by
  unfold standingOf
  by_cases hpositive : 0 < unpushed <;> cases checked <;> cases merged <;> simp [hpositive]

/-- The rows of the branch audit: one for each branch no working tree is said to have. -/
theorem mem_branches {found : Branches} (h : surveyed.branches now = .ok found)
    (hopened : surveyed.fails .opened = none) : ∃ merged,
      (∀ ref ∈ surveyed.heads, surveyed.Unheld (surveyed.short ref.name) →
        ∃ row, surveyed.row (surveyed.localOf ref) merged now = .ok row) ∧
      ∀ row, row ∈ found.rows ↔ ∃ ref ∈ surveyed.heads, surveyed.Unheld (surveyed.short ref.name) ∧
        surveyed.row (surveyed.localOf ref) merged now = .ok row := by
  unfold Surveyed.branches at h
  rw [hopened] at h
  obtain ⟨held, hheld, h⟩ := bind_eq_ok h
  obtain ⟨base, -, h⟩ := bind_eq_ok h
  obtain ⟨merged, -, h⟩ := bind_eq_ok h
  obtain ⟨locals, hlocals, h⟩ := bind_eq_ok h
  obtain ⟨rows, hrows, h⟩ := bind_eq_ok h
  cases h
  obtain ⟨listed, hlisted, hheld⟩ := bind_eq_ok hheld
  cases hheld
  obtain rfl := ask_eq_ok hlisted
  obtain rfl := ask_eq_ok hlocals
  have hkept (ref : Ref) (href : ref ∈ surveyed.heads)
      (hunheld : surveyed.Unheld (surveyed.short ref.name)) : surveyed.localOf ref ∈
        (surveyed.heads.map surveyed.localOf).filter
          (·.name ∉ surveyed.worktrees.filterMap Registered.branch) :=
    List.mem_filter.mpr ⟨List.mem_map_of_mem href, by
      simpa [Surveyed.localOf, Surveyed.Unheld, List.mem_filterMap] using hunheld⟩
  refine ⟨merged, fun ref href hunheld ↦ exists_of_mapM hrows _ (hkept ref href hunheld),
    fun row ↦ ?_⟩
  rw [List.mem_insertionSort, mem_of_mapM hrows]
  constructor
  · rintro ⟨_, hlocal, hrow⟩
    obtain ⟨hmem, hheld⟩ := List.mem_filter.mp hlocal
    obtain ⟨ref, href, rfl⟩ := List.mem_map.mp hmem
    refine ⟨ref, href, ?_, hrow⟩
    simpa [Surveyed.localOf, Surveyed.Unheld, List.mem_filterMap] using hheld
  · rintro ⟨ref, href, hunheld, hrow⟩
    exact ⟨_, hkept ref href hunheld, hrow⟩

/-- A branch row of a local branch states the number of its commits that no tip reaches. -/
theorem row_states_iff {ref : Ref} {merged : List RefName} {row : BranchRow}
    (h : surveyed.row (surveyed.localOf ref) merged now = .ok row)
    (hlocal : surveyed.HasBranch branch) : row.States branch count ↔
      surveyed.short ref.name = branch ∧ surveyed.unpushed branch = count ∧ 0 < count := by
  obtain ⟨unpushed, hunpushed, h⟩ := bind_eq_ok h
  cases h
  have hcount := ask_eq_ok hunpushed
  simp only [BranchRow.States, standingOf_loud_iff, Surveyed.localOf]
  constructor
  · rintro ⟨rfl, rfl, hpositive⟩
    refine ⟨rfl, ?_, hpositive⟩
    rw [← countOutside_tip, ← revision_of_hasBranch hlocal]
    exact hcount
  · rintro ⟨rfl, rfl, hpositive⟩
    have hsame : unpushed = surveyed.unpushed (surveyed.short ref.name) := by
      rw [← countOutside_tip, ← revision_of_hasBranch hlocal]
      exact hcount.symm
    exact ⟨rfl, hsame, hsame ▸ hpositive⟩

/-! ### The worktree audit -/

/-- The word for a count is one that states a number exactly where the count is that number. -/
theorem counted_states_iff {kept : Except Failure ℕ} {checked : Bool} :
    (counted kept checked = .onlyHere count ∨ counted kept checked = .unpushed count) ↔
      kept = .ok count ∧ 0 < count := by
  rcases kept with failure | _ | kept <;> cases checked <;> simp [counted]
  all_goals omega

/-- Nothing that is said of the changes is a branch or a number of commits. -/
theorem mem_changesOf {said : Said} (h : said ∈ changesOf surveyed registered) :
    (∃ paths, said = .dirty paths) ∨ ∃ commits, said = .behind commits := by
  unfold changesOf at h
  split at h
  · cases h
  · rcases List.mem_append.mp h with h | h
    · split at h
      · exact Or.inl ⟨_, List.mem_singleton.mp h⟩
      · cases h
    · split at h
      · exact Or.inr ⟨_, List.mem_singleton.mp h⟩
      · cases h

/-- What is said of a remote states a number exactly where it is listed, there is one, and the commits are
counted. -/
theorem remoteOf_states_iff : (.onlyHere count ∈ remoteOf surveyed registered ∨
    .unpushed count ∈ remoteOf surveyed registered) ↔
      registered.worktree.fails .remote = none ∧ surveyed.checkout.remotes ≠ [] ∧
        registered.worktree.fails .countOutside = none ∧ surveyed.checkout.countOutside
          (surveyed.checkout.headCommit registered.worktree) surveyed.seen.tips = count ∧ 0 < count := by
  unfold remoteOf
  rw [Worktree.ask]
  cases hlisted : registered.worktree.fails .remote with
  | some failure => simp
  | none =>
    cases hremotes : surveyed.checkout.remotes with
    | nil => simp
    | cons remote remotes =>
      simp only [List.mem_singleton, eq_comm (b := counted _ _), counted_states_iff,
        Checkout.ask_eq_ok_iff]
      simp [and_assoc]

/-- The words of a working tree state a branch and a number exactly where it is read, its record names the
branch, and its commits are that many. -/
theorem state_states_iff : (.branch branch ∈ state surveyed registered ∧
    (.onlyHere count ∈ state surveyed registered ∨ .unpushed count ∈ state surveyed registered)) ↔
      surveyed.Readable registered ∧ registered.branch = some branch ∧ surveyed.checkout.countOutside
        (surveyed.checkout.headCommit registered.worktree) surveyed.seen.tips = count ∧ 0 < count := by
  have hcounts := @remoteOf_states_iff surveyed registered count
  have hremote : ∀ name, .branch name ∉ remoteOf surveyed registered := by
    intro name h
    unfold remoteOf counted at h
    split at h <;> (try split at h) <;> simp at h
  have hchanges : ∀ said ∈ changesOf surveyed registered, (∀ name, said ≠ .branch name) ∧
      (∀ kept, said ≠ .onlyHere kept) ∧ ∀ kept, said ≠ .unpushed kept := by
    intro said hsaid
    obtain ⟨paths, rfl⟩ | ⟨commits, rfl⟩ := mem_changesOf hsaid <;> simp
  have hnamed : .branch branch ∉ changesOf surveyed registered := fun h ↦ (hchanges _ h).1 _ rfl
  have honly : .onlyHere count ∉ changesOf surveyed registered := fun h ↦ (hchanges _ h).2.1 _ rfl
  have hunpushed : .unpushed count ∉ changesOf surveyed registered := fun h ↦ (hchanges _ h).2.2 _ rfl
  unfold state
  cases hopened : registered.worktree.fails .gitDir with
  | some failure =>
    simp only [List.mem_singleton, reduceCtorEq, false_and, false_iff, not_and]
    rintro ⟨hread⟩
    rw [hopened] at hread
    cases hread
  | none =>
    have hhead : .branch branch ∈ (match registered.branch with
          | some branch => Said.branch branch
          | none => .detached) :: (remoteOf surveyed registered ++ changesOf surveyed registered) ↔
        registered.branch = some branch := by
      cases registered.branch <;> simp [hremote, hnamed, eq_comm]
    have hwords : ∀ said, (∀ name, said ≠ .branch name) → said ≠ .detached →
        said ∉ changesOf surveyed registered →
        (said ∈ (match registered.branch with
          | some branch => Said.branch branch
          | none => .detached) :: (remoteOf surveyed registered ++ changesOf surveyed registered) ↔
            said ∈ remoteOf surveyed registered) := by
      intro said hbranch hdetached hquiet
      cases registered.branch <;> simp [hbranch, hdetached, hquiet]
    rw [hhead, hwords _ (by simp) (by simp) honly, hwords _ (by simp) (by simp) hunpushed, hcounts]
    constructor
    · rintro ⟨hbranch, hlisted, hremotes, hcounted, hcount⟩
      exact ⟨⟨hopened, hlisted, hremotes, hcounted⟩, hbranch, hcount⟩
    · rintro ⟨⟨-, hlisted, hremotes, hcounted⟩, hbranch, hcount⟩
      exact ⟨hbranch, hlisted, hremotes, hcounted, hcount⟩

/-- A worktree row states a branch and a number exactly where the working tree is one this project's
section reads. -/
theorem one_states_iff : (scope.one surveyed registered).States branch count ↔
    registered.locked = none ∧ registered.prunable = none ∧ scope.sectionOf surveyed.root = .here ∧
      surveyed.Readable registered ∧ registered.branch = some branch ∧ surveyed.checkout.countOutside
        (surveyed.checkout.headCommit registered.worktree) surveyed.seen.tips = count ∧ 0 < count := by
  rw [← state_states_iff]
  unfold Scope.one Finding.States
  cases hlocked : registered.locked with
  | some reason => by_cases hempty : Text.trim reason = [] <;> simp [locked, hempty]
  | none =>
    cases hprunable : registered.prunable with
    | some reason => by_cases hempty : Text.trim reason = [] <;> simp [prunable, hempty]
    | none => cases hplace : scope.sectionOf surveyed.root <;> simp

/-- The worktree rows of one repository. -/
theorem mem_audit {rows : List Scope.Row} (h : scope.audit surveyed = .ok rows) {row : Scope.Row} :
    row ∈ rows ↔ surveyed.fails .opened = none ∧ ∃ registered ∈ surveyed.worktrees,
      scope.resolve registered.path ≠ scope.resolve surveyed.root ∧
        row = ⟨surveyed, scope.one surveyed registered⟩ := by
  obtain ⟨found, hfound, h⟩ := bind_eq_ok h
  cases h
  unfold Scope.find at hfound
  cases hopened : surveyed.fails .opened with
  | some failure =>
    rw [hopened] at hfound
    cases hfound
    simp
  | none =>
    rw [hopened] at hfound
    obtain ⟨listed, hlisted, hfound⟩ := bind_eq_ok hfound
    cases hfound
    obtain rfl := ask_eq_ok hlisted
    simp only [List.map_map, List.mem_map, List.mem_filter, decide_eq_true_eq, Function.comp_apply,
      true_and, and_assoc, eq_comm (a := row)]

/-! ### The report -/

/-- The rows of a report about a repository are those of its working trees, other than the checkout. -/
theorem survey_eq_ok {report : Scope.Report} (h : scope.survey now = .ok report) :
    scope.branches now = .ok report.branches ∧ ∀ surveyed ∈ scope.surveyed, ∀ branch count,
      (∃ row ∈ report.here ++ report.elsewhere, row.about = surveyed ∧
        row.finding.States branch count) ↔
        surveyed.fails .opened = none ∧ ∃ registered ∈ surveyed.worktrees,
          scope.resolve registered.path ≠ scope.resolve surveyed.root ∧
            (scope.one surveyed registered).States branch count := by
  obtain ⟨found, hfound, h⟩ := bind_eq_ok h
  obtain ⟨branches, hbranches, h⟩ := bind_eq_ok h
  cases h
  refine ⟨hbranches, fun surveyed hsurveyed branch count ↦ ?_⟩
  constructor
  · rintro ⟨row, hrow, rfl, hstates⟩
    rcases List.mem_append.mp hrow with hhere | helsewhere
    · obtain ⟨rows, hrows, hmem⟩ := List.mem_flatten.mp (List.mem_filter.mp hhere).1
      obtain ⟨surveyed, -, haudit⟩ := (mem_of_mapM hfound).mp hrows
      obtain ⟨hopened, registered, hregistered, hother, rfl⟩ := (mem_audit haudit).mp hmem
      exact ⟨hopened, registered, hregistered, hother, hstates⟩
    · obtain ⟨shown, -, rfl⟩ := List.mem_map.mp helsewhere
      exact absurd hstates.1 List.not_mem_nil
  · rintro ⟨hopened, registered, hregistered, hother, hstates⟩
    obtain ⟨rows, haudit⟩ := exists_of_mapM hfound _ hsurveyed
    have hmem := (mem_audit haudit).mpr ⟨hopened, registered, hregistered, hother, rfl⟩
    obtain ⟨-, -, hplace, -⟩ := one_states_iff.mp hstates
    refine ⟨⟨surveyed, scope.one surveyed registered⟩, List.mem_append_left _
      (List.mem_filter.mpr ⟨?_, by simpa using hplace⟩), rfl, hstates⟩
    exact List.mem_flatten.mpr ⟨rows, (mem_of_mapM hfound).mpr ⟨surveyed, hsurveyed, haudit⟩, hmem⟩

/-- What is counted of a working tree that has a branch checked out is what is counted of the branch. -/
theorem countOutside_headCommit (hholds : registered.Holds branch) :
    surveyed.checkout.countOutside (surveyed.checkout.headCommit registered.worktree)
      surveyed.seen.tips = surveyed.unpushed branch := by
  rw [← countOutside_tip, Checkout.headCommit, hholds.2]
  rfl

/-- A branch of one name is stated exactly where one of the audits reads it, with the number of its commits
that no tip the survey saw reaches. -/
theorem states_iff {report : Scope.Report} (h : scope.survey now = .ok report)
    (hsurveyed : surveyed ∈ scope.surveyed) (hlocal : surveyed.HasBranch branch)
    (hplain : surveyed.Plain branch) : scope.States report surveyed branch count ↔
      scope.Audited surveyed branch ∧ surveyed.unpushed branch = count ∧ 0 < count := by
  obtain ⟨hbranches, hrows⟩ := survey_eq_ok h
  have hunheld : surveyed.Unheld branch ↔
      ∀ registered ∈ surveyed.worktrees, ¬ registered.Holds branch :=
    forall₂_congr fun registered hregistered ↦ not_congr (hplain.apart registered hregistered)
  have hbranch (hroot : scope.root = some surveyed) :
      (∃ row ∈ report.branches.rows, row.States branch count) ↔ surveyed.fails .opened = none ∧
        surveyed.Unheld branch ∧ surveyed.unpushed branch = count ∧ 0 < count := by
    rw [Scope.branches, hroot] at hbranches
    cases hopened : surveyed.fails .opened with
    | some failure =>
      simp only [Surveyed.branches, hopened] at hbranches
      rw [← Except.ok.inj hbranches]
      simp
    | none =>
      obtain ⟨merged, hread, hmem⟩ := mem_branches hbranches hopened
      simp only [hmem, true_and]
      constructor
      · rintro ⟨row, ⟨ref, -, hnone, hrow⟩, hstates⟩
        obtain ⟨rfl, hcount⟩ := (row_states_iff hrow hlocal).mp hstates
        exact ⟨hnone, hcount⟩
      · rintro ⟨hnone, hcount⟩
        obtain ⟨ref, href, hname⟩ := List.mem_map.mp hlocal
        have hshort : surveyed.short ref.name = branch := by rw [hname, hplain.short]
        obtain ⟨row, hrow⟩ := hread ref href (hshort ▸ hnone)
        exact ⟨row, ⟨ref, href, hshort ▸ hnone, hrow⟩, (row_states_iff hrow hlocal).mpr ⟨hshort, hcount⟩⟩
  have hworktree : (∃ row ∈ report.here ++ report.elsewhere, row.about = surveyed ∧
        row.finding.States branch count) ↔ surveyed.fails .opened = none ∧
      (scope.sectionOf surveyed.root = .here ∧ ∃ registered ∈ surveyed.worktrees,
        registered.Holds branch ∧ scope.resolve registered.path ≠ scope.resolve surveyed.root ∧
          registered.locked = none ∧ registered.prunable = none ∧ surveyed.Readable registered) ∧
      surveyed.unpushed branch = count ∧ 0 < count := by
    rw [hrows surveyed hsurveyed]
    constructor
    · rintro ⟨hopened, registered, hregistered, hother, hstates⟩
      obtain ⟨hlocked, hprunable, hplace, hreadable, hnamed, rfl, hpositive⟩ := one_states_iff.mp hstates
      have hholds := (hplain.apart registered hregistered).mp hnamed
      exact ⟨hopened, ⟨hplace, registered, hregistered, hholds, hother, hlocked, hprunable, hreadable⟩,
        (countOutside_headCommit hholds).symm, hpositive⟩
    · rintro ⟨hopened, ⟨hplace, registered, hregistered, hholds, hother, hlocked, hprunable, hreadable⟩,
        rfl, hpositive⟩
      have hnamed := (hplain.apart registered hregistered).mpr hholds
      exact ⟨hopened, registered, hregistered, hother, one_states_iff.mpr
        ⟨hlocked, hprunable, hplace, hreadable, hnamed, countOutside_headCommit hholds, hpositive⟩⟩
  unfold Scope.States Scope.Audited
  rw [hworktree, ← hunheld]
  constructor
  · rintro (⟨hroot, hrow⟩ | ⟨hopened, hread, hcount⟩)
    · obtain ⟨hopened, hnone, hcount⟩ := (hbranch hroot).mp hrow
      exact ⟨⟨hopened, Or.inl ⟨hroot, hnone⟩⟩, hcount⟩
    · exact ⟨⟨hopened, Or.inr hread⟩, hcount⟩
  · rintro ⟨⟨hopened, ⟨hroot, hnone⟩ | hread⟩, hcount⟩
    · exact Or.inl ⟨hroot, (hbranch hroot).mpr ⟨hopened, hnone, hcount⟩⟩
    · exact Or.inr ⟨hopened, hread, hcount⟩

/-- A branch of one name that one of the audits reads is stated with the number of its commits that no tip
the survey saw reaches, and no other number is stated of it. -/
theorem unpushed_stated {report : Scope.Report} (h : scope.survey now = .ok report)
    (hsurveyed : surveyed ∈ scope.surveyed) (hlocal : surveyed.HasBranch branch)
    (hplain : surveyed.Plain branch) :
    (0 < surveyed.unpushed branch → scope.Audited surveyed branch →
      scope.States report surveyed branch (surveyed.unpushed branch)) ∧
    ∀ count, scope.States report surveyed branch count →
      count = surveyed.unpushed branch ∧ 0 < surveyed.unpushed branch := by
  refine ⟨fun hpositive haudited ↦ (states_iff h hsurveyed hlocal hplain).mpr
    ⟨haudited, rfl, hpositive⟩, ?_⟩
  intro count hstates
  obtain ⟨-, rfl, hpositive⟩ := (states_iff h hsurveyed hlocal hplain).mp hstates
  exact ⟨rfl, hpositive⟩

/-! ### What neither audit reads -/

/-- Commit `2` is made on commit `1`. -/
def onTop (oid : Oid) : List Oid := if oid = ⟨2⟩ then [⟨1⟩] else []

/-- A commit the remote has and one on top of it that it has not, with these branches at the second and a
tag that shares the name of one of them. -/
def twoCommits (branches : List String) : Checkout where
  parents := onTop
  commits := [⟨2⟩, ⟨1⟩]
  ordered := by decide
  tree := fun oid ↦ ⟨oid.value⟩
  merge := fun _ _ ↦ .conflict
  refs := ⟨HEADS ++ ["main"], ⟨1⟩⟩ :: ⟨["refs", "tags", "shared"], ⟨1⟩⟩ ::
    branches.map fun branch ↦ ⟨HEADS ++ [branch], ⟨2⟩⟩
  literal := fun _ ↦ none
  remotes := ["origin"]
  upstream := fun _ ↦ none

/-- A working tree with a branch checked out and nothing changed. -/
def clean (branch : String) : Worktree := ⟨.symbolic (HEADS ++ [branch]), [], fun _ ↦ none⟩

/-- A project with one branch of each kind: in no working tree, in a locked one, in a prunable one, and one
that shares its name with a tag. -/
def project : Surveyed where
  checkout := twoCommits ["free", "held", "hollow", "shared"]
  root := "/app"
  worktrees := [⟨"/app", false, clean "main", none, none⟩, ⟨"/held", false, clean "held", some [], none⟩,
    ⟨"/hollow", false, clean "hollow", none, some []⟩]
  originHead := none
  short := fun name ↦ if name = HEADS ++ ["shared"] then name.drop 1 else name.drop 2
  committed := fun _ ↦ 0
  fails := fun _ ↦ none
  seen := ⟨[⟨1⟩], false⟩

/-- Another project, with a branch in no working tree. -/
def otherProject : Surveyed :=
  { project with
    checkout := twoCommits ["free"]
    root := "/other"
    worktrees := [⟨"/other", false, clean "main", none, none⟩] }

/-- A machine with both, and the command run in the first. -/
def twoProjects : Scope where
  root := some project
  others := [otherProject]
  ownedElsewhere := ["/other"]
  resolve := id
  stripPrefix := fun outer path ↦ if outer = path then some "" else none
  measure := fun _ ↦ (0, true)
  sessions := none

/-- Everything the report says of the two projects. -/
theorem twoProjects_says : ((twoProjects.survey .epoch).map fun report ↦
    (report.branches.rows.map fun row ↦ (row.name, row.unpushed), (report.here ++ report.elsewhere).map
      (·.finding.state))) = .ok ([(["free"], 1), (["heads", "shared"], 0)],
        [[.locked, .notInspected], [.prunable]]) := by
  decide

theorem twoProjects_survey : ∃ report, twoProjects.survey .epoch = .ok report := by
  cases hsurvey : twoProjects.survey .epoch with
  | ok report => exact ⟨report, rfl⟩
  | error failure =>
    have hsays := twoProjects_says
    rw [hsurvey] at hsays
    cases hsays

/-- What is stated is stated of the branch no working tree has. -/
theorem twoProjects_states {report : Scope.Report} (h : twoProjects.survey .epoch = .ok report)
    (hstates : twoProjects.States report surveyed branch count) :
    some project = some surveyed ∧ (branch, count) ∈ [(["free"], 1), (["heads", "shared"], 0)] := by
  have hsays := twoProjects_says
  simp only [h, Except.map, Except.ok.injEq, Prod.mk.injEq] at hsays
  obtain ⟨hbranches, hworktrees⟩ := hsays
  rcases hstates with ⟨hroot, row, hrow, rfl, rfl, -⟩ | ⟨row, hrow, -, hbranch, -⟩
  · exact ⟨hroot, hbranches ▸ List.mem_map_of_mem (f := fun row ↦ (row.name, row.unpushed)) hrow⟩
  · have hstate : row.finding.state ∈ [[Said.locked, .notInspected], [.prunable]] :=
      hworktrees ▸ List.mem_map_of_mem hrow
    rcases List.mem_pair.mp hstate with hstate | hstate <;> simp [hstate] at hbranch

/-- A branch in a locked working tree, one in a prunable one, one that shares its name with a tag, and one
of another project have a commit the remote has not, and none of them is stated. -/
theorem unread_not_stated : ∀ surveyed branch, (surveyed, branch) ∈ [(project, ["held"]),
    (project, ["hollow"]), (project, ["shared"]), (otherProject, ["free"])] →
      surveyed ∈ twoProjects.surveyed ∧ surveyed.HasBranch branch ∧ surveyed.unpushed branch = 1 ∧
        ∀ report, twoProjects.survey .epoch = .ok report → ∀ count,
          ¬ twoProjects.States report surveyed branch count := by
  intro surveyed branch hmem
  simp only [List.mem_cons, Prod.mk.injEq, List.not_mem_nil, or_false] at hmem
  rcases hmem with ⟨rfl, rfl⟩ | ⟨rfl, rfl⟩ | ⟨rfl, rfl⟩ | ⟨rfl, rfl⟩
  all_goals
    refine ⟨by simp [Scope.surveyed, twoProjects], by decide, ?_, ?_⟩
    · rw [← countOutside_tip]
      decide
    · intro report hreport count hstates
      obtain ⟨hproject, hcount⟩ := twoProjects_states hreport hstates
      first
      | exact absurd (congrArg Surveyed.root (Option.some.inj hproject)) (by decide)
      | simp at hcount

/-- The report does hide unpushed branches. -/
theorem unpushed_hidden : ¬ twoProjects.HidesNothing .epoch := by
  intro hclaim
  obtain ⟨report, hreport⟩ := twoProjects_survey
  obtain ⟨hsurveyed, hlocal, hcount, hnone⟩ := unread_not_stated project ["held"] List.mem_cons_self
  have hpositive : 0 < project.unpushed ["held"] := by
    rw [hcount]
    exact Nat.one_pos
  exact hnone report hreport _ ((hclaim report hreport project hsurveyed ["held"] hlocal).1 hpositive)

/-- The branch no working tree has is stated. -/
theorem unpushed_stated_free : ∃ report, twoProjects.survey .epoch = .ok report ∧
    twoProjects.States report project ["free"] (project.unpushed ["free"]) := by
  obtain ⟨report, hreport⟩ := twoProjects_survey
  have hplain : project.Plain ["free"] :=
    { short := by decide
      apart := by simp [project, Registered.branch, Registered.Holds, clean, trimStartMatches, HEADS] }
  have hfree : ∀ registered ∈ project.worktrees, ¬ registered.Holds ["free"] := by
    simp [project, Registered.Holds, clean]
  have hpositive : 0 < project.unpushed ["free"] := by
    rw [← countOutside_tip]
    decide
  exact ⟨report, hreport, (unpushed_stated hreport (by simp [Scope.surveyed, twoProjects]) (by decide)
    hplain).1 hpositive ⟨rfl, Or.inl ⟨rfl, hfree⟩⟩⟩

end Nodal.Doctor.Unpushed
