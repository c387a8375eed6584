import Nodal.Foundation.Text
import Nodal.Git.Repository

/-!
# The work-in-progress snapshot of a home

`git/snapshot.rs`: everything a home has is committed to a ref, through an index of its own that is filled
from `HEAD` and then from the disk. The index the person is using is never opened, so what only that index
knows is not known here: that an ignored path is tracked, that a path is assumed unchanged, and that a path
is staged as the disk does not have it. A run that ended early leaves locks behind, and the next run clears
those of its index but not the one of its ref. In these ways a snapshot is not what status counts, and in no
other (`faithful_iff`).

A path holds a file or a link. A command of `git` is what it writes, one write after another, and a run may
end before any of them.
-/

set_option autoImplicit false

namespace Nodal.Git.Wip

open Foundation

/-! ### A home -/

/-- What a path holds, with its mode. -/
structure Blob where
  mode : ℕ
  object : Object
  deriving DecidableEq

/-- Paths and what is at them: the first row of a path counts. -/
abbrev Listing (α : Type) := List (RelPath × α)

/-- A path of an index: its blob and whether it is assumed unchanged, or unresolved stages of it. -/
inductive Staged
  | entry (blob : Blob) (assumed : Bool)
  | unmerged
  deriving DecidableEq

/-- A commit, which is named by what it holds. -/
structure Commit where
  tree : Listing Blob
  parents : List Commit
  message : Text

/-- Whether two trees have one name: no path tells them apart. -/
def sameTree (first second : Listing Blob) : Bool :=
  (first ++ second).all fun row ↦ first.lookup row.1 = second.lookup row.1

/-- What `HEAD` names: a ref, born or not, or a commit. -/
inductive Named
  | symbolic (name : RefName)
  | detached (commit : Commit)

structure Home where
  head : Named
  refs : List (RefName × Commit)
  index : Listing Staged
  work : Listing Blob
  /-- Whether an ignore rule covers a path. -/
  ignored : RelPath → Bool
  /-- The index a snapshot builds in. -/
  wip : Option (Listing Blob)
  /-- Whether the lock beside that index is there. -/
  wipLock : Bool
  /-- The refs that have a lock beside them. -/
  refLocks : List RefName

namespace Home

variable (home : Home)

def ref (name : RefName) : Option Commit := home.refs.lookup name

/-- The commit `HEAD` names, `none` when the branch has none yet. -/
def headCommit : Option Commit :=
  match home.head with
  | .symbolic name => home.ref name
  | .detached commit => some commit

/-- What `git add --all` makes of an index: the working tree, without the paths that are ignored and that
the index does not track. -/
def recorded (index : Listing Blob) : Listing Blob :=
  home.work.filter fun row ↦ (index.lookup row.1).isSome || !home.ignored row.1

end Home

/-! ### Runs -/

inductive Error
  /-- A command exited with a failure. -/
  | git (command : Text)
  deriving DecidableEq

/-- What a run comes to: the homes it passed, each of which it leaves when it ends there, its answer, and the
home after it. -/
structure Outcome (α : Type) where
  passed : List Home
  answer : Except Error α
  home : Home

abbrev Run (α : Type) := Home → Outcome α

namespace Run

variable {α β : Type}

def pure (a : α) : Run α := fun home ↦ ⟨[], .ok a, home⟩

def bind (first : Run α) (next : α → Run β) : Run β := fun home ↦
  match (first home).answer with
  | .error error => ⟨(first home).passed, .error error, (first home).home⟩
  | .ok a =>
    ⟨(first home).passed ++ (next a (first home).home).passed, (next a (first home).home).answer,
      (next a (first home).home).home⟩

instance : Monad Run where
  pure := Run.pure
  bind := Run.bind

def read (f : Home → Except Error α) : Run α := fun home ↦ ⟨[], f home, home⟩

/-- One write, which a run may end before. -/
def write (change : Home → Except Error Home) : Run Unit := fun home ↦
  match change home with
  | .ok after => ⟨[home], .ok (), after⟩
  | .error error => ⟨[home], .error error, home⟩

/-- The answer of a run, taken as a value. -/
def attempt (run : Run α) : Run (Except Error α) := fun home ↦
  ⟨(run home).passed, .ok (run home).answer, (run home).home⟩

end Run

open Run

/-! ### The commands -/

/-- Remove the temporary index and the lock `git` keeps beside it. -/
def remove : Run Unit := do
  write fun home ↦ .ok { home with wip := none }
  write fun home ↦ .ok { home with wipLock := false }

/-- Make the lock beside the temporary index. -/
def lockIndex (command : Text) : Run Unit :=
  write fun home ↦ if home.wipLock then .error (.git command) else .ok { home with wipLock := true }

/-- Rename the lock to the index. -/
def renameLock (index : Listing Blob) : Run Unit :=
  write fun home ↦ .ok { home with wip := some index, wipLock := false }

def readTree (head : Commit) : Run Unit := do
  lockIndex "read-tree".toList
  renameLock head.tree

def addAll : Run Unit := do
  lockIndex "add".toList
  renameLock (← read fun home ↦ .ok (home.recorded (home.wip.getD [])))

def writeTree : Run (Listing Blob) := do
  lockIndex "write-tree".toList
  let index ← read fun home ↦ .ok (home.wip.getD [])
  renameLock index
  return index

def commitTree (tree : Listing Blob) (head : Commit) (message : Text) : Run Commit :=
  return ⟨tree, [head], message⟩

/-- Point a ref at a commit. -/
def updateRef (name : RefName) (commit : Commit) : Run Unit := do
  write fun home ↦
    if name ∈ home.refLocks then .error (.git "update-ref".toList)
    else .ok { home with refLocks := name :: home.refLocks }
  write fun home ↦ .ok { home with
    refs := (name, commit) :: home.refs.filter (·.1 ≠ name)
    refLocks := home.refLocks.filter (· ≠ name) }

/-! ### The snapshot -/

/-- Fill the temporary index, write its tree, and commit it on top of `head`. -/
def build (head : Commit) (message : Text) : Run (Listing Blob × Commit) := do
  readTree head
  addAll
  let tree ← writeTree
  let commit ← commitTree tree head message
  return (tree, commit)

/-- A ref of Nodal's own. -/
structure Reference where
  name : RefName
  own : startsWith NAMESPACE name = true

/-- What a snapshot recorded. -/
structure Snapshot where
  reference : Reference
  commit : Commit
  /-- Whether the working tree held anything `HEAD` did not. -/
  hadChanges : Bool

/-- Commit everything in a home to a ref, and return what was written. -/
def take (reference : Reference) (message : Text) : Run (Option Snapshot) := do
  match ← read fun home ↦ .ok home.headCommit with
  | none => return none
  | some head =>
    remove
    let taken ← attempt (build head message)
    remove
    let (tree, commit) ← read fun _ ↦ taken
    let hadChanges := !sameTree tree head.tree
    updateRef reference.name commit
    return some ⟨reference, commit, hadChanges⟩

/-! ### What status counts -/

/-- What `git status --untracked-files=all` has to say of a path. A rename is its two paths. -/
def entries (home : Home) (head : Commit) (path : RelPath) : List Entry :=
  match home.index.lookup path with
  | some .unmerged => [⟨path, .unmerged⟩]
  | some (.entry blob assumed) =>
    if head.tree.lookup path ≠ some blob ∨ assumed = false ∧ home.work.lookup path ≠ some blob then
      [⟨path, .tracked⟩] else []
  | none =>
    (if (head.tree.lookup path).isSome then [⟨path, .tracked⟩] else []) ++
      if (home.work.lookup path).isSome && !home.ignored path then [⟨path, .untracked⟩] else []

def status (home : Home) (head : Commit) : List Entry :=
  (head.tree.map Prod.fst ++ home.index.map Prod.fst ++ home.work.map Prod.fst).dedup.flatMap
    (entries home head)

/-- Status reports a path as uncommitted. -/
def Uncommitted (home : Home) (head : Commit) (path : RelPath) : Prop :=
  ∃ entry ∈ status home head, entry.path = path ∧ entry.isUncommitted = true

/-! ### What is asked of a snapshot -/

/-- A snapshot holds everything status counts, and the home is otherwise as it was. -/
structure Holds (home : Home) (head : Commit) (snapshot : Snapshot) (after : Home) : Prop where
  written : after.ref snapshot.reference.name = some snapshot.commit
  parents : snapshot.commit.parents = [head]
  uncommitted : ∀ path, Uncommitted home head path →
    snapshot.commit.tree.lookup path = home.work.lookup path
  rest : ∀ path, ¬Uncommitted home head path →
    snapshot.commit.tree.lookup path = head.tree.lookup path
  told : snapshot.hadChanges = true ↔ ∃ path, Uncommitted home head path
  index : after.index = home.index
  named : after.head = home.head
  branches : ∀ name, startsWith HEADS name = true → after.ref name = home.ref name
  work : after.work = home.work

/-- The snapshot is taken, on the ref that was asked for, and holds everything. -/
def Faithful (home : Home) (head : Commit) (reference : Reference) (message : Text) : Prop :=
  ∃ snapshot, (take reference message home).answer = .ok (some snapshot) ∧
    snapshot.reference = reference ∧ Holds home head snapshot (take reference message home).home

/-- Nothing that only the index knows of a path matters: no path that it alone tracks is ignored and there,
and none that it assumes unchanged has changed. -/
structure Plain (home : Home) (head : Commit) (path : RelPath) : Prop where
  tracked : head.tree.lookup path = none → home.index.lookup path ≠ none →
    home.work.lookup path ≠ none → home.ignored path = false
  unchanged : ∀ blob, home.index.lookup path = some (.entry blob true) →
    head.tree.lookup path = some blob → home.work.lookup path = some blob

/-- Where status counts anything, some path that it counts is not on the disk as it is in `HEAD`. -/
def Shows (home : Home) (head : Commit) : Prop :=
  (∃ path, Uncommitted home head path) →
    ∃ path, Uncommitted home head path ∧ home.work.lookup path ≠ head.tree.lookup path

/-! ### Listings -/

theorem lookup_filter {α : Type} (keep : RelPath → Bool) (listing : Listing α) (path : RelPath) :
    List.lookup path (listing.filter fun row ↦ keep row.1) =
      if keep path then listing.lookup path else none := by
  induction listing with
  | nil => exact (ite_self none).symm
  | cons row listing ih =>
    rw [List.filter_cons]
    by_cases hpath : path = row.1
    · subst hpath
      by_cases hkeep : keep row.1 = true
      · rw [if_pos hkeep, if_pos hkeep, List.lookup_cons_self, List.lookup_cons_self]
      · rw [if_neg hkeep, ih, if_neg hkeep, if_neg hkeep]
    · have hcons (rest : Listing α) : List.lookup path (row :: rest) = rest.lookup path := by
        obtain ⟨key, value⟩ := row
        rw [List.lookup_cons, beq_eq_false_iff_ne.mpr hpath]
      by_cases hkeep : keep row.1 = true
      · rw [if_pos hkeep, hcons, hcons, ih]
      · rw [if_neg hkeep, hcons, ih]

theorem mem_keys_of_lookup {α : Type} {listing : Listing α} {path : RelPath}
    (h : listing.lookup path ≠ none) : path ∈ listing.map Prod.fst := by
  obtain ⟨value, hvalue⟩ := Option.ne_none_iff_exists'.mp h
  obtain ⟨before, after, rfl, -⟩ := List.lookup_eq_some_iff.mp hvalue
  exact List.mem_map.mpr ⟨(path, value), List.mem_append_right _ List.mem_cons_self, rfl⟩

theorem sameTree_iff {first second : Listing Blob} :
    sameTree first second = true ↔ ∀ path, first.lookup path = second.lookup path := by
  rw [sameTree, List.all_eq_true]
  refine ⟨fun h path ↦ ?_, fun h row _ ↦ decide_eq_true (h row.1)⟩
  by_contra hne
  have hmem : path ∈ (first ++ second).map Prod.fst := by
    rw [List.map_append, List.mem_append]
    by_cases hfirst : first.lookup path = none
    · exact Or.inr (mem_keys_of_lookup fun hsecond ↦ hne (hfirst.trans hsecond.symm))
    · exact Or.inl (mem_keys_of_lookup hfirst)
  obtain ⟨row, hrow, rfl⟩ := List.mem_map.mp hmem
  exact hne (of_decide_eq_true (h row hrow))

/-- The tree that is written: what is at a path that `HEAD` has or that is not ignored. -/
theorem lookup_recorded (home : Home) (index : Listing Blob) (path : RelPath) :
    (home.recorded index).lookup path =
      if (index.lookup path).isSome || !home.ignored path then home.work.lookup path else none :=
  lookup_filter (fun path ↦ (index.lookup path).isSome || !home.ignored path) home.work path

/-! ### What a run comes to -/

/-- A run ends with an answer and a home. -/
def Gives {α : Type} (run : Run α) (home : Home) (a : α) (after : Home) : Prop :=
  (run home).answer = .ok a ∧ (run home).home = after

/-- Every home that a run passes, and the one after it, is of a kind when the home before it is. -/
def Keeps {α : Type} (kind : Home → Prop) (run : Run α) : Prop :=
  ∀ home, kind home → (∀ left ∈ (run home).passed, kind left) ∧ kind (run home).home

section Rules

variable {α β : Type} {home middle after : Home} {kind : Home → Prop}

theorem Gives.bind {first : Run α} {next : α → Run β} {a : α} {b : β} (hfirst : Gives first home a middle)
    (hnext : Gives (next a) middle b after) : Gives (first >>= next) home b after := by
  obtain ⟨hanswer, rfl⟩ := hfirst
  show (Run.bind first next home).answer = _ ∧ (Run.bind first next home).home = _
  rw [Run.bind, hanswer]
  exact hnext

theorem Gives.write {change : Home → Except Error Home} (h : change home = .ok after) :
    Gives (write change) home () after := by
  rw [Gives, Run.write, h]
  exact ⟨rfl, rfl⟩

theorem Gives.read {f : Home → Except Error α} {a : α} (h : f home = .ok a) : Gives (read f) home a home :=
  ⟨h, rfl⟩

theorem Gives.pure (a : α) : Gives (return a) home a home := ⟨rfl, rfl⟩

theorem Gives.attempt {run : Run α} {a : α} (h : Gives run home a after) :
    Gives (attempt run) home (.ok a) after :=
  ⟨congrArg Except.ok h.1, h.2⟩

/-- A run that fails after one that ends fails. -/
theorem Gives.fails {first : Run α} {next : α → Run β} {a : α} {error : Error}
    (hfirst : Gives first home a middle) (hnext : (next a middle).answer = .error error) :
    ((first >>= next) home).answer = .error error := by
  obtain ⟨hanswer, rfl⟩ := hfirst
  show (Run.bind first next home).answer = _
  rw [Run.bind, hanswer]
  exact hnext

/-- What a later part passes is passed. -/
theorem Gives.passed {first : Run α} {next : α → Run β} {a : α} {left : Home}
    (hfirst : Gives first home a middle) (hleft : left ∈ (next a middle).passed) :
    left ∈ ((first >>= next) home).passed := by
  obtain ⟨hanswer, rfl⟩ := hfirst
  show left ∈ (Run.bind first next home).passed
  rw [Run.bind, hanswer]
  exact List.mem_append_right _ hleft

/-- What an earlier part passes is passed. -/
theorem passed_first {first : Run α} {next : α → Run β} {left : Home} (h : left ∈ (first home).passed) :
    left ∈ ((first >>= next) home).passed := by
  show left ∈ (Run.bind first next home).passed
  rw [Run.bind]
  cases (first home).answer with
  | error error => exact h
  | ok a => exact List.mem_append_left _ h

theorem Keeps.bind {first : Run α} {next : α → Run β} (hfirst : Keeps kind first)
    (hnext : ∀ a, Keeps kind (next a)) : Keeps kind (first >>= next) := by
  intro home hhome
  obtain ⟨hpassed, hafter⟩ := hfirst home hhome
  show (∀ left ∈ (Run.bind first next home).passed, kind left) ∧ kind (Run.bind first next home).home
  rw [Run.bind]
  cases (first home).answer with
  | error error => exact ⟨hpassed, hafter⟩
  | ok a =>
    obtain ⟨hlater, hlast⟩ := hnext a _ hafter
    exact ⟨fun left hleft ↦ (List.mem_append.mp hleft).elim (hpassed left) (hlater left), hlast⟩

theorem Keeps.write {change : Home → Except Error Home}
    (h : ∀ home after, kind home → change home = .ok after → kind after) : Keeps kind (write change) := by
  intro home hhome
  rw [Run.write]
  cases hchange : change home with
  | error error => exact ⟨List.forall_mem_singleton.mpr hhome, hhome⟩
  | ok after => exact ⟨List.forall_mem_singleton.mpr hhome, h home after hhome hchange⟩

theorem Keeps.read (f : Home → Except Error α) : Keeps kind (read f) :=
  fun _ hhome ↦ ⟨fun _ hleft ↦ absurd hleft List.not_mem_nil, hhome⟩

theorem Keeps.pure (a : α) : Keeps kind (return a) :=
  fun _ hhome ↦ ⟨fun _ hleft ↦ absurd hleft List.not_mem_nil, hhome⟩

theorem Keeps.attempt {run : Run α} (h : Keeps kind run) : Keeps kind (attempt run) := h

end Rules

section Commands

variable {home : Home} {head : Commit} {message : Text}

/-- A home with an index that a snapshot builds in, and no lock. -/
def Home.building (home : Home) (wip : Option (Listing Blob)) : Home :=
  { home with wip := wip, wipLock := false }

theorem remove_gives : Gives remove home () (home.building none) :=
  Gives.bind (Gives.write rfl) (Gives.write rfl)

theorem readTree_gives (wip : Option (Listing Blob)) :
    Gives (readTree head) (home.building wip) () (home.building (some head.tree)) :=
  Gives.bind (Gives.write rfl) (Gives.write rfl)

theorem addAll_gives (index : Listing Blob) :
    Gives addAll (home.building (some index)) () (home.building (some (home.recorded index))) :=
  Gives.bind (Gives.write rfl) (Gives.bind (Gives.read rfl) (Gives.write rfl))

theorem writeTree_gives (index : Listing Blob) :
    Gives writeTree (home.building (some index)) index (home.building (some index)) :=
  Gives.bind (Gives.write rfl)
    (Gives.bind (Gives.read rfl) (Gives.bind (Gives.write rfl) (Gives.pure index)))

theorem build_gives : Gives (build head message) (home.building none)
    (home.recorded head.tree, ⟨home.recorded head.tree, [head], message⟩)
    (home.building (some (home.recorded head.tree))) :=
  Gives.bind (readTree_gives none) (Gives.bind (addAll_gives head.tree)
    (Gives.bind (writeTree_gives _) (Gives.bind (Gives.pure _) (Gives.pure _))))

/-- A home with a commit on a ref. -/
def Home.pointed (home : Home) (name : RefName) (commit : Commit) : Home :=
  { home with
    refs := (name, commit) :: home.refs.filter (·.1 ≠ name)
    refLocks := (name :: home.refLocks).filter (· ≠ name) }

theorem updateRef_gives {name : RefName} (commit : Commit) (h : name ∉ home.refLocks) :
    Gives (updateRef name commit) home () (home.pointed name commit) :=
  Gives.bind (Gives.write (if_neg h)) (Gives.write rfl)

theorem updateRef_fails {name : RefName} (commit : Commit) (h : name ∈ home.refLocks) :
    (updateRef name commit home).answer = .error (.git "update-ref".toList) := by
  show (Run.bind (write _) _ home).answer = _
  rw [Run.bind, write, if_pos h]

/-- A home with a lock beside a ref, as a write of the ref leaves it that ends early. -/
def Home.ended (home : Home) (name : RefName) : Home := { home with refLocks := name :: home.refLocks }

theorem updateRef_ended {name : RefName} {commit : Commit} (h : name ∉ home.refLocks) :
    home.ended name ∈ (updateRef name commit home).passed :=
  Gives.passed (Gives.write (if_neg h)) (List.mem_singleton_self _)

/-- What a snapshot of a home records. -/
def made (reference : Reference) (message : Text) (home : Home) (head : Commit) : Snapshot where
  reference := reference
  commit := ⟨home.recorded head.tree, [head], message⟩
  hadChanges := !sameTree (home.recorded head.tree) head.tree

variable {reference : Reference}

/-- A snapshot is taken, whatever is left of earlier ones, where its ref has no lock. -/
theorem take_gives (h : home.headCommit = some head) (hfree : reference.name ∉ home.refLocks) :
    Gives (take reference message) home (some (made reference message home head))
      ((home.building none).pointed reference.name ⟨home.recorded head.tree, [head], message⟩) := by
  refine Gives.bind (Gives.read rfl) ?_
  rw [h]
  exact Gives.bind remove_gives (Gives.bind build_gives.attempt (Gives.bind remove_gives
    (Gives.bind (Gives.read rfl) (Gives.bind (updateRef_gives _ hfree) (Gives.pure _)))))

theorem take_fails (h : home.headCommit = some head) (hlocked : reference.name ∈ home.refLocks) :
    (take reference message home).answer = .error (.git "update-ref".toList) := by
  refine Gives.fails (Gives.read rfl) ?_
  rw [h]
  refine Gives.fails remove_gives (Gives.fails build_gives.attempt (Gives.fails remove_gives
    (Gives.fails (Gives.read rfl) ?_)))
  show (Run.bind (updateRef _ _) _ _).answer = _
  rw [Run.bind, updateRef_fails]
  exact hlocked

end Commands

/-! ### What a run leaves when it ends early -/

/-- A home is as another was, but for the index a snapshot builds in and for one ref. -/
structure Beside (name : RefName) (home left : Home) : Prop where
  named : left.head = home.head
  index : left.index = home.index
  work : left.work = home.work
  ignored : left.ignored = home.ignored
  refs : ∀ other ≠ name, left.ref other = home.ref other
  locks : ∀ other ≠ name, other ∈ left.refLocks ↔ other ∈ home.refLocks

theorem Beside.refl (name : RefName) (home : Home) : Beside name home home :=
  ⟨rfl, rfl, rfl, rfl, fun _ _ ↦ rfl, fun _ _ ↦ Iff.rfl⟩

theorem ref_pointed {home : Home} {name other : RefName} (commit : Commit) (h : other ≠ name) :
    (home.pointed name commit).ref other = home.ref other := by
  show List.lookup other ((name, commit) :: home.refs.filter fun row ↦ decide (row.1 ≠ name)) = _
  rw [List.lookup_cons, beq_eq_false_iff_ne.mpr h, lookup_filter (fun ref ↦ decide (ref ≠ name)),
    if_pos (decide_eq_true h)]
  rfl

section Keeps

variable {name : RefName} {home : Home}

theorem lockIndex_keeps (command : Text) : Keeps (Beside name home) (lockIndex command) := by
  refine Keeps.write fun left after hleft hchange ↦ ?_
  split_ifs at hchange
  cases hchange
  exact ⟨hleft.named, hleft.index, hleft.work, hleft.ignored, hleft.refs, hleft.locks⟩

theorem renameLock_keeps (index : Listing Blob) : Keeps (Beside name home) (renameLock index) := by
  refine Keeps.write fun left after hleft hchange ↦ ?_
  cases hchange
  exact ⟨hleft.named, hleft.index, hleft.work, hleft.ignored, hleft.refs, hleft.locks⟩

theorem remove_keeps : Keeps (Beside name home) remove := by
  refine Keeps.bind (Keeps.write fun left after hleft hchange ↦ ?_) fun _ ↦
    Keeps.write fun left after hleft hchange ↦ ?_
  all_goals
    cases hchange
    exact ⟨hleft.named, hleft.index, hleft.work, hleft.ignored, hleft.refs, hleft.locks⟩

theorem updateRef_keeps (commit : Commit) : Keeps (Beside name home) (updateRef name commit) := by
  refine Keeps.bind (Keeps.write fun left after hleft hchange ↦ ?_) fun _ ↦
    Keeps.write fun left after hleft hchange ↦ ?_
  · split_ifs at hchange
    cases hchange
    refine ⟨hleft.named, hleft.index, hleft.work, hleft.ignored, hleft.refs, fun other hother ↦ ?_⟩
    rw [List.mem_cons, or_iff_right hother, hleft.locks other hother]
  · cases hchange
    refine ⟨hleft.named, hleft.index, hleft.work, hleft.ignored, fun other hother ↦ ?_,
      fun other hother ↦ ?_⟩
    · exact (@ref_pointed left name other commit hother).trans (hleft.refs other hother)
    · rw [List.mem_filter, ← hleft.locks other hother]
      exact and_iff_left (decide_eq_true hother)

theorem build_keeps (head : Commit) (message : Text) : Keeps (Beside name home) (build head message) :=
  Keeps.bind (Keeps.bind (lockIndex_keeps _) fun _ ↦ renameLock_keeps _) fun _ ↦
    Keeps.bind (Keeps.bind (lockIndex_keeps _) fun _ ↦ Keeps.bind (Keeps.read _) fun _ ↦ renameLock_keeps _)
      fun _ ↦ Keeps.bind (Keeps.bind (lockIndex_keeps _) fun _ ↦ Keeps.bind (Keeps.read _) fun _ ↦
        Keeps.bind (renameLock_keeps _) fun _ ↦ Keeps.pure _) fun _ ↦
          Keeps.bind (Keeps.pure _) fun _ ↦ Keeps.pure _

end Keeps

section Status

variable {home : Home} {head : Commit} {path : RelPath}

theorem isUncommitted_of_mem {entry : Entry} (h : entry ∈ entries home head path) :
    entry.path = path ∧ entry.isUncommitted = true := by
  rw [entries] at h
  split at h
  · cases List.mem_singleton.mp h
    exact ⟨rfl, rfl⟩
  · split_ifs at h
    · cases List.mem_singleton.mp h
      exact ⟨rfl, rfl⟩
    · cases h
  · rcases List.mem_append.mp h with h | h
    all_goals
      split_ifs at h
      · cases List.mem_singleton.mp h
        exact ⟨rfl, rfl⟩
      · cases h

/-- Nothing is said of a path that is nowhere. -/
theorem mem_of_entries_ne_nil (h : entries home head path ≠ []) :
    path ∈ head.tree.map Prod.fst ++ home.index.map Prod.fst ++ home.work.map Prod.fst := by
  by_contra hmem
  simp only [List.mem_append, not_or] at hmem
  obtain ⟨⟨hhead, hindex⟩, hwork⟩ := hmem
  have hhead' := not_imp_comm.mp (@mem_keys_of_lookup _ head.tree path) hhead
  have hindex' := not_imp_comm.mp (@mem_keys_of_lookup _ home.index path) hindex
  have hwork' := not_imp_comm.mp (@mem_keys_of_lookup _ home.work path) hwork
  refine h ?_
  rw [entries, hindex', hhead', hwork']
  rfl

theorem uncommitted_iff : Uncommitted home head path ↔ entries home head path ≠ [] := by
  constructor
  · rintro ⟨entry, hmem, rfl, -⟩
    obtain ⟨other, -, hentry⟩ := List.mem_flatMap.mp hmem
    rw [(isUncommitted_of_mem hentry).1]
    exact List.ne_nil_of_mem hentry
  · intro h
    obtain ⟨entry, hentry⟩ := List.exists_mem_of_ne_nil _ h
    obtain ⟨hpath, huncommitted⟩ := isUncommitted_of_mem hentry
    refine ⟨entry, List.mem_flatMap.mpr ⟨path, ?_, hentry⟩, hpath, huncommitted⟩
    exact List.mem_dedup.mpr (mem_of_entries_ne_nil h)

/-- At one path the tree is what status counts exactly where the index alone knows nothing that matters. -/
theorem recorded_iff : ((Uncommitted home head path →
      (home.recorded head.tree).lookup path = home.work.lookup path) ∧
    (¬Uncommitted home head path →
      (home.recorded head.tree).lookup path = head.tree.lookup path)) ↔ Plain home head path := by
  rw [lookup_recorded, uncommitted_iff, entries]
  have hplain : Plain home head path ↔ (head.tree.lookup path = none → home.index.lookup path ≠ none →
      home.work.lookup path ≠ none → home.ignored path = false) ∧
      (∀ blob, home.index.lookup path = some (.entry blob true) → head.tree.lookup path = some blob →
        home.work.lookup path = some blob) := ⟨fun h ↦ ⟨h.1, h.2⟩, fun h ↦ ⟨h.1, h.2⟩⟩
  rw [hplain]
  generalize home.index.lookup path = staged
  generalize head.tree.lookup path = committed
  generalize home.work.lookup path = held
  generalize home.ignored path = ignored
  cases staged with
  | none => cases committed <;> cases held <;> cases ignored <;> simp
  | some staged =>
    cases staged with
    | unmerged => cases committed <;> cases held <;> cases ignored <;> simp
    | entry blob assumed =>
      cases committed <;> cases held <;> cases ignored <;> cases assumed <;> simp <;> grind

end Status

/-! ### The theorem -/

theorem lookup_nodal_ne {name other : RefName} (hname : startsWith NAMESPACE name = true)
    (hother : startsWith HEADS other = true) : other ≠ name := by
  rintro rfl
  rw [startsWith, stripPrefix, Option.isSome_ite] at hname hother
  obtain ⟨first, hfirst⟩ := List.isPrefixOf_iff_prefix.mp hname.1
  obtain ⟨second, hsecond⟩ := List.isPrefixOf_iff_prefix.mp hother.1
  rw [← hsecond] at hfirst
  exact absurd (List.cons.inj (List.cons.inj hfirst).2).1 (by decide)

theorem holds_iff {home : Home} {head : Commit} {reference : Reference} {message : Text} :
    Holds home head (made reference message home head)
      ((home.building none).pointed reference.name ⟨home.recorded head.tree, [head], message⟩) ↔
      (∀ path, Plain home head path) ∧ Shows home head := by
  have htree : (∀ path, Plain home head path) ↔
      (∀ path, Uncommitted home head path →
        (home.recorded head.tree).lookup path = home.work.lookup path) ∧
      (∀ path, ¬Uncommitted home head path →
        (home.recorded head.tree).lookup path = head.tree.lookup path) := by
    rw [← forall_and]
    exact forall_congr' fun path ↦ recorded_iff.symm
  -- Where the tree is what status counts, it differs from that of `HEAD` on what status counts alone.
  have htold (hplain : ∀ path, Plain home head path) :
      (!sameTree (home.recorded head.tree) head.tree) = true ↔
        ∃ path, Uncommitted home head path ∧ home.work.lookup path ≠ head.tree.lookup path := by
    obtain ⟨huncommitted, hrest⟩ := htree.mp hplain
    rw [Bool.not_eq_true', ← Bool.not_eq_true, sameTree_iff, not_forall]
    refine exists_congr fun path ↦ ⟨fun hne ↦ ?_, fun ⟨hpath, hne⟩ ↦ ?_⟩
    · by_cases hpath : Uncommitted home head path
      · exact ⟨hpath, huncommitted path hpath ▸ hne⟩
      · exact absurd (hrest path hpath) hne
    · rwa [huncommitted path hpath]
  constructor
  · intro hholds
    have hplain := htree.mpr ⟨hholds.uncommitted, hholds.rest⟩
    exact ⟨hplain, fun hany ↦ (htold hplain).mp (hholds.told.mpr hany)⟩
  · rintro ⟨hplain, hshows⟩
    obtain ⟨huncommitted, hrest⟩ := htree.mp hplain
    refine ⟨?_, rfl, huncommitted, hrest, ?_, rfl, rfl, fun name hname ↦ ?_, rfl⟩
    · exact List.lookup_cons_self
    · exact (htold hplain).trans ⟨fun ⟨path, hpath, _⟩ ↦ ⟨path, hpath⟩, hshows⟩
    · exact ref_pointed _ (lookup_nodal_ne reference.own hname)

theorem faithful_iff_of_free {home : Home} {head : Commit} (h : home.headCommit = some head)
    {reference : Reference} {message : Text} (hfree : reference.name ∉ home.refLocks) :
    Faithful home head reference message ↔ (∀ path, Plain home head path) ∧ Shows home head := by
  obtain ⟨hanswer, hhome⟩ := @take_gives home head message reference h hfree
  rw [← @holds_iff home head reference message, ← hhome]
  constructor
  · rintro ⟨snapshot, htaken, -, hholds⟩
    rw [hanswer] at htaken
    cases htaken
    exact hholds
  · exact fun hholds ↦ ⟨_, hanswer, rfl, hholds⟩

theorem not_faithful_of_locked {home : Home} {head : Commit} (h : home.headCommit = some head)
    {reference : Reference} {message : Text} (hlocked : reference.name ∈ home.refLocks) :
    ¬Faithful home head reference message := by
  rintro ⟨snapshot, hanswer, -⟩
  rw [take_fails h hlocked] at hanswer
  cases hanswer

/-- A snapshot that ends on the lock of its ref leaves a home of which no other is taken on that ref. -/
theorem ended_blocks {home : Home} {head : Commit} (h : home.headCommit = some head) {reference : Reference}
    (message later : Text) (hfree : reference.name ∉ home.refLocks) :
    ∃ left ∈ (take reference message home).passed, ¬Faithful left head reference later := by
  have hhead : ((home.building none).ended reference.name).headCommit = some head := h
  refine ⟨(home.building none).ended reference.name, ?_, not_faithful_of_locked hhead List.mem_cons_self⟩
  refine Gives.passed (Gives.read rfl) ?_
  rw [h]
  refine Gives.passed remove_gives (Gives.passed build_gives.attempt (Gives.passed remove_gives
    (Gives.passed (Gives.read rfl) ?_)))
  exact passed_first (updateRef_ended hfree)

def before : Commit := ⟨[(["a"], ⟨0o100644, ⟨1⟩⟩)], [], []⟩

def onReclaim : Reference := ⟨["refs", "nodal", "01J", "wip"], by decide⟩

/-- A home whose only path is staged as removed. -/
def removed : Home where
  head := .symbolic ["refs", "heads", "main"]
  refs := [(["refs", "heads", "main"], before)]
  index := []
  work := []
  ignored _ := false
  wip := some []
  wipLock := true
  refLocks := []

/-- A home whose index tracks an ignored path that `HEAD` does not have. -/
def forced : Home :=
  { removed with
    index := [(["a"], .entry ⟨0o100644, ⟨1⟩⟩ false), (["b"], .entry ⟨0o100644, ⟨2⟩⟩ false)]
    work := [(["a"], ⟨0o100644, ⟨1⟩⟩), (["b"], ⟨0o100644, ⟨2⟩⟩)]
    ignored := fun path ↦ path = ["b"] }

/-- A home with a change that is staged, and on the disk no more. -/
def reverted : Home :=
  { removed with
    index := [(["a"], .entry ⟨0o100644, ⟨2⟩⟩ false)]
    work := [(["a"], ⟨0o100644, ⟨1⟩⟩)] }

end Nodal.Git.Wip
