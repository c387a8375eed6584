import Nodal.Merge.Repository

/-!
# What each command does

One invocation of `git` is one operation: it runs and does what it is for, or it exits with a failure
or cannot be started and leaves everything as it was. A rebase that stops exits with a failure as
well and leaves the home in the middle of it. A command refuses what Git refuses: a rebase or a
`reset --keep` over changes it would lose, a branch that is checked out, a commit nobody has.
-/

set_option autoImplicit false

namespace Nodal.Merge

open Git Foundation Lifecycle

/-! ### Trees -/

namespace Tree

/-- The files of some trees. -/
def paths (trees : List Tree) : List Path := trees.flatMap Table.keys

/-- The tree a function gives, on the files of some trees. -/
def across (trees : List Tree) (f : Path → Option String) : Tree := Table.ofKeys (paths trees) f

variable {trees : List Tree} {f : Path → Option String} {path : Path}

theorem mem_paths_iff : path ∈ paths trees ↔ ∃ tree ∈ trees, tree.get? path ≠ none := by
  simp [paths, Table.mem_keys_iff]

theorem get?_across (h : (∀ tree ∈ trees, tree.get? path = none) → f path = none) :
    (across trees f).get? path = f path := by
  rw [across, Table.get?_ofKeys]
  split
  · rfl
  · next hnot =>
    refine (h fun tree htree ↦ ?_).symm
    by_contra hsome
    exact hnot (mem_paths_iff.mpr ⟨tree, htree, hsome⟩)

end Tree

variable (setting : Setting)

/-- The index after `git add --all`: every file but the untracked ones a rule covers. -/
def staged (index work : Tree) : Tree :=
  Tree.across [index, work] fun path ↦
    if index.get? path = none ∧ setting.ignored work path = true then none else work.get? path

/-- The index is what `HEAD` has, and every tracked file is as the index has it. -/
def isClean (home : Home) (tip : Oid) : Bool :=
  home.index = setting.tree tip ∧ ∀ path ∈ home.index.keys, home.work.get? path = home.index.get? path

/-- A checkout of `after` where `before` was tracked writes over no untracked file but an ignored
one, and leaves the other untracked files alone. -/
def spares (before after work work' : Tree) : Bool :=
  ∀ path ∈ Tree.paths [before, after, work, work'],
    before.get? path = none → setting.ignored work path = false ∨ work.get? path = none →
      (after.get? path ≠ none → work.get? path = none) ∧
        (after.get? path = none → work'.get? path = work.get? path)

/-- The tracked files of a checkout of `after` where `before` was tracked. -/
def lays (before after work' : Tree) : Bool :=
  ∀ path ∈ Tree.paths [before, after, work'],
    (after.get? path ≠ none → work'.get? path = after.get? path) ∧
      (after.get? path = none → before.get? path ≠ none → work'.get? path = none)

/-- `git reset --keep` loses nothing: each file it rewrites is as `HEAD` has it, or is ignored. -/
def keeps (before after index work : Tree) : Bool :=
  ∀ path ∈ Tree.paths [before, after], before.get? path ≠ after.get? path →
    index.get? path = before.get? path ∧ (work.get? path = before.get? path ∨
      before.get? path = none ∧ setting.ignored work path = true)

/-- The working tree after `git reset --keep`. -/
def keptWork (before after work : Tree) : Tree :=
  Tree.across [before, after, work] fun path ↦
    if before.get? path = after.get? path then work.get? path else after.get? path

/-- The working tree after the tracked files were thrown away for those of `after`. -/
def hardWork (index after work : Tree) : Tree :=
  Tree.across [index, after, work] fun path ↦
    if after.get? path ≠ none then after.get? path
    else if index.get? path ≠ none then none else work.get? path

/-! ### Commands -/

/-- Why a command did not do what it is for, with what the error about it says. -/
inductive Fault
  | exit (text : String)
  | spawn (source : String)
  deriving DecidableEq, Repr

/-- Why a branch is moved: a fast-forward from where it was found, or an undo. No command reads
it. -/
inductive Why
  | forward (found : Oid)
  | restore
  deriving DecidableEq

/-- The commands of a merge, and what others do to the two repositories. -/
inductive Command
  /-- `git show-ref --verify`. -/
  | showRef (side : Side) (name : RefName)
  /-- `git rev-parse --git-dir`, in the home. -/
  | gitDir
  /-- Whether the files a rebase keeps about itself are there. -/
  | statRebase
  /-- `git rev-parse` of a branch of the home. -/
  | revParse (branch : RefName)
  | revParseHead
  /-- `git symbolic-ref HEAD`. -/
  | symbolicRef (side : Side)
  /-- `git fetch` of a branch of the project's checkout onto a ref of the home. -/
  | fetchBranch (branch into : RefName)
  /-- `git fetch` of a branch of the home into the project's checkout, keeping no ref. -/
  | fetchObjects (branch : RefName)
  | addAll
  /-- `git diff --cached --quiet`. -/
  | diffCached
  /-- Who a commit is by. -/
  | identity
  | commit
  | mergeBase (onto : Oid)
  /-- `git rev-list --count base..HEAD`. -/
  | count (base : Oid)
  /-- `git commit-tree` of the tree of `HEAD`. -/
  | commitTree (base : Oid)
  | resetSoft (dest : Oid)
  | resetMixed (dest : Oid)
  /-- `git merge-base --is-ancestor`, where no later commit is named of `HEAD`. -/
  | isAncestor (side : Side) (earlier : Oid) (later : Option Oid)
  | rebase (onto : Oid)
  | rebaseContinue
  | rebaseAbort
  | resetKeep (side : Side) (why : Why) (dest : Oid)
  /-- `git branch --force`. -/
  | branchForce (side : Side) (why : Why) (branch : RefName) (dest : Oid)
  /-- `git update-ref` in the home. -/
  | updateRef (name : RefName) (oid : Oid)
  /-- `git update-ref -d` in the home. -/
  | deleteRef (name : RefName)
  | readMarker
  /-- The snapshot of the home, onto a ref. -/
  | snapshot (name : RefName)
  /-- Somebody adds a commit to the branch the work is merged into. -/
  | advance
  /-- A person commits in the home. -/
  | work

/-- What a command prints. -/
@[reducible] def Command.Yields : Command → Type
  | showRef _ _ | revParse _ | revParseHead | mergeBase _ | commitTree _ => Oid
  | symbolicRef _ => RefName
  | count _ => ℕ
  | readMarker => Option String
  | snapshot _ => Bool
  | _ => PUnit

/-- What a command is answered. -/
@[reducible] def Command.Answer (command : Command) : Type := Except Fault command.Yields

/-- How a rebase ends: on a commit, with a working tree, or stopped at one. -/
inductive Outcome
  | done (tip : Oid) (work : Tree)
  | stopped (tip : Oid) (index work : Tree)

/-- What Git leaves open about a command. -/
@[reducible] def Command.Extra : Command → Type
  | commit | mergeBase _ | commitTree _ | snapshot _ | advance => Oid
  | rebase _ | rebaseContinue => Outcome
  | work => Oid × Tree
  | _ => PUnit

/-- What is chosen about a command. -/
@[reducible] def Command.Choice (command : Command) : Type := Except Fault command.Extra

/-- The answer of a command Git refuses. -/
def refused {α : Type} : Except Fault α := .error (.exit "refused")

/-! ### Moving branches -/

variable {setting}

/-- Move a branch of the project's checkout, and remember what moved the watched one. -/
def World.moveSource (setting : Setting) (why : Why) (name : RefName) (dest : Oid) (w : World) : World :=
  let moved := w.setRef w.source.store name (some dest)
  if name = setting.watched then
    { moved with forwarded := if why = .restore then none else w.ref .source name }
  else moved

/-- Put the home on a commit of its branch, keeping what was changed. -/
def World.keepHome (setting : Setting) (before dest : Oid) (w : World) : World :=
  let moved := w.moveHead dest
  { moved with home := { moved.home with
      index := setting.tree dest
      work := keptWork (setting.tree before) (setting.tree dest) w.home.work } }

/-- How a rebase goes on from a tree it has laid out. -/
def World.rebased (setting : Setting) (rebasing : Rebasing) (tracked : Tree) (outcome : Outcome)
    (w : World) : Except Fault PUnit × World :=
  match outcome with
  | .done tip work =>
    if rebasing.onto ∈ setting.reach tip ∧ lays tracked (setting.tree tip) work ∧
        spares setting tracked (setting.tree tip) w.home.work work then
      let moved := w.setRef w.home.store rebasing.branch (some tip)
      (.ok ⟨⟩, { moved with home := { moved.home with
        head := .symbolic rebasing.branch, index := setting.tree tip, work, rebasing := none } })
    else (refused, w)
  | .stopped tip index work =>
    if spares setting tracked index w.home.work work then
      (refused, { w with home := { w.home with
        head := .detached tip, index, work, rebasing := some rebasing } })
    else (refused, w)

/-- Stop a rebase and throw away what it laid out. -/
def World.aborted (setting : Setting) (rebasing : Rebasing) (w : World) : World :=
  let moved := w.setRef w.home.store rebasing.branch (some rebasing.original)
  let tree := setting.tree rebasing.original
  { moved with home := { moved.home with
      head := .symbolic rebasing.branch
      index := tree
      work := hardWork w.home.index tree w.home.work
      rebasing := none } }

/-- What is left of the squashes when the record of the run at work is deleted. -/
def World.deleted (setting : Setting) (name : RefName) (w : World) : World :=
  let moved := w.setRef w.home.store name none
  if name = premerge setting.unit then
    { moved with folds := w.folds.filter fun fold ↦ fold.run ≠ w.current }
  else moved

/-- What a command that runs answers and does. -/
def act (setting : Setting) :
    (command : Command) → command.Extra → World → command.Answer × World
  | .showRef side name, _, w =>
    match w.ref side name with
    | none => (refused, w)
    | some oid => (.ok oid, w)
  | .gitDir, _, w => (.ok ⟨⟩, w)
  | .statRebase, _, w => (if w.home.rebasing.isSome then .ok ⟨⟩ else refused, w)
  | .revParse branch, _, w => ((w.ref .home branch).elim refused .ok, w)
  | .revParseHead, _, w => (w.tip.elim refused .ok, w)
  | .symbolicRef side, _, w =>
    match w.head side with
    | .symbolic name => (.ok name, w)
    | .detached _ => (refused, w)
  | .fetchBranch branch into, _, w =>
    match w.ref .source branch with
    | none => (refused, w)
    | some oid => (.ok ⟨⟩, w.setRef w.home.store into (some oid))
  | .fetchObjects branch, _, w => (if (w.ref .home branch).isSome then .ok ⟨⟩ else refused, w)
  | .addAll, _, w =>
    (.ok ⟨⟩, { w with home := { w.home with index := staged setting w.home.index w.home.work } })
  | .diffCached, _, w =>
    (if w.tip.any (w.home.index = setting.tree ·) then .ok ⟨⟩ else refused, w)
  | .identity, _, w => (.ok ⟨⟩, w)
  | .commit, made, w =>
    if w.tip.any (fun tip ↦ made ∈ setting.commits ∧ setting.parents made = [tip] ∧
        setting.tree made = w.home.index ∧ w.home.index ≠ setting.tree tip) then
      (.ok ⟨⟩, w.moveHead made)
    else (refused, w)
  | .mergeBase onto, base, w =>
    (if w.tip.any (setting.isMergeBase onto · base) then .ok base else refused, w)
  | .count base, _, w =>
    (w.tip.elim refused fun tip ↦ .ok (setting.range base tip).length, w)
  | .commitTree base, made, w =>
    (if w.tip.any (fun tip ↦ made ∈ setting.commits ∧ setting.parents made = [base] ∧
      setting.tree made = setting.tree tip) then .ok made else refused, w)
  | .resetSoft dest, _, w =>
    match w.tip with
    | none => (refused, w)
    | some tip =>
      if dest ∈ setting.commits then
        let fold := ⟨w.current, tip, dest, w.ref .home (premerge setting.unit)⟩
        (.ok ⟨⟩, { w.moveHead dest with folds := w.folds ++ [fold] })
      else (refused, w)
  | .resetMixed dest, _, w =>
    if dest ∈ setting.commits then
      let moved := w.moveHead dest
      (.ok ⟨⟩, { moved with home := { moved.home with index := setting.tree dest } })
    else (refused, w)
  | .isAncestor _ earlier later, _, w =>
    (if (later.or w.tip).any (setting.isAncestor earlier) then .ok ⟨⟩ else refused, w)
  | .rebase onto, outcome, w =>
    match w.home.rebasing, w.home.head, w.tip with
    | none, .symbolic branch, some tip =>
      if isClean setting w.home tip then
        w.rebased setting ⟨branch, tip, onto⟩ (setting.tree tip) outcome
      else (refused, w)
    | _, _, _ => (refused, w)
  | .rebaseContinue, outcome, w =>
    match w.home.rebasing with
    | some rebasing => w.rebased setting rebasing w.home.index outcome
    | none => (refused, w)
  | .rebaseAbort, _, w =>
    match w.home.rebasing with
    | some rebasing => (.ok ⟨⟩, w.aborted setting rebasing)
    | none => (refused, w)
  | .resetKeep .home _ dest, _, w =>
    match w.tip with
    | none => (refused, w)
    | some tip =>
      if dest ∈ setting.commits ∧ keeps setting (setting.tree tip) (setting.tree dest) w.home.index
          w.home.work then
        (.ok ⟨⟩, w.keepHome setting tip dest)
      else (refused, w)
  | .resetKeep .source why dest, _, w =>
    if dest ∈ setting.commits then
      match w.source.head with
      | .symbolic name => (.ok ⟨⟩, w.moveSource setting why name dest)
      | .detached _ => (.ok ⟨⟩, { w with source := { w.source with head := .detached dest } })
    else (refused, w)
  | .branchForce .home _ branch dest, _, w =>
    if dest ∈ setting.commits ∧ w.home.head ≠ .symbolic branch ∧
        w.home.rebasing.all (·.branch ≠ branch) then
      (.ok ⟨⟩, w.setRef w.home.store branch (some dest))
    else (refused, w)
  | .branchForce .source why branch dest, _, w =>
    if dest ∈ setting.commits ∧ w.source.head ≠ .symbolic branch then
      (.ok ⟨⟩, w.moveSource setting why branch dest)
    else (refused, w)
  | .updateRef name oid, _, w => (.ok ⟨⟩, w.setRef w.home.store name (some oid))
  | .deleteRef name, _, w => (.ok ⟨⟩, w.deleted setting name)
  | .readMarker, _, w => (.ok w.home.marker, w)
  | .snapshot name, made, w =>
    match w.tip with
    | none => (.ok false, w)
    | some tip =>
      -- The ref is named by the run, so nothing is at it yet.
      if made ∈ setting.commits ∧ setting.parents made = [tip] ∧ w.ref .home name = none ∧
          setting.tree made = staged setting (setting.tree tip) w.home.work then
        (.ok true, w.setRef w.home.store name (some made))
      else (refused, w)
  | .advance, made, w =>
    match w.ref .source setting.watched with
    | none => (refused, w)
    | some tip =>
      if tip ∈ setting.reach made ∧ made ≠ tip then
        let moved := w.setRef w.source.store setting.watched (some made)
        (.ok ⟨⟩, { moved with others := w.others ++ setting.range tip made, forwarded := none })
      else (refused, w)
  | .work, (made, work), w =>
    if w.tip.any (fun tip ↦ made ∈ setting.commits ∧ tip ∈ setting.parents made) then
      let moved := w.moveHead made
      (.ok ⟨⟩, { moved with home := { moved.home with index := setting.tree made, work } })
    else (refused, w)

/-- What a command answers and does. One that fails leaves everything as it was. -/
def perform (setting : Setting) (command : Command) (choice : command.Choice) (w : World) :
    command.Answer × World :=
  match choice with
  | .error fault => (.error fault, w)
  | .ok extra => act setting command extra w

end Nodal.Merge
