import Nodal.Lifecycle.Performed
import Nodal.Substrate.Pin

/-!
# Where a base is built

`substrate/build.rs`: a base is told apart from what will be one by the names beside its directory. A
tree is kept as what is known of where it came from: whether the clone that made it ended well, and
which steps of the build were applied to it with success since. Taking anything out of a tree is the end
of all that was applied to it.

Each attempt makes its tree under a name no other attempt has, so a directory of scratch is found here by
the process that makes it. A removal and a clone begin and end, since a process can die inside them.
-/

set_option autoImplicit false

namespace Nodal.Substrate.Build

open Foundation Lifecycle Model Recipes

/-! ### The names of one base -/

/-- A directory, by what is known of how it came to be. -/
structure Tree where
  /-- The clone that made it ended well. -/
  cloned : Bool
  /-- The steps applied to it with success, by position, since anything was last taken out of it. -/
  done : List ℕ
  deriving DecidableEq, Repr

/-- What a clone that has only begun has made. -/
def Tree.begun : Tree := ⟨false, []⟩

/-- What a clone that ended well has made. -/
def Tree.fresh : Tree := ⟨true, []⟩

/-- A tree something was taken out of. -/
def Tree.torn (tree : Tree) : Tree := { tree with done := [] }

/-- The base's own name, and the one a release before the mark assembled a base under. -/
inductive Name
  | own
  | legacy
  deriving DecidableEq, Repr

/-- What stands at a base's name and beside it. -/
structure Spot where
  tree : Option Tree
  /-- The mark that says the tree is not a base yet. -/
  marked : Bool
  legacy : Option Tree
  deriving DecidableEq, Repr

namespace Spot

/-- The directory of one name. -/
def at' (spot : Spot) : Name → Option Tree
  | .own => spot.tree
  | .legacy => spot.legacy

/-- The directory of one name, replaced. -/
def put (spot : Spot) (tree : Option Tree) : Name → Spot
  | .own => { spot with tree }
  | .legacy => { spot with legacy := tree }

/-- The tree the steps of a build work in, once it is carried into its name. -/
def here (spot : Spot) : Option Tree := spot.tree <|> spot.legacy

theorem at'_put (spot : Spot) (tree : Option Tree) (name other : Name) :
    (spot.put tree name).at' other = if other = name then tree else spot.at' other := by
  cases name <;> cases other <;> rfl

end Spot

/-- Whether a finished base is at this path. -/
def isBuilt (spot : Spot) : Bool := spot.tree.isSome && !spot.marked && spot.legacy.isNone

/-! ### The world -/

/-- Whether the build was begun, is running in the process that began it, or has ended there. -/
inductive Turn
  | before
  | of (process : Process)
  | over
  deriving DecidableEq, Repr

/-- What one base build acts on, and what stood at the base's name when a row was written for it. -/
structure Grounds where
  spot : Spot
  /-- What each attempt assembles beside the name. -/
  scratch : Process → Option Tree
  rows : List Spot
  turn : Turn

/-- What is left of a directory after a removal nobody waits for. -/
inductive Swept
  | stays
  | torn
  | gone
  deriving DecidableEq, Repr

def Swept.leaves : Swept → Option Tree → Option Tree
  | stays, tree => tree
  | torn, tree => tree.map Tree.torn
  | gone, _ => none

/-! ### What a build was decided from -/

/-- Where a base's content comes from. -/
inductive Origin
  | remote (url : String)
  | checkout (path : String)
  | neighbour (base path : String) (distance : Option ℕ)
  deriving DecidableEq, Repr

/-- The inputs of a build that its steps read. -/
structure Params where
  base : String
  commit : String
  destination : Text
  origin : Origin
  /-- The checkout that asked for the base. -/
  objects : String
  installs : List Install
  warm : List Text
  /-- Every step has a position. -/
  fits : 2 * installs.length + 4 ≤ 2 ^ 32
  deriving DecidableEq

/-- One tool step: its key in the journal, whose install it is, and what it runs. -/
structure ToolStep where
  name : String
  manager : Option PackageManager
  argv : List Text
  env : List (Text × Text)
  deriving DecidableEq

/-- What is done to the tree between the clone and the end. -/
inductive Deed
  | checkout (commit : String)
  | tool (step : ToolStep)
  deriving DecidableEq

/-! ### Commands -/

/-- What a clone is made from. -/
inductive Source
  | git (url : String)
  | tree (path : String)
  deriving DecidableEq, Repr

/-- What the steps of a build do. -/
inductive Command
  | isDir (name : Name)
  /-- The mark is there. -/
  | marked
  | mark
  | unmark
  | renameLegacy
  | createParent
  /-- Remove the scratch directories of other attempts. -/
  | sweep
  /-- Settle what a copy leaves out against what the source's commit tracks. -/
  | enforce (path : String)
  | beginClone (attempt : Process) (source : Source)
  | endClone (attempt : Process) (source : Source)
  | scrub (attempt : Process)
  | renameScratch (attempt : Process)
  | openRepository
  | hasCommit (rev : String)
  | fetch (remote : String)
  | fetchFrom (objects rev : String)
  /-- Check the commit out, or run the tool, to the end. -/
  | perform (position : ℕ) (deed : Deed)
  | beginRemove (name : Name)
  | endRemove (name : Name)

/-- What a command answers. -/
@[reducible] def Command.Answer : Command → Type
  | isDir _ | marked => Bool
  | hasCommit _ => Except String Bool
  | sweep | beginClone _ _ | beginRemove _ => Unit
  | _ => Except String Unit

/-- What is left open about a command. -/
@[reducible] def Command.Choice : Command → Type
  | mark => Except (String × Bool) Unit
  | sweep => Process → Swept
  | hasCommit _ => Except String Bool
  | isDir _ | marked | beginClone _ _ | beginRemove _ => Unit
  | _ => Except String Unit

namespace Grounds

/-- The grounds with something else at the base's names. -/
def place (g : Grounds) (spot : Spot) : Grounds := { g with spot }

/-- The grounds with something else under one attempt's name. -/
def assemble (g : Grounds) (attempt : Process) (tree : Option Tree) : Grounds :=
  { g with scratch := Function.update g.scratch attempt tree }

end Grounds

/-- A directory that is not there. -/
def missing : String := "No such file or directory"

/-- A command that fails as the outside has it, and else changes the grounds or finds nothing to change. -/
def changed (ended : Except String Unit) (change : Option Grounds) (g : Grounds) :
    Except String Unit × Grounds :=
  match ended, change with
  | .error why, _ => (.error why, g)
  | .ok _, none => (.error missing, g)
  | .ok _, some g' => (.ok (), g')

/-- What one command answers and does. -/
def act : (command : Command) → command.Choice → Grounds → command.Answer × Grounds
  | .isDir name, _, g => ((g.spot.at' name).isSome, g)
  | .marked, _, g => (g.spot.marked, g)
  | .mark, written, g =>
    match written with
    | .ok _ => (.ok (), g.place { g.spot with marked := true })
    -- A write that fails may have made the file.
    | .error (why, made) => (.error why, g.place { g.spot with marked := g.spot.marked || made })
  | .unmark, removed, g =>
    changed removed
      (if g.spot.marked then some (g.place { g.spot with marked := false }) else none) g
  | .renameLegacy, renamed, g =>
    changed renamed (match g.spot.legacy, g.spot.tree with
      | some tree, none => some (g.place { g.spot with tree := some tree, legacy := none })
      | _, _ => none) g
  | .createParent, made, g => (made, g)
  | .sweep, swept, g =>
    ((), { g with scratch := fun attempt ↦ (swept attempt).leaves (g.scratch attempt) })
  | .enforce _, settled, g => (settled, g)
  | .beginClone attempt _, _, g => ((), g.assemble attempt (some .begun))
  | .endClone attempt _, ended, g => changed ended (some (g.assemble attempt (some .fresh))) g
  | .scrub attempt, scrubbed, g => changed scrubbed ((g.scratch attempt).map fun _ ↦ g) g
  | .renameScratch attempt, renamed, g =>
    -- A rename does not replace a directory that holds something.
    changed renamed (match g.scratch attempt, g.spot.tree with
      | some tree, none =>
        some ((g.assemble attempt none).place { g.spot with tree := some tree })
      | _, _ => none) g
  | .openRepository, opened, g => changed opened (g.spot.tree.map fun _ ↦ g) g
  | .hasCommit _, has, g => (has, g)
  | .fetch _, fetched, g => (fetched, g)
  | .fetchFrom _ _, fetched, g => (fetched, g)
  | .perform position _, ended, g =>
    changed ended (g.spot.tree.map fun tree ↦
      g.place { g.spot with tree := some { tree with done := position :: tree.done } }) g
  | .beginRemove name, _, g => ((), g.place (g.spot.put ((g.spot.at' name).map Tree.torn) name))
  | .endRemove name, removed, g => changed removed (some (g.place (g.spot.put none name))) g

/-- A name no directory is at. -/
theorem at'_of_isDir {name : Name} {choice : (Command.isDir name).Choice} {g : Grounds}
    (h : (act (.isDir name) choice g).1 = false) : g.spot.at' name = none := by
  have hnone : (g.spot.at' name).isSome = false := h
  exact Option.not_isSome_iff_eq_none.mp (by rw [hnone]; exact Bool.false_ne_true)

end Nodal.Substrate.Build
