import Nodal.Foundation.Session
import Nodal.Trash.Again

/-!
# Removing expired homes, one operation after the other

`lifecycle/ops/gc.rs`, `workspace/remove.rs`: an expired home is read again, renamed, removed name by
name, and then its row goes. A sweep is a program whose effects are the single operations of the
filesystem and the registry, so it can be killed between any two of them; an operation may fail, and
a `stat` that fails answers that nothing is there.

Between two sweeps anything may change but the trash itself: the disk a reading looks at, the
projects and the repositories beside them. A reclaim may add a row with a whole home, and somebody
may take a directory away.

The scan for repositories leaves the state directory out, so nothing a reading asks is a trashed
home, and what a sweep asks of a project is the same each time it asks.
-/

set_option autoImplicit false

namespace Nodal.Trash

open Git Removal Foundation

/-- What stands under a name of the trash: the names still in it, and whether that is all of it. -/
structure Tree where
  left : List String
  whole : Bool
  deriving DecidableEq, Repr

/-- Why an operation of the filesystem failed. -/
inductive Fault
  | notFound
  | other
  deriving DecidableEq, Repr

/-- The registry could not be read or written. -/
inductive Raised
  | store
  deriving DecidableEq, Repr

/-! ### What has happened -/

/-- A reading a sweep made of a row, on the disk as it was, and what stood under the row's name. -/
structure Reading where
  entry : Trashed
  disk : Disk
  input : Input
  stood : Option Tree
  answer : Except Failure (Option Unpushed)

/-- An operation that began to remove a home, or went on with it, and the readings made before. -/
structure Act where
  entry : Trashed
  readings : List Reading

/-- A row that was deleted, and what stood under its two names. -/
structure Forgotten where
  entry : Trashed
  own : Option Tree
  removing : Option Tree
  deriving DecidableEq

/-- The trash, what readings look at, and the history of both. -/
structure World where
  rows : Rows
  stands : Path → Option Tree
  /-- The roots of the projects the registry holds. -/
  projects : Table ProjectId Path
  /-- The repositories beside a project's checkout. -/
  siblings : Path → List Path
  disk : Disk
  clock : Seconds
  readings : List Reading
  acts : List Act
  forgotten : List Forgotten

/-- The row of an entry, as a sweep asks about it. -/
def World.input (w : World) (entry : Trashed) (root : Path) : Input :=
  entry.input root (w.siblings root)

/-- What stands under the name a home is removed under. -/
def World.going (w : World) (entry : Trashed) : Option Tree :=
  w.stands (beside entry.path)

/-- The operations that remove a home, performed on it. -/
def World.acting (w : World) (entry : Trashed) (stands : Path → Option Tree) : World :=
  { w with stands, acts := w.acts ++ [⟨entry, w.readings⟩] }

/-! ### Operations -/

/-- The operations of a sweep. -/
inductive Effect
  | listProjects
  | listExpired (now : Instant)
  /-- Whether the home is under its own name. -/
  | stat (entry : Trashed)
  | read (entry : Trashed) (root : Path)
  | rename (entry : Trashed)
  /-- List what is in the directory that is being removed. -/
  | readDir (entry : Trashed)
  | unlink (entry : Trashed) (name : String)
  | rmdir (entry : Trashed)
  | forget (entry : Trashed)

/-- What an operation answers. -/
@[reducible] def Effect.Answer : Effect → Type
  | listProjects => Except Raised (Table ProjectId Path)
  | listExpired _ => Except Raised (List Trashed)
  | stat _ => Bool
  | read _ _ => Except Failure (Option Unpushed)
  | rename _ | unlink _ _ | rmdir _ => Except Fault PUnit
  | readDir _ => Except Fault (List String)
  | forget _ => Except Raised PUnit

/-- Whether the operation fails. A reading fails where the disk says so. -/
@[reducible] def Effect.Fails (_ : Effect) : Type := Bool

/-- What an operation answers and does. -/
def perform (effect : Effect) (fails : effect.Fails) (w : World) : effect.Answer × World :=
  match effect, fails with
  | .listProjects, fails => (if fails then .error .store else .ok w.projects, w)
  | .listExpired now, fails => (if fails then .error .store else .ok (w.rows.listExpired now), w)
  | .stat entry, fails => (!fails && (w.stands entry.path).isSome, w)
  | .read entry root, _ =>
    let input := w.input entry root
    let answer := onlyHere w.disk input w.clock
    (answer, { w with
      readings := w.readings ++ [⟨entry, w.disk, input, w.stands entry.path, answer⟩] })
  | .rename entry, fails =>
    match fails, w.stands entry.path with
    | true, _ => (.error .other, w)
    | false, none => (.error .notFound, w)
    | false, some tree =>
      if (w.going entry).any (·.left ≠ []) then (.error .other, w)
      else (.ok ⟨⟩, w.acting entry (Function.update (Function.update w.stands entry.path none)
        (beside entry.path) (some tree)))
  | .readDir entry, fails =>
    match fails, w.going entry with
    | true, _ => (.error .other, w)
    | false, none => (.error .notFound, w)
    | false, some tree => (.ok tree.left, w)
  | .unlink entry name, fails =>
    match fails, w.going entry with
    | true, _ => (.error .other, w)
    | false, none => (.error .notFound, w)
    | false, some tree =>
      (.ok ⟨⟩, w.acting entry (Function.update w.stands (beside entry.path)
        (some ⟨tree.left.erase name, false⟩)))
  | .rmdir entry, fails =>
    match fails, w.going entry with
    | true, _ => (.error .other, w)
    | false, none => (.error .notFound, w)
    | false, some tree =>
      if tree.left ≠ [] then (.error .other, w)
      else (.ok ⟨⟩, w.acting entry (Function.update w.stands (beside entry.path) none))
  | .forget entry, fails =>
    if fails then (.error .store, w)
    else (.ok ⟨⟩, { w with
      rows := w.rows.remove entry.environmentId
      forgotten := w.forgotten ++ [⟨entry, w.stands entry.path, w.going entry⟩] })

/-! ### The sweep -/

/-- What a sweep does. -/
abbrev Script : Type → Type := Attempt Effect Effect.Answer Raised

/-- Perform one operation. -/
def ask (effect : Effect) : Script effect.Answer := Attempt.call effect

/-- What became of one expired home. -/
inductive Fate
  | removed
  | held (finding : Unpushed)
  /-- The home, or the project it belonged to, could not be read. -/
  | unread
  /-- The directory could not be moved or removed. -/
  | directory (why : Fault)
  deriving DecidableEq, Repr

/-- Whether this expired home is one the sweep reads again before it removes it. -/
def readAgain (entry : Trashed) : Script Bool :=
  if entry.rested.reAsks then ask (.stat entry) else return false

/-- What keeps a home, or leaves it unread, before anything is done to it. -/
def heldBack (registered : Table ProjectId Path) (entry : Trashed) : Script (Option Fate) := do
  if ← readAgain entry then
    match registered.get? entry.projectId with
    | none => return some .unread
    | some root =>
      match ← ask (.read entry root) with
      | .error _ => return some .unread
      | .ok (some finding) => return some (.held finding)
      | .ok none => return none
  else return none

/-- Move the home to the removing name. A home that is not there any more is not moved. -/
def beginRemoving (entry : Trashed) : Script (Except Fault PUnit) := do
  if ← ask (.stat entry) then ask (.rename entry) else return .ok ⟨⟩

/-- Remove the names of a directory one after the other. -/
def unlinkEach (entry : Trashed) : List String → Script (Except Fault PUnit)
  | [] => return .ok ⟨⟩
  | name :: names => do
    match ← ask (.unlink entry name) with
    | .ok _ => unlinkEach entry names
    | .error why => return .error why

/-- Remove the directory under the removing name, with everything in it. -/
def removeDirAll (entry : Trashed) : Script (Except Fault PUnit) := do
  match ← ask (.readDir entry) with
  | .error why => return .error why
  | .ok names =>
    match ← unlinkEach entry names with
    | .error why => return .error why
    | .ok _ => ask (.rmdir entry)

/-- Remove a tree that was made to be read: once as it is, and once more after its directories were
opened. One that is not there is already gone. -/
def removeTree (entry : Trashed) : Script (Except Fault PUnit) := do
  match ← removeDirAll entry with
  | .ok _ | .error .notFound => return .ok ⟨⟩
  | .error .other =>
    match ← removeDirAll entry with
    | .ok _ | .error .notFound => return .ok ⟨⟩
    | .error .other => return .error .other

/-- Take one expired home away: read it again, rename it, remove it, and forget its row. -/
def sweepOne (registered : Table ProjectId Path) (entry : Trashed) : Script Fate := do
  match ← heldBack registered entry with
  | some fate => return fate
  | none =>
    match ← beginRemoving entry with
    | .error why => return .directory why
    | .ok _ =>
      match ← removeTree entry with
      | .error why => return .directory why
      | .ok _ =>
        match ← ask (.forget entry) with
        | .error raised => throw raised
        | .ok _ => return .removed

/-- Take the expired homes away, one at a time. -/
def sweep (registered : Table ProjectId Path) : List Trashed → Script (List (Trashed × Fate))
  | [] => return []
  | entry :: expired => do
    let fate ← sweepOne registered entry
    return (entry, fate) :: (← sweep registered expired)

/-- The part of a collection that empties the trash. -/
def collect (now : Instant) : Script (List (Trashed × Fate)) := do
  match ← ask .listProjects with
  | .error raised => throw raised
  | .ok registered =>
    match ← ask (.listExpired now) with
    | .error raised => throw raised
    | .ok expired => sweep registered expired

/-! ### Sweeps, one after the other -/

/-- What a sweep starts from: the instant, and the world as it is by then. -/
structure Start where
  now : Instant
  world : World

/-- What may have happened to the trash between two sweeps: a reclaim put a whole home there with
its row, and somebody took a directory away. -/
def Elsewhere (w w' : World) : Prop :=
  (∀ entry ∈ w.rows.table.values, entry ∈ w'.rows.table.values ∧
      (w'.stands entry.path = w.stands entry.path ∨ w'.stands entry.path = none) ∧
      (w'.going entry = w.going entry ∨ w'.going entry = none)) ∧
    ∀ entry ∈ w'.rows.table.values, entry ∈ w.rows.table.values ∨
      (w'.stands entry.path).any Tree.whole = true ∧ w'.going entry = none

instance (w w' : World) : Decidable (Elsewhere w w') :=
  inferInstanceAs (Decidable ((∀ entry ∈ w.rows.table.values, _) ∧ ∀ entry ∈ _, _))

variable (ι : Type)

/-- Sweeps over the trash. Each starts in the world the time since the last one has made. -/
def machine : Machine ι Start World Effect Effect.Answer Effect.Fails
    (Except Raised (List (Trashed × Fate))) where
  program _ start := (collect start.now).run
  enter _ start w :=
    if Elsewhere w start.world then
      some { start.world with
        readings := w.readings, acts := w.acts, forgotten := w.forgotten }
    else none
  leave _ w := w
  perform _ effect fails w := perform effect fails w

end Nodal.Trash
