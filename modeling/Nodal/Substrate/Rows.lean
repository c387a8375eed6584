import Mathlib.Data.Int.Notation
import Nodal.Foundation.Interpret

/-!
# The bases a registry records

`store/bases.rs` and `substrate/bases.rs`: the rows of the bases, the rows of the environments that point
at them, and the directories the bases are in. A tree is known by two facts: whether the names beside it
say that it is finished, and whether everything the build put in it is still there. A directory is named
by its path; that no two bases have one is not assumed.

`warm` asks five things one after another, and another process may act between any two of them.
-/

set_option autoImplicit false

namespace Nodal.Substrate.Rows

open Foundation Foundation.Attempt

/-! ### Rows and directories -/

abbrev BaseId := ℕ

abbrev EnvId := ℕ

/-- What a base is found by. -/
structure Key where
  project : String
  fingerprint : String
  platform : String
  deriving DecidableEq, Repr

/-- A row of the `base` table. -/
structure Base where
  id : BaseId
  key : Key
  path : String
  lastUsed : ℤ
  deriving DecidableEq, Repr

/-- A row of the `environment` table that points at a base. -/
structure Environment where
  id : EnvId
  base : BaseId
  deriving DecidableEq, Repr

/-- The directory of a base. -/
structure Tree where
  /-- Nothing beside it says that it is still being built. -/
  finished : Bool
  /-- Everything that was built is in it. -/
  whole : Bool
  deriving DecidableEq, Repr

/-- What the registry and the disk hold of the bases. -/
structure Shelf where
  rows : List Base
  environments : List Environment
  trees : String → Option Tree

/-! ### Statements -/

/-- `Error::StoreConflict`. -/
def storeConflict : String := "the registry already holds a row this one conflicts with"

namespace Shelf

/-- The base one identifier names. -/
def get (shelf : Shelf) (id : BaseId) : Option Base := shelf.rows.find? (·.id = id)

/-- The base a unit would be cloned from. -/
def find (shelf : Shelf) (key : Key) : Option Base := shelf.rows.find? (·.key = key)

/-- Every base of a project. -/
def listForProject (shelf : Shelf) (project : String) : List Base :=
  shelf.rows.filter (·.key.project = project)

/-- How many environments hold a base against eviction: its pin count. -/
def countForBase (shelf : Shelf) (id : BaseId) : ℕ := shelf.environments.countP (·.base = id)

/-- Record a built base. One base exists per project, fingerprint and platform. -/
def insert (shelf : Shelf) (base : Base) : Except String Shelf :=
  if shelf.rows.any fun row ↦ row.id = base.id || row.key = base.key then .error storeConflict
  else .ok { shelf with rows := base :: shelf.rows }

/-- Forget an evicted base, unless an environment still points at it. -/
def delete (shelf : Shelf) (id : BaseId) : Except String Shelf :=
  if shelf.environments.any (·.base = id) then .error storeConflict
  else .ok { shelf with rows := shelf.rows.filter (·.id ≠ id) }

/-- Record that a base was cloned from. -/
def touch (shelf : Shelf) (id : BaseId) (at' : ℤ) : Shelf :=
  { shelf with
    rows := shelf.rows.map fun row ↦ if row.id = id then { row with lastUsed := at' } else row }

/-- Record an environment. The base it points at has to have a row. -/
def hold (shelf : Shelf) (environment : Environment) : Except String Shelf :=
  if shelf.rows.any (·.id = environment.base) &&
      !shelf.environments.any (·.id = environment.id) then
    .ok { shelf with environments := environment :: shelf.environments }
  else .error storeConflict

/-- Whether a directory is there. -/
def isDir (shelf : Shelf) (path : String) : Bool := (shelf.trees path).isSome

/-- Whether a finished base is at a path. -/
def isBuilt (shelf : Shelf) (path : String) : Bool := (shelf.trees path).any Tree.finished

/-- Another tree at a path, or none. -/
def put (shelf : Shelf) (path : String) (tree : Option Tree) : Shelf :=
  { shelf with trees := Function.update shelf.trees path tree }

end Shelf

/-! ### The base for a key -/

/-- What looking for a warm base does. -/
inductive Look
  | find (key : Key)
  | isDir (path : String)
  | delete (id : BaseId)
  | isBuilt (path : String)
  | touch (id : BaseId)

/-- What it is answered. -/
@[reducible] def Look.Answer : Look → Type
  | find _ => Option Base
  | isDir _ | isBuilt _ => Bool
  | delete _ => Except String Unit
  | touch _ => Unit

/-- The instant a `touch` is made at. -/
@[reducible] def Look.Choice : Look → Type
  | touch _ => ℤ
  | _ => Unit

/-- What one statement or question answers and does. -/
def look : (l : Look) → l.Choice → Shelf → l.Answer × Shelf
  | .find key, _, shelf => (shelf.find key, shelf)
  | .isDir path, _, shelf => (shelf.isDir path, shelf)
  | .delete id, _, shelf =>
    match shelf.delete id with
    | .ok shelf => (.ok (), shelf)
    | .error why => (.error why, shelf)
  | .isBuilt path, _, shelf => (shelf.isBuilt path, shelf)
  | .touch id, at', shelf => ((), shelf.touch id at')

/-- The recorded base for a key, when there is one and its directory is still there.

A row whose directory has gone is removed; a tree that is still being built is not cloned from. -/
def warm (key : Key) : Attempt Look Look.Answer String (Option Base) := do
  match ← call (Look.find key) with
  | none => pure none
  | some base =>
    if !(← call (Look.isDir base.path)) then
      match ← call (Look.delete base.id) with
      | .ok _ => pure none
      | .error why => throw why
    else if !(← call (Look.isBuilt base.path)) then
      pure none
    else do
      call (Look.touch base.id)
      pure (some base)

end Nodal.Substrate.Rows
