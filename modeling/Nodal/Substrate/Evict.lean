import Nodal.Foundation.Session
import Nodal.Foundation.Yields
import Nodal.Substrate.Rows

/-!
# Bases cloned from while others are evicted

`substrate/bases.rs` and `substrate/lru.rs`, with the create of `lifecycle/ops/new.rs`: a create is
answered a base, clones it and records it at its end; an eviction counts the environments that point at a
base, removes its directory and then its row; a sweep evicts one base after another. What holds a base is
an environment row, and the create under way has none yet.

A clone and a removal begin and end, and others act in between. A process may die anywhere. Of a create's
steps after its clone only whether they end well is kept: they act on the home.
-/

set_option autoImplicit false

namespace Nodal.Substrate.Evict

open Foundation Foundation.Attempt Rows

/-! ### Which bases a project stops keeping -/

/-- One base as eviction sees it. -/
structure Candidate where
  id : BaseId
  lastUsed : ℤ
  pins : ℕ
  deriving DecidableEq, Repr

/-- Whether a unit holds this base. -/
def Candidate.isPinned (candidate : Candidate) : Bool := 0 < candidate.pins

/-- The order bases go in: least recently used first, and by identifier where that ties. -/
def before (left right : Candidate) : Bool :=
  left.lastUsed < right.lastUsed || (left.lastUsed = right.lastUsed && left.id ≤ right.id)

/-- The bases to evict, least recently used first. -/
def evictable (candidates : List Candidate) (keep : ℕ) : List BaseId :=
  let idle := (candidates.filter (!·.isPinned)).mergeSort before
  (idle.take (idle.length - keep)).map (·.id)

/-! ### What a create has and what an eviction does -/

/-- The tree a create made of its base. -/
structure Copy where
  /-- The clone ended. -/
  ended : Bool
  /-- The base was whole at every moment of it. -/
  steady : Bool
  deriving DecidableEq, Repr

/-- What a create under way was answered, and what it made of it. -/
structure Taken where
  base : Base
  copy : Option Copy
  deriving DecidableEq, Repr

/-- A create that committed: its environment row and the tree the unit is in. -/
structure Made where
  environment : Environment
  copy : Copy
  deriving DecidableEq, Repr

/-- The bases, and what each process is in the middle of. -/
structure Grounds where
  shelf : Shelf
  /-- The create a process is in, from the answer of `ensure` until it ends. -/
  taken : ℕ → Option Taken
  /-- The directory a process removes, from when it counted nobody on the base until it is done. -/
  evicting : ℕ → Option String
  made : List Made

/-- What a process does. -/
inductive Command
  | look (l : Look)
  /-- Build the base of a key, or carry on with one. -/
  | build (key : Key)
  /-- The base is written into the environment the create will record. -/
  | take (base : Base)
  | installs
  | beginClone
  | endClone
  /-- The steps in the home. -/
  | settle
  | commit (environment : EnvId)
  /-- The home is taken back. -/
  | drop
  | get (id : BaseId)
  | listForProject (project : String)
  /-- How many environments hold a base. An eviction goes by the answer. -/
  | countForBase (base : Base) (evicts : Bool)
  | beginRemove (path : String)
  | endRemove (path : String)

/-- What it is answered. -/
@[reducible] def Command.Answer : Command → Type
  | look l => l.Answer
  | build _ => Except String Base
  | get _ => Option Base
  | listForProject _ => List Base
  | countForBase _ _ => ℕ
  | take _ | drop | beginRemove _ => Unit
  | installs | beginClone | endClone | settle | commit _ | endRemove _ => Except String Unit

/-- What is left open about it. -/
@[reducible] def Command.Choice : Command → Type
  | look l => l.Choice
  | build _ => Except String (BaseId × String × ℤ)
  -- Whether anything was taken out before somebody else acts.
  | beginRemove _ => Bool
  | get _ | listForProject _ | countForBase _ _ | take _ | drop => Unit
  | installs | beginClone | endClone | settle | commit _ | endRemove _ => Except String Unit

/-- A directory that is not there. -/
def missing : String := "No such file or directory"

/-- A clone of a directory that something was taken out of. -/
def Taken.torn (path : String) (taken : Taken) : Taken :=
  if taken.base.path = path then
    { taken with copy := taken.copy.map fun copy ↦
        if copy.ended then copy else { copy with steady := false } }
  else taken

namespace Grounds

/-- What one process has taken. -/
def takes (g : Grounds) (i : ℕ) (taken : Option Taken) : Grounds :=
  { g with taken := Function.update g.taken i taken }

/-- What one process removes. -/
def removes (g : Grounds) (i : ℕ) (path : Option String) : Grounds :=
  { g with evicting := Function.update g.evicting i path }

/-- Something, or all of it, is taken out of a directory. -/
def tear (g : Grounds) (path : String) (tree : Option Rows.Tree) : Grounds :=
  { g with shelf := g.shelf.put path tree, taken := fun i ↦ (g.taken i).map (Taken.torn path) }

end Grounds

/-- The row is the last thing of an eviction. -/
def Grounds.past (i : ℕ) (g : Grounds) : Look → Grounds
  | .delete _ => g.removes i none
  | .find _ | .isDir _ | .isBuilt _ | .touch _ => g

/-- An answer and what it is of, where both may fail. -/
def changed (ended : Except String Unit) (change : Except String Grounds) (g : Grounds) :
    Except String Unit × Grounds :=
  match ended, change with
  | .error why, _ => (.error why, g)
  | .ok _, .error why => (.error why, g)
  | .ok _, .ok g' => (.ok (), g')

/-- What one command of a process answers and does. -/
def act (i : ℕ) : (command : Command) → command.Choice → Grounds → command.Answer × Grounds
  | .look l, choice, g =>
    let result := look l choice g.shelf
    (result.1, { g with shelf := result.2 }.past i l)
  | .build _, .error why, g => (.error why, g)
  | .build key, .ok (id, path, at'), g =>
    if g.shelf.isDir path then (.error storeConflict, g)
    else match g.shelf.insert ⟨id, key, path, at'⟩ with
      | .error why => (.error why, g)
      | .ok shelf => (.ok ⟨id, key, path, at'⟩, { g with shelf := shelf.put path (some ⟨true, true⟩) })
  | .take base, _, g => ((), g.takes i (some ⟨base, none⟩))
  | .installs, ended, g => (ended, g)
  | .beginClone, begun, g =>
    changed begun (match g.taken i with
      | none => .error missing
      | some taken => match g.shelf.trees taken.base.path with
        | none => .error missing
        | some tree => .ok (g.takes i (some { taken with copy := some ⟨false, tree.whole⟩ }))) g
  | .endClone, ended, g =>
    changed ended (.ok (g.takes i ((g.taken i).map fun taken ↦
      { taken with copy := taken.copy.map fun copy ↦ { copy with ended := true } }))) g
  | .settle, ended, g => (ended, g)
  | .commit environment, ended, g =>
    changed ended (match g.taken i with
      | some ⟨base, some copy⟩ =>
        (g.shelf.hold ⟨environment, base.id⟩).map fun shelf ↦
          { g with shelf, made := ⟨⟨environment, base.id⟩, copy⟩ :: g.made }.takes i none
      | _ => .error missing) g
  | .drop, _, g => ((), g.takes i none)
  | .get id, _, g => (g.shelf.get id, g)
  | .listForProject project, _, g => (g.shelf.listForProject project, g)
  | .countForBase base evicts, _, g =>
    (g.shelf.countForBase base.id,
      if evicts && g.shelf.countForBase base.id = 0 then g.removes i (some base.path) else g)
  | .beginRemove path, torn, g =>
    ((), if torn then g.tear path ((g.shelf.trees path).map fun tree ↦ { tree with whole := false })
      else g)
  | .endRemove _, .error why, g => (.error why, g.removes i none)
  | .endRemove path, .ok _, g => (.ok (), g.tear path none)

/-! ### The functions -/

/-- A function: commands, ending in a value or an error. -/
abbrev Script : Type → Type := Attempt Command Command.Answer String

/-- A command, or the error it ends with. -/
def ran {α : Type} (answer : Script (Except String α)) : Script α := do
  match ← answer with
  | .ok value => pure value
  | .error why => throw why

/-- What is asked of the registry and the disk, as part of a function. -/
def looking {α : Type} (x : Attempt Look Look.Answer String α) : Script α :=
  ExceptT.mk (x.run.interpret fun l ↦ .perform (.look l) .done)

/-- The base a unit of this workspace is cloned from, built if there is not one yet. -/
def ensure (key : Key) : Script Base := do
  match ← looking (warm key) with
  | some base => pure base
  | none => ran (call (Command.build key))

/-- What is done with the base: the clone, the steps in the home, the registry write. -/
def made (environment : EnvId) : Script Unit := do
  ran (call Command.installs)
  ran (call Command.beginClone)
  ran (call Command.endClone)
  ran (call Command.settle)
  ran (call (Command.commit environment))

/-- A create, from the moment it asks for a base. -/
def create (key : Key) (environment : EnvId) : Script Unit := do
  let base ← ensure key
  call (Command.take base)
  match ← (made environment).outcome with
  | .ok _ => pure ()
  | .error why => do
    call Command.drop
    throw why

/-- `Error::BaseUnknown`. -/
def baseUnknown (id : BaseId) : String := "no base of this project is called \"" ++ toString id ++ "\""

/-- `Error::BasePinned`. -/
def basePinned (id : BaseId) (pins : ℕ) : String :=
  "base " ++ toString id ++ " still holds " ++ toString pins ++ " unit(s)"

/-- Remove one base: its directory first, then its row. -/
def evict (id : BaseId) : Script Base := do
  match ← call (Command.get id) with
  | none => throw (baseUnknown id)
  | some base => do
    let pins ← call (Command.countForBase base true)
    if 0 < pins then throw (basePinned id pins)
    else do
      call (Command.beginRemove base.path)
      ran (call (Command.endRemove base.path))
      ran (call (Command.look (.delete id)))
      pure base

/-- The candidates of a sweep. -/
def candidatesOf : List Base → Script (List Candidate)
  | [] => pure []
  | base :: rest => do
    let pins ← call (Command.countForBase base false)
    let candidates ← candidatesOf rest
    pure (⟨base.id, base.lastUsed, pins⟩ :: candidates)

/-- Evict one base after another, until one is refused. -/
def evictEach : List BaseId → Script (List Base)
  | [] => pure []
  | id :: rest => do
    let base ← evict id
    let removed ← evictEach rest
    pure (base :: removed)

/-- Evict the idle bases a project has beyond the number it keeps. -/
def gc (project : String) (keep : ℕ) : Script (List Base) := do
  let bases ← call (Command.listForProject project)
  let candidates ← candidatesOf bases
  evictEach (evictable candidates keep)

/-! ### The processes -/

/-- What a process was called for. -/
inductive Job
  | ensure (key : Key)
  | create (key : Key) (environment : EnvId)
  | evict (id : BaseId)
  | gc (project : String) (keep : ℕ)

/-- The program of a job, which ends with whether it answered without an error. -/
def programOf : Job → Program Command Command.Answer Bool
  | .ensure key => (ensure key).run >>= fun result ↦ .done result.toBool
  | .create key environment => (create key environment).run >>= fun result ↦ .done result.toBool
  | .evict id => (evict id).run >>= fun result ↦ .done result.toBool
  | .gc project keep => (gc project keep).run >>= fun result ↦ .done result.toBool

/-- The processes over the bases of one registry. -/
def machine : Machine ℕ Job Grounds Command Command.Answer Command.Choice Bool where
  program _ := programOf
  enter _ _ g := some g
  leave i g := (g.takes i none).removes i none
  perform := act

/-- The bases, and what each live process has left to do. -/
abbrev Stage : Type := Config ℕ Grounds Command Command.Answer Bool

/-- One step of a history. -/
abbrev Happening : Type := Label ℕ Job Command Command.Choice

end Nodal.Substrate.Evict
