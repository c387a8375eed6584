import Nodal.Sweep.Rows

/-!
# Which unit a target names

`runtime/entry.rs`, `lifecycle/identity.rs`, `env/files.rs`, `paths.rs`: a target is a directory
before it is a handle, and a handle is looked up in the project of a directory before it is looked up
in every project. A target that is a directory is one by the path the program is handed, so in the
directory the program stands in.

`unitNamed_eq_ok` says which rows and which files make a target name a unit.
-/

set_option autoImplicit false

namespace Nodal.Sweep

open Foundation Locks

/-- A place on the disk: the names on the way to it from the root, the last one first. -/
abbrev Place := List String

/-- Why a marker was not read: the file could not be, or it holds no identifier. -/
inductive MarkerFault
  | io
  | invalidValue
  deriving DecidableEq, Repr

/-- What a command says it could not do. -/
inductive Error
  | notAHome (path : Path)
  | homeUnmarked (home : Path)
  | marker (home : Path) (fault : MarkerFault)
  | storeMissingRow (table : String) (id : String)
  | unitNotFound (slug : Slug)
  | unitAmbiguous (slug : Slug) (projects : List String)
  | unitNotMaterialized (slug : Slug)
  | alreadyReclaimed (slug : Slug)
  /-- The registry itself could not be read or written. -/
  | store
  /-- Everything a reclaim refuses or fails over after it has its unit. -/
  | reclaim (why : String)
  deriving DecidableEq, Repr

/-- What is asked of the disk. -/
structure Disk where
  isDir : Place → Bool
  /-- Whether a directory holds a home's manifest. -/
  hasManifest : Place → Bool
  /-- What the marker of a home holds, nothing where it carries none. -/
  marker : Place → Except MarkerFault (Option UnitId)
  canonicalize : Place → Option Place
  /-- Which repository the checkout here is a clone of. -/
  remoteOf : Place → Option String
  /-- The top of the repository a place is in. -/
  topLevel : Place → Option Place
  /-- The days a recipe keeps a home, nothing where it will not load. -/
  trashRetentionDays : Place → Option UInt32

/-- The registry, the disk, and the directory the program stands in. -/
structure World where
  registry : Registry
  disk : Disk
  cwd : Place

namespace World

variable (w : World)

/-- The place a path leads to. -/
def locate (path : Path) : Place :=
  if path.absolute then path.names else path.names ++ w.cwd

/-! ### Paths -/

/-- The real place of a path that is there. -/
def canonicalize (path : Path) : Option Place :=
  if path.absolute = false ∧ path.names = [] then none else w.disk.canonicalize (w.locate path)

/-- The longest part of a path that is there, resolved, with the rest put back on. -/
def resolveNames (absolute : Bool) (names : List String) : Option Place :=
  match w.canonicalize ⟨absolute, names⟩ with
  | some real => some real
  | none =>
    match names with
    | [] => none
    | name :: parent => (resolveNames absolute parent).map (name :: ·)

/-- A path with every symbolic link on it resolved, as far as it exists. -/
def resolve (path : Path) : Path :=
  match w.resolveNames path.absolute path.names with
  | some real => ⟨true, real⟩
  | none => path

/-! ### Homes -/

/-- The home a path is in: the nearest directory at or above it with a manifest. -/
def findHome (start : Path) : Except Error Path :=
  match start.ancestors.find? fun directory ↦ w.disk.hasManifest (w.locate directory) with
  | some directory => .ok directory
  | none => .error (.notAHome start)

/-- The unit a home says it belongs to. -/
def marker (home : Path) : Except Error (Option UnitId) :=
  match w.disk.marker (w.locate home) with
  | .ok marked => .ok marked
  | .error fault => .error (.marker home fault)

/-- The unit whose home holds a directory, read from the marker that home carries. -/
def unitHere (cwd : Path) : Except Error UnitRow := do
  let home ← w.findHome cwd
  match ← w.marker home with
  | none => throw (.homeUnmarked home)
  | some id =>
    match w.registry.units.get? id with
    | none => throw (.storeMissingRow "unit" id)
    | some unit => return unit

/-! ### Projects -/

/-- The project of the unit whose home holds a path, when it is in one. -/
def projectOfHome (path : Path) : Except Error (Option Project) :=
  match w.findHome path with
  | .error _ => .ok none
  | .ok home => do
    match ← w.marker home with
    | none => return none
    | some marked =>
      match w.registry.units.get? marked with
      | none => return none
      | some unit => return w.registry.projects.get? unit.projectId

/-- The same project, standing in the checkout the caller is in. -/
def here (project : Project) (root : Path) : Project :=
  { project with root }

/-- The recorded project for the checkout a path is inside. -/
def projectContaining (path : Path) : Option Project :=
  match path.ancestors.findSome? fun directory ↦
      (w.registry.findByRoot directory).map (here · directory) with
  | some project => some project
  | none => do
    let remote ← w.disk.remoteOf (w.locate path)
    let project ← w.registry.findByRemote remote
    let root := ((w.disk.topLevel (w.locate path)).map fun top ↦ (⟨true, top⟩ : Path)).getD path
    return here project root

/-- The project a directory belongs to. -/
def projectAt (path : Path) : Except Error (Option Project) := do
  if let some project ← w.projectOfHome path then return some project
  let resolved := w.resolve path
  if let some project := w.projectContaining resolved then return some project
  if resolved = path then return none
  return w.projectContaining path

/-! ### Units -/

/-- The projects that have a handle, each with the unit it names there. -/
def havingSlug (slug : Slug) : List (Project × UnitRow) :=
  w.registry.projects.values.filterMap fun project ↦
    (w.registry.findBySlug project.id slug).map (project, ·)

/-- The one unit with this handle, over every project. -/
def searchEveryProject (slug : Slug) : Except Error UnitRow :=
  match w.havingSlug slug with
  | [] => .error (.unitNotFound slug)
  | [(_, unit)] => .ok unit
  | found => .error (.unitAmbiguous slug (found.map (·.1.name)))

/-- The one unit a handle names, searching the project the caller stands in first. -/
def unitOf (slug : Slug) (cwd : Path) : Except Error UnitRow := do
  let unit := match ← w.projectAt cwd with
    | some project => w.registry.findBySlug project.id slug
    | none => none
  match unit with
  | some unit => return unit
  | none => w.searchEveryProject slug

/-- The unit a target names. -/
def unitNamed (target : Option Slug) (cwd : Path) : Except Error UnitRow :=
  match target with
  | none => w.unitHere cwd
  | some target =>
    let path : Path := ⟨false, [target]⟩
    if w.disk.isDir (w.locate path) then w.unitHere path else w.unitOf target cwd

/-! ### What makes a target name a unit -/

variable {w} {slug : Slug} {cwd : Path} {unit : UnitRow}

theorem unitHere_eq_ok : w.unitHere cwd = .ok unit ↔ ∃ home,
    w.findHome cwd = .ok home ∧ w.marker home = .ok (some unit.id) ∧
      unit ∈ w.registry.units.values := by
  unfold unitHere
  cases hhome : w.findHome cwd with
  | error why => simp [Bind.bind, Except.bind]
  | ok home =>
    cases hmarker : w.marker home with
    | error why => simp [Bind.bind, Except.bind, hmarker]
    | ok marked =>
      cases marked with
      | none => simp [Bind.bind, Except.bind, hmarker, throw, throwThe, MonadExceptOf.throw]
      | some id =>
        simp only [Bind.bind, Except.bind, hmarker, Except.ok.injEq, exists_eq_left',
          Option.some.injEq]
        cases hget : w.registry.units.get? id with
        | none =>
          simp only [throw, throwThe, MonadExceptOf.throw, reduceCtorEq, false_iff, not_and]
          rintro rfl hmem
          rw [Registry.get?_units_of_mem hmem] at hget
          cases hget
        | some found =>
          simp only [pure, Except.pure, Except.ok.injEq]
          constructor
          · rintro rfl
            exact ⟨(Registry.units_get?_id hget).symm, Table.mem_values_iff.mpr ⟨id, hget⟩⟩
          · rintro ⟨rfl, hmem⟩
            rw [Registry.get?_units_of_mem hmem] at hget
            exact (Option.some.inj hget).symm

theorem searchEveryProject_eq_ok :
    w.searchEveryProject slug = .ok unit ↔ ∃ project, w.havingSlug slug = [(project, unit)] := by
  unfold searchEveryProject
  split <;> simp_all

theorem unitOf_eq_ok : w.unitOf slug cwd = .ok unit ↔ ∃ stood, w.projectAt cwd = .ok stood ∧
    (stood.bind (w.registry.findBySlug ·.id slug) = some unit ∨
      stood.bind (w.registry.findBySlug ·.id slug) = none ∧
        ∃ project, w.havingSlug slug = [(project, unit)]) := by
  have hbind : ∀ stood : Option Project, (match stood with
      | some project => w.registry.findBySlug project.id slug
      | none => none) = stood.bind (w.registry.findBySlug ·.id slug) := by
    rintro (_ | _) <;> rfl
  unfold unitOf
  simp only [hbind]
  cases w.projectAt cwd with
  | error why => simp [Bind.bind, Except.bind]
  | ok stood =>
    simp only [Bind.bind, Except.bind, Except.ok.injEq, exists_eq_left']
    cases stood.bind (w.registry.findBySlug ·.id slug) with
    | none => simp [searchEveryProject_eq_ok]
    | some found => simp [pure, Except.pure]

/-- A target names the unit of the home it is a directory of, and where it is no directory, the unit
its handle has in the project stood in, or else the only unit with the handle. -/
theorem unitNamed_eq_ok : w.unitNamed (some slug) cwd = .ok unit ↔
    (w.disk.isDir (w.locate ⟨false, [slug]⟩) = true ∧ ∃ home,
      w.findHome ⟨false, [slug]⟩ = .ok home ∧ w.marker home = .ok (some unit.id) ∧
        unit ∈ w.registry.units.values) ∨
    (w.disk.isDir (w.locate ⟨false, [slug]⟩) = false ∧ ∃ stood, w.projectAt cwd = .ok stood ∧
      (stood.bind (w.registry.findBySlug ·.id slug) = some unit ∨
        stood.bind (w.registry.findBySlug ·.id slug) = none ∧
          ∃ project, w.havingSlug slug = [(project, unit)])) := by
  simp only [unitNamed]
  cases hdir : w.disk.isDir (w.locate ⟨false, [slug]⟩) with
  | true => simp [unitHere_eq_ok]
  | false => simp [unitOf_eq_ok]

end World

end Nodal.Sweep
