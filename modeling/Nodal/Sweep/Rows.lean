import Mathlib.Data.List.MinMax
import Mathlib.Data.Prod.Lex
import Mathlib.Data.String.Basic
import Nodal.Foundation.Table
import Nodal.Locks.Hold

/-!
# Projects, their units, and the homes of those

`store/projects.rs`, `store/units.rs`, `store/environments.rs`: the three tables a sweep finds its
work in, with the constraints the schema puts on them. A handle is unique among the units of a
project that are not archived, so where one of those has it, it is the one the handle names
(`Registry.findBySlug_of_held`).
-/

set_option autoImplicit false

namespace Nodal.Sweep

open Foundation Locks

/-- The identifier of a project, by the text of its ULID. -/
abbrev ProjectId := String

/-- The identifier of an environment, by the text of its ULID. -/
abbrev EnvId := String

/-- A handle: lowercase letters and digits in groups with a dash between two, so one plain name
wherever it is read as a path. -/
abbrev Slug := String

/-- A path, from the root or from the directory the program stands in, with the last name first. -/
structure Path where
  absolute : Bool
  names : List String
  deriving DecidableEq, Repr

/-- A path and every path above it, the nearest first. -/
def Path.ancestors (path : Path) : List Path :=
  path.names.tails.map fun names ↦ { path with names }

/-! ### Rows -/

structure Project where
  id : ProjectId
  name : String
  root : Path
  remoteUrl : Option String
  deriving DecidableEq, Repr

inductive UnitStatus
  | opened
  | review
  | merged
  | archived
  deriving DecidableEq, Repr

/-- A row of the unit table. -/
structure UnitRow where
  id : UnitId
  projectId : ProjectId
  slug : Slug
  status : UnitStatus
  updatedAt : Timestamp
  deriving DecidableEq, Repr

inductive EnvState
  | absent
  | stopped
  | running
  deriving DecidableEq, Repr

/-- One materialisation of a unit. -/
structure Environment where
  id : EnvId
  unitId : UnitId
  attempt : ℕ
  home : Path
  managed : Bool
  state : EnvState
  deriving DecidableEq, Repr

/-! ### The tables -/

/-- The tables, and what the schema keeps of them. -/
structure Registry where
  projects : Table ProjectId Project
  units : Table UnitId UnitRow
  environments : Table EnvId Environment
  projects_keyed : ∀ row ∈ projects.rows, row.2.id = row.1
  units_keyed : ∀ row ∈ units.rows, row.2.id = row.1
  environments_keyed : ∀ row ∈ environments.rows, row.2.id = row.1
  /-- Two projects cannot share a root. -/
  root_unique : ∀ p ∈ projects.values, ∀ p' ∈ projects.values, p.root = p'.root → p.id = p'.id
  /-- A unit is of a project the registry holds. -/
  unit_project : ∀ unit ∈ units.values, (projects.get? unit.projectId).isSome = true
  /-- The index `unit_slug`. -/
  unit_slug : ∀ u ∈ units.values, ∀ u' ∈ units.values, u.projectId = u'.projectId →
    u.slug = u'.slug → u.status ≠ .archived → u'.status ≠ .archived → u.id = u'.id
  /-- The index `environment_attempt`. -/
  environment_attempt : ∀ e ∈ environments.values, ∀ e' ∈ environments.values,
    e.unitId = e'.unitId → e.attempt = e'.attempt → e.id = e'.id

namespace Registry

variable (registry : Registry)

/-- The project rooted at a path. -/
def findByRoot (root : Path) : Option Project :=
  registry.projects.values.find? (·.root = root)

/-- The project whose remote this is. -/
def findByRemote (remote : String) : Option Project :=
  registry.projects.values.find? (·.remoteUrl = some remote)

/-- The unit a handle names: the one that holds it, else the newest archived one that held it. -/
def findBySlug (project : ProjectId) (slug : Slug) : Option UnitRow :=
  (registry.units.values.filter fun unit ↦ unit.projectId = project ∧ unit.slug = slug).argmax
    fun unit ↦ toLex (decide (unit.status ≠ .archived), unit.id)

/-- Every unit of a project in one state, oldest first. -/
def listByStatus (project : ProjectId) (status : UnitStatus) : List UnitRow :=
  registry.units.values.filter fun unit ↦ unit.projectId = project ∧ unit.status = status

/-- The current materialisation of a unit: its highest attempt. -/
def latestForUnit (unit : UnitId) : Option Environment :=
  (registry.environments.values.filter (·.unitId = unit)).argmax (·.attempt)

/-- The materialisation a unit still has. -/
def liveHome (unit : UnitId) : Option Environment :=
  (registry.latestForUnit unit).filter (·.state ≠ .absent)

variable {registry} {project : ProjectId} {slug : Slug} {status : UnitStatus} {unit : UnitRow}

theorem units_get?_id {id : UnitId} (h : registry.units.get? id = some unit) : unit.id = id :=
  registry.units_keyed _ (Table.mem_rows_iff.mpr h)

theorem projects_get?_id {id : ProjectId} {p : Project} (h : registry.projects.get? id = some p) :
    p.id = id :=
  registry.projects_keyed _ (Table.mem_rows_iff.mpr h)

theorem get?_units_of_mem (h : unit ∈ registry.units.values) :
    registry.units.get? unit.id = some unit := by
  obtain ⟨id, hget⟩ := Table.mem_values_iff.mp h
  rw [units_get?_id hget]
  exact hget

theorem get?_projects_of_mem {p : Project} (h : p ∈ registry.projects.values) :
    registry.projects.get? p.id = some p := by
  obtain ⟨id, hget⟩ := Table.mem_values_iff.mp h
  rw [projects_get?_id hget]
  exact hget

theorem pairwise_projects :
    registry.projects.values.Pairwise fun p p' : Project ↦ p.id ≠ p'.id := by
  refine List.pairwise_map.mpr (registry.projects.sorted.imp_of_mem fun {row row'} hrow hrow' hlt ↦ ?_)
  rw [registry.projects_keyed row hrow, registry.projects_keyed row' hrow']
  exact hlt.ne

/-- Two rows of one identifier are one row. -/
theorem units_ext {unit' : UnitRow} (h : unit ∈ registry.units.values)
    (h' : unit' ∈ registry.units.values) (hid : unit.id = unit'.id) : unit = unit' := by
  have hget := get?_units_of_mem h
  rw [hid, get?_units_of_mem h'] at hget
  exact (Option.some.inj hget).symm

theorem mem_listByStatus :
    unit ∈ registry.listByStatus project status ↔
      unit ∈ registry.units.values ∧ unit.projectId = project ∧ unit.status = status := by
  simp [listByStatus]

/-- What a handle names is a unit of the project that has the handle. -/
theorem findBySlug_spec (h : registry.findBySlug project slug = some unit) :
    unit ∈ registry.units.values ∧ unit.projectId = project ∧ unit.slug = slug := by
  have hmem := List.argmax_mem (Option.mem_def.mpr h)
  simpa using hmem

/-- A handle some unit of the project has names one. -/
theorem findBySlug_isSome (h : unit ∈ registry.units.values) :
    (registry.findBySlug unit.projectId unit.slug).isSome = true := by
  rw [Option.isSome_iff_ne_none, findBySlug, ne_eq, List.argmax_eq_none]
  refine List.ne_nil_of_mem (a := unit) ?_
  simpa using h

/-- Assumes: a unit that is not archived. Its handle names it. -/
theorem findBySlug_of_held (h : unit ∈ registry.units.values) (hheld : unit.status ≠ .archived) :
    registry.findBySlug unit.projectId unit.slug = some unit := by
  obtain ⟨named, hnamed⟩ := Option.isSome_iff_exists.mp (findBySlug_isSome h)
  obtain ⟨hmem, hproject, hslug⟩ := findBySlug_spec hnamed
  have hle := List.le_of_mem_argmax
    (f := fun unit : UnitRow ↦ toLex (decide (unit.status ≠ .archived), unit.id))
    (List.mem_filter.mpr ⟨h, by simp⟩) (Option.mem_def.mpr hnamed)
  have hholds : named.status ≠ .archived := by
    intro harchived
    rw [Prod.Lex.toLex_le_toLex] at hle
    simp only [hheld, harchived, ne_eq, not_false_eq_true, not_true_eq_false, decide_true,
      decide_false] at hle
    exact hle.elim (absurd · (by decide)) fun heq ↦ Bool.false_ne_true heq.1.symm
  have hid := registry.unit_slug named hmem unit h hproject hslug hholds hheld
  rw [hnamed, units_ext hmem h hid]

/-- A registry of one project and no unit. -/
def sole : Registry where
  projects := Table.set ∅ "shop" ⟨"shop", "shop", ⟨true, ["shop"]⟩, none⟩
  units := ∅
  environments := ∅
  projects_keyed := by simp [Table.set, EmptyCollection.emptyCollection, Table.empty]
  units_keyed := by simp [EmptyCollection.emptyCollection, Table.empty]
  environments_keyed := by simp [EmptyCollection.emptyCollection, Table.empty]
  root_unique := by simp [Table.values, Table.set, EmptyCollection.emptyCollection, Table.empty]
  unit_project := by simp
  unit_slug := by simp
  environment_attempt := by simp

end Registry

end Nodal.Sweep
