import Nodal.Removal.Findings
import Nodal.Removal.Joint
import Nodal.Sweep.Rows

/-!
# The work of a unit home that exists nowhere else

`doctor/onlyhere.rs`: the homes of the units of this project that are open or in review, each read
as a reclaim reads it, and a row for each that holds a commit a removal would refuse over. The
question is asked of the homes as a set: a commit whose other copy is in another of them has a row
too (`reported_refused`). Another project's units have none.
-/

set_option autoImplicit false

namespace Nodal.Doctor.OnlyHere

open Git Removal
open Sweep (Registry Project UnitRow Environment)

/-- Where a finding belongs: to the project the command was run in, or to another one. -/
inductive Section
  | here
  | elsewhere
  deriving DecidableEq, Repr

/-- One row of the report: the handle of the unit, and what is said of it. -/
structure Finding where
  what : String
  said : List String
  deriving DecidableEq, Repr

/-- What the report reads: the registry, the disk, and where the command was run. -/
structure Scope where
  registry : Registry
  disk : Disk
  /-- A path of the registry, as the disk has it. -/
  spelled : Sweep.Path → Git.Path
  isDir : Git.Path → Bool
  /-- Whether a path is a directory or inside it. -/
  inside : Git.Path → Git.Path → Bool
  /-- The top of the checkout the command was run in. -/
  root : Option Git.Path
  /-- What the state directory keeps of a project of this name. -/
  stateOf : String → Git.Path
  /-- The repositories beside a checkout. -/
  siblings : Git.Path → List Git.Path
  /-- What is printed of a reading that failed. -/
  words : Failure → String

namespace Scope

variable (scope : Scope)

/-- The root of a project, by the name the filesystem uses. -/
def rootOf (project : Project) : Git.Path :=
  scope.disk.resolve (scope.spelled project.root)

/-- Every path that belongs to another project. -/
def ownedElsewhere : List Git.Path :=
  (scope.registry.projects.values.filter fun project ↦
    scope.root ≠ some (scope.rootOf project)).flatMap
    fun project ↦ [scope.stateOf project.name, scope.rootOf project]

/-- Which section a path belongs to. -/
def sectionOf (path : Git.Path) : Section :=
  if scope.ownedElsewhere.any (scope.inside (scope.disk.resolve path)) then .elsewhere else .here

/-- Every materialisation of a unit. -/
def listForUnit (unit : UnitRow) : List Environment :=
  (scope.registry.environments.values.filter (·.unitId = unit.id)).insertionSort
    fun first second ↦ first.attempt ≤ second.attempt

/-- The units of a project the report reads the homes of. -/
def openUnits (project : Project) : List UnitRow :=
  scope.registry.listByStatus project.id .opened ++ scope.registry.listByStatus project.id .review

/-- The homes of a unit that are on the disk. -/
def homesOfUnit (unit : UnitRow) : List Git.Path :=
  ((scope.listForUnit unit).map fun environment ↦ scope.spelled environment.home).filter scope.isDir

/-- Every home of these units that is on the disk, which is the set the question is asked of. -/
def homesOf (units : List UnitRow) : List Git.Path :=
  units.flatMap scope.homesOfUnit

/-- What is asked of a home: what a refusing reclaim asks. -/
def inputOf (project : Project) (home : Git.Path) : Input :=
  .refusal home (some (scope.rootOf project)) (scope.siblings (scope.rootOf project))

/-- How many commits, and what is true of them. -/
def commits (count : ℕ) (said : String) : String :=
  toString count ++ " " ++ (if count = 1 then "commit" else "commits") ++ " " ++ said

/-- How many commits of a reading are under a disposition. -/
def counted (assessed : Assessment) (wanted : Copies → Bool) : ℕ :=
  ((assessed.commits.filter (wanted ·.copies)).map CommitGroup.count).sum

def isOnlyHere : Copies → Bool
  | .onlyHere _ => true
  | _ => false

def isNotChecked : Copies → Bool
  | .notChecked _ _ => true
  | _ => false

/-- One home, read as a reclaim reads it, and the row it earns. -/
def read (project : Project) (homes : List Git.Path) (unit : UnitRow) (home : Git.Path) :
    Option Finding :=
  match assess scope.disk (scope.inputOf project home) with
  | .error why =>
    some ⟨unit.slug, ["the home at " ++ home ++ " could not be read: " ++ scope.words why]⟩
  | .ok assessed =>
    let onlyHere := counted assessed isOnlyHere
    let unchecked := counted assessed isNotChecked
    let shared := joint scope.disk assessed.lossSet homes
    if onlyHere = 0 ∧ unchecked = 0 ∧ shared = [] then none
    else some ⟨unit.slug,
      (if 0 < onlyHere then [commits onlyHere "exist only here"] else []) ++
        (if 0 < unchecked then [commits unchecked "nothing here has checked"] else []) ++
        shared.map Loss.detail⟩

/-- A row with what it is about. -/
structure Row where
  project : Project
  unit : UnitRow
  home : Git.Path
  finding : Finding
  deriving DecidableEq, Repr

/-- The rows of one project. -/
def rowsOf (project : Project) : List Row :=
  let units := scope.openUnits project
  let homes := scope.homesOf units
  units.flatMap fun unit ↦ (scope.homesOfUnit unit).filterMap fun home ↦
    (scope.read project homes unit home).map (⟨project, unit, home, ·⟩)

/-- Every row, with what it is about. -/
def reported : List Row :=
  (scope.registry.projects.values.filter fun project ↦
    scope.sectionOf (scope.rootOf project) = .here).flatMap scope.rowsOf

/-- Every unit home of this project that holds work no other copy has. -/
def find : List (Section × Finding) :=
  scope.reported.map fun row ↦ (.here, row.finding)

/-! ### The row a home earns -/

variable {scope} {project : Project} {unit : UnitRow} {homes : List Git.Path} {home : Git.Path}
  {assessed : Assessment}

/-- A count of commits is nothing exactly where no group is under the disposition. -/
theorem counted_eq_zero_iff {wanted : Copies → Bool} :
    counted assessed wanted = 0 ↔ ∀ group ∈ assessed.commits, wanted group.copies = false := by
  rw [counted, List.sum_eq_zero_iff_forall_eq_nat]
  constructor
  · intro hzero group hgroup
    by_contra hwanted
    refine commits_count_ne_zero hgroup (hzero _ (List.mem_map_of_mem ?_))
    exact List.mem_filter.mpr ⟨hgroup, by simpa using hwanted⟩
  · intro hnone count hcount
    obtain ⟨group, hgroup, rfl⟩ := List.mem_map.mp hcount
    obtain ⟨hmem, hwanted⟩ := List.mem_filter.mp hgroup
    rw [hnone group hmem] at hwanted
    cases hwanted

/-- A home has no row exactly where the kernel refuses over none of its commits, alone or with the
set. Assumes: the home was read. -/
theorem read_eq_none_iff (h : assess scope.disk (scope.inputOf project home) = .ok assessed) :
    scope.read project homes unit home = none ↔
      ¬ ∃ commit, Refused scope.disk homes assessed.history.parts commit := by
  have hneeds (copies : Copies) : copies.needs = none ↔
      isOnlyHere copies = false ∧ isNotChecked copies = false := by
    cases copies <;> simp [Copies.needs, isOnlyHere, isNotChecked]
  have hread : scope.read project homes unit home = none ↔
      counted assessed isOnlyHere = 0 ∧ counted assessed isNotChecked = 0 ∧
        joint scope.disk assessed.lossSet homes = [] := by
    simp [read, h]
  rw [hread, refused_iff_group, counted_eq_zero_iff, counted_eq_zero_iff, joint,
    List.filterMap_eq_nil_iff]
  push Not
  constructor
  · rintro ⟨honly, hunchecked, hjoint⟩ group hgroup
    refine ⟨(hneeds group.copies).mpr ⟨honly group hgroup, hunchecked group hgroup⟩, ?_⟩
    simp [hjoint group hgroup]
  · intro hall
    have hnone (group : CommitGroup) (hgroup : group ∈ assessed.commits) :=
      (hneeds group.copies).mp (hall group hgroup).1
    refine ⟨fun group hgroup ↦ (hnone group hgroup).1,
      fun group hgroup ↦ (hnone group hgroup).2, ?_⟩
    intro group hgroup
    simpa using (hall group hgroup).2

/-- A row is under the unit's handle. -/
theorem read_what {finding : Finding}
    (h : scope.read project homes unit home = some finding) : finding.what = unit.slug := by
  unfold read at h
  cases hassess : assess scope.disk (scope.inputOf project home) with
  | error why =>
    rw [hassess] at h
    exact Option.some.inj h ▸ rfl
  | ok assessed =>
    rw [hassess] at h
    dsimp only at h
    by_cases hnone : counted assessed isOnlyHere = 0 ∧ counted assessed isNotChecked = 0 ∧
        joint scope.disk assessed.lossSet homes = []
    · rw [if_pos hnone] at h
      cases h
    · rw [if_neg hnone] at h
      exact Option.some.inj h ▸ rfl

/-- A home whose removal is safe with the set refuses over no commit. -/
theorem not_refused_of_safe {readAt : Seconds}
    (h : (judge scope.disk assessed.lossSet ⟨none, homes, readAt⟩).isSafe = true) :
    ¬ ∃ commit, Refused scope.disk homes assessed.history.parts commit := by
  obtain ⟨hrefusals, hunreads⟩ := judge_safe_iff.mp h
  simp only [refusals, unreads, joint, List.append_eq_nil_iff, List.filterMap_eq_nil_iff,
    Assessment.lossSet] at hrefusals hunreads
  rw [refused_iff_group]
  push Not
  intro group hgroup
  have hlost := commitLoss_eq_none.mp (hrefusals.1.1.2 group hgroup)
  have hread := commitUnread_eq_none.mp (hunreads.1 group hgroup)
  refine ⟨?_, by simp [hrefusals.1.2 group hgroup]⟩
  rcases group.copies.needs_cases with hnone | hunique | hunknown
  · exact hnone
  · exact absurd hunique hlost
  · exact absurd hunknown hread

/-! ### The rows of the report -/

theorem mem_openUnits : unit ∈ scope.openUnits project ↔ unit ∈ scope.registry.units.values ∧
    unit.projectId = project.id ∧ (unit.status = .opened ∨ unit.status = .review) := by
  rw [openUnits, List.mem_append, Registry.mem_listByStatus, Registry.mem_listByStatus]
  tauto

theorem mem_homesOfUnit : home ∈ scope.homesOfUnit unit ↔ scope.isDir home = true ∧
    ∃ environment ∈ scope.registry.environments.values, environment.unitId = unit.id ∧
      scope.spelled environment.home = home := by
  simp only [homesOfUnit, listForUnit, List.mem_filter, List.mem_map, List.mem_insertionSort,
    decide_eq_true_eq]
  tauto

/-- A row is of a home of a unit the report reads, and it is what that home earns. -/
theorem mem_reported {row : Row} : row ∈ scope.reported ↔
    row.project ∈ scope.registry.projects.values ∧
      scope.sectionOf (scope.rootOf row.project) = .here ∧
      row.unit ∈ scope.openUnits row.project ∧ row.home ∈ scope.homesOfUnit row.unit ∧
      scope.read row.project (scope.homesOf (scope.openUnits row.project)) row.unit row.home =
        some row.finding := by
  simp only [reported, rowsOf, List.mem_flatMap, List.mem_filter, List.mem_filterMap,
    Option.map_eq_some_iff, decide_eq_true_eq]
  constructor
  · rintro ⟨project, ⟨hproject, hhere⟩, unit, hunit, home, hhome, finding, hread, rfl⟩
    exact ⟨hproject, hhere, hunit, hhome, hread⟩
  · rintro ⟨hproject, hhere, hunit, hhome, hread⟩
    exact ⟨row.project, ⟨hproject, hhere⟩, row.unit, hunit, row.home, hhome, row.finding, hread,
      rfl⟩

/-- The report has a row for each home, of a unit of this project that is open or in review, with a
commit the kernel refuses over, alone or with the other homes, and no row for a home the kernel
finds safe both ways. -/
theorem reported_refused (scope : Scope) (readAt : Seconds) :
    (∀ project ∈ scope.registry.projects.values, scope.sectionOf (scope.rootOf project) = .here →
      ∀ unit ∈ scope.registry.units.values, unit.projectId = project.id →
        unit.status = .opened ∨ unit.status = .review →
        ∀ environment ∈ scope.registry.environments.values, environment.unitId = unit.id →
          scope.isDir (scope.spelled environment.home) = true → ∀ assessed,
            assess scope.disk (scope.inputOf project (scope.spelled environment.home)) =
                .ok assessed →
              (∃ commit, Refused scope.disk (scope.homesOf (scope.openUnits project))
                assessed.history.parts commit) →
              ∃ row ∈ scope.reported, row.unit = unit ∧ row.finding.what = unit.slug ∧
                row.home = scope.spelled environment.home) ∧
      ∀ row ∈ scope.reported, ∀ assessed,
        assess scope.disk (scope.inputOf row.project row.home) = .ok assessed →
          ¬ ((judge scope.disk assessed.lossSet (.ofWork readAt)).isSafe = true ∧
            (judge scope.disk assessed.lossSet
              ⟨none, scope.homesOf (scope.openUnits row.project), readAt⟩).isSafe = true) := by
  constructor
  · intro project hproject hhere unit hunit hmember hstatus environment henvironment hof hdir
      assessed hassess hrefused
    have hopen : unit ∈ scope.openUnits project := mem_openUnits.mpr ⟨hunit, hmember, hstatus⟩
    have hhome : scope.spelled environment.home ∈ scope.homesOfUnit unit :=
      mem_homesOfUnit.mpr ⟨hdir, environment, henvironment, hof, rfl⟩
    cases hread : scope.read project (scope.homesOf (scope.openUnits project)) unit
        (scope.spelled environment.home) with
    | none => exact absurd hrefused ((read_eq_none_iff hassess).mp hread)
    | some finding =>
      exact ⟨⟨project, unit, scope.spelled environment.home, finding⟩,
        mem_reported.mpr ⟨hproject, hhere, hopen, hhome, hread⟩, rfl, read_what hread, rfl⟩
  · rintro row hrow assessed hassess ⟨-, hjointly⟩
    obtain ⟨-, -, -, -, hread⟩ := mem_reported.mp hrow
    rw [(read_eq_none_iff hassess).mpr (not_refused_of_safe hjointly)] at hread
    cases hread

end Scope

/-! ### The unit of another project -/

/-- A home one commit ahead of its project's checkout. -/
private def aheadOfBlog (commit : Oid) : List Oid :=
  if commit = ⟨2⟩ then [⟨1⟩] else []

private def blogDisk : Disk :=
  .ordinaries aheadOfBlog (fun _ ↦ [])
    (fun path ↦
      if path = "/homes/post" then
        some (.ordinary [⟨["refs", "heads", "post"], ⟨2⟩⟩] (.symbolic ["refs", "heads", "post"])
          [⟨2⟩, ⟨1⟩] (by decide))
      else if path = "/srv/blog" then
        some (.ordinary [⟨["refs", "heads", "main"], ⟨1⟩⟩] (.symbolic ["refs", "heads", "main"])
          [⟨1⟩] (by decide))
      else none) fun _ _ ↦ none

private def post : UnitRow := ⟨"U2", "P2", "post", .opened, .epoch⟩

private def postHome : Environment := ⟨"E2", "U2", 1, ⟨true, ["post", "homes"]⟩, true, .stopped⟩

private def blog : Project := ⟨"P2", "blog", ⟨true, ["blog", "srv"]⟩, none⟩

/-- Two projects, and the command is run in the other one. -/
private def inShop : Scope where
  registry :=
    { projects := ((∅ : Foundation.Table Sweep.ProjectId Project).set "P1"
        ⟨"P1", "shop", ⟨true, ["shop", "srv"]⟩, none⟩).set "P2" blog
      units := (∅ : Foundation.Table Locks.UnitId UnitRow).set "U2" post
      environments := (∅ : Foundation.Table Sweep.EnvId Environment).set "E2" postHome
      projects_keyed := by decide +kernel
      units_keyed := by decide +kernel
      environments_keyed := by decide +kernel
      root_unique := by decide +kernel
      unit_project := by decide +kernel
      unit_slug := by decide +kernel
      environment_attempt := by decide +kernel }
  disk := blogDisk
  spelled := fun path ↦ "/" ++ "/".intercalate path.names.reverse
  isDir := fun _ ↦ true
  inside := fun path directory ↦ path = directory
  root := some "/srv/shop"
  stateOf := fun name ↦ "/state/" ++ name
  siblings := fun _ ↦ []
  words := fun _ ↦ "git failed"

/-- Its open unit has the only copy of a commit and no row. -/
theorem other_project_unrowed : ¬ ∀ (scope : Scope), ∀ project ∈ scope.registry.projects.values,
    ∀ unit ∈ scope.registry.units.values, unit.projectId = project.id → unit.status ≠ .archived →
      ∀ environment ∈ scope.registry.environments.values, environment.unitId = unit.id →
        scope.isDir (scope.spelled environment.home) = true → ∀ assessed,
          assess scope.disk (scope.inputOf project (scope.spelled environment.home)) =
              .ok assessed →
            (∃ commit, ∃ part ∈ assessed.history.parts, commit ∈ part.2 ∧ part.1.needs ≠ none) →
            ∃ row ∈ scope.reported, row.unit = unit := by
  intro hall
  have hanswers : (assess inShop.disk
      (inShop.inputOf blog (inShop.spelled postHome.home))).toOption.any (fun assessed ↦
        assessed.history.parts.any fun part ↦ ⟨2⟩ ∈ part.2 ∧ part.1.needs ≠ none) = true := by
    decide +kernel
  obtain ⟨assessed, hassess, hparts⟩ := answered_of_any hanswers
  obtain ⟨part, hpart, hkept⟩ := List.any_eq_true.mp hparts
  obtain ⟨hcommit, hneeds⟩ := of_decide_eq_true hkept
  obtain ⟨row, hrow, -⟩ := hall inShop blog (by decide +kernel) post (by decide +kernel) rfl
    (by decide) postHome (by decide +kernel) rfl rfl assessed hassess
    ⟨⟨2⟩, part, hpart, hcommit, hneeds⟩
  have hnone : inShop.reported = [] := by decide +kernel
  rw [hnone] at hrow
  cases hrow

end Nodal.Doctor.OnlyHere
