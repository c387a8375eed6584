import Nodal.Sweep.Named

/-!
# Giving back the homes of merged units

`lifecycle/ops/gc.rs`: the merged units whose window has run out are listed, and each is handed to
the ordinary reclaim by its handle, with the root of its project to look the handle up from. The
reclaim resolves that text again.

A name is `Mistaken` for another unit in three ways, and `unitNamed_iff_mistaken` says there is no
fourth. So a sweep takes up the units it found due and no other exactly as long as whatever a name is
mistaken for has no home left or refuses to be reclaimed (`retire_onlyTheDue_iff`).
-/

set_option autoImplicit false

namespace Nodal.Sweep

open Foundation Locks

/-! ### What is due -/

/-- The instant a retention runs out. -/
def expiry (instant : Timestamp) (days : UInt32) : Timestamp :=
  let seconds := saturate (days.toNat * (24 * 60 * 60))
  (Timestamp.fromUnixSeconds (saturate (instant.unixSeconds + seconds))).getD instant

/-- A line of the report about something the sweep left. -/
inductive Leftover
  | project (name : String)
  | unit (slug : Slug) (why : Error)
  deriving DecidableEq, Repr

/-- What every project asked for, and a line for each whose recipe will not load. -/
def retentions (w : World) : List (Project × UInt32) × List Leftover :=
  let days := fun project : Project ↦ w.disk.trashRetentionDays (w.locate project.root)
  (w.registry.projects.values.filterMap fun project ↦ (days project).map (project, ·),
    (w.registry.projects.values.filter fun project ↦ days project = none).map (.project ·.name))

/-- The merged units whose home has been kept for as long as the project asked. -/
def due (registry : Registry) (now : Timestamp) (retentions : List (Project × UInt32)) :
    List (Project × UnitRow) :=
  retentions.flatMap fun (project, days) ↦
    ((registry.listByStatus project.id .merged).filter fun unit ↦
      expiry unit.updatedAt days ≤ now ∧ (registry.liveHome unit.id).isSome).map (project, ·)

/-! ### One reclaim -/

/-- What a reclaim is asked. -/
structure Request where
  target : Option Slug
  force : Bool
  hooks : Bool
  prune : Bool
  take : Bool
  cwd : Path
  deriving DecidableEq, Repr

/-- What a reclaim says it did. -/
structure Reclaimed where
  trashed : Option Path
  deriving DecidableEq, Repr

/-- Whether the registry holds a unit's row under the project and the handle it had. -/
def Registry.Carries (registry : Registry) (unit : UnitRow) : Prop :=
  ∃ row ∈ registry.units.values,
    row.id = unit.id ∧ row.projectId = unit.projectId ∧ row.slug = unit.slug

/-- What a reclaim does with the unit it has looked up: the hold, the uniqueness check, the hooks,
the teardown, the move and the registry write. No statement of the registry removes a unit's row or
writes its project or its handle. -/
structure Reclaiming where
  carryOut : World → Request → UnitRow → Environment → Except Error Reclaimed × World
  keeps : ∀ w request unit environment row, w.registry.Carries row →
    (carryOut w request unit environment).2.registry.Carries row

/-- The materialisation a reclaim of a unit is about. -/
def Registry.latest (registry : Registry) (unit : UnitRow) : Except Error Environment :=
  match registry.latestForUnit unit.id with
  | none => .error (.unitNotMaterialized unit.slug)
  | some environment =>
    if environment.state = .absent then .error (.alreadyReclaimed unit.slug) else .ok environment

/-- Reclaim a unit. -/
def reclaim (r : Reclaiming) (w : World) (request : Request) : Except Error Reclaimed × World :=
  match w.unitNamed request.target request.cwd with
  | .error why => (.error why, w)
  | .ok unit =>
    match w.registry.latest unit with
    | .error why => (.error why, w)
    | .ok environment => r.carryOut w request unit environment

/-! ### The sweep -/

/-- One reclaim of a sweep: what the sweep found due, and the world the reclaim starts in. -/
structure Turn where
  world : World
  project : Project
  unit : UnitRow

/-- What the sweep asks of the reclaim: the unit by its handle, from its project's root. -/
def Turn.request (turn : Turn) (hooks : Bool) : Request :=
  { target := some turn.unit.slug, force := false, hooks, prune := false, take := false
    cwd := turn.project.root }

/-- A home that was given back. -/
structure Retired where
  slug : Slug
  trashed : Option Path
  deriving DecidableEq, Repr

/-- What giving back the due homes came to. -/
structure Retirement where
  retired : List Retired
  leftovers : List Leftover
  /-- Whether the registry could not be read, which ends the sweep. -/
  raised : Bool
  /-- The reclaims that were made, in order. -/
  turns : List Turn
  world : World

/-- Reclaim the due units one after the other. -/
def retireEach (r : Reclaiming) (hooks : Bool) : World → List (Project × UnitRow) → Retirement
  | w, [] => ⟨[], [], false, [], w⟩
  | w, (project, unit) :: rest =>
    let turn : Turn := ⟨w, project, unit⟩
    match reclaim r w (turn.request hooks) with
    | (.ok report, w') =>
      let later := retireEach r hooks w' rest
      { later with
        retired := ⟨unit.slug, report.trashed⟩ :: later.retired, turns := turn :: later.turns }
    | (.error .store, w') => ⟨[], [], true, [turn], w'⟩
    | (.error refused, w') =>
      let later := retireEach r hooks w' rest
      { later with
        leftovers := .unit unit.slug refused :: later.leftovers, turns := turn :: later.turns }

/-- Give back the home of every merged unit that has kept one long enough. -/
def retire (r : Reclaiming) (w : World) (now : Timestamp) (hooks : Bool) : Retirement :=
  let (read, unread) := retentions w
  let done := retireEach r hooks w (due w.registry now read)
  { done with leftovers := unread ++ done.leftovers }

/-! ### What a sweep may act on -/

/-- The reclaim of a unit is refused there, and everything is as it was. -/
def Turn.Refuses (turn : Turn) (r : Reclaiming) (hooks : Bool) (unit : UnitRow)
    (environment : Environment) : Prop :=
  ∃ why, r.carryOut turn.world (turn.request hooks) unit environment = (.error why, turn.world)

/-- The reclaim of a turn acts on a unit: it looks that unit up with its home, and goes on. -/
def Turn.ActsOn (turn : Turn) (r : Reclaiming) (hooks : Bool) (unit : UnitRow) : Prop :=
  turn.world.unitNamed (turn.request hooks).target (turn.request hooks).cwd = .ok unit ∧
    ∃ environment, turn.world.registry.latest unit = .ok environment ∧
      ¬turn.Refuses r hooks unit environment

/-- A merged unit whose window has run out. -/
def IsDue (w : World) (now : Timestamp) (unit : UnitRow) : Prop :=
  unit ∈ w.registry.units.values ∧ unit.status = .merged ∧
    (w.registry.liveHome unit.id).isSome = true ∧
    ∃ project ∈ w.registry.projects.values, project.id = unit.projectId ∧
      ∃ days, w.disk.trashRetentionDays (w.locate project.root) = some days ∧
        expiry unit.updatedAt days ≤ now

/-- Each reclaim acts on the unit it was made for and on no other, so every unit a sweep acts on was
due when it started. -/
structure OnlyTheDue (r : Reclaiming) (w : World) (now : Timestamp) (hooks : Bool) : Prop where
  own : ∀ turn ∈ (retire r w now hooks).turns, ∀ unit, turn.ActsOn r hooks unit →
    unit.id = turn.unit.id
  subset : ∀ turn ∈ (retire r w now hooks).turns, ∀ unit, turn.ActsOn r hooks unit →
    ∃ found, IsDue w now found ∧ found.id = unit.id

/-- The handle of a unit, looked up from its project's root, is taken for another unit. -/
inductive Mistaken (w : World) (project : Project) (unit other : UnitRow) : Prop
  /-- The program stands where a directory has that name, and the home at it, or around both, is
  another unit's. -/
  | directory (home : Path) (another : other.id ≠ unit.id)
      (named : w.disk.isDir (unit.slug :: w.cwd) = true)
      (inside : w.findHome ⟨false, [unit.slug]⟩ = .ok home)
      (marked : w.marker home = .ok (some other.id)) (held : other ∈ w.registry.units.values)
  /-- The root of its project is in another project, which has the handle too. -/
  | project (stood : Project) (unnamed : w.disk.isDir (unit.slug :: w.cwd) = false)
      (standing : w.projectAt project.root = .ok (some stood)) (foreign : stood.id ≠ unit.projectId)
      (has : w.registry.findBySlug stood.id unit.slug = some other)
  /-- The unit has given its handle up since it was found due, and a later one has it. -/
  | renewed (stood : Option Project) (another : other.id ≠ unit.id)
      (unnamed : w.disk.isDir (unit.slug :: w.cwd) = false)
      (standing : w.projectAt project.root = .ok stood)
      (home : stood.map Project.id = some unit.projectId ∨
        stood.bind (w.registry.findBySlug ·.id unit.slug) = none ∧
          ∀ p ∈ w.registry.projects.values, p.id ≠ unit.projectId →
            w.registry.findBySlug p.id unit.slug = none)
      (has : w.registry.findBySlug unit.projectId unit.slug = some other)

variable {w : World} {now : Timestamp} {project : Project} {unit other : UnitRow} {r : Reclaiming}
  {hooks : Bool}

/-- Assumes: a project that has a handle. It is the only one with the handle exactly where no other
project has it. -/
theorem havingSlug_eq_singleton {slug : Slug} (hproject : project ∈ w.registry.projects.values)
    (hhas : w.registry.findBySlug project.id slug = some other) :
    (∃ p, w.havingSlug slug = [(p, other)]) ↔
      ∀ p ∈ w.registry.projects.values, p.id ≠ project.id →
        w.registry.findBySlug p.id slug = none := by
  have hmem : ∀ p ∈ w.registry.projects.values, ∀ named,
      w.registry.findBySlug p.id slug = some named → (p, named) ∈ w.havingSlug slug :=
    fun p hp named hnamed ↦ List.mem_filterMap.mpr ⟨p, hp, by simp [hnamed]⟩
  constructor
  · rintro ⟨p, hone⟩ p' hp' hne
    by_contra hsome
    obtain ⟨named, hnamed⟩ := Option.ne_none_iff_exists'.mp hsome
    have hown := hmem project hproject other hhas
    have hforeign := hmem p' hp' named hnamed
    rw [hone, List.mem_singleton] at hown hforeign
    exact hne (congrArg (·.1.id) (hforeign.trans hown.symm))
  · intro hnone
    refine ⟨project, ?_⟩
    obtain ⟨before, after, hsplit⟩ := List.append_of_mem hproject
    have hpairwise := w.registry.pairwise_projects
    rw [hsplit, List.pairwise_append, List.pairwise_cons] at hpairwise
    obtain ⟨-, ⟨hafter, -⟩, hbefore⟩ := hpairwise
    have hnothing : ∀ l : List Project, (∀ p ∈ l, p ∈ w.registry.projects.values) →
        (∀ p ∈ l, p.id ≠ project.id) → l.filterMap (fun p ↦
          (w.registry.findBySlug p.id slug).map (p, ·)) = [] := fun l hsub hne ↦
      List.filterMap_eq_nil_iff.mpr fun p hp ↦ by simp [hnone p (hsub p hp) (hne p hp)]
    unfold World.havingSlug
    rw [hsplit, List.filterMap_append, List.filterMap_cons, hhas,
      hnothing before (fun p hp ↦ by simp [hsplit, hp]) fun p hp ↦ hbefore p hp project (by simp),
      hnothing after (fun p hp ↦ by simp [hsplit, hp]) fun p hp ↦ (hafter p hp).symm]
    rfl

/-- Assumes: a unit whose row is there. Its handle, looked up from its project's root, names another
unit exactly where it is mistaken for it. -/
theorem unitNamed_iff_mistaken (hcarries : w.registry.Carries unit) (hother : other.id ≠ unit.id) :
    w.unitNamed (some unit.slug) project.root = .ok other ↔ Mistaken w project unit other := by
  obtain ⟨row, hrow, -, hproject, hslug⟩ := hcarries
  obtain ⟨own, hown⟩ := Option.isSome_iff_exists.mp (w.registry.unit_project row hrow)
  have hkeyed : own.id = unit.projectId :=
    (Registry.projects_get?_id hown).trans hproject
  have hownmem : own ∈ w.registry.projects.values := Table.mem_values_iff.mpr ⟨_, hown⟩
  obtain ⟨named, hnamed⟩ := Option.isSome_iff_exists.mp (Registry.findBySlug_isSome hrow)
  rw [hproject, hslug, ← hkeyed] at hnamed
  have hplace : w.locate ⟨false, [unit.slug]⟩ = unit.slug :: w.cwd := rfl
  rw [World.unitNamed_eq_ok, hplace]
  constructor
  · rintro (⟨hdir, home, hhome, hmarker, hheld⟩ |
      ⟨hdir, stood, hstood, hhas | ⟨hnone, found, hone⟩⟩)
    · exact .directory home hother hdir hhome hmarker hheld
    · obtain ⟨p, rfl, hhas⟩ := Option.bind_eq_some_iff.mp hhas
      by_cases hid : p.id = unit.projectId
      · exact .renewed (some p) hother hdir hstood (.inl (congrArg some hid)) (hid ▸ hhas)
      · exact .project p hdir hstood hid hhas
    · have hmem : (own, named) ∈ w.havingSlug unit.slug :=
        List.mem_filterMap.mpr ⟨own, hownmem, by simp [hnamed]⟩
      rw [hone, List.mem_singleton, Prod.mk.injEq] at hmem
      obtain ⟨rfl, rfl⟩ := hmem
      have honly := (havingSlug_eq_singleton hownmem hnamed).mp ⟨own, hone⟩
      rw [hkeyed] at hnamed honly
      exact .renewed stood hother hdir hstood (.inr ⟨hnone, honly⟩) hnamed
  · rintro (⟨home, -, hdir, hhome, hmarker, hheld⟩ | ⟨stood, hdir, hstood, -, hhas⟩ |
      ⟨stood, -, hdir, hstood, hat, hhas⟩)
    · exact .inl ⟨hdir, home, hhome, hmarker, hheld⟩
    · exact .inr ⟨hdir, some stood, hstood, .inl hhas⟩
    · refine .inr ⟨hdir, stood, hstood, ?_⟩
      rcases hat with hat | ⟨hnone, honly⟩
      · obtain ⟨p, rfl, hid⟩ := Option.map_eq_some_iff.mp hat
        exact .inl (by simpa [hid] using hhas)
      · rw [← hkeyed] at hhas honly
        exact .inr ⟨hnone, (havingSlug_eq_singleton hownmem hhas).mpr honly⟩

/-! ### A whole sweep -/

/-- Assumes: a unit whose row is there. A reclaim leaves it there. -/
theorem carries_reclaim {request : Request} (h : w.registry.Carries unit) :
    (reclaim r w request).2.registry.Carries unit := by
  unfold reclaim
  split
  · exact h
  · split
    · exact h
    · exact r.keeps _ _ _ _ _ h

/-- Assumes: units whose rows are there. Each reclaim of a sweep is for one of them, and starts with
its row still there. -/
theorem turns_spec {found : List (Project × UnitRow)}
    (h : ∀ entry ∈ found, w.registry.Carries entry.2) :
    ∀ turn ∈ (retireEach r hooks w found).turns,
      (turn.project, turn.unit) ∈ found ∧ turn.world.registry.Carries turn.unit := by
  induction found generalizing w with
  | nil => simp [retireEach]
  | cons entry rest ih =>
    obtain ⟨project, unit⟩ := entry
    intro turn hturn
    have hfirst : w.registry.Carries unit := h (project, unit) List.mem_cons_self
    have hsplit : turn = ⟨w, project, unit⟩ ∨ turn ∈ (retireEach r hooks
        (reclaim r w (Turn.request ⟨w, project, unit⟩ hooks)).2 rest).turns := by
      simp only [retireEach] at hturn
      split at hturn
      · rename_i heq
        simpa [heq] using hturn
      · exact .inl (by simpa using hturn)
      · rename_i heq
        simpa [heq] using hturn
    rcases hsplit with rfl | hlater
    · exact ⟨List.mem_cons_self, hfirst⟩
    · have hrest := ih (fun entry hentry ↦ carries_reclaim (h entry (List.mem_cons_of_mem _ hentry)))
        turn hlater
      exact ⟨List.mem_cons_of_mem _ hrest.1, hrest.2⟩

/-- The first reclaim of a sweep starts in the world the sweep does. -/
theorem mem_turns_first {rest : List (Project × UnitRow)} :
    ⟨w, project, unit⟩ ∈ (retireEach r hooks w ((project, unit) :: rest)).turns := by
  simp only [retireEach]
  split <;> exact List.mem_cons_self

theorem mem_due {project : Project} {unit : UnitRow}
    (h : (project, unit) ∈ due w.registry now (retentions w).1) : IsDue w now unit := by
  simp only [due, retentions, List.mem_flatMap, List.mem_filterMap, List.mem_map, Prod.exists,
    Option.map_eq_some_iff, Prod.mk.injEq, List.mem_filter, Registry.mem_listByStatus,
    decide_eq_true_eq] at h
  obtain ⟨p, days, ⟨p', hp', days', hdays, rfl, rfl⟩, unit', ⟨⟨hunit, hid, hmerged⟩, hexpired, hlive⟩,
    rfl, rfl⟩ := h
  exact ⟨hunit, hmerged, hlive, p', hp', hid.symm, days', hdays, hexpired⟩

/-- Every reclaim of a sweep is for a unit that was due, whose row is still there. -/
theorem turns_retire : ∀ turn ∈ (retire r w now hooks).turns,
    IsDue w now turn.unit ∧ turn.world.registry.Carries turn.unit := by
  intro turn hturn
  have hcarries : ∀ entry ∈ due w.registry now (retentions w).1, w.registry.Carries entry.2 :=
    fun entry hentry ↦ ⟨entry.2, (mem_due hentry).1, rfl, rfl, rfl⟩
  change turn ∈ (retireEach r hooks w (due w.registry now (retentions w).1)).turns at hturn
  obtain ⟨hdue, hcarried⟩ := turns_spec hcarries turn hturn
  exact ⟨mem_due hdue, hcarried⟩

/-- A sweep acts on the units it found due, each through its own reclaim and no other, exactly as long
as every unit a handle is mistaken for has no home left or refuses to be reclaimed. -/
theorem retire_onlyTheDue_iff (r : Reclaiming) (w : World) (now : Timestamp) (hooks : Bool) :
    OnlyTheDue r w now hooks ↔ ∀ turn ∈ (retire r w now hooks).turns, ∀ other environment,
      Mistaken turn.world turn.project turn.unit other →
      turn.world.registry.latest other = .ok environment →
      turn.Refuses r hooks other environment := by
  constructor
  · intro honly turn hturn other environment hmistaken hlatest
    have hcarries := (turns_retire turn hturn).2
    have hother : other.id ≠ turn.unit.id := by
      cases hmistaken with
      | directory home another named inside marked held => exact another
      | project stood unnamed standing foreign has =>
        obtain ⟨hmem, hproject, -⟩ := Registry.findBySlug_spec has
        obtain ⟨row, hrow, hid, hown, -⟩ := hcarries
        intro heq
        have hsame := Registry.units_ext hmem hrow (heq.trans hid.symm)
        exact foreign (hproject.symm.trans ((congrArg UnitRow.projectId hsame).trans hown))
      | renewed stood another unnamed standing home has => exact another
    by_contra hacts
    exact hother (honly.own turn hturn other
      ⟨(unitNamed_iff_mistaken hcarries hother).mpr hmistaken, environment, hlatest, hacts⟩)
  · intro hrefuses
    have hown : ∀ turn ∈ (retire r w now hooks).turns, ∀ unit, turn.ActsOn r hooks unit →
        unit.id = turn.unit.id := by
      rintro turn hturn unit ⟨hnamed, environment, hlatest, hacts⟩
      by_contra hother
      have hmistaken := (unitNamed_iff_mistaken (turns_retire turn hturn).2 hother).mp hnamed
      exact hacts (hrefuses turn hturn unit environment hmistaken hlatest)
    exact ⟨hown, fun turn hturn unit hacts ↦
      ⟨turn.unit, (turns_retire turn hturn).1, (hown turn hturn unit hacts).symm⟩⟩

/-! ### A sweep that takes a home nobody asked for -/

namespace Registry

variable {registry : Registry} {environment : Environment}

/-- Assumes: a table of units one row of which was archived. Each row is a row there was, archived or
as it was. -/
theorem of_mem_archived {row : UnitRow} (h : row ∈ (registry.units.modify unit.id fun row ↦
    { row with status := .archived, updatedAt := now }).values) :
    ∃ old ∈ registry.units.values, row.id = old.id ∧ row.projectId = old.projectId ∧
      row.slug = old.slug ∧ (row.status ≠ .archived → old.status ≠ .archived) := by
  obtain ⟨key, hkey⟩ := Table.mem_values_iff.mp h
  obtain ⟨old, hold, rfl | rfl⟩ := Table.mem_rows_modify (Table.mem_rows_iff.mpr hkey)
  · exact ⟨row, List.mem_map_of_mem hold, rfl, rfl, rfl, id⟩
  · exact ⟨old, List.mem_map_of_mem hold, rfl, rfl, rfl, fun hheld ↦ absurd rfl hheld⟩

/-- The registry write of a reclaim: the materialisation is absent and the unit archived. -/
def giveBack (registry : Registry) (unit : UnitRow) (environment : Environment) (now : Timestamp) :
    Registry where
  projects := registry.projects
  units := registry.units.modify unit.id fun row ↦ { row with status := .archived, updatedAt := now }
  environments := registry.environments.modify environment.id fun row ↦ { row with state := .absent }
  projects_keyed := registry.projects_keyed
  units_keyed := by
    rintro ⟨key, row⟩ hrow
    obtain ⟨old, hold, rfl | rfl⟩ := Table.mem_rows_modify hrow
    · exact registry.units_keyed _ hold
    · exact registry.units_keyed (key, old) hold
  environments_keyed := by
    rintro ⟨key, row⟩ hrow
    obtain ⟨old, hold, rfl | rfl⟩ := Table.mem_rows_modify hrow
    · exact registry.environments_keyed _ hold
    · exact registry.environments_keyed (key, old) hold
  root_unique := registry.root_unique
  unit_project := by
    intro row hrow
    obtain ⟨old, hold, -, hproject, -⟩ := of_mem_archived hrow
    rw [hproject]
    exact registry.unit_project old hold
  unit_slug := by
    intro row hrow row' hrow' hproject hslug hheld hheld'
    obtain ⟨old, hold, hid, hown, hnamed, hwas⟩ := of_mem_archived hrow
    obtain ⟨old', hold', hid', hown', hnamed', hwas'⟩ := of_mem_archived hrow'
    rw [hid, hid']
    exact registry.unit_slug old hold old' hold' (hown.symm.trans (hproject.trans hown'))
      (hnamed.symm.trans (hslug.trans hnamed')) (hwas hheld) (hwas' hheld')
  environment_attempt := by
    have hold : ∀ row ∈ (registry.environments.modify environment.id fun row ↦
        { row with state := .absent }).values, ∃ old ∈ registry.environments.values,
          row.id = old.id ∧ row.unitId = old.unitId ∧ row.attempt = old.attempt := by
      intro row hrow
      obtain ⟨key, hkey⟩ := Table.mem_values_iff.mp hrow
      obtain ⟨old, hold, rfl | rfl⟩ := Table.mem_rows_modify (Table.mem_rows_iff.mpr hkey)
      · exact ⟨row, List.mem_map_of_mem hold, rfl, rfl, rfl⟩
      · exact ⟨old, List.mem_map_of_mem hold, rfl, rfl, rfl⟩
    intro row hrow row' hrow' hunit hattempt
    obtain ⟨old, hmem, hid, hof, hat⟩ := hold row hrow
    obtain ⟨old', hmem', hid', hof', hat'⟩ := hold row' hrow'
    rw [hid, hid']
    exact registry.environment_attempt old hmem old' hmem' (hof.symm.trans (hunit.trans hof'))
      (hat.symm.trans (hattempt.trans hat'))

theorem carries_giveBack {row : UnitRow} (h : registry.Carries row) :
    (registry.giveBack unit environment now).Carries row := by
  obtain ⟨held, hheld, hid, hproject, hslug⟩ := h
  by_cases hsame : held.id = unit.id
  · have hget := get?_units_of_mem hheld
    rw [hsame] at hget
    exact ⟨{ held with status := .archived, updatedAt := now },
      Table.mem_values_iff.mpr ⟨unit.id, by simp [giveBack, hget]⟩, hid, hproject, hslug⟩
  · refine ⟨held, Table.mem_values_iff.mpr ⟨held.id, ?_⟩, hid, hproject, hslug⟩
    rw [giveBack, Table.get?_modify_of_ne hsame]
    exact get?_units_of_mem hheld

end Registry

/-- A reclaim that nothing stands against: the home goes to the trash and its rows are closed. -/
def unopposed (now : Timestamp) : Reclaiming where
  carryOut := fun w _ unit environment ↦
    (.ok ⟨some ⟨true, [environment.id, "trash", "state"]⟩⟩,
      { w with
        registry := w.registry.giveBack unit environment now
        disk := { w.disk with
          hasManifest := fun place ↦
            !(w.locate environment.home).isSuffixOf place && w.disk.hasManifest place } })
  keeps := fun _ _ _ _ _ h ↦ Registry.carries_giveBack h

/-- A merged unit, and another one whose home has a directory of the first one's name. -/
def login : UnitRow := ⟨"U1", "P1", "login", .merged, .epoch⟩

@[inherit_doc login]
def payments : UnitRow := ⟨"U2", "P1", "payments", .opened, .epoch⟩

/-- The home of the second. -/
def paymentsHome : Environment := ⟨"E2", "U2", 1, ⟨true, ["E2", "homes"]⟩, true, .stopped⟩

/-- A program that stands in the home of the second. -/
def besides : World where
  registry :=
    { projects := (∅ : Table ProjectId Project).set "P1" ⟨"P1", "shop", ⟨true, ["shop"]⟩, none⟩
      units := ((∅ : Table UnitId UnitRow).set "U1" login).set "U2" payments
      environments := ((∅ : Table EnvId Environment).set "E1"
        ⟨"E1", "U1", 1, ⟨true, ["E1", "homes"]⟩, true, .stopped⟩).set "E2" paymentsHome
      projects_keyed := by decide +kernel
      units_keyed := by decide +kernel
      environments_keyed := by decide +kernel
      root_unique := by decide +kernel
      unit_project := by decide +kernel
      unit_slug := by decide +kernel
      environment_attempt := by decide +kernel }
  disk :=
    { isDir := fun place ↦ place = ["login", "E2", "homes"]
      hasManifest := fun place ↦ place = ["E1", "homes"] ∨ place = ["E2", "homes"]
      marker := fun place ↦ if place = ["E1", "homes"] then .ok (some "U1")
        else if place = ["E2", "homes"] then .ok (some "U2") else .ok none
      canonicalize := fun place ↦ some place
      remoteOf := fun _ ↦ none
      topLevel := fun _ ↦ none
      trashRetentionDays := fun _ ↦ some 14 }
  cwd := ["E2", "homes"]

/-- A sweep run in the home of an open unit reclaims that unit, because a directory there has the
name of the unit whose window has run out. -/
theorem open_unit_retired :
    ¬OnlyTheDue (unopposed ⟨1209600, by decide⟩) besides ⟨1209600, by decide⟩ true := by
  intro h
  have hdue : due besides.registry ⟨1209600, by decide⟩ (retentions besides).1 =
      [(⟨"P1", "shop", ⟨true, ["shop"]⟩, none⟩, login)] := by decide +kernel
  have hturn : ⟨besides, ⟨"P1", "shop", ⟨true, ["shop"]⟩, none⟩, login⟩ ∈
      (retire (unopposed ⟨1209600, by decide⟩) besides ⟨1209600, by decide⟩ true).turns := by
    simp only [retire, hdue]
    exact mem_turns_first
  have hnamed : besides.unitNamed (some "login") ⟨true, ["shop"]⟩ = .ok payments := by
    decide +kernel
  have hlatest : besides.registry.latest payments = .ok paymentsHome := by decide +kernel
  have hid := h.own _ hturn payments ⟨hnamed, paymentsHome, hlatest, by rintro ⟨why, ⟨⟩⟩⟩
  exact absurd hid (by decide)

end Nodal.Sweep
