import Nodal.Recipe.Parse

/-!
# A key that a person wrote stays theirs

The effective recipe is the file's over what was inferred, and it is written out to be the next file. What
a recipe sets are its `settings`: the scalars that are there and the lists and tables that are not empty.
A file's settings are those of every effective recipe that comes of it, over any number of rounds
(`keys_kept`), as far as the file is written at all: the stand-ins are in no section of it.

A list that a person set to be empty is none of the settings, since an empty list and an unset one are the
same: what is inferred takes its place (`empty_replaced`). And what is planned over a written file is that
file (`planInit_again`).
-/

set_option autoImplicit false

namespace Nodal.Recipes

open Foundation Text Toml Model

/-! ### What a recipe sets -/

/-- The lists that are not empty. -/
def setLists (lists : List (Text × List Text)) : List Field :=
  lists.map fun list ↦ (list.1, listed list.2)

/-- The tables of what a recipe sets, those of the stand-ins apart. -/
def setTables (recipe : Recipe) : Document := [
  ⟨[], present (topFields recipe)⟩,
  ⟨["toolchain".toList], toolchainRows recipe⟩,
  ⟨["commands".toList], present (commandFields recipe)⟩,
  ⟨["db".toList], present (dbFields recipe)⟩,
  ⟨["db".toList, "fixed_ports".toList], portRows recipe⟩,
  ⟨["services".toList], present (setLists (serviceLists recipe))⟩,
  ⟨["env".toList], present (setLists (envLists recipe))⟩,
  ⟨["base".toList], present (setLists (baseLists recipe))⟩,
  ⟨["hooks".toList], present (hookFields recipe)⟩,
  ⟨["sync".toList], present (syncFields recipe)⟩,
  ⟨["reclaim".toList], present (reclaimFields recipe)⟩,
  ⟨["lock".toList], present (lockFields recipe)⟩]

/-- A key under its table, with its value. -/
abbrev Setting := List Text × Text × Value

def settings (recipe : Recipe) : List Setting :=
  (setTables recipe).flatMap fun table ↦ table.rows.map (Prod.mk table.name)

def standIns (recipe : Recipe) : List Setting :=
  recipe.env.standIn.rows.map fun row ↦
    (["env".toList, "stand_in".toList], row.1.text, .string row.2)

/-! ### What is kept is set -/

/-- A key that is set has the same value in the other. -/
def FieldKept (first second : Field) : Prop :=
  first.1 = second.1 ∧ (first.2 = none ∨ first.2 = second.2)

theorem present_subset {first second : List Field} (h : List.Forall₂ FieldKept first second) :
    present first ⊆ present second := by
  induction h with
  | nil => exact List.Subset.refl _
  | @cons field other first second hfield _ ih =>
    obtain ⟨name, value⟩ := field
    obtain ⟨name', value'⟩ := other
    obtain ⟨hname, hvalue⟩ := hfield
    intro row hrow
    rcases List.mem_cons.mp (mem_present.mp hrow) with hhead | hlater
    · have hgiven : some row.2 = value := congrArg Prod.snd hhead
      have hkey : row.1 = name := congrArg Prod.fst hhead
      rcases hvalue with hnone | hsame
      · exact absurd (hgiven.trans hnone) (Option.some_ne_none _)
      · refine mem_present.mpr (List.mem_cons.mpr (.inl ?_))
        exact Prod.ext (hkey.trans hname) (hgiven.trans hsame)
    · exact mem_present.mpr (List.mem_cons_of_mem _ (mem_present.mp (ih (mem_present.mpr hlater))))

theorem keeps_option {α : Type} {first second : Option α} (h : Keeps first second) :
    first = none ∨ first = second := by
  cases first with
  | none => exact .inl rfl
  | some value => exact .inr h

theorem keeps_list {α : Type} {first second : List α} (h : Keeps first second) :
    first = [] ∨ first = second := by
  cases first with
  | nil => exact .inl rfl
  | cons value first => exact .inr h

theorem keeps_rows {shape : Text → Bool} {ν : Type} {first second : BTreeMap shape ν}
    (h : Keeps first second) : first.rows ⊆ second.rows := by
  have hcases : (if first.rows.isEmpty then second else first) = second := h
  split_ifs at hcases with hempty
  · rw [List.isEmpty_iff.mp hempty]
    exact List.nil_subset _
  · rw [hcases]
    exact List.Subset.refl _

theorem fieldKept_map {α : Type} {name : Text} {write : α → Value} {first second : Option α}
    (h : Keeps first second) : FieldKept (name, first.map write) (name, second.map write) := by
  refine ⟨rfl, ?_⟩
  rcases keeps_option h with rfl | rfl
  · exact .inl rfl
  · exact .inr rfl

theorem fieldKept_listed {α : Type} {name : Text} {write : α → Text} {first second : List α}
    (h : Keeps first second) :
    FieldKept (name, listed (first.map write)) (name, listed (second.map write)) := by
  refine ⟨rfl, ?_⟩
  rcases keeps_list h with rfl | rfl
  · exact .inl rfl
  · exact .inr rfl

/-- A table of the same name has the rows. -/
def TableKept (first second : Table) : Prop := first.name = second.name ∧ first.rows ⊆ second.rows

theorem flatMap_subset_of_kept {first second : Document} (h : List.Forall₂ TableKept first second) :
    (first.flatMap fun table ↦ table.rows.map (Prod.mk table.name)) ⊆
      second.flatMap fun table ↦ table.rows.map (Prod.mk table.name) := by
  induction h with
  | nil => exact List.Subset.refl _
  | @cons table other _ _ htable _ ih =>
    rw [List.flatMap_cons, List.flatMap_cons, htable.1]
    intro setting hsetting
    rcases List.mem_append.mp hsetting with hhere | hlater
    · exact List.mem_append_left _ (List.map_subset _ htable.2 hhere)
    · exact List.mem_append_right _ (ih hlater)

section Tables

variable {file effective : Recipe} (h : Keeps file effective)
include h

theorem topFields_kept : List.Forall₂ FieldKept (topFields file) (topFields effective) :=
  .cons (fieldKept_map (congrArg Recipe.backend h)) <|
  .cons (fieldKept_listed (congrArg Recipe.packageManager h)) <|
  .cons (fieldKept_map (congrArg Recipe.packageManagerPin h)) <|
  .cons (fieldKept_map (congrArg Recipe.monorepo h)) <|
  .cons (fieldKept_map (congrArg Recipe.taskCache h)) <|
  .cons (fieldKept_map (congrArg Recipe.dockerfile h)) <|
  .cons (by
    have hcompose := @fieldKept_listed Text "compose".toList id _ _ (congrArg Recipe.compose h)
    rwa [List.map_id, List.map_id] at hcompose) .nil

theorem commandFields_kept : List.Forall₂ FieldKept (commandFields file) (commandFields effective) := by
  have hcommands : Keeps file.commands effective.commands := congrArg Recipe.commands h
  exact .cons (fieldKept_map (congrArg Commands.dev hcommands)) <|
    .cons (fieldKept_map (congrArg Commands.build hcommands)) <|
    .cons (fieldKept_map (congrArg Commands.test hcommands)) <|
    .cons (fieldKept_map (congrArg Commands.lint hcommands)) <|
    .cons (fieldKept_map (congrArg Commands.typecheck hcommands)) <|
    .cons (fieldKept_map (congrArg Commands.migrate hcommands)) <|
    .cons (fieldKept_map (congrArg Commands.seed hcommands)) <|
    .cons (fieldKept_map (congrArg Commands.reset hcommands)) .nil

theorem dbFields_kept : List.Forall₂ FieldKept (dbFields file) (dbFields effective) := by
  have hdb : Keeps file.db effective.db := congrArg Recipe.db h
  exact .cons (fieldKept_map (congrArg Db.kind hdb)) <|
    .cons (fieldKept_map (congrArg Db.tool hdb)) <|
    .cons (fieldKept_map (congrArg Db.migrationsDir hdb)) <|
    .cons (fieldKept_listed (congrArg Db.urlVar hdb)) .nil

theorem serviceLists_kept :
    List.Forall₂ FieldKept (setLists (serviceLists file)) (setLists (serviceLists effective)) := by
  have hservices : Keeps file.services effective.services := congrArg Recipe.services h
  exact .cons (fieldKept_listed (congrArg Services.shared hservices)) <|
    .cons (fieldKept_listed (congrArg Services.perUnit hservices)) .nil

theorem envLists_kept :
    List.Forall₂ FieldKept (setLists (envLists file)) (setLists (envLists effective)) := by
  have henv : Keeps file.env effective.env := congrArg Recipe.env h
  exact .cons (fieldKept_listed (congrArg Env.requiredLocal henv)) <|
    .cons (fieldKept_listed (congrArg Env.generated henv)) <|
    .cons (fieldKept_listed (congrArg Env.secrets henv)) .nil

theorem baseLists_kept :
    List.Forall₂ FieldKept (setLists (baseLists file)) (setLists (baseLists effective)) := by
  have hbase : Keeps file.base effective.base := congrArg Recipe.base h
  have hexclude := @fieldKept_listed Text "exclude".toList id _ _ (congrArg BaseSpec.exclude hbase)
  have hinvalidate := @fieldKept_listed Text "invalidate".toList id _ _ (congrArg BaseSpec.invalidate hbase)
  rw [List.map_id, List.map_id] at hexclude hinvalidate
  exact .cons hexclude (.cons hinvalidate .nil)

theorem hookFields_kept : List.Forall₂ FieldKept (hookFields file) (hookFields effective) := by
  have hhooks : Keeps file.hooks effective.hooks := congrArg Recipe.hooks h
  exact .cons (fieldKept_map (congrArg Hooks.preNew hhooks)) <|
    .cons (fieldKept_map (congrArg Hooks.postNew hhooks)) <|
    .cons (fieldKept_map (congrArg Hooks.preMerge hhooks)) <|
    .cons (fieldKept_map (congrArg Hooks.postMerge hhooks)) <|
    .cons (fieldKept_map (congrArg Hooks.preReclaim hhooks)) <|
    .cons (fieldKept_map (congrArg Hooks.postReclaim hhooks)) .nil

/-- What a file sets, a recipe that keeps it sets. -/
theorem settings_subset : settings file ⊆ settings effective := by
  have hports : file.db.fixedPorts.rows ⊆ effective.db.fixedPorts.rows :=
    keeps_rows (congrArg Db.fixedPorts (congrArg Recipe.db h))
  have htools : file.toolchain.rows ⊆ effective.toolchain.rows := keeps_rows (congrArg Recipe.toolchain h)
  have hsync : List.Forall₂ FieldKept (syncFields file) (syncFields effective) :=
    .cons (fieldKept_map (congrArg Sync.autoIrreversible (congrArg Recipe.sync h))) .nil
  have hreclaim : List.Forall₂ FieldKept (reclaimFields file) (reclaimFields effective) :=
    .cons (fieldKept_map (congrArg Reclaim.trashRetention (congrArg Recipe.reclaim h))) .nil
  have hlock : List.Forall₂ FieldKept (lockFields file) (lockFields effective) :=
    .cons (fieldKept_map (congrArg LockPolicy.idleHours (congrArg Recipe.lock h))) .nil
  apply flatMap_subset_of_kept
  exact .cons ⟨rfl, present_subset (topFields_kept h)⟩ <|
    .cons ⟨rfl, List.map_subset _ htools⟩ <|
    .cons ⟨rfl, present_subset (commandFields_kept h)⟩ <|
    .cons ⟨rfl, present_subset (dbFields_kept h)⟩ <|
    .cons ⟨rfl, List.map_subset _ hports⟩ <|
    .cons ⟨rfl, present_subset (serviceLists_kept h)⟩ <|
    .cons ⟨rfl, present_subset (envLists_kept h)⟩ <|
    .cons ⟨rfl, present_subset (baseLists_kept h)⟩ <|
    .cons ⟨rfl, present_subset (hookFields_kept h)⟩ <|
    .cons ⟨rfl, present_subset hsync⟩ <| .cons ⟨rfl, present_subset hreclaim⟩ <|
    .cons ⟨rfl, present_subset hlock⟩ .nil

theorem standIns_subset : standIns file ⊆ standIns effective :=
  List.map_subset _ (keeps_rows (congrArg Env.standIn (congrArg Recipe.env h)))

end Tables

/-! ### Rounds -/

/-- The effective recipes that come of a file: each is written out, and what is read of it is merged with
what is inferred then. -/
inductive Rounds (toml : Text → Option Document) (file : Recipe) : Recipe → Prop
  | first (inferred : Recipe) : Rounds toml file (merge file inferred)
  | again {effective after : Recipe} {gaps : List Gap} (h : Rounds toml file effective)
    (hgaps : ∀ gap ∈ gaps, gap.Safe) (hread : parse toml (render effective gaps) = some after)
    (inferred : Recipe) : Rounds toml file (merge after inferred)

/-- A file without the stand-ins, which no section writes. -/
def withoutStandIns (file : Recipe) : Recipe := { file with env := { file.env with standIn := .empty } }

theorem keeps_withoutStandIns {file effective : Recipe} (h : Keeps file effective) :
    Keeps (withoutStandIns file) effective := by
  have henv : merge (withoutStandIns file).env effective.env = effective.env := by
    have hall : merge file.env effective.env = effective.env := congrArg Recipe.env h
    apply Env.ext
    · exact (congrArg Env.requiredLocal hall :)
    · exact (congrArg Env.generated hall :)
    · exact (congrArg Env.secrets hall :)
    · rfl
  have hrest : merge (withoutStandIns file) effective =
      { merge file effective with env := merge (withoutStandIns file).env effective.env } := rfl
  have hkept : merge file effective = effective := h
  rw [Keeps, hrest, hkept, henv]

/-- Assumes: the reader takes the TOML that a program writes. -/
theorem keeps_of_rounds {toml : Text → Option Document}
    (htoml : ∀ text tables, Toml.read text = some tables → toml text = some tables) {file effective : Recipe}
    (h : Rounds toml file effective) : Keeps (withoutStandIns file) effective := by
  induction h with
  | first inferred => exact keeps_withoutStandIns (keeps_merge file inferred)
  | @again effective after gaps _ hgaps hread inferred ih =>
    rw [parse_render htoml hgaps, Option.some_inj] at hread
    subst hread
    exact ((keeps_written_iff ih).mpr rfl).merge inferred

/-- Merging is associative and the empty recipe is its unit; what a file sets is set so in the effective
recipe, and but for the stand-ins in every effective recipe that comes of it over any rounds. -/
theorem keys_kept {toml : Text → Option Document}
    (htoml : ∀ text tables, Toml.read text = some tables → toml text = some tables) :
    (∀ first second third : Recipe,
      merge (merge first second) third = merge first (merge second third)) ∧
    (∀ recipe : Recipe, merge unset recipe = recipe ∧ merge recipe unset = recipe) ∧
    (∀ file inferred : Recipe, settings file ++ standIns file ⊆
      settings (merge file inferred) ++ standIns (merge file inferred)) ∧
    ∀ file effective : Recipe, Rounds toml file effective → settings file ⊆ settings effective := by
  refine ⟨LawfulMerge.assoc, fun recipe ↦ ⟨LawfulMerge.unset_merge recipe, LawfulMerge.merge_unset recipe⟩,
    fun file inferred setting hsetting ↦ ?_, fun file effective h ↦ ?_⟩
  · have hkeeps := keeps_merge file inferred
    rcases List.mem_append.mp hsetting with hhere | hstandIn
    · exact List.mem_append_left _ (settings_subset hkeeps hhere)
    · exact List.mem_append_right _ (standIns_subset hkeeps hstandIn)
  · show settings (withoutStandIns file) ⊆ settings effective
    exact settings_subset (keeps_of_rounds htoml h)

theorem keys_kept_of_read : (∀ first second third : Recipe,
      merge (merge first second) third = merge first (merge second third)) ∧
    (∀ recipe : Recipe, merge unset recipe = recipe ∧ merge recipe unset = recipe) ∧
    (∀ file inferred : Recipe, settings file ++ standIns file ⊆
      settings (merge file inferred) ++ standIns (merge file inferred)) ∧
    ∀ file effective : Recipe, Rounds Toml.read file effective → settings file ⊆ settings effective :=
  keys_kept fun _ _ ↦ id

/-- A file that sets its shared services to none. -/
def noShared : Text := "[services]\nshared = []\n".toList

/-- What is inferred of a project with one service. -/
def oneShared : Recipe :=
  { (unset : Recipe) with services := { (unset : Services) with shared := [⟨"redis".toList, rfl⟩] } }

/-- The empty list of a file gives way to what is inferred. -/
theorem empty_replaced : ¬∀ (text : Text) (tables : Document) (file inferred : Recipe),
    Toml.read text = some tables → parse Toml.read text = some file → ∀ items : List Text,
      ⟨["services".toList], [("shared".toList, .strings items)]⟩ ∈ tables →
        (merge file inferred).services.shared.map Scalar.text = items := by
  intro h
  have hread : Toml.read noShared =
      some [⟨[], []⟩, ⟨["services".toList], [("shared".toList, .strings [])]⟩] := by
    decide +kernel
  have hparse : parse Toml.read noShared = some unset := by
    rw [parse, hread]
    rfl
  have hnone := h noShared _ unset oneShared hread hparse []
    (List.mem_cons_of_mem _ List.mem_cons_self)
  exact List.cons_ne_nil _ _ hnone

/-! ### Writing the file again -/

/-- Whether a recipe answers a gap, so that it is no longer one. -/
def GapKey.isAnsweredBy (recipe : Recipe) : GapKey → Bool
  | toolchain => !recipe.toolchain.rows.isEmpty
  | db => recipe.db.migrationsDir.isSome
  | services => !recipe.services.shared.isEmpty || !recipe.services.perUnit.isEmpty
  | envRequiredLocal => !recipe.env.requiredLocal.isEmpty

/-- What `nodal init` would write, and what it would leave for a person. -/
structure InitPlan where
  contents : Text
  gaps : List Gap
  existing : Option Text
  hooks : Hooks

/-- What `nodal init` should write for a project with this file, of which this was inferred. -/
def planInit (toml : Text → Option Document) (proposed : Recipe × List Gap) (file : Option Text) :
    Option InitPlan := do
  let explicit ← file.elim (some unset) (parse toml)
  let recipe := merge explicit proposed.1
  let gaps := proposed.2.filter (!·.key.isAnsweredBy recipe)
  return ⟨render recipe gaps, gaps, file, recipe.hooks⟩

/-- Over the file that a plan writes, what is planned is the same. -/
theorem planInit_again {toml : Text → Option Document}
    (htoml : ∀ text tables, Toml.read text = some tables → toml text = some tables)
    {proposed : Recipe × List Gap} (hgaps : ∀ gap ∈ proposed.2, gap.Safe) {file : Option Text}
    {plan : InitPlan} (h : planInit toml proposed file = some plan) :
    planInit toml proposed (some plan.contents) = some { plan with existing := some plan.contents } := by
  obtain ⟨explicit, -, hplan⟩ := Option.bind_eq_some_iff.mp h
  obtain rfl := Option.some_inj.mp hplan
  have hkept : merge (merge explicit proposed.1) proposed.1 = merge explicit proposed.1 := by
    rw [LawfulMerge.assoc, LawfulMerge.merge_self]
  clear h hplan
  generalize merge explicit proposed.1 = recipe at hkept
  have hread : parse toml (render recipe (proposed.2.filter (!·.key.isAnsweredBy recipe))) =
      some (written recipe) :=
    parse_render htoml (fun gap hgap ↦ hgaps gap (List.mem_of_mem_filter hgap)) recipe
  -- It is read but for its stand-ins, which no gap asks for and no section writes.
  have hmerged : merge (written recipe) proposed.1 = { merge recipe proposed.1 with
      backend := some recipe.theBackend
      monorepo := some recipe.isMonorepo
      env := { (merge recipe proposed.1).env with standIn := proposed.1.env.standIn } } := rfl
  rw [hkept] at hmerged
  show (parse toml _).bind _ = _
  rw [hread, Option.bind_some, hmerged]
  rfl

/-- `planInit_again` where there is no file yet. -/
theorem planInit_again_none : ∃ plan, planInit Toml.read (oneShared, [⟨.db, none, []⟩]) none = some plan ∧
    planInit Toml.read (oneShared, [⟨.db, none, []⟩]) (some plan.contents) =
      some { plan with existing := some plan.contents } :=
  ⟨_, rfl, planInit_again (fun _ _ ↦ id) (List.forall_mem_singleton.mpr ⟨nofun, nofun⟩)
    (show planInit _ _ none = _ from rfl)⟩

end Nodal.Recipes
