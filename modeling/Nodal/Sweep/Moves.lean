import Nodal.Sweep.Rows

/-!
# Moving a unit to another state

`store/units.rs`, `store/environments.rs`: a statement that writes the state of one row, whatever state
the row is in. It answers whether there was such a row, and the registry refuses it where the unit would
take its handle up again from another that has it (`updateStatus_eq_ok`).
-/

set_option autoImplicit false

namespace Nodal.Sweep

open Foundation Locks

namespace Registry

variable (registry : Registry)

/-! ### The statements -/

/-- Another unit that has a unit's handle. -/
def holder (unit : UnitRow) : Option UnitRow :=
  registry.units.values.find? fun other ↦ other.projectId = unit.projectId ∧ other.slug = unit.slug ∧
    other.status ≠ .archived ∧ other.id ≠ unit.id

variable {registry} in
theorem holder_eq_none_iff {unit : UnitRow} : registry.holder unit = none ↔
    ∀ other ∈ registry.units.values, other.projectId = unit.projectId → other.slug = unit.slug →
      other.status ≠ .archived → other.id = unit.id := by
  rw [holder, List.find?_eq_none]
  refine forall₂_congr fun other _ ↦ ?_
  simp only [decide_eq_true_eq, not_and, not_not]

/-- The tables with the state of one unit written. -/
def withStatus (unit : UnitRow) (status : UnitStatus) (now : Timestamp)
    (hfound : registry.units.get? unit.id = some unit)
    (hfree : status = .archived ∨ registry.holder unit = none) : Registry :=
  { registry with
    units := registry.units.modify unit.id fun row ↦ { row with status, updatedAt := now }
    units_keyed := by
      rintro ⟨id, row⟩ hrow
      obtain ⟨old, hold, heq | heq⟩ := Table.mem_rows_modify hrow
      all_goals
        rw [heq]
        exact registry.units_keyed (id, old) hold
    unit_project := by
      intro row hrow
      obtain ⟨id, hid⟩ := Table.mem_values_iff.mp hrow
      obtain ⟨old, hold, heq | heq⟩ := Table.mem_rows_modify (Table.mem_rows_iff.mpr hid)
      all_goals
        rw [heq]
        exact registry.unit_project old (Table.mem_values_iff.mpr ⟨id, Table.mem_rows_iff.mp hold⟩)
    unit_slug := by
      -- A row of the new table is one of the old, or the one that was written.
      have hcases : ∀ row ∈ (registry.units.modify unit.id
          fun row ↦ { row with status, updatedAt := now }).values,
          row ∈ registry.units.values ∧ row.id ≠ unit.id ∨
            row = { unit with status, updatedAt := now } := by
        intro row hrow
        obtain ⟨id, hid⟩ := Table.mem_values_iff.mp hrow
        by_cases hwritten : id = unit.id
        · subst hwritten
          rw [Table.get?_modify_self, hfound] at hid
          exact .inr (Option.some.inj hid).symm
        · rw [Table.get?_modify_of_ne hwritten] at hid
          exact .inl ⟨Table.mem_values_iff.mpr ⟨id, hid⟩, units_get?_id hid ▸ hwritten⟩
      have hother : ∀ row ∈ registry.units.values, row.id ≠ unit.id → row.projectId = unit.projectId →
          row.slug = unit.slug → row.status ≠ .archived → status ≠ .archived → False := by
        intro row hrow hne hproject hslug hheld hstatus
        rcases hfree with harchived | hnone
        · exact hstatus harchived
        · exact hne (holder_eq_none_iff.mp hnone row hrow hproject hslug hheld)
      intro row hrow row' hrow' hproject hslug hheld hheld'
      rcases hcases row hrow with ⟨hrow, hne⟩ | rfl
      · rcases hcases row' hrow' with ⟨hrow', -⟩ | rfl
        · exact registry.unit_slug row hrow row' hrow' hproject hslug hheld hheld'
        · exact (hother row hrow hne hproject hslug hheld hheld').elim
      · rcases hcases row' hrow' with ⟨hrow', hne⟩ | rfl
        · exact (hother row' hrow' hne hproject.symm hslug.symm hheld' hheld).elim
        · rfl }

/-- Move a unit to another state, and say whether there is such a row. Nothing where the registry
refuses the row. No caller moves a unit back to `opened`, so the index of open branches is not asked. -/
def updateStatus (id : UnitId) (status : UnitStatus) (now : Timestamp) : Option (Bool × Registry) :=
  match hfound : registry.units.get? id with
  | none => some (false, registry)
  | some unit =>
    if hfree : status = .archived ∨ registry.holder unit = none then
      some (true, registry.withStatus unit status now (units_get?_id hfound ▸ hfound) hfree)
    else none

/-- Write the state of a materialisation. -/
def updateState (id : EnvId) (state : EnvState) : Registry :=
  { registry with
    environments := registry.environments.modify id fun row ↦ { row with state }
    environments_keyed := by
      rintro ⟨id, row⟩ hrow
      obtain ⟨old, hold, heq | heq⟩ := Table.mem_rows_modify hrow
      all_goals
        rw [heq]
        exact registry.environments_keyed (id, old) hold
    environment_attempt := by
      have hcases : ∀ row ∈ (registry.environments.modify id fun row ↦ { row with state }).values,
          ∃ old ∈ registry.environments.values,
            old.id = row.id ∧ old.unitId = row.unitId ∧ old.attempt = row.attempt := by
        intro row hrow
        obtain ⟨key, hkey⟩ := Table.mem_values_iff.mp hrow
        obtain ⟨old, hold, heq | heq⟩ := Table.mem_rows_modify (Table.mem_rows_iff.mpr hkey)
        all_goals
          rw [heq]
          exact ⟨old, Table.mem_values_iff.mpr ⟨key, Table.mem_rows_iff.mp hold⟩, rfl, rfl, rfl⟩
      intro row hrow row' hrow' hunit hattempt
      obtain ⟨old, hold, hid, hof, hnumber⟩ := hcases row hrow
      obtain ⟨old', hold', hid', hof', hnumber'⟩ := hcases row' hrow'
      rw [← hid, ← hid']
      exact registry.environment_attempt old hold old' hold' (by rw [hof, hof', hunit])
        (by rw [hnumber, hnumber', hattempt]) }

/-- Whether the tables take a new unit and its home. -/
def Admits (unit : UnitRow) (environment : Environment) : Prop :=
  registry.units.get? unit.id = none ∧ (registry.projects.get? unit.projectId).isSome = true ∧
    registry.holder unit = none ∧ registry.environments.get? environment.id = none ∧
    ∀ other ∈ registry.environments.values, other.unitId = environment.unitId →
      other.attempt ≠ environment.attempt

instance (unit : UnitRow) (environment : Environment) : Decidable (registry.Admits unit environment) :=
  inferInstanceAs (Decidable (_ ∧ _))

/-- The tables with a new unit and its home. -/
def inserted (unit : UnitRow) (environment : Environment) (h : registry.Admits unit environment) :
    Registry :=
  { registry with
    units := registry.units.set unit.id unit
    environments := registry.environments.set environment.id environment
    units_keyed := by
      rintro ⟨id, row⟩ hrow
      rcases Table.mem_rows_set hrow with ⟨rfl, rfl⟩ | hrow
      · rfl
      · exact registry.units_keyed _ hrow
    environments_keyed := by
      rintro ⟨id, row⟩ hrow
      rcases Table.mem_rows_set hrow with ⟨rfl, rfl⟩ | hrow
      · rfl
      · exact registry.environments_keyed _ hrow
    unit_project := by
      intro row hrow
      rcases Table.mem_values_set hrow with rfl | hrow
      · exact h.2.1
      · exact registry.unit_project row hrow
    unit_slug := by
      have hfree := holder_eq_none_iff.mp h.2.2.1
      intro row hrow row' hrow' hproject hslug hheld hheld'
      rcases Table.mem_values_set hrow with rfl | hold
      · rcases Table.mem_values_set hrow' with rfl | hold'
        · rfl
        · exact (hfree row' hold' hproject.symm hslug.symm hheld').symm
      · rcases Table.mem_values_set hrow' with rfl | hold'
        · exact hfree row hold hproject hslug hheld
        · exact registry.unit_slug row hold row' hold' hproject hslug hheld hheld'
    environment_attempt := by
      have hnone := h.2.2.2.2
      intro row hrow row' hrow' hunit hattempt
      rcases Table.mem_values_set hrow with rfl | hold
      · rcases Table.mem_values_set hrow' with rfl | hold'
        · rfl
        · exact absurd hattempt.symm (hnone row' hold' hunit.symm)
      · rcases Table.mem_values_set hrow' with rfl | hold'
        · exact absurd hattempt (hnone row hold hunit)
        · exact registry.environment_attempt row hold row' hold' hunit hattempt }

/-- Record a new unit with its home. Nothing where the registry refuses one of the rows. -/
def insert (unit : UnitRow) (environment : Environment) : Option Registry :=
  if h : registry.Admits unit environment then some (registry.inserted unit environment h) else none

/-! ### What they write -/

/-- The state of a unit, where the registry holds it. -/
def statusOf (id : UnitId) : Option UnitStatus := (registry.units.get? id).map UnitRow.status

variable {registry} {registry' : Registry} {id other : UnitId} {status : UnitStatus} {now : Timestamp}
  {environment : EnvId} {state : EnvState} {found : Bool}

/-- A statement that is carried out writes the row of its unit and no other. -/
theorem updateStatus_eq_ok (h : registry.updateStatus id status now = some (found, registry')) :
    found = (registry.units.get? id).isSome ∧ registry'.environments = registry.environments ∧
      registry'.projects = registry.projects ∧
      registry'.units = registry.units.modify id fun row ↦ { row with status, updatedAt := now } := by
  unfold updateStatus at h
  split at h
  · next hnone =>
    cases h
    simp [Table.modify, hnone]
  · next unit hfound =>
    split at h
    · cases h
      simp only [hfound, withStatus, units_get?_id hfound, Option.isSome_some, and_self]
    · cases h

/-- A statement that found no row changes nothing. -/
theorem eq_of_updateStatus_false (h : registry.updateStatus id status now = some (false, registry')) :
    registry' = registry := by
  unfold updateStatus at h
  split at h
  · cases h
    rfl
  · split at h <;> cases h

theorem statusOf_updateStatus (h : registry.updateStatus id status now = some (found, registry')) :
    registry'.statusOf other =
      if other = id then (registry.statusOf id).map fun _ ↦ status else registry.statusOf other := by
  obtain ⟨-, -, -, hunits⟩ := updateStatus_eq_ok h
  unfold statusOf
  rw [hunits]
  split
  · next heq =>
    rw [heq, Table.get?_modify_self, Option.map_map, Option.map_map]
    rfl
  · next hne => rw [Table.get?_modify_of_ne hne]

@[simp] theorem statusOf_updateState : (registry.updateState environment state).statusOf id =
    registry.statusOf id := rfl

/-- A materialisation whose state was written was there, and only that one has it written. -/
theorem mem_environments_updateState {row : Environment}
    (h : row ∈ (registry.updateState environment state).environments.values) :
    ∃ old ∈ registry.environments.values, row.id = old.id ∧ row.unitId = old.unitId ∧
      (old.id = environment → row.state = state) ∧ (old.id ≠ environment → row = old) := by
  obtain ⟨key, hkey⟩ := Table.mem_values_iff.mp h
  by_cases hwritten : key = environment
  · subst hwritten
    rw [updateState, Table.get?_modify_self, Option.map_eq_some_iff] at hkey
    obtain ⟨old, hold, rfl⟩ := hkey
    have hid : old.id = key := registry.environments_keyed _ (Table.mem_rows_iff.mpr hold)
    exact ⟨old, Table.mem_values_iff.mpr ⟨key, hold⟩, rfl, rfl, fun _ ↦ rfl, fun hne ↦ absurd hid hne⟩
  · rw [updateState, Table.get?_modify_of_ne hwritten] at hkey
    have hid : row.id = key := registry.environments_keyed _ (Table.mem_rows_iff.mpr hkey)
    exact ⟨row, Table.mem_values_iff.mpr ⟨key, hkey⟩, rfl, rfl,
      fun heq ↦ absurd (hid.symm.trans heq) hwritten, fun _ ↦ rfl⟩

/-- A materialisation stays the unit's it was of, whatever state is written. -/
theorem environments_updateState {row : Environment} (h : row ∈ registry.environments.values) :
    ∃ row' ∈ (registry.updateState environment state).environments.values,
      row'.id = row.id ∧ row'.unitId = row.unitId := by
  obtain ⟨key, hkey⟩ := Table.mem_values_iff.mp h
  by_cases hwritten : key = environment
  · refine ⟨{ row with state }, Table.mem_values_iff.mpr ⟨key, ?_⟩, rfl, rfl⟩
    rw [updateState, hwritten, Table.get?_modify_self, ← hwritten, hkey]
    rfl
  · refine ⟨row, Table.mem_values_iff.mpr ⟨key, ?_⟩, rfl, rfl⟩
    rw [updateState, Table.get?_modify_of_ne hwritten]
    exact hkey

/-- A new unit has the status it was made with, and every other the one it had. -/
theorem statusOf_inserted {unit : UnitRow} {home : Environment} {h : registry.Admits unit home} :
    (registry.inserted unit home h).statusOf other =
      if other = unit.id then some unit.status else registry.statusOf other := by
  rw [statusOf, inserted, Table.get?_set]
  split
  · rfl
  · rfl

/-- The homes after a unit was made are those before, and its own. -/
theorem mem_environments_inserted_iff {unit : UnitRow} {home row : Environment}
    {h : registry.Admits unit home} : row ∈ (registry.inserted unit home h).environments.values ↔
      row = home ∨ row ∈ registry.environments.values := by
  constructor
  · exact Table.mem_values_set
  · rintro (rfl | hrow)
    · exact Table.mem_values_iff.mpr ⟨row.id, Table.get?_set_self⟩
    · obtain ⟨key, hkey⟩ := Table.mem_values_iff.mp hrow
      refine Table.mem_values_iff.mpr ⟨key, ?_⟩
      rw [inserted, Table.get?_set_of_ne ?_]
      · exact hkey
      · rintro rfl
        exact absurd (h.2.2.2.1.symm.trans hkey) (by simp)

/-- A statement is refused only where another unit has the handle. -/
theorem updateStatus_eq_none_iff : registry.updateStatus id status now = none ↔
    status ≠ .archived ∧ ∃ unit, registry.units.get? id = some unit ∧ registry.holder unit ≠ none := by
  unfold updateStatus
  split
  · next hnone => simp [hnone]
  · next unit hfound =>
    split
    · next hfree => simpa [hfound, imp_iff_not_or] using hfree
    · next hheld =>
      rw [not_or] at hheld
      exact ⟨fun _ ↦ ⟨hheld.1, unit, hfound, hheld.2⟩, fun _ ↦ rfl⟩

end Registry

end Nodal.Sweep
