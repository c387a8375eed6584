import Nodal.Foundation.Contract
import Nodal.Sweep.Moves

/-!
# Commands that move one unit beside one another

`lifecycle/ops/done.rs`, `lifecycle/ops/merge.rs`, `lifecycle/states.rs`, `lifecycle/ops/reclaim.rs`: each
reads the rows of its unit, works for as long as it takes, and writes a status. What it reads keeps it
from a unit whose home has gone; what it writes says nothing of the status it writes over. A sweep, and
the last stage of a merge, give a unit back by a reclaim, which reads the rows again. A command that is
taken over by a later process goes on with the rows it began with, so it is one command here.

An archived unit stays archived, and a merged one is not put up for review, along every run no command of
which is overtaken between its reading and its write (`kept_of_timely`).
-/

set_option autoImplicit false

namespace Nodal.Archived

open Foundation Foundation.Attempt Sweep
open Locks (UnitId Timestamp)

/-! ### The commands -/

/-- The commands that write the status of a unit and leave its home where it is. -/
inductive Command
  | done
  | merge
  | settle
  deriving DecidableEq, Repr

/-- The status a command writes. -/
def Command.status : Command → UnitStatus
  | done => .review
  | merge | settle => .merged

/-- One transaction, or what happens between two. -/
inductive Effect
  /-- The row of the unit a target names. -/
  | unitNamed (target : UnitId)
  /-- The current materialisation of a unit. -/
  | latestForUnit (unit : UnitId)
  /-- Both rows, in one transaction. -/
  | claimed (target : UnitId)
  /-- A push, a merge, a reading of the remote, a move of the home. -/
  | work
  | update (command : Command) (unit : UnitRow)
  | archive (unit : UnitRow) (environment : Environment)
  | create (unit : UnitRow) (environment : Environment)

namespace Effect

/-- What an effect is answered. A write answers whether it was made. -/
def Answer : Effect → Type
  | unitNamed _ => Option UnitRow
  | latestForUnit _ => Option Environment
  | claimed _ => Option (UnitRow × Option Environment)
  | work | update _ _ | archive _ _ | create _ _ => Bool

/-- What the outside chooses: whether the work came off, and when a write is made, if it is. -/
def Choice : Effect → Type
  | unitNamed _ | latestForUnit _ | claimed _ => Unit
  | work => Bool
  | update _ _ | archive _ _ | create _ _ => Option Timestamp

end Effect

/-- The registry after a write, where it took it. -/
def written (registry : Registry) : Option Registry → Bool × Registry
  | some registry' => (true, registry')
  | none => (false, registry)

/-- What one effect answers and does. -/
def perform : (effect : Effect) → effect.Choice → Registry → effect.Answer × Registry
  | .unitNamed target, _, s => (s.units.get? target, s)
  | .latestForUnit unit, _, s => (s.latestForUnit unit, s)
  | .claimed target, _, s =>
    ((s.units.get? target).map fun unit ↦ (unit, s.latestForUnit unit.id), s)
  | .work, went, s => (went, s)
  | .update command unit, now, s =>
    written s (now.bind fun now ↦ (s.updateStatus unit.id command.status now).map Prod.snd)
  | .archive unit environment, now, s =>
    written s (now.bind fun now ↦
      ((s.updateState environment.id .absent).updateStatus unit.id .archived now).map Prod.snd)
  | .create unit environment, now, s =>
    written s (now.bind fun now ↦ s.insert { unit with status := .opened, updatedAt := now }
      { environment with unitId := unit.id })

inductive Error
  | unitNotFound
  | unitNotMaterialized
  | alreadyReclaimed
  | refused
  deriving DecidableEq, Repr

abbrev Commanded : Type → Type := Attempt Effect Effect.Answer Error

/-- The unit a target names. -/
def named (target : UnitId) : Commanded UnitRow := do
  let found : Option UnitRow ← call (Effect.unitNamed target)
  match found with
  | some unit => pure unit
  | none => throw .unitNotFound

/-- The unit's newest materialisation, refusing one there is nothing left of. -/
def homeOf (found : Option Environment) : Commanded Environment :=
  match found with
  | none => throw .unitNotMaterialized
  | some environment =>
    if environment.state = .absent then throw .alreadyReclaimed else pure environment

/-- Do the work, and write it down once it came off. -/
def recorded (write : Effect) : Commanded Unit := do
  let went : Bool ← call Effect.work
  if went then do
    let _ ← call write
    pure ()
  else throw .refused

/-- Push the unit's branch, and put it up for review. -/
def done (target : UnitId) : Commanded Unit := do
  let unit ← named target
  let found : Option Environment ← call (Effect.latestForUnit unit.id)
  let _ ← homeOf found
  recorded (.update .done unit)

/-- Merge the unit's branch. One that stops for a conflict has not come off. -/
def merge (target : UnitId) : Commanded Unit := do
  let unit ← named target
  let found : Option Environment ← call (Effect.latestForUnit unit.id)
  let _ ← homeOf found
  recorded (.update .merge unit)

/-- Record a unit as merged whose work has landed. -/
def settle (target : UnitId) : Commanded Unit := do
  let unit ← named target
  if unit.status = .opened ∨ unit.status = .review then recorded (.update .settle unit)
  else pure ()

/-- Give a unit's home back. -/
def reclaim (target : UnitId) : Commanded Unit := do
  let found : Option (UnitRow × Option Environment) ← call (Effect.claimed target)
  match found with
  | none => throw .unitNotFound
  | some (unit, found) => do
    let environment ← homeOf found
    recorded (.archive unit environment)

/-- Make a unit with its home. -/
def create (unit : UnitRow) (environment : Environment) : Commanded Unit :=
  recorded (.create unit environment)

/-- What a process was started for. -/
inductive Job
  | done (target : UnitId)
  | merge (target : UnitId)
  | settle (target : UnitId)
  | reclaim (target : UnitId)
  | create (unit : UnitRow) (environment : Environment)

def Job.program : Job → Commanded Unit
  | done target => Archived.done target
  | merge target => Archived.merge target
  | settle target => Archived.settle target
  | reclaim target => Archived.reclaim target
  | create unit environment => Archived.create unit environment

/-- Any number of commands over one registry. -/
def machine (ι : Type) :
    Machine ι Job Registry Effect Effect.Answer Effect.Choice (Except Error Unit) where
  program _ job := job.program.run
  enter _ _ s := some s
  leave _ s := s
  perform _ effect choice s := perform effect choice s

/-! ### What a run keeps -/

variable {ι : Type}

/-- The commands, each with what it has left to do, and the registry. -/
abbrev Running (ι : Type) : Type := Config ι Registry Effect Effect.Answer (Except Error Unit)

abbrev Step (ι : Type) : Type := Label ι Job Effect Effect.Choice

/-- A registry before the first unit was made in it. -/
def Starts (registry : Registry) : Prop := registry.units.rows = [] ∧ registry.environments.rows = []

/-- An archived unit stays archived, a merged one is not put up for review, and no two units that are not
archived have one handle, at every point of a run. -/
structure Kept [DecidableEq ι] (registry : Registry) (labels : List (Step ι)) : Prop where
  archived : ∀ before middle after c c', labels = before ++ middle ++ after →
    (machine ι).exec ⟨registry, fun _ ↦ none⟩ before = some c → (machine ι).exec c middle = some c' →
      ∀ id, c.world.statusOf id = some .archived → c'.world.statusOf id = some .archived
  merged : ∀ before label after c c', labels = before ++ label :: after →
    (machine ι).exec ⟨registry, fun _ ↦ none⟩ before = some c → (machine ι).next c label = some c' →
      ∀ id, c.world.statusOf id = some .merged → c'.world.statusOf id ≠ some .review
  handles : ∀ before after c, labels = before ++ after →
    (machine ι).exec ⟨registry, fun _ ↦ none⟩ before = some c →
      ∀ u ∈ c.world.units.values, ∀ u' ∈ c.world.units.values, u.projectId = u'.projectId →
        u.slug = u'.slug → u.status ≠ .archived → u'.status ≠ .archived → u = u'

/-- A unit was moved to a status after its row was read. -/
def Overtaken (registry : Registry) (unit : UnitRow) (status : UnitStatus) : Prop :=
  unit.status ≠ status ∧ registry.statusOf unit.id = some status

instance (registry : Registry) (unit : UnitRow) (status : UnitStatus) :
    Decidable (Overtaken registry unit status) := inferInstanceAs (Decidable (_ ∧ _))

/-- The unit of a write was not archived since its row was read. One that is put up for review was not
merged when its row was read, nor since. -/
def InTime (registry : Registry) : Effect → Prop
  | .update command unit => ¬Overtaken registry unit .archived ∧
      (command = .done → unit.status ≠ .merged ∧ ¬Overtaken registry unit .merged)
  | _ => True

instance (registry : Registry) : (effect : Effect) → Decidable (InTime registry effect)
  | .update _ _ => inferInstanceAs (Decidable (_ ∧ _))
  | .unitNamed _ | .latestForUnit _ | .claimed _ | .work | .archive _ _ | .create _ _ => .isTrue trivial

/-- No command is overtaken. -/
def Timely (c : Running ι) : Step ι → Prop
  | .act i _ => match c.running i with
    | some (.perform effect _) => InTime c.world effect
    | _ => True
  | _ => True

instance (c : Running ι) : (label : Step ι) → Decidable (Timely c label)
  | .act i _ => match h : c.running i with
    | some (.perform effect _) => decidable_of_iff (InTime c.world effect) (by simp [Timely, h])
    | some (.done _) => .isTrue (by simp [Timely, h])
    | none => .isTrue (by simp [Timely, h])
  | .enter _ _ | .leave _ => .isTrue trivial

/-! ### What a registry keeps -/

/-- An archived unit has no home left, and no unit has two. -/
structure Ended (s : Registry) : Prop where
  archived : ∀ id, s.statusOf id = some .archived →
    ∀ e ∈ s.environments.values, e.unitId = id → e.state = .absent
  single : ∀ e ∈ s.environments.values, ∀ e' ∈ s.environments.values, e.unitId = e'.unitId → e.id = e'.id
  homed : ∀ e ∈ s.environments.values, s.statusOf e.unitId ≠ none

/-- What the others leave of a registry: the archived units, and whose home each one is. -/
structure Later (s t : Registry) : Prop where
  archived : ∀ id, s.statusOf id = some .archived → t.statusOf id = some .archived
  homes : ∀ e ∈ s.environments.values, ∃ e' ∈ t.environments.values, e'.id = e.id ∧ e'.unitId = e.unitId

/-- What a command knows of the rows it writes. -/
def Owes (s : Registry) : Effect → Prop
  | .update _ unit => unit.status ≠ .archived
  | .archive unit environment =>
    ∃ e ∈ s.environments.values, e.id = environment.id ∧ e.unitId = unit.id
  | _ => True

/-- What a write leaves of the registry it is made over. -/
structure Leaves (s s' : Registry) : Prop where
  ended : Ended s'
  later : Later s s'
  merged : ∀ id, s.statusOf id = some .merged → s'.statusOf id ≠ some .review

variable {s s' t u : Registry} {unit : UnitRow} {environment : Environment} {command : Command}
  {now : Timestamp} {found : Bool}

theorem Later.refl : Later s s := ⟨fun _ h ↦ h, fun e he ↦ ⟨e, he, rfl, rfl⟩⟩

theorem Later.trans (h : Later s t) (h' : Later t u) : Later s u := by
  refine ⟨fun id hid ↦ h'.archived id (h.archived id hid), fun e he ↦ ?_⟩
  obtain ⟨e', he', hid, hunit⟩ := h.homes e he
  obtain ⟨e'', he'', hid', hunit'⟩ := h'.homes e' he'
  exact ⟨e'', he'', hid'.trans hid, hunit'.trans hunit⟩

theorem Leaves.refl (h : Ended s) : Leaves s s :=
  ⟨h, Later.refl, fun _ hmerged hreview ↦ nomatch hmerged.symm.trans hreview⟩

/-- A status written over a unit that is not archived leaves what is archived. A review is written over
no merged unit. -/
theorem leaves_update (h : Ended s) (hheld : s.statusOf unit.id ≠ some .archived)
    (hmerged : command = .done → s.statusOf unit.id ≠ some .merged)
    (hwrite : s.updateStatus unit.id command.status now = some (found, s')) : Leaves s s' := by
  obtain ⟨-, henvironments, -, -⟩ := Registry.updateStatus_eq_ok hwrite
  have hstatus := @Registry.statusOf_updateStatus s s' unit.id
  have hback : ∀ id, s'.statusOf id = some .archived → s.statusOf id = some .archived := by
    intro id hid
    rw [hstatus hwrite] at hid
    split at hid
    · obtain ⟨_, -, heq⟩ := Option.map_eq_some_iff.mp hid
      cases command <;> cases heq
    · exact hid
  refine ⟨⟨fun id hid ↦ ?_, ?_, fun e he ↦ ?_⟩, ⟨fun id hid ↦ ?_, fun e he ↦ ?_⟩, fun id hid ↦ ?_⟩
  · rw [henvironments]
    exact h.archived id (hback id hid)
  · rw [henvironments]
    exact h.single
  · rw [henvironments] at he
    rw [hstatus hwrite]
    split
    · next heq =>
      have hsome := h.homed e he
      rw [heq] at hsome
      simpa using hsome
    · exact h.homed e he
  · rw [hstatus hwrite]
    split
    · next heq => exact absurd (heq ▸ hid) hheld
    · exact hid
  · rw [henvironments]
    exact ⟨e, he, rfl, rfl⟩
  · rw [hstatus hwrite]
    split
    · next heq =>
      intro hreview
      obtain ⟨_, -, heq'⟩ := Option.map_eq_some_iff.mp hreview
      cases command with
      | done => exact hmerged rfl (heq ▸ hid)
      | merge | settle => cases heq'
    · rw [hid]
      exact fun heq ↦ nomatch heq

/-- A reclaim leaves its unit with no home. -/
theorem leaves_archive (h : Ended s)
    (hhome : ∃ e ∈ s.environments.values, e.id = environment.id ∧ e.unitId = unit.id)
    (hwrite : (s.updateState environment.id .absent).updateStatus unit.id .archived now =
      some (found, s')) : Leaves s s' := by
  obtain ⟨-, henvironments, -, -⟩ := Registry.updateStatus_eq_ok hwrite
  have hstatus : ∀ id, s'.statusOf id =
      if id = unit.id then (s.statusOf unit.id).map fun _ ↦ .archived else s.statusOf id := by
    intro id
    rw [Registry.statusOf_updateStatus hwrite, Registry.statusOf_updateState,
      Registry.statusOf_updateState]
  refine ⟨⟨fun id hid e he hunit ↦ ?_, fun e he e' he' hunit ↦ ?_, fun e he ↦ ?_⟩,
    ⟨fun id hid ↦ ?_, fun e he ↦ ?_⟩, fun id hid ↦ ?_⟩
  · rw [henvironments] at he
    obtain ⟨old, hold, -, hof, habsent, hsame⟩ := Registry.mem_environments_updateState he
    by_cases hwritten : old.id = environment.id
    · exact habsent hwritten
    · rw [hsame hwritten] at hunit ⊢
      refine h.archived id ?_ old hold hunit
      rw [hstatus] at hid
      split at hid
      · next heq =>
        -- the home of the unit is the one that was read
        obtain ⟨home, hhome, hid', hof'⟩ := hhome
        exact absurd ((h.single old hold home hhome (by rw [hunit, heq, hof'])).trans hid') hwritten
      · exact hid
  · rw [henvironments] at he he'
    obtain ⟨old, hold, hid, hof, -⟩ := Registry.mem_environments_updateState he
    obtain ⟨old', hold', hid', hof', -⟩ := Registry.mem_environments_updateState he'
    rw [hid, hid']
    exact h.single old hold old' hold' (by rw [← hof, ← hof', hunit])
  · rw [henvironments] at he
    obtain ⟨old, hold, -, hof, -⟩ := Registry.mem_environments_updateState he
    rw [hstatus, hof]
    split
    · next heq =>
      have hsome := h.homed old hold
      rw [heq] at hsome
      simpa using hsome
    · exact h.homed old hold
  · rw [hstatus]
    split
    · next heq =>
      rw [← heq, hid]
      rfl
    · exact hid
  · rw [henvironments]
    exact Registry.environments_updateState he
  · rw [hstatus]
    split
    · intro hreview
      obtain ⟨_, -, heq⟩ := Option.map_eq_some_iff.mp hreview
      cases heq
    · rw [hid]
      exact fun heq ↦ nomatch heq

/-- A new unit has a home of its own, and leaves the others theirs. -/
theorem leaves_insert (h : Ended s) (hopened : unit.status = .opened)
    (hown : environment.unitId = unit.id) (hwrite : s.insert unit environment = some s') :
    Leaves s s' := by
  unfold Registry.insert at hwrite
  split at hwrite
  · next hadmits =>
    cases hwrite
    have hfresh : s.statusOf unit.id = none := by
      rw [Registry.statusOf, hadmits.1]
      rfl
    have hother : ∀ e ∈ s.environments.values, e.unitId ≠ unit.id :=
      fun e he heq ↦ h.homed e he (heq ▸ hfresh)
    refine ⟨⟨fun id hid e he hunit ↦ ?_, fun e he e' he' hunit ↦ ?_, fun e he ↦ ?_⟩,
      ⟨fun id hid ↦ ?_, fun e he ↦ ?_⟩, fun id hid ↦ ?_⟩
    · rw [Registry.statusOf_inserted] at hid
      split at hid
      · rw [hopened] at hid
        cases hid
      · next hne =>
        rcases Registry.mem_environments_inserted_iff.mp he with rfl | hold
        · exact absurd (hunit.symm.trans hown) hne
        · exact h.archived id hid e hold hunit
    · rcases Registry.mem_environments_inserted_iff.mp he with rfl | hold
      · rcases Registry.mem_environments_inserted_iff.mp he' with rfl | hold'
        · rfl
        · exact absurd (hunit.symm.trans hown) (hother e' hold')
      · rcases Registry.mem_environments_inserted_iff.mp he' with rfl | hold'
        · exact absurd (hunit.trans hown) (hother e hold)
        · exact h.single e hold e' hold' hunit
    · rw [Registry.statusOf_inserted]
      split
      · exact Option.some_ne_none _
      · next hne =>
        rcases Registry.mem_environments_inserted_iff.mp he with rfl | hold
        · exact absurd hown hne
        · exact h.homed e hold
    · rw [Registry.statusOf_inserted]
      split
      · next heq =>
        rw [heq, hfresh] at hid
        cases hid
      · exact hid
    · exact ⟨e, Registry.mem_environments_inserted_iff.mpr (.inr he), rfl, rfl⟩
    · rw [Registry.statusOf_inserted]
      split
      · rw [hopened]
        decide
      · rw [hid]
        decide
  · cases hwrite

/-- Everything an effect can leave. -/
theorem leaves_perform {effect : Effect} {choice : effect.Choice} (h : Ended s) (howes : Owes s effect)
    (hintime : InTime s effect) : Leaves s (perform effect choice s).2 := by
  have hwritten : ∀ after : Option Registry, (∀ s', after = some s' → Leaves s s') →
      Leaves s (written s after).2 := by
    intro after hafter
    cases after with
    | none => exact Leaves.refl h
    | some s' => exact hafter s' rfl
  cases effect with
  | unitNamed _ | latestForUnit _ | claimed _ | work => exact Leaves.refl h
  | update command unit =>
    refine hwritten _ fun s' hs' ↦ ?_
    obtain ⟨now, -, hafter⟩ := Option.bind_eq_some_iff.mp hs'
    obtain ⟨⟨found, _⟩, hwrite, rfl⟩ := Option.map_eq_some_iff.mp hafter
    obtain ⟨hheld, hreview⟩ := hintime
    refine leaves_update h (fun harchived ↦ hheld ⟨howes, harchived⟩) ?_ hwrite
    intro hdone hmerged
    exact (hreview hdone).2 ⟨(hreview hdone).1, hmerged⟩
  | archive unit environment =>
    refine hwritten _ fun s' hs' ↦ ?_
    obtain ⟨now, -, hafter⟩ := Option.bind_eq_some_iff.mp hs'
    obtain ⟨⟨found, _⟩, hwrite, rfl⟩ := Option.map_eq_some_iff.mp hafter
    exact leaves_archive h howes hwrite
  | create unit environment =>
    refine hwritten _ fun s' hs' ↦ ?_
    obtain ⟨now, -, hwrite⟩ := Option.bind_eq_some_iff.mp hs'
    exact leaves_insert h rfl rfl hwrite

/-! ### What a command does -/

/-- What a command may count on, and what it owes. -/
def contract (ι : Type) : Contract ι Registry Effect Effect.Choice where
  inv := Ended
  rely _ := Later
  rely_refl _ _ := Later.refl
  rely_trans _ _ _ _ := Later.trans
  assume _ _ _ _ := True
  pre _ effect s := Owes s effect

/-- A command that keeps the contract, whatever it ends with. -/
abbrev SafeCommand {β : Type} (i : ι) (p : Program Effect Effect.Answer β) (s : Registry) : Prop :=
  Safe (machine ι) (contract ι) i (fun _ _ ↦ True) p s

variable {i : ι}

theorem safe_recorded {write : Effect} (hwrite : ∀ t, Later s t → Owes t write) :
    SafeCommand i (recorded write).run s := by
  intro t hst _
  refine ⟨trivial, fun went _ ↦ ?_⟩
  cases went with
  | false => exact fun _ _ _ ↦ trivial
  | true => exact fun u htu _ ↦ ⟨hwrite u (hst.trans htu), fun _ _ _ _ _ ↦ trivial⟩

/-- A command goes on past a home only where there is one. -/
theorem safe_homeOf {found : Option Environment} {next : Environment → Commanded Unit}
    (hnext : ∀ environment, found = some environment → environment.state ≠ .absent →
      SafeCommand i (next environment).run s) : SafeCommand i (homeOf found >>= next).run s := by
  cases found with
  | none => exact fun _ _ _ ↦ trivial
  | some environment =>
    rw [homeOf]
    split
    · exact fun _ _ _ ↦ trivial
    · next hpresent => exact hnext environment rfl hpresent

/-- A command reads the row of its unit as it is. -/
theorem safe_named {target : UnitId} {next : UnitRow → Commanded Unit}
    (hnext : ∀ t unit, t.statusOf unit.id = some unit.status → SafeCommand i (next unit).run t) :
    SafeCommand i (named target >>= next).run s := by
  refine safe_attempt_bind fun t _ _ ↦ ⟨trivial, fun _ _ ↦ ?_⟩
  change Safe (machine ι) (contract ι) i _ (match t.units.get? target with
    | some unit => pure unit
    | none => throw .unitNotFound : Commanded UnitRow).run t
  cases hfound : t.units.get? target with
  | none => exact fun _ _ _ _ _ _ ↦ trivial
  | some unit =>
    have hstatus : t.statusOf unit.id = some unit.status := by
      rw [Registry.statusOf, Registry.units_get?_id hfound, hfound]
      rfl
    exact fun u htu _ ↦ (hnext t unit hstatus).rely htu

/-- A unit whose home is there was not archived when its row was read before. -/
theorem not_archived_of_present (hread : s.statusOf unit.id = some unit.status) (hlater : Later s t)
    (hended : Ended t) (hfound : t.latestForUnit unit.id = some environment)
    (hpresent : environment.state ≠ .absent) : unit.status ≠ .archived := by
  intro harchived
  rw [harchived] at hread
  have hmem := List.argmax_mem (Option.mem_def.mpr hfound)
  rw [List.mem_filter, decide_eq_true_eq] at hmem
  exact hpresent (hended.archived unit.id (hlater.archived unit.id hread) environment hmem.1 hmem.2)

/-- A command that looks for its unit's home, and writes a status at the end. -/
theorem safe_update {target : UnitId} : SafeCommand i (do
      let unit ← named target
      let found : Option Environment ← call (Effect.latestForUnit unit.id)
      let _ ← homeOf found
      recorded (.update command unit) : Commanded Unit).run s := by
  refine safe_named fun t unit hread ↦ ?_
  intro u htu hended
  refine ⟨trivial, fun _ _ ↦ ?_⟩
  refine safe_homeOf fun environment hfound hpresent ↦ safe_recorded fun _ _ ↦ ?_
  exact not_archived_of_present hread htu hended hfound hpresent

theorem safe_settle {target : UnitId} : SafeCommand i (settle target).run s := by
  refine safe_named fun t unit _ ↦ ?_
  split
  · next hlive =>
    refine safe_recorded fun _ _ ↦ ?_
    rcases hlive with hlive | hlive
    all_goals
      rw [Owes, hlive]
      exact fun heq ↦ nomatch heq
  · exact fun _ _ _ ↦ trivial

theorem safe_reclaim {target : UnitId} : SafeCommand i (reclaim target).run s := by
  intro t _ _
  refine ⟨trivial, fun _ _ ↦ ?_⟩
  change SafeCommand i (match (t.units.get? target).map fun unit ↦ (unit, t.latestForUnit unit.id) with
    | none => throw .unitNotFound
    | some (unit, found) => do
      let environment ← homeOf found
      recorded (.archive unit environment) : Commanded Unit).run t
  cases t.units.get? target with
  | none => exact fun _ _ _ ↦ trivial
  | some unit =>
    refine safe_homeOf fun environment hfound _ ↦ safe_recorded fun u htu ↦ ?_
    have hmem := List.argmax_mem (Option.mem_def.mpr hfound)
    rw [List.mem_filter, decide_eq_true_eq] at hmem
    obtain ⟨e, he, hid, hof⟩ := htu.homes environment hmem.1
    exact ⟨e, he, hid, hof.trans hmem.2⟩

theorem safe_program (job : Job) : SafeCommand i job.program.run s := by
  cases job with
  | done target => exact safe_update
  | merge target => exact safe_update
  | settle target => exact safe_settle
  | reclaim target => exact safe_reclaim
  | create unit environment => exact safe_recorded fun _ _ ↦ trivial

/-! ### Whole runs -/

/-- The contract fits the commands that are not overtaken. -/
theorem sound : Sound (machine ι) (contract ι) (fun _ _ _ ↦ True) Timely where
  assume _ _ := trivial
  act {c i choice effect rest} htimely hrunning hinv hpre := by
    have hintime : InTime c.world effect := by simpa [Timely, hrunning] using htimely
    have hleaves : Leaves c.world (perform effect (choice effect) c.world).2 :=
      leaves_perform hinv hpre hintime
    exact ⟨hleaves.ended, fun _ _ _ _ ↦ .inl hleaves.later⟩
  enter _ _ hworld hinv := by
    cases hworld
    exact ⟨hinv, safe_program _, fun _ _ _ _ ↦ .inl Later.refl⟩
  leave _ _ hinv := ⟨hinv, fun _ _ _ _ ↦ .inl Later.refl⟩

variable {c c' : Running ι} {label : Step ι} {labels : List (Step ι)} {registry : Registry}

/-- A registry in which every live command keeps the contract. -/
abbrev Fine (c : Running ι) : Prop := Guarded (machine ι) (contract ι) (fun _ _ _ ↦ True) c

theorem fine_of_starts (h : Starts registry) : Fine (⟨registry, fun _ ↦ none⟩ : Running ι) := by
  have hnobody : ∀ id, registry.statusOf id = none := by
    intro id
    rw [Registry.statusOf, Table.get?, h.1]
    rfl
  have hempty : registry.environments.values = [] := by rw [Table.values, h.2, List.map_nil]
  refine ⟨⟨fun id hid ↦ ?_, ?_, ?_⟩, fun i p hp ↦ (Option.some_ne_none p hp.symm).elim⟩
  · rw [hnobody] at hid
    cases hid
  · rw [hempty]
    intro e he
    cases he
  · rw [hempty]
    intro e he
    cases he

variable [DecidableEq ι]

/-- What one step leaves, where no command is overtaken by it. -/
theorem leaves_next (hfine : Fine c) (htimely : Timely c label)
    (hnext : (machine ι).next c label = some c') : Leaves c.world c'.world := by
  cases label with
  | enter i job =>
    obtain ⟨-, world, hworld, rfl⟩ := Machine.next_enter_eq_some.mp hnext
    cases hworld
    exact Leaves.refl hfine.1
  | act i choice =>
    obtain ⟨effect, rest, hrunning, rfl⟩ := Machine.next_act_eq_some.mp hnext
    obtain ⟨hpre, -⟩ := hfine.2 i _ hrunning c.world Later.refl hfine.1
    have hintime : InTime c.world effect := by simpa [Timely, hrunning] using htimely
    exact leaves_perform hfine.1 hpre hintime
  | leave i =>
    obtain ⟨p, -, rfl⟩ := Machine.next_leave_eq_some.mp hnext
    exact Leaves.refl hfine.1

/-- What a run leaves, where no command is overtaken in it. -/
theorem later_exec (hfine : Fine c) (halong : (machine ι).Along Timely c labels)
    (hexec : (machine ι).exec c labels = some c') : Later c.world c'.world := by
  induction labels generalizing c with
  | nil =>
    cases hexec
    exact Later.refl
  | cons label labels ih =>
    obtain ⟨c₁, hnext, hrest⟩ := Machine.exec_cons_eq_some.mp hexec
    have hfine₁ : Fine c₁ := sound.guarded_next halong.1 hnext hfine
    exact (leaves_next hfine halong.1 hnext).later.trans (ih hfine₁ (halong.2 c₁ hnext) hrest)

/-- Assumes: a registry no unit was made in yet, and a run no command of which is overtaken between its
reading and its write. -/
theorem kept_of_timely (hstarts : Starts registry)
    (htimely : (machine ι).Along Timely ⟨registry, fun _ ↦ none⟩ labels) : Kept registry labels := by
  have hfine : Fine (⟨registry, fun _ ↦ none⟩ : Running ι) := fine_of_starts hstarts
  refine ⟨?_, ?_, ?_⟩
  · rintro before middle after c c' rfl hbefore hmiddle id hid
    obtain ⟨hfirst, -⟩ := Machine.along_append.mp htimely
    obtain ⟨hbegin, hthen⟩ := Machine.along_append.mp hfirst
    have hreached : Fine c := sound.guarded_exec hbegin hbefore hfine
    exact (later_exec hreached (hthen c hbefore) hmiddle).archived id hid
  · rintro before label after c c' rfl hbefore hnext id hid
    obtain ⟨hbegin, hthen⟩ := Machine.along_append.mp htimely
    have hreached : Fine c := sound.guarded_exec hbegin hbefore hfine
    exact (leaves_next hreached (hthen c hbefore).1 hnext).merged id hid
  · rintro before after c - - u hu u' hu' hproject hslug hheld hheld'
    exact Registry.units_ext hu hu' (c.world.unit_slug u hu u' hu' hproject hslug hheld hheld')

/-! ### A push that is overtaken by a reclaim -/

/-- A registry of one project. -/
def shop : Registry where
  projects := Table.set ∅ "shop" ⟨"shop", "shop", ⟨true, ["shop"]⟩, none⟩
  units := ∅
  environments := ∅
  projects_keyed := Registry.sole.projects_keyed
  units_keyed := Registry.sole.units_keyed
  environments_keyed := Registry.sole.environments_keyed
  root_unique := Registry.sole.root_unique
  unit_project := Registry.sole.unit_project
  unit_slug := Registry.sole.unit_slug
  environment_attempt := Registry.sole.environment_attempt

def noon : Timestamp := .epoch

/-- What the outside chooses where all comes off. -/
def comesOff : (effect : Effect) → effect.Choice
  | .unitNamed _ | .latestForUnit _ | .claimed _ => ()
  | .work => true
  | .update _ _ | .archive _ _ | .create _ _ => some noon

/-- A process enters with a job and takes some steps of it. -/
def begun (process : ℕ) (job : Job) (steps : ℕ) : List (Step ℕ) :=
  .enter process job :: List.replicate steps (.act process comesOff)

def making : List (Step ℕ) :=
  begun 0 (.create ⟨"01J", "shop", "fix", .opened, noon⟩
    ⟨"01E", "01J", 1, ⟨true, ["fix", "homes"]⟩, true, .stopped⟩) 2

/-- A unit that is made, pushed, merged and given back, one after the other. -/
theorem kept_one_by_one : Kept shop
    (making ++ begun 1 (.done "01J") 4 ++ begun 2 (.merge "01J") 4 ++ begun 3 (.reclaim "01J") 3) :=
  kept_of_timely ⟨rfl, rfl⟩ (by decide +kernel)

/-- A push reads its unit, and the unit is given back before the push has ended. -/
def overtaken : List (Step ℕ) := making ++ begun 1 (.done "01J") 3 ++ begun 2 (.reclaim "01J") 3

/-- An archived unit, whose home has gone, is put up for review. -/
theorem overtaken_done_revives :
    (((machine ℕ).exec ⟨shop, fun _ ↦ none⟩ overtaken).map (·.world.statusOf "01J") =
        some (some .archived) ∧
      ((machine ℕ).exec ⟨shop, fun _ ↦ none⟩ (overtaken ++ [.act 1 comesOff])).map
        (·.world.statusOf "01J") = some (some .review)) ∧
    ¬∀ registry (labels : List (Step ℕ)), Starts registry → Kept registry labels := by
  have harchived : ((machine ℕ).exec ⟨shop, fun _ ↦ none⟩ overtaken).map (·.world.statusOf "01J") =
      some (some .archived) := by decide +kernel
  have hreview : ((machine ℕ).exec ⟨shop, fun _ ↦ none⟩ (overtaken ++ [.act 1 comesOff])).map
      (·.world.statusOf "01J") = some (some .review) := by decide +kernel
  refine ⟨⟨harchived, hreview⟩, fun hkept ↦ ?_⟩
  obtain ⟨c, hc, harchived⟩ := Option.map_eq_some_iff.mp harchived
  obtain ⟨c', hc', hreview⟩ := Option.map_eq_some_iff.mp hreview
  obtain ⟨c₁, hfirst, hlast⟩ := Machine.exec_append_eq_some.mp hc'
  obtain rfl : c = c₁ := Option.some.inj (hc.symm.trans hfirst)
  have hstays := (hkept shop (overtaken ++ [.act 1 comesOff]) ⟨rfl, rfl⟩).archived overtaken
    [.act 1 comesOff] [] c c' (by simp) hc hlast "01J" harchived
  cases hreview.symm.trans hstays

end Nodal.Archived
