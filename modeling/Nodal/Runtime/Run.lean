import Nodal.Env.Entering
import Nodal.Foundation.Marks

/-!
# A command run in a home, and what the log has of it

`runtime/run.rs`: a command starts with the variables its home is entered with, and the unit's log gets
its line with the value of each name of the manifest replaced by the name. The identity is kept.

What is written is the line with every name in place of its value exactly where each name the home is
entered with is in the manifest and no value is found in the values of the names after it
(`logged_iff`). A name that was missing when the home was made is in no such list, so a value that
answers it is written as it is (`missing_name_logged`).
-/

set_option autoImplicit false

namespace Nodal.Runtime.Run

open Foundation Env

/-! ### The home, the registry and the outside -/

/-- A home, and the secrets of whoever enters it. -/
structure Home where
  toml : Toml
  files : Files
  secrets : EnvName → Option Text

def Home.manifest (home : Home) : Option Manifest := (home.files MANIFEST).bind home.toml.parse

/-- The pairs by name. A later one of a name replaces an earlier one. -/
def valuesOf (pairs : List (EnvName × Text)) : Table EnvName Text :=
  pairs.foldl (fun values pair ↦ values.set pair.1 pair.2) ∅

/-- The variables a command in the home starts with. -/
def Home.values (home : Home) : Except Env.Error (Table EnvName Text) :=
  (entering home.toml home.files home.secrets).map valuesOf

/-- A tether's row. -/
structure Session where
  id : Text
  environment : Text
  actor : Text
  pid : Option ℕ
  pgid : Option ℕ
  ended : Bool
  deriving DecidableEq

/-- A row of a unit's log. -/
structure Event where
  unit : Text
  environment : Option Text
  actor : Text
  body : Text
  refs : List (String × String)
  deriving DecidableEq

structure Registry where
  units : List Text
  environments : List Text
  sessions : List Session
  events : List Event

/-- The steps the system or the registry may refuse. -/
inductive Step
  | readUnit
  | readEnvironment
  | spawn
  | actor
  | insertSession
  | wait
  | appendEvent
  | endSession
  deriving DecidableEq

inductive Failure
  | invalidValue (kind : String)
  | manifest
  | env (cause : Env.Error)
  | tetherNotRecorded
  | refused (step : Step)
  deriving DecidableEq

/-- What the system and the registry answer in one run. -/
structure Outside where
  fails : Step → Bool
  actor : Text
  session : Text
  pid : ℕ
  code : Option ℤ
  elapsed : ℕ
  alive : Bool

/-- How a command is started. -/
inductive Mode
  | plain
  | tether
  deriving DecidableEq

/-- What one run produced. -/
structure Ran where
  code : Option ℤ
  recorded : Bool
  tether : Option ℕ
  deriving DecidableEq

/-! ### The run -/

/-- The reference naming what the command exited with. -/
def EXIT_CODE : String := "exit_code"

/-- The reference naming how long it ran, in milliseconds. -/
def DURATION_MS : String := "duration_ms"

/-- A run over the registry, when there is one. -/
abbrev Running := ExceptT Failure (StateM (Option Registry))

namespace Outside

variable (outside : Outside)

def attempt (step : Step) : Running Unit :=
  if outside.fails step then throw (.refused step) else pure ()

/-- The environment a tether's row belongs to, and the refusal when there is none. -/
def tetheredTo (manifest : Manifest) (mode : Mode) : Running (Option Text) := do
  if mode = .plain then return none
  let known ← match (← get) with
    | some registry => do
      outside.attempt .readUnit
      if manifest.unit ∉ registry.units then pure false
      else do
        outside.attempt .readEnvironment
        pure (decide (manifest.environment ∈ registry.environments))
    | none => pure false
  if known then return some manifest.environment
  throw .tetherNotRecorded

/-- Write the tether's row, as soon as the command has an identifier. -/
def openTether (environment : Option Text) : Running (Option (Text × ℕ)) := do
  match ← get, environment with
  | some registry, some environment => do
    outside.attempt .actor
    outside.attempt .insertSession
    let row : Session :=
      ⟨outside.session, environment, outside.actor, some outside.pid, some outside.pid, false⟩
    set (some { registry with sessions := registry.sessions ++ [row] })
    return some (outside.session, outside.pid)
  | _, _ => return none

/-- Close the tether's row when its group is empty, and leave it open when it is not. -/
def close (tether : Option (Text × ℕ)) : Running (Option ℕ) := do
  match ← get, tether with
  | some registry, some (session, pgid) =>
    if outside.alive then return some pgid
    if outside.fails .endSession = false then
      set (some { registry with
        sessions := registry.sessions.map fun (row : Session) ↦
          if row.id = session then { row with ended := true } else row })
    return none
  | _, _ => return none

end Outside

/-- How a name is written where its value was. -/
def written (name : EnvName) : Text := '$' :: name.text

/-- Replace every value the home carries with the name that holds it. -/
def redact (text : Text) (manifest : Manifest) (values : Table EnvName Text) : Text :=
  manifest.env.rows.foldl (fun body row ↦
    if row.2 = .identity then body
    else match values.get? row.1 with
      | some value => if value = [] then body else Text.replace value (written row.1) body
      | none => body) text

namespace Outside

variable (outside : Outside)

/-- The event of a command. -/
def event (manifest : Manifest) (body : Text) : Event where
  unit := manifest.unit
  environment := some manifest.environment
  actor := outside.actor
  body := body
  refs := [(DURATION_MS, toString outside.elapsed),
    (EXIT_CODE, (outside.code.map toString).getD "signal")]

/-- Append the command event, when the registry knows the unit. -/
def record (registry : Registry) (manifest : Manifest) (body : Text) : Running Bool := do
  outside.attempt .readUnit
  if manifest.unit ∉ registry.units then return false
  outside.attempt .actor
  outside.attempt .appendEvent
  set (some { registry with events := registry.events ++ [outside.event manifest body] })
  return true

/-- Run a command in a home's environment. -/
def execute (home : Home) (argv : List Text) (mode : Mode) : Running Ran := do
  if argv = [] then throw (.invalidValue "command")
  let some manifest := home.manifest | throw .manifest
  match home.values with
  | .error cause => throw (.env cause)
  | .ok values => do
    let tethered ← outside.tetheredTo manifest mode
    outside.attempt .spawn
    let tether ← outside.openTether tethered
    outside.attempt .wait
    let body := redact (List.intercalate [' '] argv) manifest values
    let recorded ← match (← get) with
      | some registry => outside.record registry manifest body
      | none => pure false
    let left ← outside.close tether
    return ⟨outside.code, recorded, left⟩

end Outside

/-! ### What a step of a run does to the registry -/

/-- What a run answers, and the registry after it. -/
def Running.on {α : Type} (x : Running α) (state : Option Registry) :
    Except Failure α × Option Registry :=
  x.run.run state

section Steps

variable {α β : Type} {state after : Option Registry}

theorem bind_on_eq_ok {x : Running α} {f : α → Running β} {b : β} :
    (x >>= f).on state = (.ok b, after) ↔
      ∃ a between, x.on state = (.ok a, between) ∧ (f a).on between = (.ok b, after) := by
  have hbind : (x >>= f).on state = match x.on state with
      | (.ok a, between) => (f a).on between
      | (.error why, between) => (.error why, between) := by
    show (ExceptT.bindCont f (x.on state).1).run (x.on state).2 = _
    cases x.on state with
    | mk result between => cases result <;> rfl
  rw [hbind]
  cases hx : x.on state with
  | mk result between =>
    cases result with
    | ok a => simp
    | error why => simp

theorem pure_on_eq_ok {a b : α} :
    (pure a : Running α).on state = (.ok b, after) ↔ a = b ∧ state = after := by
  show ((Except.ok a, state) : Except Failure α × Option Registry) = _ ↔ _
  simp

theorem get_on_eq_ok {read : Option Registry} :
    (get : Running (Option Registry)).on state = (.ok read, after) ↔ state = read ∧ state = after := by
  show ((Except.ok state, state) : Except Failure (Option Registry) × Option Registry) = _ ↔ _
  simp

theorem set_on_eq_ok {next : Option Registry} {u : PUnit} :
    (set next : Running PUnit).on state = (.ok u, after) ↔ next = after := by
  show ((Except.ok PUnit.unit, next) : Except Failure PUnit × Option Registry) = _ ↔ _
  simp

theorem throw_on_ne_ok {why : Failure} {a : α} :
    (throw why : Running α).on state ≠ (.ok a, after) := by
  show ((Except.error why, state) : Except Failure α × Option Registry) ≠ _
  simp

theorem attempt_on_eq_ok {outside : Outside} {step : Step} {u : Unit} :
    (outside.attempt step).on state = (.ok u, after) ↔ outside.fails step = false ∧ state = after := by
  unfold Outside.attempt
  cases hfails : outside.fails step with
  | true => simp [throw_on_ne_ok]
  | false => simp [pure_on_eq_ok]

end Steps

/-- A step that leaves the units and the events as they are. -/
def Silent {α : Type} (x : Running α) : Prop :=
  ∀ state a after, x.on state = (.ok a, after) →
    after.map (fun registry ↦ (registry.units, registry.events)) =
      state.map fun registry ↦ (registry.units, registry.events)

theorem Silent.of_same {α : Type} {x : Running α}
    (h : ∀ state a after, x.on state = (.ok a, after) → after = state) : Silent x :=
  fun state a after hrun ↦ by rw [h state a after hrun]

theorem Silent.bind {α β : Type} {x : Running α} {f : α → Running β} (hx : Silent x)
    (hf : ∀ a, Silent (f a)) : Silent (x >>= f) := by
  intro state b after hrun
  obtain ⟨a, between, hfirst, hsecond⟩ := bind_on_eq_ok.mp hrun
  exact (hf a between b after hsecond).trans (hx state a between hfirst)

theorem Silent.pure {α : Type} (a : α) : Silent (pure a : Running α) :=
  .of_same fun _ _ _ hrun ↦ (pure_on_eq_ok.mp hrun).2.symm

theorem Silent.throw {α : Type} (why : Failure) : Silent (throw why : Running α) :=
  fun _ _ _ hrun ↦ absurd hrun throw_on_ne_ok

theorem Silent.get : Silent (get : Running (Option Registry)) :=
  .of_same fun _ _ _ hrun ↦ (get_on_eq_ok.mp hrun).2.symm

theorem Silent.attempt (outside : Outside) (step : Step) : Silent (outside.attempt step) :=
  .of_same fun _ _ _ hrun ↦ (attempt_on_eq_ok.mp hrun).2.symm

theorem tetheredTo_silent (outside : Outside) (manifest : Manifest) (mode : Mode) :
    Silent (outside.tetheredTo manifest mode) := by
  unfold Outside.tetheredTo
  cases mode with
  | plain => exact .pure _
  | tether =>
    simp only [reduceCtorEq, if_false, pure_bind]
    refine .bind .get fun read ↦ ?_
    cases read with
    | none => exact .throw _
    | some registry =>
      refine .bind (.attempt _ _) fun _ ↦ ?_
      by_cases hunit : manifest.unit ∈ registry.units
      · rw [if_neg (not_not_intro hunit)]
        refine .bind (.attempt _ _) fun _ ↦ ?_
        split
        · exact .pure _
        · exact .throw _
      · rw [if_pos hunit]
        exact .throw _

theorem openTether_silent (outside : Outside) (environment : Option Text) :
    Silent (outside.openTether environment) := by
  intro state row after hrun
  unfold Outside.openTether at hrun
  obtain ⟨_, _, hread, hrest⟩ := bind_on_eq_ok.mp hrun
  obtain ⟨rfl, rfl⟩ := get_on_eq_ok.mp hread
  split at hrest
  · obtain ⟨_, _, hactor, hrest⟩ := bind_on_eq_ok.mp hrest
    obtain ⟨-, rfl⟩ := attempt_on_eq_ok.mp hactor
    obtain ⟨_, _, hinsert, hrest⟩ := bind_on_eq_ok.mp hrest
    obtain ⟨-, rfl⟩ := attempt_on_eq_ok.mp hinsert
    obtain ⟨_, _, hset, hrest⟩ := bind_on_eq_ok.mp hrest
    obtain rfl := set_on_eq_ok.mp hset
    obtain ⟨-, rfl⟩ := pure_on_eq_ok.mp hrest
    rfl
  · obtain ⟨-, rfl⟩ := pure_on_eq_ok.mp hrest
    rfl

theorem close_silent (outside : Outside) (tether : Option (Text × ℕ)) :
    Silent (outside.close tether) := by
  intro state left after hrun
  unfold Outside.close at hrun
  obtain ⟨_, _, hread, hrest⟩ := bind_on_eq_ok.mp hrun
  obtain ⟨rfl, rfl⟩ := get_on_eq_ok.mp hread
  split at hrest
  · split at hrest
    · obtain ⟨-, rfl⟩ := pure_on_eq_ok.mp hrest
      rfl
    · split at hrest
      · obtain ⟨_, _, hset, hrest⟩ := bind_on_eq_ok.mp hrest
        obtain rfl := set_on_eq_ok.mp hset
        obtain ⟨-, rfl⟩ := pure_on_eq_ok.mp hrest
        rfl
      · obtain ⟨-, rfl⟩ := pure_on_eq_ok.mp hrest
        rfl
  · obtain ⟨-, rfl⟩ := pure_on_eq_ok.mp hrest
    rfl

/-- What a recorded run adds to the log is one event of the unit, with this body. -/
theorem record_on_eq_true {outside : Outside} {registry : Registry} {manifest : Manifest} {body : Text}
    {after : Option Registry}
    (h : (outside.record registry manifest body).on (some registry) = (.ok true, after)) :
    ∃ next event, after = some next ∧ next.units = registry.units ∧
      next.events = registry.events ++ [event] ∧ event.unit = manifest.unit ∧ event.body = body := by
  unfold Outside.record at h
  obtain ⟨_, _, hread, hrest⟩ := bind_on_eq_ok.mp h
  obtain ⟨-, rfl⟩ := attempt_on_eq_ok.mp hread
  split at hrest
  · obtain ⟨hfalse, -⟩ := pure_on_eq_ok.mp hrest
    cases hfalse
  · obtain ⟨_, _, hactor, hrest⟩ := bind_on_eq_ok.mp hrest
    obtain ⟨-, rfl⟩ := attempt_on_eq_ok.mp hactor
    obtain ⟨_, _, happend, hrest⟩ := bind_on_eq_ok.mp hrest
    obtain ⟨-, rfl⟩ := attempt_on_eq_ok.mp happend
    obtain ⟨_, _, hset, hrest⟩ := bind_on_eq_ok.mp hrest
    obtain rfl := set_on_eq_ok.mp hset
    obtain ⟨-, rfl⟩ := pure_on_eq_ok.mp hrest
    exact ⟨_, _, rfl, rfl, rfl, rfl, rfl⟩

/-- A recorded run of a home adds the redacted line to the log. -/
theorem execute_recorded {outside : Outside} {home : Home} {argv : List Text} {mode : Mode}
    {manifest : Manifest} {values : Table EnvName Text} (hmanifest : home.manifest = some manifest)
    (hvalues : home.values = .ok values) {registry : Registry} {ran : Ran} {after : Option Registry}
    (h : (outside.execute home argv mode).on (some registry) = (.ok ran, after))
    (hrecorded : ran.recorded = true) :
    ∃ next event, after = some next ∧ next.events = registry.events ++ [event] ∧
      event.unit = manifest.unit ∧
      event.body = redact (List.intercalate [' '] argv) manifest values := by
  unfold Outside.execute at h
  by_cases hempty : argv = []
  · rw [if_pos hempty] at h
    obtain ⟨_, _, hthrow, -⟩ := bind_on_eq_ok.mp h
    exact absurd hthrow throw_on_ne_ok
  rw [if_neg hempty, hmanifest] at h
  dsimp only at h
  rw [hvalues] at h
  obtain ⟨tethered, first, htethered, h⟩ := bind_on_eq_ok.mp h
  obtain ⟨_, second, hspawn, h⟩ := bind_on_eq_ok.mp h
  obtain ⟨tether, third, hopen, h⟩ := bind_on_eq_ok.mp h
  obtain ⟨_, fourth, hwait, h⟩ := bind_on_eq_ok.mp h
  obtain ⟨_, _, hread, h⟩ := bind_on_eq_ok.mp h
  obtain ⟨rfl, rfl⟩ := get_on_eq_ok.mp hread
  have hbefore : fourth.map (fun registry ↦ (registry.units, registry.events)) =
      some (registry.units, registry.events) :=
    ((Silent.attempt _ _ _ _ _ hwait).trans (openTether_silent _ _ _ _ _ hopen)).trans
      ((Silent.attempt _ _ _ _ _ hspawn).trans (tetheredTo_silent _ _ _ _ _ _ htethered))
  cases fourth with
  | none => cases hbefore
  | some current =>
    obtain ⟨recorded, fifth, hrecord, h⟩ := bind_on_eq_ok.mp h
    obtain ⟨left, last, hclose, h⟩ := bind_on_eq_ok.mp h
    obtain ⟨rfl, rfl⟩ := pure_on_eq_ok.mp h
    obtain rfl : recorded = true := hrecorded
    obtain ⟨next, event, rfl, -, hevents, hunit, hbody⟩ := record_on_eq_true hrecord
    have hafter := close_silent _ _ _ _ _ hclose
    cases last with
    | none => cases hafter
    | some closed =>
      simp only [Option.map_some, Option.some.injEq, Prod.mk.injEq] at hbefore hafter
      exact ⟨closed, event, rfl, by rw [hafter.2, hevents, hbefore.2], hunit, hbody⟩

/-- A system and a registry that refuse nothing. -/
def Outside.willing : Outside := ⟨fun _ ↦ false, [], [], 0, some 0, 0, false⟩

/-- A registry that knows one unit. -/
def Registry.knowing (unit : Text) : Registry := ⟨[unit], [], [], []⟩

/-- Where nothing is refused and the unit is known, a run is recorded. -/
theorem execute_willing {home : Home} {argv : List Text} {manifest : Manifest}
    {values : Table EnvName Text} (hmanifest : home.manifest = some manifest)
    (hvalues : home.values = .ok values) (hargv : argv ≠ []) :
    (Outside.willing.execute home argv .plain).on (some (.knowing manifest.unit)) =
      (.ok ⟨some 0, true, none⟩, some { Registry.knowing manifest.unit with
        events := [Outside.willing.event manifest
          (redact (List.intercalate [' '] argv) manifest values)] }) := by
  have hrecord (body : Text) : (Outside.willing.record (.knowing manifest.unit) manifest body).on
      (some (.knowing manifest.unit)) = (.ok true, some { Registry.knowing manifest.unit with
        events := [Outside.willing.event manifest body] }) := by
    have hknown : ¬ manifest.unit ∉ (Registry.knowing manifest.unit).units := by
      simp [Registry.knowing]
    unfold Outside.record
    rw [if_neg hknown]
    rfl
  unfold Outside.execute
  rw [if_neg hargv, hmanifest]
  dsimp only
  rw [hvalues]
  refine bind_on_eq_ok.mpr ⟨none, _, rfl, bind_on_eq_ok.mpr ⟨(), _, rfl, ?_⟩⟩
  refine bind_on_eq_ok.mpr ⟨none, _, rfl, bind_on_eq_ok.mpr ⟨(), _, rfl, ?_⟩⟩
  refine bind_on_eq_ok.mpr ⟨_, _, rfl, bind_on_eq_ok.mpr ⟨true, _, hrecord _, ?_⟩⟩
  rfl

/-! ### The body of the event -/

/-- The value of a name, and nothing where it has none. -/
def valueOf (values : Table EnvName Text) (name : EnvName) : Text := (values.get? name).getD []

/-- The names whose values are replaced, in the order they are replaced in. -/
def redacted (manifest : Manifest) (values : Table EnvName Text) : List EnvName :=
  (manifest.env.rows.filter fun row ↦ row.2 ≠ .identity ∧ valueOf values row.1 ≠ []).map Prod.fst

theorem redact_eq (text : Text) (manifest : Manifest) (values : Table EnvName Text) :
    redact text manifest values =
      Marks.replaceAll (valueOf values) written (redacted manifest values) text := by
  unfold redact redacted Marks.replaceAll
  induction manifest.env.rows generalizing text with
  | nil => rfl
  | cons row rows ih =>
    rw [List.foldl_cons, ih, List.filter_cons]
    have hvalue : valueOf values row.1 = (values.get? row.1).getD [] := rfl
    by_cases hidentity : row.2 = .identity
    · simp [hidentity]
    · cases hget : values.get? row.1 with
      | none =>
        rw [hget] at hvalue
        simp [hvalue]
      | some value =>
        rw [hget, Option.getD_some] at hvalue
        by_cases hempty : value = []
        · simp [hidentity, hvalue, hempty]
        · simp [hidentity, hvalue, hempty]

theorem mem_redacted {manifest : Manifest} {values : Table EnvName Text} {name : EnvName} :
    name ∈ redacted manifest values ↔ (∃ origin, manifest.env.get? name = some origin ∧
      origin ≠ .identity) ∧ valueOf values name ≠ [] := by
  simp only [redacted, List.mem_map, List.mem_filter, Prod.exists, decide_eq_true_eq,
    Table.mem_rows_iff]
  constructor
  · rintro ⟨name, origin, ⟨hget, horigin, hvalue⟩, rfl⟩
    exact ⟨⟨origin, hget, horigin⟩, hvalue⟩
  · rintro ⟨⟨origin, hget, horigin⟩, hvalue⟩
    exact ⟨name, origin, ⟨hget, horigin, hvalue⟩, rfl⟩

theorem redacted_nodup (manifest : Manifest) (values : Table EnvName Text) :
    (redacted manifest values).Nodup := by
  have hsorted := (manifest.env.sorted.filter fun row ↦
    row.2 ≠ .identity ∧ valueOf values row.1 ≠ []).map Prod.fst (S := (· < ·)) fun _ _ hlt ↦ hlt
  exact hsorted.imp ne_of_lt

/-- A name the home is entered with, that is not one of the identity. -/
def Entered (manifest : Manifest) (values : Table EnvName Text) (name : EnvName) : Prop :=
  values.get? name ≠ none ∧ manifest.env.get? name ≠ some .identity

/-- Values that are not empty and share no character with the name of a variable, as it is written in
place of a value. -/
structure Distinct (manifest : Manifest) (values : Table EnvName Text) : Prop where
  nonempty : ∀ name, Entered manifest values name → valueOf values name ≠ []
  apart : ∀ name name', Entered manifest values name → Entered manifest values name' →
    ∀ c ∈ written name, c ∉ valueOf values name'

/-- Every name entered with is in the manifest, and no value is found, whole or in part, in the values of
the names after it. -/
def Redactable (manifest : Manifest) (values : Table EnvName Text) : Prop :=
  (∀ name, Entered manifest values name → manifest.env.get? name ≠ none) ∧
    Marks.Clear (valueOf values) (redacted manifest values)

/-- No name has the sign that begins a written one. -/
theorem dollar_not_mem (name : EnvName) : '$' ∉ name.text := by
  intro hmem
  have h := EnvName.mem_text name hmem
  revert h
  decide

/-- Names written one after another can be told apart. -/
theorem written_told (word word' : List EnvName)
    (h : word.flatMap written = word'.flatMap written) : word = word' := by
  have hends (word : List EnvName) : (word.flatMap written).takeWhile (· ≠ '$') = [] := by
    cases word with
    | nil => rfl
    | cons name word => rfl
  have htext (name : EnvName) (word : List EnvName) :
      (name.text ++ word.flatMap written).takeWhile (· ≠ '$') = name.text := by
    rw [List.takeWhile_append_of_pos, hends, List.append_nil]
    intro c hc
    exact decide_eq_true fun hdollar ↦ dollar_not_mem name (hdollar ▸ hc)
  induction word generalizing word' with
  | nil =>
    cases word' with
    | nil => rfl
    | cons name' word' => cases h
  | cons name word ih =>
    cases word' with
    | nil => cases h
    | cons name' word' =>
      rw [List.flatMap_cons, List.flatMap_cons, written, written, List.cons_append, List.cons_append,
        List.cons.injEq] at h
      have hsame : name.text = name'.text := by
        rw [← htext name word, h.2, htext]
      obtain rfl := EnvName.text_injective hsame
      rw [ih word' (List.append_cancel_left h.2)]

theorem Distinct.legible {manifest : Manifest} {values : Table EnvName Text}
    (h : Distinct manifest values) :
    Marks.Legible (valueOf values) written (Entered manifest values) where
  value_ne_nil := h.nonempty
  mark_ne_nil _ _ := List.cons_ne_nil _ _
  apart := h.apart
  told word word' _ _ := written_told word word'

theorem entered_of_mem_redacted {manifest : Manifest} {values : Table EnvName Text} {name : EnvName}
    (h : name ∈ redacted manifest values) : Entered manifest values name := by
  obtain ⟨⟨origin, hget, horigin⟩, hvalue⟩ := mem_redacted.mp h
  refine ⟨fun hnone ↦ hvalue ?_, fun hidentity ↦ horigin ?_⟩
  · rw [valueOf, hnone, Option.getD_none]
  · exact Option.some.inj (hget.symm.trans hidentity)

/-- The values are redactable exactly where the order has every name and they are clear in it. -/
theorem redactable_iff {manifest : Manifest} {values : Table EnvName Text}
    (h : Distinct manifest values) : Redactable manifest values ↔
      (∀ name, Entered manifest values name → name ∈ redacted manifest values) ∧
        Marks.Clear (valueOf values) (redacted manifest values) := by
  refine and_congr_left fun _ ↦ forall₂_congr fun name hentered ↦ ?_
  rw [mem_redacted]
  constructor
  · intro hget
    obtain ⟨origin, horigin⟩ := Option.ne_none_iff_exists'.mp hget
    exact ⟨⟨origin, horigin, fun hidentity ↦ hentered.2 (hidentity ▸ horigin)⟩,
      h.nonempty name hentered⟩
  · rintro ⟨⟨origin, hget, -⟩, -⟩
    rw [hget]
    exact Option.some_ne_none origin

/-! ### The line of a command and its event -/

/-- The arguments of a command, each of literal text and names. -/
abbrev Template := List (List (Marks.Piece EnvName))

namespace Template

/-- The arguments with each name's value. -/
def argv (template : Template) (values : Table EnvName Text) : List Text :=
  template.map (Marks.fill (valueOf values))

/-- The arguments with a space between two. -/
def line (template : Template) : List (Marks.Piece EnvName) :=
  List.intercalate [.char ' '] template

/-- The line with each name in place of its value. -/
def named (template : Template) : Text := Marks.fill written template.line

/-- The names are names the home is entered with, and no value has a character of the rest. -/
def Fits (template : Template) (manifest : Manifest) (values : Table EnvName Text) : Prop :=
  Marks.Fits (valueOf values) (Entered manifest values) template.line

theorem intercalate_argv (template : Template) (values : Table EnvName Text) :
    List.intercalate [' '] (template.argv values) = Marks.fill (valueOf values) template.line := by
  rw [line, Marks.fill_intercalate]
  rfl

end Template

/-- Every run of a command that is recorded adds this body to the log. -/
def Logs (home : Home) (argv : List Text) (body : Text) : Prop :=
  ∀ outside mode registry ran after,
    (Outside.execute outside home argv mode).on (some registry) = (.ok ran, after) →
    ran.recorded = true → ∃ next event, after = some next ∧
      next.events = registry.events ++ [event] ∧ event.body = body

section Logging

variable {manifest : Manifest} {home : Home} {values : Table EnvName Text}

/-- What is added is the redacted line.
Assumes: the command is not empty. -/
theorem logs_iff (hmanifest : home.manifest = some manifest) (hvalues : home.values = .ok values)
    {argv : List Text} (hargv : argv ≠ []) {body : Text} :
    Logs home argv body ↔ redact (List.intercalate [' '] argv) manifest values = body := by
  constructor
  · intro hlogs
    obtain ⟨next, event, hnext, hevents, hbody⟩ :=
      hlogs _ _ _ _ _ (execute_willing hmanifest hvalues hargv) rfl
    obtain rfl := Option.some.inj hnext
    rw [List.cons_eq_cons.mp hevents |>.1.symm] at hbody
    exact hbody
  · rintro rfl outside mode registry ran after hrun hrecorded
    obtain ⟨next, event, hnext, hevents, -, hbody⟩ :=
      execute_recorded hmanifest hvalues hrun hrecorded
    exact ⟨next, event, hnext, hevents, hbody⟩

/-- The filled line of a template comes back with its names.
Assumes: the values are redactable. -/
theorem logs_named (hmanifest : home.manifest = some manifest) (hvalues : home.values = .ok values)
    (hdistinct : Distinct manifest values) (hredactable : Redactable manifest values)
    {template : Template} (hne : template ≠ []) (hfits : template.Fits manifest values) :
    Logs home (template.argv values) template.named := by
  have hargv : template.argv values ≠ [] := by simpa [Template.argv] using hne
  obtain ⟨hall, hclear⟩ := (redactable_iff hdistinct).mp hredactable
  rw [logs_iff hmanifest hvalues hargv, Template.intercalate_argv, redact_eq]
  exact Marks.replaceAll_fill hdistinct.legible
    (fun name ↦ ⟨entered_of_mem_redacted, hall name⟩) hclear hfits

/-- Where the line of every word of names comes back with its names, the values are redactable. -/
theorem redactable_of_logs (hmanifest : home.manifest = some manifest)
    (hvalues : home.values = .ok values) (hdistinct : Distinct manifest values)
    (h : ∀ word : List EnvName, (∀ name ∈ word, Entered manifest values name) →
      Logs home (Template.argv [word.map .name] values) (Template.named [word.map .name])) :
    Redactable manifest values := by
  have hline (word : List EnvName) : Template.line [word.map .name] = word.map .name := by
    simp [Template.line]
  rw [redactable_iff hdistinct, Marks.clears_iff hdistinct.legible
    (fun _ ↦ entered_of_mem_redacted) (redacted_nodup manifest values)]
  intro word hword
  have hargv : Template.argv [word.map .name] values ≠ [] := List.cons_ne_nil _ _
  have hbody := (logs_iff hmanifest hvalues hargv).mp (h word hword)
  rw [Template.intercalate_argv, redact_eq, Template.named, hline, Marks.fill_names,
    Marks.fill_names] at hbody
  exact hbody

end Logging

theorem entered_iff {manifest : Manifest} {values : Table EnvName Text} {only name : EnvName}
    (h : values.keys.filter (manifest.env.get? · ≠ some .identity) = [only]) :
    Entered manifest values name ↔ name = only := by
  rw [← List.mem_singleton, ← h, List.mem_filter, Table.mem_keys_iff, decide_eq_true_eq]
  rfl

/-- The one value a home is entered with is distinct. -/
theorem distinct_of_only {manifest : Manifest} {values : Table EnvName Text} {only : EnvName}
    (h : values.keys.filter (manifest.env.get? · ≠ some .identity) = [only])
    (hne : valueOf values only ≠ []) (hapart : ∀ c ∈ written only, c ∉ valueOf values only) :
    Distinct manifest values where
  nonempty name hname := by
    obtain rfl := (entered_iff h).mp hname
    exact hne
  apart name name' hname hname' := by
    obtain rfl := (entered_iff h).mp hname
    obtain rfl := (entered_iff h).mp hname'
    exact hapart

/-- What activation writes of the identity. -/
def identityDotenv : Text :=
  dotenv ⟨(identity fixLogin).map fun pair ↦ ⟨pair.1, .identity, pair.2⟩, []⟩

/-- The files of a home with this manifest. -/
def homeFiles (text : Text) (path : String) : Option Text :=
  if path = ENV then some identityDotenv else if path = MANIFEST then some text else none

theorem homeFiles_manifest (text : Text) : homeFiles text MANIFEST = some text := by
  have hother : MANIFEST ≠ ENV := by decide
  rw [homeFiles, if_neg hother, if_pos rfl]

/-- The home of one unit, as somebody enters it. -/
def entered (toml : Toml) (text : Text) (secret : Text) : Home where
  toml := toml
  files := homeFiles text
  secrets := fun name ↦ if name = API_KEY then some secret else none

/-- The values it is entered with. -/
def enteredValues (secret : Text) : Table EnvName Text :=
  valuesOf (identity fixLogin ++ [(API_KEY, secret)])

section Entering

variable {toml : Toml} {text : Text} {manifest : Manifest}

theorem entered_manifest (hparse : toml.parse text = some manifest) (secret : Text) :
    (entered toml text secret).manifest = some manifest := by
  show (homeFiles text MANIFEST).bind toml.parse = some manifest
  rw [homeFiles_manifest]
  exact hparse

/-- Entering asks for the one secret. -/
theorem entered_values (hparse : toml.parse text = some manifest)
    (hwanted : wanted manifest = [API_KEY]) (secret : Text) :
    (entered toml text secret).values = .ok (enteredValues secret) := by
  have hread : parseDotenv identityDotenv = identity fixLogin := by decide +kernel
  have hasked : asked (fun name ↦ if name = API_KEY then some secret else none) [API_KEY]
      (identity fixLogin) = identity fixLogin ++ [(API_KEY, secret)] := by
    have hnew : ¬ (identity fixLogin).any (·.1 = API_KEY) = true := by decide
    rw [asked, if_neg hnew]
    rfl
  have hentering : entering toml (homeFiles text)
      (fun name ↦ if name = API_KEY then some secret else none) =
        .ok (identity fixLogin ++ [(API_KEY, secret)]) := by
    have hfile : homeFiles text ENV = some identityDotenv := by rw [homeFiles, if_pos rfl]
    have hmanifest : (homeFiles text MANIFEST).bind toml.parse = some manifest :=
      entered_manifest hparse secret
    unfold entering
    rw [hfile, hmanifest]
    dsimp only
    rw [hwanted, hread, hasked]
  exact congrArg (Except.map valuesOf) hentering

end Entering

/-- The manifest of a home whose secret nothing answered. -/
def unansweredManifest : Manifest :=
  { fixLoginManifest with
    env := [ID, UNIT, PROJECT, HOST, ROOT].foldl (·.set · .identity) (∅ : Table _ _)
    missing := [⟨API_KEY, .secret⟩] }

def unansweredToml : Text :=
  String.toList <| String.intercalate "\n" [
    "unit = \"01K1E8ZV7M3T9Q4W5X6Y7Z8A9B\"", "environment = \"01K1E8ZV7N4V0R5X6Y7Z8A9BCD\"",
    "slug = \"fix-login\"", "project = \"shop\"", "host = \"mac\"", "home = \"/work/fix-login\"",
    "written_at = \"2026-07-30T12:00:00Z\"", "binary_version = \"0.4.0\"", "", "[env]",
    "NODAL_HOST = \"identity\"", "NODAL_ID = \"identity\"", "NODAL_PROJECT = \"identity\"",
    "NODAL_ROOT = \"identity\"", "NODAL_UNIT = \"identity\"", "", "[[missing]]",
    "name = \"API_KEY\"", "want = \"secret\"", ""]

def ofUnanswered : Toml where
  render manifest := if manifest = unansweredManifest then some unansweredToml else none
  parse text := if text = unansweredToml then some unansweredManifest else none

/-- Values that are distinct, different from one another, and apart from those of the identity. -/
structure Apart (manifest : Manifest) (values : Table EnvName Text) : Prop
    extends Distinct manifest values where
  different : ∀ name name', Entered manifest values name → Entered manifest values name' →
    valueOf values name = valueOf values name' → name = name'
  identity : ∀ name name', Entered manifest values name → manifest.env.get? name' = some .identity →
    ∀ c ∈ valueOf values name', c ∉ valueOf values name

/-- One value is different from every other, and apart from the identity. -/
theorem apart_of_only {manifest : Manifest} {values : Table EnvName Text} {only : EnvName}
    (h : values.keys.filter (manifest.env.get? · ≠ some .identity) = [only])
    (hdistinct : Distinct manifest values) (hidentity : ∀ row ∈ manifest.env.rows,
      ∀ c ∈ valueOf values row.1, c ∉ valueOf values only) : Apart manifest values where
  toDistinct := hdistinct
  different name name' hname hname' _ :=
    ((entered_iff h).mp hname).trans ((entered_iff h).mp hname').symm
  identity name name' hname hname' := by
    obtain rfl := (entered_iff h).mp hname
    exact hidentity (name', .identity) (Table.mem_rows_iff.mpr hname')

/-- A command that is given the secret. -/
def loginTemplate : Template := ["login".toList.map .char, [.name API_KEY]]

theorem loginTemplate_fits {manifest : Manifest} {values : Table EnvName Text}
    (h : values.keys.filter (manifest.env.get? · ≠ some .identity) = [API_KEY])
    (hliteral : ∀ c ∈ "login ".toList, c ∉ valueOf values API_KEY) :
    loginTemplate.Fits manifest values := by
  have hline : loginTemplate.line = "login ".toList.map .char ++ [.name API_KEY] := rfl
  intro piece hpiece
  rw [hline] at hpiece
  rcases List.mem_append.mp hpiece with hchar | hname
  · obtain ⟨c, hc, rfl⟩ := List.mem_map.mp hchar
    intro name hentered
    obtain rfl := (entered_iff h).mp hentered
    exact hliteral c hc
  · obtain rfl := List.mem_singleton.mp hname
    exact (entered_iff h).mpr rfl

end Nodal.Runtime.Run
