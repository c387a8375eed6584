import Nodal.Runtime.Run

/-!
# What a tethered run leaves behind

`runtime/run.rs`: a tethered command is in a process group of its own, and the row that names the group is
written after the command has started. The row is open until the group is empty, so a later reclaim finds the
group, whatever fails after it is written. Where it cannot be written the run ends there, and nothing in it
sends the group a signal: so a run leaves no group without a row exactly when the row is written or the group
is empty by then (`traced_iff`).
-/

set_option autoImplicit false

namespace Nodal.Runtime.Run

open Foundation Env

/-! ### The run up to the spawn, and after it -/

namespace Outside

variable (outside : Outside)

/-- Start the command. -/
def start (home : Home) (argv : List Text) (mode : Mode) :
    Running (Manifest × Table EnvName Text × Option Text) := do
  if argv = [] then throw (.invalidValue "command")
  let some manifest := home.manifest | throw .manifest
  match home.values with
  | .error cause => throw (.env cause)
  | .ok values => do
    let tethered ← outside.tetheredTo manifest mode
    outside.attempt .spawn
    return (manifest, values, tethered)

/-- Write the row, wait for the command, and record it. -/
def finish (argv : List Text) (started : Manifest × Table EnvName Text × Option Text) : Running Ran := do
  let tether ← outside.openTether started.2.2
  outside.attempt .wait
  let body := redact (List.intercalate [' '] argv) started.1 started.2.1
  let recorded ← match (← get) with
    | some registry => outside.record registry started.1 body
    | none => pure false
  let left ← outside.close tether
  return ⟨outside.code, recorded, left⟩

theorem execute_eq (home : Home) (argv : List Text) (mode : Mode) :
    outside.execute home argv mode = outside.start home argv mode >>= outside.finish argv := by
  unfold execute start
  by_cases hempty : argv = []
  · rw [if_pos hempty, if_pos hempty]
    rfl
  · rw [if_neg hempty, if_neg hempty]
    cases home.manifest with
    | none => rfl
    | some manifest =>
      cases home.values with
      | error cause => rfl
      | ok values =>
        simp only [pure_bind, bind_assoc]
        rfl

end Outside

/-! ### What the registry is after a step that may fail -/

section Steps

variable {α β : Type} {outside : Outside} {state : Option Registry} {registry : Registry} {row : Session}

theorem bind_on (x : Running α) (f : α → Running β) : (x >>= f).on state = match x.on state with
    | (.ok a, between) => (f a).on between
    | (.error why, between) => (.error why, between) := by
  show (ExceptT.bindCont f (x.on state).1).run (x.on state).2 = _
  cases x.on state with
  | mk result between => cases result <;> rfl

theorem attempt_on (step : Step) : (outside.attempt step).on state =
    if outside.fails step then (.error (.refused step), state) else (.ok (), state) := by
  unfold Outside.attempt
  split_ifs <;> rfl

/-- The registry has the row. -/
def Holds (row : Session) (state : Option Registry) : Prop := ∃ registry ∈ state, row ∈ registry.sessions

/-- A step that leaves a row where it is, whether it fails or not. -/
def Keeps (row : Session) (x : Running α) : Prop := ∀ state, Holds row state → Holds row (x.on state).2

theorem Keeps.bind {x : Running α} {f : α → Running β} (hx : Keeps row x) (hf : ∀ a, Keeps row (f a)) :
    Keeps row (x >>= f) := by
  intro state hstate
  have hbetween := hx state hstate
  rw [bind_on]
  cases hrun : x.on state with
  | mk result between =>
    rw [hrun] at hbetween
    cases result with
    | ok a => exact hf a between hbetween
    | error why => exact hbetween

theorem Keeps.pure (a : α) : Keeps row (pure a : Running α) := fun _ hstate ↦ hstate

theorem Keeps.attempt (step : Step) : Keeps row (outside.attempt step) := by
  intro state hstate
  rw [attempt_on]
  split_ifs <;> exact hstate

/-- A registry that is read and written with the same rows keeps them. -/
theorem Keeps.get_bind {f : Option Registry → Running β}
    (h : ∀ state, Holds row state → Holds row ((f state).on state).2) : Keeps row (get >>= f) := by
  intro state hstate
  rw [bind_on]
  exact h state hstate

theorem Keeps.set (h : row ∈ registry.sessions) : Keeps row (set (some registry) : Running PUnit) :=
  fun _ _ ↦ ⟨registry, rfl, h⟩

theorem record_keeps (manifest : Manifest) (body : Text) (h : row ∈ registry.sessions) :
    Keeps row (outside.record registry manifest body) := by
  unfold Outside.record
  refine .bind (.attempt _) fun _ ↦ ?_
  by_cases hunit : manifest.unit ∉ registry.units
  · rw [if_pos hunit]
    exact .pure _
  · rw [if_neg hunit]
    exact .bind (.attempt _) fun _ ↦ .bind (.attempt _) fun _ ↦ .bind (.set h) fun _ ↦ .pure _

/-- A row stays open while its group is alive. -/
theorem close_keeps (halive : outside.alive = true) (tether : Option (Text × ℕ)) :
    Keeps row (outside.close tether) := by
  unfold Outside.close
  refine .get_bind fun state hstate ↦ ?_
  cases state with
  | none => exact hstate
  | some registry =>
    cases tether with
    | none => exact hstate
    | some tether =>
      obtain ⟨session, pgid⟩ := tether
      dsimp only
      rw [if_pos halive]
      exact hstate

/-- The row of the group in an environment. -/
def Outside.tetherRow (outside : Outside) (environment : Text) : Session :=
  ⟨outside.session, environment, outside.actor, some outside.pid, some outside.pid, false⟩

theorem openTether_on (environment : Text) :
    (outside.openTether (some environment)).on (some registry) =
      if outside.fails .actor then (.error (.refused .actor), some registry)
      else if outside.fails .insertSession then (.error (.refused .insertSession), some registry)
      else (.ok (some (outside.session, outside.pid)),
        some { registry with sessions := registry.sessions ++ [outside.tetherRow environment] }) := by
  unfold Outside.openTether
  rw [bind_on]
  show ((outside.attempt .actor >>= fun _ ↦ outside.attempt .insertSession >>= fun _ ↦ _).on _) = _
  rw [bind_on, attempt_on]
  split_ifs with hactor hinsert
  · rfl
  · dsimp only
    rw [bind_on, attempt_on, if_pos hinsert]
  · dsimp only
    rw [bind_on, attempt_on, if_neg hinsert]
    rfl

/-- Where the row is written, it is there when the run is over, if the group is alive at its end. -/
theorem finish_holds (halive : outside.alive = true) {argv : List Text} {manifest : Manifest}
    {values : Table EnvName Text} {environment : Text} (hactor : outside.fails .actor = false)
    (hinsert : outside.fails .insertSession = false) :
    Holds (outside.tetherRow environment)
      ((outside.finish argv (manifest, values, some environment)).on (some registry)).2 := by
  unfold Outside.finish
  rw [bind_on, openTether_on, hactor, hinsert]
  dsimp only
  refine Keeps.bind (.attempt _) (fun _ ↦ ?_) _ ⟨_, rfl, List.mem_append_right _ List.mem_cons_self⟩
  refine .get_bind fun state hstate ↦ ?_
  obtain ⟨registry, hregistry, hrow⟩ := hstate
  rw [Option.mem_def.mp hregistry]
  have hrest : Keeps (outside.tetherRow environment) (outside.record registry manifest
      (redact (List.intercalate [' '] argv) manifest values) >>= fun recorded ↦
        outside.close (some (outside.session, outside.pid)) >>= fun left ↦
          (pure ⟨outside.code, recorded, left⟩ : Running Ran)) :=
    .bind (record_keeps _ _ hrow) fun _ ↦ .bind (close_keeps halive _) fun _ ↦ .pure _
  exact hrest _ ⟨registry, rfl, hrow⟩

/-- Where the row is not written, the registry is as it was. -/
theorem finish_refused {argv : List Text} {manifest : Manifest} {values : Table EnvName Text}
    {environment : Text} (h : outside.fails .actor = true ∨ outside.fails .insertSession = true) :
    ((outside.finish argv (manifest, values, some environment)).on (some registry)).2 = some registry := by
  unfold Outside.finish
  rw [bind_on, openTether_on]
  by_cases hactor : outside.fails .actor = true
  · rw [if_pos hactor]
  · rw [if_neg hactor, if_pos (h.resolve_left hactor)]

theorem tetheredTo_on_eq_ok {manifest : Manifest} {tethered : Option Text} {after : Option Registry}
    (h : (outside.tetheredTo manifest .tether).on state = (.ok tethered, after)) :
    after = state ∧ tethered = some manifest.environment ∧ ∃ registry, state = some registry := by
  unfold Outside.tetheredTo at h
  rw [if_neg (by decide)] at h
  obtain ⟨_, _, hread, h⟩ := bind_on_eq_ok.mp h
  obtain ⟨rfl, rfl⟩ := get_on_eq_ok.mp hread
  cases state with
  | none => exact absurd h throw_on_ne_ok
  | some registry =>
    obtain ⟨_, _, hunit, h⟩ := bind_on_eq_ok.mp h
    obtain ⟨-, rfl⟩ := attempt_on_eq_ok.mp hunit
    split_ifs at h with hknown
    · obtain ⟨_, _, henvironment, h⟩ := bind_on_eq_ok.mp h
      obtain ⟨-, rfl⟩ := attempt_on_eq_ok.mp henvironment
      obtain ⟨known, _, hpure, h⟩ := bind_on_eq_ok.mp h
      obtain ⟨-, hsame⟩ := pure_on_eq_ok.mp hpure
      cases known with
      | false => exact absurd h throw_on_ne_ok
      | true =>
        obtain ⟨rfl, rfl⟩ := pure_on_eq_ok.mp h
        exact ⟨hsame.symm, rfl, registry, rfl⟩
    · exact absurd h throw_on_ne_ok

/-- A tethered command is started where the registry knows its environment. -/
theorem start_on_eq_ok {home : Home} {argv : List Text} {manifest : Manifest}
    {values : Table EnvName Text} {tethered : Option Text} {between : Option Registry}
    (h : (outside.start home argv .tether).on state = (.ok (manifest, values, tethered), between)) :
    between = state ∧ tethered = some manifest.environment ∧ ∃ registry, state = some registry := by
  unfold Outside.start at h
  by_cases hempty : argv = []
  · rw [if_pos hempty] at h
    obtain ⟨_, _, hthrow, -⟩ := bind_on_eq_ok.mp h
    exact absurd hthrow throw_on_ne_ok
  rw [if_neg hempty] at h
  cases hmanifest : home.manifest with
  | none =>
    rw [hmanifest] at h
    exact absurd h throw_on_ne_ok
  | some found =>
    rw [hmanifest] at h
    dsimp only at h
    cases hvalues : home.values with
    | error cause =>
      rw [hvalues] at h
      exact absurd h throw_on_ne_ok
    | ok found' =>
      rw [hvalues] at h
      obtain ⟨tethered', first, htethered, h⟩ := bind_on_eq_ok.mp h
      obtain ⟨_, second, hspawn, h⟩ := bind_on_eq_ok.mp h
      obtain ⟨-, rfl⟩ := attempt_on_eq_ok.mp hspawn
      obtain ⟨hsame, rfl⟩ := pure_on_eq_ok.mp h
      cases hsame
      exact tetheredTo_on_eq_ok htethered

end Steps

/-! ### The group when the run is over -/

/-- What the system and the registry answer in one run, and whether the group has a process when the run is
over. A group that was empty stays so. -/
structure Ending extends Outside where
  left : Bool
  gone : alive = false → left = false

/-- An open row of the environment names the group. -/
def Named (outside : Outside) (environment : Text) (state : Option Registry) : Prop :=
  ∃ registry ∈ state, ∃ row ∈ registry.sessions,
    row.environment = environment ∧ row.pgid = some outside.pid ∧ row.ended = false

/-- Where a tethered run starts a command, the group is empty when the run is over, or an open row of the
home's environment names it. -/
def Traced (ending : Ending) (home : Home) (argv : List Text) (state : Option Registry) : Prop :=
  ∀ manifest values tethered between,
    (ending.start home argv .tether).on state = (.ok (manifest, values, tethered), between) →
      ending.left = false ∨
        Named ending.toOutside manifest.environment ((ending.execute home argv .tether).on state).2

/-- Where a tethered run starts a command whose group outlives the run, the row is written, or such a row was
there already. -/
def RowWritten (ending : Ending) (home : Home) (argv : List Text) (state : Option Registry) : Prop :=
  ∀ manifest values tethered between,
    (ending.start home argv .tether).on state = (.ok (manifest, values, tethered), between) →
      ending.left = true → (ending.fails .actor = false ∧ ending.fails .insertSession = false) ∨
        Named ending.toOutside manifest.environment state

theorem traced_iff_of_start {ending : Ending} {home : Home} {argv : List Text} {state : Option Registry}
    {manifest : Manifest} {values : Table EnvName Text} {tethered : Option Text} {between : Option Registry}
    (hstart : (ending.start home argv .tether).on state = (.ok (manifest, values, tethered), between)) :
    (ending.left = false ∨
      Named ending.toOutside manifest.environment ((ending.execute home argv .tether).on state).2) ↔
    (ending.left = true → (ending.fails .actor = false ∧ ending.fails .insertSession = false) ∨
      Named ending.toOutside manifest.environment state) := by
  obtain ⟨rfl, rfl, registry, rfl⟩ := start_on_eq_ok hstart
  rw [Outside.execute_eq, bind_on, hstart]
  dsimp only
  cases hleft : ending.left with
  | false => exact iff_of_true (Or.inl rfl) fun h ↦ absurd h Bool.false_ne_true
  | true =>
    have halive : ending.alive = true := by
      by_contra hdead
      rw [ending.gone (eq_false_of_ne_true hdead)] at hleft
      cases hleft
    by_cases hwritten : ending.fails .actor = false ∧ ending.fails .insertSession = false
    · refine iff_of_true (Or.inr ?_) fun _ ↦ Or.inl hwritten
      obtain ⟨after, hafter, hrow⟩ := finish_holds halive hwritten.1 hwritten.2
      exact ⟨after, hafter, _, hrow, rfl, rfl, rfl⟩
    · have hrefused : ending.fails .actor = true ∨ ending.fails .insertSession = true := by
        rw [not_and_or, Bool.not_eq_false, Bool.not_eq_false] at hwritten
        exact hwritten
      rw [finish_refused hrefused, forall_prop_of_true rfl, or_iff_right hwritten,
        or_iff_right Bool.true_eq_false.mp]

/-- A tethered run leaves no group without a row exactly when the row is written, or the group is empty by
then. -/
theorem traced_iff (ending : Ending) (home : Home) (argv : List Text) (state : Option Registry) :
    Traced ending home argv state ↔ RowWritten ending home argv state :=
  forall₄_congr fun _ _ _ _ ↦ forall_congr' traced_iff_of_start

/-- A registry that is asked for everything but takes no session. -/
def noSessions : Ending where
  fails step := step = .insertSession
  actor := []
  session := []
  pid := 7
  code := some 0
  elapsed := 0
  alive := true
  left := true
  gone h := nomatch h

def knowingFixLogin : Registry := ⟨[fixLoginManifest.unit], [fixLoginManifest.environment], [], []⟩

/-- The command is running in its group, the run has failed, and no row names the group. -/
theorem unwritten_row_untraced :
    ¬Traced noSessions (entered ofFixLogin fixLoginToml "mine".toList) ["serve".toList]
      (some knowingFixLogin) := by
  have hparse : ofFixLogin.parse fixLoginToml = some fixLoginManifest := by
    simp only [ofFixLogin, if_true]
  have hwanted : wanted fixLoginManifest = [API_KEY] := by decide +kernel
  have hstart : (noSessions.start (entered ofFixLogin fixLoginToml "mine".toList) ["serve".toList]
      .tether).on (some knowingFixLogin) =
        (.ok (fixLoginManifest, enteredValues "mine".toList, some fixLoginManifest.environment),
          some knowingFixLogin) := by
    unfold Outside.start
    rw [if_neg (List.cons_ne_nil _ _), entered_manifest hparse, entered_values hparse hwanted]
    have hknown : (noSessions.tetheredTo fixLoginManifest .tether).on (some knowingFixLogin) =
        (.ok (some fixLoginManifest.environment), some knowingFixLogin) := by
      have hunit : fixLoginManifest.unit ∈ knowingFixLogin.units := List.mem_singleton.mpr rfl
      unfold Outside.tetheredTo
      rw [if_neg (by decide)]
      refine bind_on_eq_ok.mpr ⟨_, _, rfl, ?_⟩
      refine bind_on_eq_ok.mpr ⟨(), _, rfl, ?_⟩
      rw [if_neg (not_not_intro hunit)]
      refine bind_on_eq_ok.mpr ⟨(), _, rfl, bind_on_eq_ok.mpr ⟨true, _, ?_, rfl⟩⟩
      exact pure_on_eq_ok.mpr ⟨decide_eq_true (List.mem_singleton.mpr rfl), rfl⟩
    exact bind_on_eq_ok.mpr ⟨_, _, hknown, bind_on_eq_ok.mpr ⟨(), _, rfl, rfl⟩⟩
  intro h
  have hwritten := (traced_iff_of_start hstart).mp (h _ _ _ _ hstart) rfl
  rcases hwritten with ⟨-, hinsert⟩ | ⟨registry, hregistry, row, hrow, -⟩
  · cases hinsert
  · cases hregistry
    cases hrow

end Nodal.Runtime.Run
