import Nodal.Foundation.Session
import Nodal.Lifecycle.Runner

/-!
# Histories of the runner

The machine whose processes are calls of `run`, `retry` and `resolve`. A process enters with a fresh
serial, an identifier no live process of its host has, and, for `run`, an operation identifier nobody
was given before; it leaves when its function has returned, or dies anywhere before that.

`Follows` is what the results about one operation suppose of a history: whatever a process is called
with, and whatever a plan is rebuilt to, it is the plan of that operation. The frame lemmas say that
what a function of the runner does about one run touches no other.
-/

set_option autoImplicit false

namespace Nodal.Lifecycle

open Nodal.Foundation Nodal.Foundation.Attempt

/-! ### The machine -/

/-- What a process was called for. -/
inductive Job
  | run (id : OperationId) (plan : Plan)
  | retry (id : OperationId) (plan : Plan)
  | resolve (rebuilders : List String)

/-- What a call returns. -/
inductive Report
  | done (done : Done)
  | resolutions (resolutions : List Resolution)

/-- The call a process makes. -/
def called (process : Process) : Job → Run Report
  | .run id plan => do
    let done ← run id plan
    pure (.done done)
  | .retry id plan => do
    let done ← retry id plan
    pure (.done done)
  | .resolve rebuilders => do
    let resolutions ← resolve process.owner rebuilders
    pure (.resolutions resolutions)

/-- Whether a process may enter: its serial is new, and nobody alive has its identifier. -/
def World.admits (w : World) (process : Process) : Bool :=
  process ∉ w.past && (w.processes.all fun other ↦ other.owner ≠ process.owner) &&
    process.owner.pid < 2 ^ 31

/-- A process enters. The identifier of a new run is one no other run was ever given. -/
def arrive (process : Process) (job : Job) (w : World) : Option World :=
  let arrived := { w with processes := process :: w.processes, past := process :: w.past }
  if w.admits process then
    match job with
    | .run id _ =>
      if id ∈ w.named ∨ (w.journal.operations.get? id).isSome then none
      else some { arrived with named := id :: w.named }
    | _ => some arrived
  else none

/-- A process leaves. -/
def depart (process : Process) (w : World) : World :=
  { w with processes := w.processes.filter fun other ↦ other ≠ process }

/-- The processes that call the runner over one journal. -/
def machine : Machine Process Job World Effect Effect.Answer Effect.Choice (Except Error Report) where
  program process job := (called process job).run
  enter := arrive
  leave := depart
  perform := perform

/-- The journal and the log, and what each live process has left to do. -/
abbrev Stage : Type := Config Process World Effect Effect.Answer (Except Error Report)

/-- One step of a history. -/
abbrev Happening : Type := Label Process Job Effect Effect.Choice

section Arrivals

variable {process : Process} {job : Job} {w w' : World} {id : OperationId}

theorem view_arrive (h : arrive process job w = some w') : w'.view id = w.view id := by
  unfold arrive at h
  split at h
  · cases job with
    | run other plan =>
      simp only at h
      split at h
      · cases h
      · exact Option.some.inj h ▸ rfl
    | retry other plan => exact Option.some.inj h ▸ rfl
    | resolve rebuilders => exact Option.some.inj h ▸ rfl
  · cases h

/-- The run a process enters for is not in the journal yet. -/
theorem row_of_arrive_run {plan : Plan} (h : arrive process (.run id plan) w = some w') :
    (w.view id).row = none := by
  unfold arrive at h
  split at h
  · simp only at h
    split at h
    · cases h
    · rename_i hnot
      simpa [World.view] using (not_or.mp hnot).2
  · cases h

@[simp] theorem view_depart : (depart process w).view id = w.view id := rfl

end Arrivals

/-! ### Who is alive -/

/-- Who is running is alive, and was admitted. -/
def Alive (c : Stage) : Prop :=
  ∀ i, c.running i ≠ none →
    i ∈ c.world.processes ∧ i ∈ c.world.past ∧ i.owner.pid < 2 ^ 31

theorem arrive_keeps {process : Process} {job : Job} {w w' : World}
    (h : arrive process job w = some w') : process ∉ w.past ∧ process.owner.pid < 2 ^ 31 ∧
      w'.processes = process :: w.processes ∧ w'.past = process :: w.past := by
  unfold arrive at h
  split at h
  · rename_i hadmits
    have hnew : process ∉ w.past ∧ process.owner.pid < 2 ^ 31 := by
      simp only [World.admits, Bool.and_eq_true, decide_eq_true_eq] at hadmits
      exact ⟨hadmits.1.1, hadmits.2⟩
    cases job with
    | run other plan =>
      simp only at h
      split at h
      · cases h
      · exact ⟨hnew.1, hnew.2, Option.some.inj h ▸ ⟨rfl, rfl⟩⟩
    | retry other plan => exact ⟨hnew.1, hnew.2, Option.some.inj h ▸ ⟨rfl, rfl⟩⟩
    | resolve rebuilders => exact ⟨hnew.1, hnew.2, Option.some.inj h ▸ ⟨rfl, rfl⟩⟩
  · cases h

theorem alive_next {c c' : Stage} {label : Happening} (hnext : machine.next c label = some c')
    (hc : Alive c) : Alive c' := by
  intro j hj
  cases label with
  | enter i job =>
    obtain ⟨_, world, hworld, rfl⟩ := Machine.next_enter_eq_some.mp hnext
    obtain ⟨_, hpid, hprocesses, hpast⟩ := arrive_keeps hworld
    simp only [hprocesses, hpast, List.mem_cons]
    by_cases hji : j = i
    · exact ⟨.inl hji, .inl hji, hji ▸ hpid⟩
    · obtain ⟨hprocess, hseen, hbound⟩ := hc j (by simpa [Function.update_of_ne hji] using hj)
      exact ⟨.inr hprocess, .inr hseen, hbound⟩
  | act i choice =>
    obtain ⟨effect, rest, hrunning, rfl⟩ := Machine.next_act_eq_some.mp hnext
    change j ∈ (perform i effect (choice effect) c.world).2.processes ∧
      j ∈ (perform i effect (choice effect) c.world).2.past ∧ j.owner.pid < 2 ^ 31
    rw [perform_processes, perform_past]
    by_cases hji : j = i
    · exact hc j (by simp [hji, hrunning])
    · exact hc j (by simpa [Function.update_of_ne hji] using hj)
  | leave i =>
    obtain ⟨p, hrunning, rfl⟩ := Machine.next_leave_eq_some.mp hnext
    have hji : j ≠ i := by
      rintro rfl
      simp at hj
    obtain ⟨hprocess, hseen⟩ := hc j (by simpa [Function.update_of_ne hji] using hj)
    exact ⟨List.mem_filter.mpr ⟨hprocess, by simpa using hji⟩, hseen⟩

/-! ### What a history supposes of one operation -/

/-- A label that keeps to the plan of one operation: it is entered with that plan, rebuilt to it, and
its steps answer only what `answers` allows. -/
def Follows (id : OperationId) (plan : Plan) (answers : ℕ → Output → Prop) : Happening → Prop
  | .enter _ (.run other plan') => other = id → plan' = plan
  | .enter _ (.retry other plan') => other = id → plan' = plan
  | .enter _ (.resolve _) => True
  | .act _ choice =>
    (∀ position output, choice (.endApply id position) = .ok output → answers position output) ∧
      ∀ rebuilders record plan', record.id = id →
        choice (.rebuild rebuilders record) = .ok plan' → plan' = plan
  | .leave _ => True

/-- What `Follows` says of one choice. -/
def Kept (id : OperationId) (plan : Plan) (answers : ℕ → Output → Prop) :
    (effect : Effect) → effect.Choice → Prop
  | .endApply other position, choice =>
    other = id → ∀ output, choice = .ok output → answers position output
  | .rebuild _ record, choice => record.id = id → ∀ plan', choice = .ok plan' → plan' = plan
  | _, _ => True

theorem Follows.kept {id : OperationId} {plan : Plan} {answers : ℕ → Output → Prop}
    {process : Process} {choice : (effect : Effect) → effect.Choice}
    (h : Follows id plan answers (.act process choice)) (effect : Effect) :
    Kept id plan answers effect (choice effect) := by
  cases effect with
  | endApply other position =>
    rintro rfl output houtput
    exact h.1 position output houtput
  | rebuild rebuilders record => exact fun hid plan' hplan' ↦ h.2 rebuilders record plan' hid hplan'
  | _ => trivial

/-! ### Histories written out -/

/-- What the outside chooses, from what the steps and the registry write answer. Nobody else has an
identifier that is asked about, and plans are rebuilt to `rebuilt`. -/
def choosing (rebuilt : Except String Plan) (apply : ℕ → Except String Output)
    (undo : ℕ → Except String Unit) (commit : Except String Output) :
    (effect : Effect) → effect.Choice
  | .start _ _ | .markStep _ _ | .finish _ _ | .reopen _ | .steps _ | .unfinished
  | .beginApply _ _ | .beginUndo _ _ => ()
  | .isRunning _ _ => false
  | .rebuild _ _ => rebuilt
  | .snapshot _ _ _ => .ok false
  | .endApply _ position => apply position
  | .endUndo _ position => undo position
  | .commit _ _ _ => commit

theorem follows_choosing {id : OperationId} {plan : Plan} {answers : ℕ → Output → Prop}
    {process : Process} {rebuilt : Except String Plan} {apply : ℕ → Except String Output}
    {undo : ℕ → Except String Unit} {commit : Except String Output}
    (hrebuilt : ∀ plan', rebuilt = .ok plan' → plan' = plan)
    (happly : ∀ position output, apply position = .ok output → answers position output) :
    Follows id plan answers (.act process (choosing rebuilt apply undo commit)) :=
  ⟨happly, fun _ _ plan' _ hplan' ↦ hrebuilt plan' hplan'⟩

theorem follows_run {id : OperationId} {plan : Plan} {answers : ℕ → Output → Prop}
    {process : Process} : Follows id plan answers (.enter process (.run id plan)) := fun _ ↦ rfl

theorem follows_retry {id : OperationId} {plan : Plan} {answers : ℕ → Output → Prop}
    {process : Process} : Follows id plan answers (.enter process (.retry id plan)) := fun _ ↦ rfl

theorem follows_resolve {id : OperationId} {plan : Plan} {answers : ℕ → Output → Prop}
    {process : Process} {rebuilders : List String} :
    Follows id plan answers (.enter process (.resolve rebuilders)) := trivial

/-- A session in which the outside chooses the same throughout, cut off after so many effects. -/
def sitting (process : Process) (job : Job) (effects : ℕ)
    (choice : (effect : Effect) → effect.Choice) :
    Session Process Job Effect Effect.Choice :=
  ⟨process, job, List.replicate effects choice⟩

theorem follows_sitting {id : OperationId} {plan : Plan} {answers : ℕ → Output → Prop}
    {process : Process} {job : Job} {effects : ℕ} {choice : (effect : Effect) → effect.Choice}
    (henter : Follows id plan answers (.enter process job))
    (hact : Follows id plan answers (.act process choice)) :
    ∀ label ∈ (sitting process job effects choice).complete, Follows id plan answers label := by
  intro label hlabel
  rcases List.mem_append.mp hlabel with hlabel | hlabel
  · rcases List.mem_cons.mp hlabel with rfl | hlabel
    · exact henter
    · obtain ⟨choice', hchoice', rfl⟩ := List.mem_map.mp hlabel
      obtain ⟨_, rfl⟩ := List.mem_replicate.mp hchoice'
      exact hact
  · rw [List.mem_singleton.mp hlabel]
    trivial

/-- The machine before anything has run on it. -/
def beginning : Stage where
  world := ⟨⟨∅, fun _ ↦ ∅, fun _ _ h ↦ by cases h⟩, [], [], [], fun _ ↦ []⟩
  running _ := none

/-- The registry write a process is about to make: of which run, and with what outputs. -/
def commitCall (c : Stage) (process : Process) : Option (OperationId × Outputs) :=
  match c.running process with
  | some (.perform (.commit id _ outputs) _) => some (id, outputs)
  | _ => none

theorem commitCall_eq_some {c : Stage} {process : Process} {id : OperationId} {outputs : Outputs}
    (h : commitCall c process = some (id, outputs)) : ∃ kind next,
      c.running process = some (.perform (.commit id kind outputs) next) := by
  unfold commitCall at h
  split at h
  · rename_i kind outputs next hrunning
    cases h
    exact ⟨_, _, hrunning⟩
  · cases h

/-! ### What was last done about a step -/

/-- A deed that takes a step back, or tries to. -/
def Deed.isUndo : Deed → Bool
  | undoing | undone | undoFailed => true
  | applying | applied | applyFailed => false

/-- What an event says was done about a step. -/
def Event.deedAt : Event → ℕ → Option Deed
  | acted position deed, position' => if position = position' then some deed else none
  | _, _ => none

/-- What was last done about a step. -/
def lastDeed (log : List (Process × Event)) (position : ℕ) : Option Deed :=
  log.findSome? fun entry ↦ entry.2.deedAt position

section Deeds

variable {log : List (Process × Event)} {process : Process} {event : Event} {position : ℕ}

theorem lastDeed_cons : lastDeed ((process, event) :: log) position =
    (event.deedAt position).or (lastDeed log position) := by
  simp only [lastDeed, List.findSome?_cons]
  cases event.deedAt position <;> rfl

theorem lastDeed_of_deedAt (h : event.deedAt position = none) :
    lastDeed ((process, event) :: log) position = lastDeed log position := by
  rw [lastDeed_cons, h, Option.none_or]

@[simp] theorem lastDeed_acted {deed : Deed} :
    lastDeed ((process, .acted position deed) :: log) position = some deed := by
  simp [lastDeed_cons, Event.deedAt]

theorem lastDeed_acted_of_ne {other : ℕ} {deed : Deed} (h : other ≠ position) :
    lastDeed ((process, .acted other deed) :: log) position = lastDeed log position :=
  lastDeed_of_deedAt (by simp [Event.deedAt, h])

end Deeds

/-! ### Frames -/

/-- An effect about one run. -/
def About (id : OperationId) (effect : Effect) : Prop := effect.about = some id

/-- An effect of a pass over the steps of one run. -/
def Working (id : OperationId) : Effect → Prop
  | .markStep other _ | .steps other | .beginApply other _ | .endApply other _
  | .beginUndo other _ | .endUndo other _ => other = id
  | _ => False

theorem Working.about {id : OperationId} {effect : Effect} (h : Working id effect) :
    About id effect := by
  cases effect <;> first | exact congrArg some h | exact h.elim

/-- An effect of a pass leaves the state of the row as it is. -/
theorem Working.state {id : OperationId} {effect : Effect} {process : Process} {w : World}
    (h : Working id effect) (choice : effect.Choice) :
    ((perform process effect choice w).2.view id).state = (w.view id).state := by
  cases effect with
  | markStep other step =>
    obtain rfl : other = id := h
    rw [view_markStep, View.note_state, View.markStep_state]
  | steps other => rfl
  | beginApply other position | beginUndo other position =>
    obtain rfl : other = id := h
    rw [perform, view_note_self, View.note_state]
  | endApply other position | endUndo other position =>
    obtain rfl : other = id := h
    cases choice <;> rw [perform, view_note_self, View.note_state]
  | _ => exact h.elim

section Frames

variable {id : OperationId} {plan : Plan} {step : ℕ × String}

theorem mark_uses {state : StepState} {output : Option Output} :
    (mark id step state output).run.Uses (About id) :=
  uses_call rfl

theorem close_uses {kind : String} {state : State} :
    (close id kind state).run.Uses (About id) := by
  refine uses_bind (uses_call rfl) fun changed ↦ ?_
  split <;> trivial

theorem keep_uses {why : Error} : (keep id step why).run.Uses (About id) :=
  uses_bind mark_uses fun _ ↦ close_uses

theorem reopen_uses {kind : String} : (reopen id kind).run.Uses (About id) := by
  refine uses_bind (uses_call rfl) fun changed ↦ ?_
  split <;> trivial

theorem commit_uses {outputs : Outputs} : (commit id plan outputs).run.Uses (About id) := by
  refine uses_bind (uses_call rfl) fun committed ↦ ?_
  split <;> trivial

theorem record_uses : (record plan id).run.Uses (About id) := by
  unfold record
  split
  · trivial
  · refine uses_bind (uses_call rfl) fun taken ↦ ?_
    split <;> trivial

theorem undoEach_working {acted : List StepRecord} {rest : List (Step × ℕ)}
    {undone : List String} : (undoEach id acted rest undone).run.Uses (Working id) := by
  induction rest generalizing undone with
  | nil => trivial
  | cons entry rest ih =>
    unfold undoEach
    split
    · refine uses_bind (uses_bind (uses_call rfl) fun _ ↦ uses_call rfl) fun answer ↦ ?_
      split
      · trivial
      · exact uses_bind (uses_call rfl) fun _ ↦ ih
    · exact ih

theorem undoSteps_working : (undoSteps id plan).run.Uses (Working id) :=
  uses_bind (uses_bind (uses_call rfl) fun _ ↦ trivial) fun _ ↦ undoEach_working

theorem undoSteps_uses : (undoSteps id plan).run.Uses (About id) :=
  undoSteps_working.mono fun _ ↦ Working.about

theorem undoApplied_uses : (undoApplied id plan).run.Uses (About id) := by
  refine uses_bind undoSteps_uses fun undone ↦ ?_
  split
  · exact close_uses
  · exact uses_bind close_uses fun _ ↦ trivial

/-- The loop of `applySteps` performs the effects of a pass, and what it does about a failure. -/
theorem applySteps_uses {allowed : Effect → Prop} {kind : String} {done : List (ℕ × String)}
    {failing : ℕ × String → Error → Run Unit} (hworking : ∀ effect, Working id effect → allowed effect)
    (hfailing : ∀ step why, (failing step why).run.Uses allowed) {rest : List (Step × ℕ)}
    {outputs : Outputs} {applied : List String} :
    (applySteps id kind done failing rest outputs applied).run.Uses allowed := by
  induction rest generalizing outputs applied with
  | nil => trivial
  | cons entry rest ih =>
    unfold applySteps
    split
    · exact ih
    · refine uses_bind (uses_call (hworking _ rfl)) fun _ ↦ uses_bind (uses_bind
        (uses_call (hworking _ rfl)) fun _ ↦ uses_call (hworking _ rfl)) fun answer ↦ ?_
      split
      · exact uses_bind (uses_call (hworking _ rfl)) fun _ ↦ ih
      · exact uses_bind (hfailing _ _) fun _ ↦ trivial

theorem appliedKeys_uses : (appliedKeys id).run.Uses (About id) :=
  uses_bind (uses_call rfl) fun _ ↦ trivial

theorem journalOutputs_uses : (journalOutputs id).run.Uses (About id) :=
  uses_bind (uses_call rfl) fun _ ↦ trivial

theorem failedRun_uses {why : Error} : (failedRun id plan step why).run.Uses (About id) := by
  unfold failedRun
  split
  · exact keep_uses
  · exact undoApplied_uses

theorem run_uses : (run id plan).run.Uses (About id) := by
  refine uses_bind (uses_call rfl) fun _ ↦ uses_bind record_uses fun recorded ↦ ?_
  split
  · exact uses_bind close_uses fun _ ↦ trivial
  · refine uses_bind (applySteps_uses (fun _ ↦ Working.about) fun _ _ ↦ failedRun_uses) fun _ ↦ ?_
    refine uses_bind (uses_outcome commit_uses) fun committed ↦ ?_
    split
    · trivial
    · exact uses_bind undoApplied_uses fun _ ↦ trivial

theorem retry_uses : (retry id plan).run.Uses (About id) := by
  refine uses_bind reopen_uses fun _ ↦ uses_bind appliedKeys_uses fun _ ↦ ?_
  refine uses_bind journalOutputs_uses fun _ ↦ ?_
  refine uses_bind (applySteps_uses (fun _ ↦ Working.about) fun _ _ ↦ keep_uses) fun _ ↦ ?_
  exact uses_bind commit_uses fun _ ↦ trivial

theorem rollBack_uses : (rollBack id plan).run.Uses (About id) := by
  refine uses_bind undoSteps_uses fun undone ↦ ?_
  split
  · exact uses_bind close_uses fun _ ↦ trivial
  · exact uses_bind close_uses fun _ ↦ trivial

theorem resume_uses : (resume id plan).run.Uses (About id) := by
  refine uses_bind appliedKeys_uses fun _ ↦ uses_bind journalOutputs_uses fun _ ↦ ?_
  refine uses_bind (applySteps_uses (fun _ ↦ Working.about) fun _ _ ↦ Program.uses_done _ _) fun _ ↦ ?_
  exact uses_bind commit_uses fun _ ↦ trivial

theorem takeOver_uses {record : Operation} {rebuilders : List String} :
    (takeOver record rebuilders).run.Uses (About record.id) := by
  refine uses_bind (uses_call rfl) fun rebuilt ↦ ?_
  split
  · trivial
  · trivial
  · split
    · exact rollBack_uses
    · exact resume_uses

theorem stateFor_uses {owner here : Owner} : (owner.stateFor here id).run.Uses (About id) := by
  unfold Owner.stateFor
  split
  · trivial
  · split
    · trivial
    · exact uses_bind (uses_call rfl) fun _ ↦ trivial

theorem actOn_uses {record : Operation} {here : Owner} {rebuilders : List String} :
    (actOn here rebuilders record).run.Uses (About record.id) := by
  refine uses_bind stateFor_uses fun liveness ↦ ?_
  split
  · trivial
  · trivial
  · exact takeOver_uses

end Frames

end Nodal.Lifecycle
