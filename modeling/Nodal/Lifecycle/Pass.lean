import Nodal.Lifecycle.History

/-!
# One pass over an operation

What a call of `run`, `retry` or `resolve` owes one operation while nobody else is alive. The
operation has a plan; `answers` says what its steps may answer and `answer` what each of them always
answers, where the history is `Steady`.

`Recorded` is what the rows of the operation say about its log at every point of every such history,
also in the middle of a pass. `Owed` is what has to hold when a pass performs an effect, told
against the view it found when it entered (`start`); for the registry write it says what outputs it
is handed and what was last done about every step. `pass_sound` shows that every pass pays it.
-/

set_option autoImplicit false

namespace Nodal.Lifecycle

open Nodal.Foundation Nodal.Foundation.Attempt

/-! ### What the rows say -/

/-- Every step always answers the same. -/
def Steady (answers : ℕ → Output → Prop) (answer : ℕ → Output) : Prop :=
  ∀ position output, answers position output → output = answer position

/-- A step is recorded as applied. -/
def RecordedApplied (v : View) (position : ℕ) : Prop :=
  ∃ row, v.steps.get? position = some row ∧ row.state = .applied

/-- A failure of the step was written down and the run kept. -/
def KeptFailure (v : View) (position : ℕ) : Prop :=
  ∃ process step, (process, .marked step) ∈ v.log ∧ step.position = position ∧
    step.state = .applying ∧ step.output ≠ none

/-- Every step of the plan was applied, and nothing was done about it since. -/
def AllApplied (plan : Plan) (v : View) : Prop :=
  ∀ position < plan.steps.length, lastDeed v.log position = some .applied

/-- No step recorded as applied had an undo started since. -/
def Intact (plan : Plan) (v : View) : Prop :=
  ∀ position < plan.steps.length, RecordedApplied v position →
    ∀ deed, lastDeed v.log position = some deed → deed.isUndo = false

section Contract

variable (id : OperationId) (plan : Plan) (answers : ℕ → Output → Prop) (answer : ℕ → Output)

/-- What the rows of an operation say about its log. -/
structure Recorded (v : View) : Prop where
  untouched : v.row = none → v.steps = ∅ ∧ v.log = []
  planned : ∀ position row, v.steps.get? position = some row → row.position = position ∧
    ∃ step, plan.steps[position]? = some step ∧ row.key = step.key
  spoken : ∀ position row, v.steps.get? position = some row → row.output ≠ some .null
  answered : Steady answers answer → ∀ position row, v.steps.get? position = some row →
    row.state = .applied → answer position ≠ .null → row.output = some (answer position)
  silent : Steady answers answer → ∀ position, answer position = .null →
    ((∃ row, v.steps.get? position = some row ∧ row.output ≠ none) ↔ KeptFailure v position)
  done : ∀ position, RecordedApplied v position →
    ∃ deed, lastDeed v.log position = some deed ∧ (deed = .applied ∨ deed.isUndo = true)

/-- The steps of a journal that are applied, by position and key. -/
def keysApplied (steps : List StepRecord) : List (ℕ × String) :=
  (steps.filter fun step ↦ step.state = .applied).map fun step ↦ (step.position, step.key)

/-- What one turn of the loop adds to the outputs. -/
def gather (answer : ℕ → Output) (done : List (ℕ × String)) (outputs : Outputs)
    (entry : Step × ℕ) : Outputs :=
  if (entry.2, entry.1.key) ∈ done then outputs
  else outputs.record entry.1.key (answer entry.2)

/-- The outputs a pass that found the view `start` hands to the registry write. -/
def handed (start : View) : Outputs :=
  plan.positioned.foldl (gather answer (keysApplied start.steps.values))
    (recordedOutputs start.steps.values)

/-- What has to hold when a pass that found the view `start` performs an effect. -/
def Owed (start : View) (effect : Effect) (v : View) : Prop :=
  match effect with
  | .start _ _ => v.row = none
  | .markStep _ mark => v.state = some .running ∧ mark.output ≠ some .null ∧
      (∃ step, plan.steps[mark.position]? = some step ∧ mark.key = step.key) ∧
      (mark.state = .applied → lastDeed v.log mark.position = some .applied ∧
        (Steady answers answer → mark.output =
          if answer mark.position = .null then none else some (answer mark.position))) ∧
      (mark.state = .undone → mark.output = none)
  | .finish _ state => state ≠ .committed
  | .isRunning _ _ => v.state = some .running
  | .rebuild _ _ => v.state = some .running
  | .beginApply _ position => v.state = some .running ∧ ¬RecordedApplied v position
  | .endApply _ position => v.state = some .running ∧ ¬RecordedApplied v position
  | .beginUndo _ _ => v.state = some .running
  | .endUndo _ _ => v.state = some .running
  | .commit _ _ outputs => v.state = some .running ∧
      (Steady answers answer → outputs = handed plan answer start) ∧
      (∀ position, RecordedApplied start position →
        lastDeed v.log position = lastDeed start.log position) ∧
      ∀ position < plan.steps.length, ¬RecordedApplied start position →
        lastDeed v.log position = some .applied
  | _ => True

/-- What holds in a pass that found the view `start`: the rows are right, and where the pass has
committed the operation, every step is applied exactly when `start` was intact. -/
structure InPass (start v : View) : Prop where
  found : Recorded plan answers answer start
  recorded : Recorded plan answers answer v
  settled : start.state ≠ some .committed → v.state = some .committed →
    (AllApplied plan v ↔ Intact plan start)

/-- The session contract of a pass. -/
def passContract : SessionContract Process World Effect Effect.Choice where
  inv start w := InPass plan answers answer (start.view id) (w.view id)
  pre start _ effect w :=
    About id effect → Owed plan answers answer (start.view id) effect (w.view id)
  assume := Kept id plan answers

end Contract

/-! ### Each effect keeps the rows right -/

section Effects

variable {id : OperationId} {plan : Plan} {answers : ℕ → Output → Prop} {answer : ℕ → Output}
  {start v : View} {process : Process} {event : Event}

/-- Moving the row or changing its owner leaves what is recorded of the steps. -/
theorem Recorded.of_row {v' : View} (h : Recorded plan answers answer v)
    (hsteps : v'.steps = v.steps) (hlog : v'.log = v.log) (hrow : v'.row ≠ none) :
    Recorded plan answers answer v' where
  untouched hnone := absurd hnone hrow
  planned := hsteps ▸ h.planned
  spoken := hsteps ▸ h.spoken
  answered := hsteps ▸ h.answered
  silent hsteady position hnull := by
    rw [hsteps, h.silent hsteady position hnull, KeptFailure, KeptFailure, hlog]
  done position happlied := by
    rw [hlog]
    rw [RecordedApplied, hsteps] at happlied
    exact h.done position happlied

theorem Recorded.move {state : State} (h : Recorded plan answers answer v) (hrow : v.row ≠ none) :
    Recorded plan answers answer (v.move state) :=
  h.of_row rfl rfl (View.move_row_ne_none.mpr hrow)

theorem Recorded.own {owner : Owner} (h : Recorded plan answers answer v) (hrow : v.row ≠ none) :
    Recorded plan answers answer (v.own owner) :=
  h.of_row rfl rfl (View.own_row_ne_none.mpr hrow)

/-- An event that is not a mark, and no deed that a row recorded as applied would not show. -/
theorem Recorded.note (h : Recorded plan answers answer v) (hrow : v.row ≠ none)
    (hmark : ∀ step, event ≠ .marked step)
    (hdeed : ∀ position deed, event.deedAt position = some deed →
      deed = .applied ∨ deed.isUndo = true ∨ ¬RecordedApplied v position) :
    Recorded plan answers answer (v.note process event) where
  untouched hnone := absurd hnone hrow
  planned := h.planned
  spoken := h.spoken
  answered := h.answered
  silent hsteady position hnull := by
    refine (h.silent hsteady position hnull).trans ?_
    simp only [KeptFailure, View.note_log, List.mem_cons, Prod.mk.injEq]
    constructor
    · rintro ⟨other, step, hmem, hstep⟩
      exact ⟨other, step, .inr hmem, hstep⟩
    · rintro ⟨other, step, ⟨_, heq⟩ | hmem, hstep⟩
      · exact absurd heq.symm (hmark step)
      · exact ⟨other, step, hmem, hstep⟩
  done position happlied := by
    rw [View.note_log, lastDeed_cons]
    cases hevent : event.deedAt position with
    | none => simpa using h.done position happlied
    | some deed =>
      refine ⟨deed, rfl, ?_⟩
      rcases hdeed position deed hevent with hdeed | hdeed | hdeed
      · exact .inl hdeed
      · exact .inr hdeed
      · exact absurd happlied hdeed

/-- An event about no step. -/
theorem Recorded.note_plain (h : Recorded plan answers answer v) (hrow : v.row ≠ none)
    (hmark : ∀ step, event ≠ .marked step) (hdeed : ∀ position, event.deedAt position = none) :
    Recorded plan answers answer (v.note process event) :=
  h.note hrow hmark fun position deed hevent ↦ by rw [hdeed] at hevent; cases hevent

theorem deedAt_acted {position position' : ℕ} {deed deed' : Deed}
    (h : (Event.acted position deed).deedAt position' = some deed') :
    position = position' ∧ deed = deed' := by
  simp only [Event.deedAt] at h
  split at h
  · exact ⟨‹_›, Option.some.inj h⟩
  · cases h

/-- A deed that takes back, or an apply that succeeded. -/
theorem Recorded.note_acted {position : ℕ} {deed : Deed} (h : Recorded plan answers answer v)
    (hrow : v.row ≠ none)
    (hdeed : deed = .applied ∨ deed.isUndo = true ∨ ¬RecordedApplied v position) :
    Recorded plan answers answer (v.note process (.acted position deed)) := by
  refine h.note hrow (fun step ↦ by simp) fun position' deed' hevent ↦ ?_
  obtain ⟨rfl, rfl⟩ := deedAt_acted hevent
  exact hdeed

/-- What the row of a step holds after a mark. -/
theorem merged_output {mark : StepRecord} {existing : Option StepRecord} :
    (Journal.merged mark existing).output =
      mark.output.or (existing.bind StepRecord.output) := rfl

/-- A mark that is owed. -/
theorem Recorded.markStep {mark : StepRecord} (h : Recorded plan answers answer v)
    (howed : Owed plan answers answer start (.markStep id mark) v) :
    Recorded plan answers answer ((v.markStep mark).note process (.marked mark)) := by
  obtain ⟨hrunning, hspoken, hplanned, happlied, hundone⟩ := howed
  have hget : ∀ position row, (v.markStep mark).steps.get? position = some row →
      (position = mark.position ∧ row = Journal.merged mark (v.steps.get? mark.position)) ∨
        (position ≠ mark.position ∧ v.steps.get? position = some row) := by
    intro position row hrow
    rw [View.get?_markStep] at hrow
    split at hrow
    · rename_i hposition
      exact .inl ⟨hposition, by rw [← Option.some.inj hrow, hposition]⟩
    · exact .inr ⟨‹_›, hrow⟩
  have hkept : ∀ position, KeptFailure ((v.markStep mark).note process (.marked mark)) position ↔
      (position = mark.position ∧ mark.state = .applying ∧ mark.output ≠ none) ∨
        KeptFailure v position := by
    intro position
    simp only [KeptFailure, View.note_log, View.markStep_log, List.mem_cons, Prod.mk.injEq,
      Event.marked.injEq]
    constructor
    · rintro ⟨other, step, ⟨rfl, rfl⟩ | hmem, hposition, hstep⟩
      · exact .inl ⟨hposition.symm, hstep⟩
      · exact .inr ⟨other, step, hmem, hposition, hstep⟩
    · rintro (⟨rfl, hstep⟩ | ⟨other, step, hmem, hstep⟩)
      · exact ⟨process, mark, .inl ⟨rfl, rfl⟩, rfl, hstep⟩
      · exact ⟨other, step, .inr hmem, hstep⟩
  refine ⟨fun hnone ↦ absurd hnone (View.row_ne_none hrunning), ?_, ?_, ?_, ?_, ?_⟩
  · intro position row hrow
    rcases hget position row hrow with ⟨rfl, rfl⟩ | ⟨_, hrow⟩
    · exact ⟨rfl, hplanned⟩
    · exact h.planned position row hrow
  · intro position row hrow
    rcases hget position row hrow with ⟨rfl, rfl⟩ | ⟨_, hrow⟩
    · rw [merged_output]
      cases hmark : mark.output with
      | some output => exact fun heq ↦ hspoken (hmark ▸ heq)
      | none =>
        cases hold : v.steps.get? mark.position with
        | none => simp
        | some old => simpa using h.spoken _ old hold
    · exact h.spoken position row hrow
  · intro hsteady position row hrow hstate hanswer
    rcases hget position row hrow with ⟨rfl, rfl⟩ | ⟨_, hrow⟩
    · rw [merged_output, (happlied hstate).2 hsteady, if_neg hanswer]
      rfl
    · exact h.answered hsteady position row hrow hstate hanswer
  · intro hsteady position hnull
    rw [hkept, ← h.silent hsteady position hnull, View.note_steps, View.get?_markStep]
    by_cases hposition : position = mark.position
    · subst hposition
      have hsilent : mark.output ≠ none → mark.state = .applying := by
        intro houtput
        cases hstate : mark.state with
        | applying => rfl
        | applied => exact absurd ((happlied hstate).2 hsteady) (by simp [hnull, houtput])
        | undone => exact absurd (hundone hstate) houtput
      simp only [if_true, Option.some.injEq, exists_eq_left', merged_output, true_and]
      cases hmark : mark.output with
      | some output => simp [hsilent (by simp [hmark])]
      | none => simp [Option.ne_none_iff_exists']
    · simp [hposition]
  · intro position happlied'
    rw [View.note_log, lastDeed_of_deedAt rfl, View.markStep_log]
    obtain ⟨row, hrow, hstate⟩ := happlied'
    rcases hget position row hrow with ⟨rfl, rfl⟩ | ⟨_, hrow⟩
    · exact ⟨.applied, (happlied hstate).1, .inl rfl⟩
    · exact h.done position ⟨row, hrow, hstate⟩

/-- Where the operation is not committed, only the rows are in question. -/
theorem InPass.of_recorded {v' : View} (h : InPass plan answers answer start v)
    (hrecorded : Recorded plan answers answer v') (hstate : v'.state ≠ some .committed) :
    InPass plan answers answer start v' :=
  ⟨h.found, hrecorded, fun _ hcommitted ↦ absurd hcommitted hstate⟩

theorem state_ne_committed (h : v.state = some .running) : v.state ≠ some .committed := by
  simp [h]

/-- A note on a running operation. -/
theorem InPass.note_plain (h : InPass plan answers answer start v)
    (hrunning : v.state = some .running) (hmark : ∀ step, event ≠ .marked step)
    (hdeed : ∀ position, event.deedAt position = none) :
    InPass plan answers answer start (v.note process event) :=
  h.of_recorded (h.recorded.note_plain (View.row_ne_none hrunning) hmark hdeed)
    (state_ne_committed hrunning)

/-- A deed on a running operation. -/
theorem InPass.note_acted {position : ℕ} {deed : Deed} (h : InPass plan answers answer start v)
    (hrunning : v.state = some .running)
    (hdeed : deed = .applied ∨ deed.isUndo = true ∨ ¬RecordedApplied v position) :
    InPass plan answers answer start (v.note process (.acted position deed)) :=
  h.of_recorded (h.recorded.note_acted (View.row_ne_none hrunning) hdeed) (state_ne_committed hrunning)

/-- A registry write that is owed. -/
theorem InPass.commit {kind : String} {outputs : Outputs}
    (h : InPass plan answers answer start v)
    (howed : Owed plan answers answer start (.commit id kind outputs) v) :
    InPass plan answers answer start
      ((v.move .committed).note process (.committed outputs)) := by
  obtain ⟨hrunning, _, hsame, hfresh⟩ := howed
  have hrow := View.row_ne_none hrunning
  have hmoved : Recorded plan answers answer (v.move .committed) := h.recorded.move hrow
  refine ⟨h.found, hmoved.note_plain (by simpa using hrow) (by simp) fun _ ↦ rfl, fun _ _ ↦ ?_⟩
  have hlast : ∀ position, lastDeed ((v.move .committed).note process (.committed outputs)).log
      position = lastDeed v.log position := fun position ↦ lastDeed_of_deedAt rfl
  constructor
  · intro hall position hlt hrecorded deed hdeed
    rw [← hsame position hrecorded, ← hlast, hall position hlt] at hdeed
    exact Option.some.inj hdeed ▸ rfl
  · intro hintact position hlt
    rw [hlast]
    by_cases hrecorded : RecordedApplied start position
    · obtain ⟨deed, hdeed, happlied⟩ := h.found.done position hrecorded
      have hundo := hintact position hlt hrecorded deed hdeed
      rw [hsame position hrecorded, hdeed, happlied.resolve_right (by simp [hundo])]
    · exact hfresh position hlt hrecorded

/-- An effect that is owed keeps what holds in a pass. -/
theorem InPass.perform {w : World} {effect : Effect} {choice : effect.Choice}
    (h : InPass plan answers answer start (w.view id)) (habout : About id effect)
    (howed : Owed plan answers answer start effect (w.view id)) :
    InPass plan answers answer start ((perform process effect choice w).2.view id) := by
  cases effect with
  | start other plan' =>
    obtain rfl : other = id := Option.some.inj habout
    obtain ⟨hsteps, hlog⟩ := h.recorded.untouched howed
    rw [view_start]
    have hopened : Recorded plan answers answer
        { w.view other with row := some (Journal.opened other plan' process.owner) } :=
      h.recorded.of_row rfl rfl (by simp)
    refine h.of_recorded (hopened.note_plain (by simp) (by simp) fun _ ↦ rfl) ?_
    simp [View.state, Journal.opened]
  | markStep other mark =>
    obtain rfl : other = id := Option.some.inj habout
    rw [view_markStep]
    exact h.of_recorded (h.recorded.markStep howed) (state_ne_committed howed.1)
  | finish other state =>
    obtain rfl : other = id := Option.some.inj habout
    by_cases hrunning : (w.view other).state = some .running
    · rw [(perform_finish_open _ state choice hrunning).2]
      have hrow := View.row_ne_none hrunning
      refine h.of_recorded ((h.recorded.move hrow).note_plain (by simpa using hrow) (by simp)
        fun _ ↦ rfl) ?_
      have hstate : state ≠ .committed := howed
      simpa [View.move_state, hrunning] using hstate
    · rw [perform_finish_closed state choice hrunning]
      exact h
  | reopen other =>
    obtain rfl : other = id := Option.some.inj habout
    by_cases hfailed : (w.view other).state = some .failed
    · rw [(perform_reopen_failed process choice hfailed).2]
      have hrow := View.row_ne_none hfailed
      have hmoved : Recorded plan answers answer ((w.view other).move .running) :=
        h.recorded.move hrow
      refine h.of_recorded ((hmoved.own (by simpa using hrow)).note_plain (by simpa using hrow)
        (by simp) fun _ ↦ rfl) ?_
      simp [View.move_state, hfailed]
    · rw [perform_reopen_other choice hfailed]
      exact h
  | steps other => exact h
  | unfinished => exact h
  | isRunning other pid =>
    obtain rfl : other = id := Option.some.inj habout
    simp only [Lifecycle.perform]
    split
    · exact h
    · rw [view_note_self]
      exact h.note_plain howed (by simp) fun _ ↦ rfl
  | rebuild rebuilders record =>
    obtain rfl : record.id = id := Option.some.inj habout
    have hpassed : InPass plan answers answer start
        ((w.note record.id process .passed).view record.id) := by
      rw [view_note_self]
      exact h.note_plain howed (by simp) fun _ ↦ rfl
    simp only [Lifecycle.perform]
    split
    · split
      · exact h
      · exact hpassed
    · exact hpassed
  | snapshot other records kind => exact h
  | beginApply other position =>
    obtain rfl : other = id := Option.some.inj habout
    rw [Lifecycle.perform, view_note_self]
    exact h.note_acted howed.1 (.inr (.inr howed.2))
  | endApply other position =>
    obtain rfl : other = id := Option.some.inj habout
    cases choice with
    | ok output =>
      rw [Lifecycle.perform, view_note_self]
      exact h.note_acted howed.1 (.inl rfl)
    | error why =>
      rw [Lifecycle.perform, view_note_self]
      exact h.note_acted howed.1 (.inr (.inr howed.2))
  | beginUndo other position =>
    obtain rfl : other = id := Option.some.inj habout
    rw [Lifecycle.perform, view_note_self]
    exact h.note_acted howed (.inr (.inl rfl))
  | endUndo other position =>
    obtain rfl : other = id := Option.some.inj habout
    cases choice with
    | ok output =>
      rw [Lifecycle.perform, view_note_self]
      exact h.note_acted howed (.inr (.inl rfl))
    | error why =>
      rw [Lifecycle.perform, view_note_self]
      exact h.note_acted howed (.inr (.inl rfl))
  | commit other kind outputs =>
    obtain rfl : other = id := Option.some.inj habout
    cases choice with
    | ok output =>
      rw [(perform_commit_open _ kind outputs output howed.1).2]
      exact h.commit howed
    | error why => exact h

end Effects

end Nodal.Lifecycle
