import Nodal.Foundation.Solo
import Nodal.Lifecycle.KeptOutputs

/-!
# One stuck operation and the others

One call of `resolve`, with nobody else acting. What it does about an operation depends on nothing
but what the world holds of that operation and who is alive (`perform_alike`), so it acts on each one
as it would if the others were not there, as long as it gets there. It does not where an operation
that resumes is stuck: a step that is left to apply fails, or the registry write does. That failure
leaves `resolve` through an error, and with it everything that was answered before.

`resolve_undisturbed_iff` says that nothing else disturbs it.
-/

set_option autoImplicit false

namespace Nodal.Lifecycle

open Nodal.Foundation Nodal.Foundation.Attempt

/-! ### What a run depends on -/

/-- Two worlds that hold the same of one run, and in which the same processes are alive. -/
def Alike (id : OperationId) (w w' : World) : Prop :=
  w.view id = w'.view id ∧ w.processes = w'.processes

section Frames

variable {id other : OperationId} {process : Process} {w w' : World}

theorem Alike.trans {w'' : World} (h : Alike id w w') (h' : Alike id w' w'') : Alike id w w'' :=
  ⟨h.1.trans h'.1, h.2.trans h'.2⟩

theorem Alike.note {event : Event} (h : Alike id w w') :
    Alike id (w.note id process event) (w'.note id process event) := by
  refine ⟨?_, h.2⟩
  rw [view_note_self, view_note_self, h.1]

/-- An effect about a run treats alike two worlds that hold the same of it. -/
theorem perform_alike {effect : Effect} (choice : effect.Choice) (habout : About id effect)
    (h : Alike id w w') : (perform process effect choice w).1 = (perform process effect choice w').1 ∧
      Alike id (perform process effect choice w).2 (perform process effect choice w').2 := by
  have hstate : (w.view id).state = (w'.view id).state := by rw [h.1]
  have halike : ∀ {effect : Effect} {choice : effect.Choice},
      (perform process effect choice w).2.view id = (perform process effect choice w').2.view id →
      Alike id (perform process effect choice w).2 (perform process effect choice w').2 :=
    fun hview ↦ ⟨hview, by rw [perform_processes, perform_processes, h.2]⟩
  cases effect with
  | start other plan =>
    obtain rfl : other = id := Option.some.inj habout
    exact ⟨rfl, halike (by rw [view_start, view_start, h.1])⟩
  | markStep other step =>
    obtain rfl : other = id := Option.some.inj habout
    exact ⟨rfl, halike (by rw [view_markStep, view_markStep, h.1])⟩
  | finish other state =>
    obtain rfl : other = id := Option.some.inj habout
    by_cases hopen : (w.view other).state = some .running
    · obtain ⟨hanswer, hview⟩ := perform_finish_open process state choice hopen
      obtain ⟨hanswer', hview'⟩ := perform_finish_open process state choice
        (hstate ▸ hopen)
      exact ⟨hanswer.trans hanswer'.symm, halike (by rw [hview, hview', h.1])⟩
    · rw [perform_finish_closed state choice hopen,
        perform_finish_closed state choice (hstate ▸ hopen)]
      exact ⟨rfl, h⟩
  | reopen other =>
    obtain rfl : other = id := Option.some.inj habout
    by_cases hfailed : (w.view other).state = some .failed
    · obtain ⟨hanswer, hview⟩ := perform_reopen_failed process choice hfailed
      obtain ⟨hanswer', hview'⟩ := perform_reopen_failed process choice (hstate ▸ hfailed)
      exact ⟨hanswer.trans hanswer'.symm, halike (by rw [hview, hview', h.1])⟩
    · rw [perform_reopen_other choice hfailed, perform_reopen_other choice (hstate ▸ hfailed)]
      exact ⟨rfl, h⟩
  | steps other =>
    obtain rfl : other = id := Option.some.inj habout
    exact ⟨congrArg (fun v ↦ v.steps.values) h.1, h⟩
  | unfinished => cases habout
  | isRunning other pid =>
    obtain rfl : other = id := Option.some.inj habout
    have hrunning : w.isRunning process.owner.host pid choice =
        w'.isRunning process.owner.host pid choice := by
      simp only [World.isRunning, h.2]
    simp only [perform, hrunning]
    split
    · exact ⟨rfl, h⟩
    · exact ⟨rfl, h.note⟩
  | rebuild rebuilders record =>
    obtain rfl : record.id = id := Option.some.inj habout
    simp only [perform]
    split
    · split
      · exact ⟨rfl, h⟩
      · exact ⟨rfl, h.note⟩
    · exact ⟨rfl, h.note⟩
  | snapshot other records kind => exact ⟨rfl, h⟩
  | beginApply other position =>
    obtain rfl : other = id := Option.some.inj habout
    exact ⟨rfl, h.note⟩
  | beginUndo other position =>
    obtain rfl : other = id := Option.some.inj habout
    exact ⟨rfl, h.note⟩
  | endApply other position =>
    obtain rfl : other = id := Option.some.inj habout
    cases choice with
    | ok output => exact ⟨rfl, h.note⟩
    | error why => exact ⟨rfl, h.note⟩
  | endUndo other position =>
    obtain rfl : other = id := Option.some.inj habout
    cases choice with
    | ok output => exact ⟨rfl, h.note⟩
    | error why => exact ⟨rfl, h.note⟩
  | commit other kind outputs =>
    obtain rfl : other = id := Option.some.inj habout
    cases choice with
    | error why => exact ⟨rfl, h⟩
    | ok output =>
      by_cases hopen : (w.view other).state = some .running
      · obtain ⟨hanswer, hview⟩ := perform_commit_open process kind outputs output hopen
        obtain ⟨hanswer', hview'⟩ := perform_commit_open process kind outputs output
          (hstate ▸ hopen)
        refine ⟨?_, halike (by rw [hview, hview', h.1])⟩
        rw [hanswer, hanswer']
      · have hclosed : ∀ {w : World}, (w.view other).state ≠ some .running →
            perform process (.commit other kind outputs) (.ok output) w =
              (.error (.operationVanished other kind), w) := fun {w} hne ↦ by
          have hnot : w.journal.isOpen other = false := by
            simpa using mt isOpen_iff.mp hne
          simp only [perform, hnot]
          rfl
        rw [hclosed hopen, hclosed (hstate ▸ hopen)]
        exact ⟨rfl, h⟩

variable {β : Type} {choice : (effect : Effect) → effect.Choice}
  {p : Program Effect Effect.Answer β}

/-- What a program does about one run depends only on what the world holds of it. -/
theorem solo_alike (huses : p.Uses (About id)) (h : Alike id w w') :
    (machine.solo process choice p w).1 = (machine.solo process choice p w').1 ∧
      Alike id (machine.solo process choice p w).2 (machine.solo process choice p w').2 :=
  Machine.solo_congr (Alike id) huses (fun _ _ _ habout halike ↦ perform_alike _ habout halike) h

/-- What a program does about one run touches no other. -/
theorem solo_elsewhere (huses : p.Uses (About other)) (hother : other ≠ id) :
    Alike id (machine.solo process choice p w).2 w := by
  refine Machine.solo_keeps (fun t ↦ Alike id t w) huses (fun effect s habout hs ↦ ?_) ⟨rfl, rfl⟩
  have hne : effect.about ≠ some id := fun heq ↦ hother (Option.some.inj (habout.symm.trans heq))
  exact ⟨(view_perform_of_ne hne _).trans hs.1, (perform_processes _ _).trans hs.2⟩

end Frames

/-! ### Without the other operations -/

/-- The journal, were there no other operation than one. -/
def Journal.only (journal : Journal) (id : OperationId) : Journal where
  operations := (journal.operations.get? id).elim ∅ fun row ↦ (∅ : Table _ _).set id row
  steps := Function.update (fun _ ↦ ∅) id (journal.steps id)
  keyed other row h := by
    cases hrow : journal.operations.get? id with
    | none => simp [hrow] at h
    | some found =>
      rw [hrow, Option.elim_some, Table.get?_set] at h
      split at h
      · rename_i heq
        rw [← Option.some.inj h, heq]
        exact journal.keyed id found hrow
      · simp at h

/-- The world, were there no other operation than one. -/
def World.only (w : World) (id : OperationId) : World :=
  { w with
    journal := w.journal.only id
    log := Function.update (fun _ ↦ []) id (w.log id) }

section Only

variable {w : World} {record : Operation}

theorem alike_only (w : World) (id : OperationId) : Alike id (w.only id) w := by
  refine ⟨?_, rfl⟩
  cases hrow : w.journal.operations.get? id with
  | none => simp [World.view, World.only, Journal.only, hrow]
  | some row => simp [World.view, World.only, Journal.only, hrow]

theorem unfinished_only (hrecord : record ∈ w.journal.unfinished) :
    (w.only record.id).journal.unfinished = [record] := by
  obtain ⟨hrow, hstate⟩ := Journal.mem_unfinished_iff.mp hrecord
  have hvalues : (w.only record.id).journal.operations.values = [record] := by
    simp only [World.only, Journal.only, hrow, Option.elim_some]
    rfl
  rw [Journal.unfinished, hvalues]
  simp [hstate]

end Only

/-! ### One operation -/

section One

variable (process : Process) (rebuilders : List String) (choice : (effect : Effect) → effect.Choice)

/-- What `resolve` answers of one operation, and the world that leaves. -/
def actedAlone (record : Operation) (w : World) : Except Error Action × World :=
  machine.solo process choice (actOn process.owner rebuilders record).run w

/-- The owner of an operation is gone, as far as the process asking can tell. -/
def Gone (w : World) (record : Operation) : Prop :=
  record.host = process.owner.host ∧ record.pid ≠ process.owner.pid ∧
    w.isRunning process.owner.host record.pid (choice (.isRunning record.id record.pid)) = false

/-- What the step at a position answers when it is applied, where it does. -/
def answering (id : OperationId) (position : ℕ) : Output :=
  match choice (.endApply id position) with
  | .ok output => output
  | .error _ => .null

/-- A step of a plan that is left to apply fails. -/
def FailsApply (id : OperationId) (done : List (ℕ × String)) (rest : List (Step × ℕ)) : Prop :=
  ∃ entry ∈ rest, (entry.2, entry.1.key) ∉ done ∧ ∃ why, choice (.endApply id entry.2) = .error why

/-- A resume of a plan fails: a step that is left to apply does, or the registry write does. -/
def FailsResume (id : OperationId) (plan : Plan) (v : View) : Prop :=
  FailsApply choice id (keysApplied v.steps.values) plan.positioned ∨
    ∃ why, choice (.commit id plan.kind (handed plan (answering choice id) v)) = .error why

/-- A plan is rebuilt for the operation to resume it, and the resume fails. -/
def FailsTakeOver (record : Operation) (v : View) : Prop :=
  record.kind ∈ rebuilders ∧ record.recovery = .resume ∧
    ∃ plan, choice (.rebuild rebuilders record) = .ok plan ∧ FailsResume choice record.id plan v

/-- The operation is found, and taking it over fails. -/
def Stuck (w : World) (record : Operation) : Prop :=
  Gone process choice w record ∧ FailsTakeOver rebuilders choice record (w.view record.id)

/-- The answer about one operation. -/
def resolution (record : Operation) (action : Action) : Resolution where
  id := record.id
  kind := record.kind
  subject := record.subject
  action := action

/-- What the loop of `resolve` answers of one operation, and leaves of it, is what it would alone. -/
def AsAlone (w t : World) (record : Operation) (answer : Resolution) : Prop :=
  ∃ action u, actedAlone process rebuilders choice record w = (.ok action, u) ∧
    answer = resolution record action ∧ Alike record.id t u

variable {process rebuilders choice} {id : OperationId} {w : World} {record : Operation}

theorem solo_working {β : Type} {p : Program Effect Effect.Answer β} (huses : p.Uses (Working id))
    {state : Option State} (hstate : (w.view id).state = state) :
    ((machine.solo process choice p w).2.view id).state = state :=
  Machine.solo_keeps (fun t : World ↦ (t.view id).state = state) huses
    (fun _ _ hworking hs ↦ (hworking.state _).trans hs) hstate

theorem solo_mark (process : Process) (choice : (effect : Effect) → effect.Choice) (id : OperationId)
    (w : World) (step : ℕ × String) (state : StepState) (output : Option Output) :
    ∃ t, machine.solo process choice (mark id step state output).run w = (.ok (), t) := ⟨_, rfl⟩

theorem solo_apply (process : Process) (choice : (effect : Effect) → effect.Choice) (id : OperationId)
    (w : World) (position : ℕ) : ∃ t,
    machine.solo process choice (apply id position).run w =
      (.ok (choice (.endApply id position)), t) := by
  have hanswer : ∀ (t : World) (answer : Except String Output),
      (perform process (.endApply id position) answer t).1 = answer := fun t answer ↦ by
    cases answer <;> rfl
  exact ⟨_, Prod.ext (congrArg Except.ok (hanswer _ _)) rfl⟩

theorem solo_undo (process : Process) (choice : (effect : Effect) → effect.Choice) (id : OperationId)
    (w : World) (position : ℕ) : ∃ t,
    machine.solo process choice (undo id position).run w =
      (.ok (choice (.endUndo id position)), t) := by
  have hanswer : ∀ (t : World) (answer : Except String Unit),
      (perform process (.endUndo id position) answer t).1 = answer := fun t answer ↦ by
    cases answer <;> rfl
  exact ⟨_, Prod.ext (congrArg Except.ok (hanswer _ _)) rfl⟩

/-- A close finds the row `running`. -/
theorem solo_close {kind : String} {state : State} (hopen : (w.view id).state = some .running) :
    ∃ t, machine.solo process choice (close id kind state).run w = (.ok (), t) := by
  obtain ⟨hanswer, _⟩ := perform_finish_open process state
    (choice (.finish id state)) hopen
  have hfinish : machine.solo process choice
      (call (Effect.finish id state) : Run (Effect.finish id state).Answer).run w = (.ok true, _) :=
    Prod.ext (congrArg Except.ok hanswer) rfl
  exact ⟨_, (Machine.solo_attempt_ok hfinish).trans rfl⟩

/-- No undo leaves a pass through an error. -/
theorem solo_undoEach {acted : List StepRecord} {rest : List (Step × ℕ)} {undone : List String} :
    ∃ result t, machine.solo process choice (undoEach id acted rest undone).run w =
      (.ok result, t) := by
  induction rest generalizing undone w with
  | nil => exact ⟨_, _, rfl⟩
  | cons entry rest ih =>
    unfold undoEach
    split
    · obtain ⟨t, ht⟩ := solo_undo process choice id w entry.2
      rw [Machine.solo_attempt_ok ht]
      cases choice (.endUndo id entry.2) with
      | error why => exact ⟨_, _, rfl⟩
      | ok _ =>
        obtain ⟨u, hu⟩ := solo_mark process choice id t (entry.2, entry.1.key) .undone none
        exact Machine.solo_attempt_ok hu ▸ ih
    · exact ih

/-- A rollback answers an action, whatever fails. -/
theorem solo_rollBack {plan : Plan} (hopen : (w.view id).state = some .running) :
    ∃ action t, machine.solo process choice (rollBack id plan).run w = (.ok action, t) := by
  have hsteps : ∃ result t, machine.solo process choice (undoSteps id plan).run w = (.ok result, t) :=
    solo_undoEach
  obtain ⟨result, t, ht⟩ := hsteps
  have hopen' : (t.view id).state = some .running := by
    have hquiet : ((machine.solo process choice (undoSteps id plan).run w).2.view id).state =
        some .running := solo_working undoSteps_working hopen
    rwa [ht] at hquiet
  rw [rollBack, Machine.solo_attempt_ok ht]
  cases result with
  | all undone =>
    obtain ⟨u, hu⟩ := solo_close hopen'
    exact ⟨_, _, Machine.solo_attempt_ok hu⟩
  | stopped key why =>
    obtain ⟨u, hu⟩ := solo_close hopen'
    exact ⟨_, _, Machine.solo_attempt_ok hu⟩

/-- The loop of a resume ends with what the rows and the steps answered, or at the first step that
fails. -/
theorem solo_applySteps (process : Process) (choice : (effect : Effect) → effect.Choice)
    (id : OperationId) (w : World) (kind : String) (done : List (ℕ × String))
    (rest : List (Step × ℕ)) (outputs : Outputs) (applied : List String) :
    (¬FailsApply choice id done rest → ∃ keys t, machine.solo process choice
        (applySteps id kind done (fun _ _ ↦ pure ()) rest outputs applied).run w =
      (.ok (rest.foldl (gather (answering choice id) done) outputs, keys), t)) ∧
    (FailsApply choice id done rest → ∃ why t, machine.solo process choice
        (applySteps id kind done (fun _ _ ↦ pure ()) rest outputs applied).run w =
      (.error why, t)) := by
  induction rest generalizing outputs applied w with
  | nil =>
    refine ⟨fun _ ↦ ⟨_, _, rfl⟩, ?_⟩
    rintro ⟨entry, hmem, _⟩
    cases hmem
  | cons entry rest ih =>
    obtain ⟨step, position⟩ := entry
    have hfails : FailsApply choice id done ((step, position) :: rest) ↔
        ((position, step.key) ∉ done ∧ ∃ why, choice (.endApply id position) = .error why) ∨
          FailsApply choice id done rest := by
      simp only [FailsApply, List.mem_cons, or_and_right, exists_or, exists_eq_left]
    rw [hfails, List.foldl_cons]
    unfold applySteps
    by_cases hdone : (position, step.key) ∈ done
    · rw [if_pos hdone, gather, if_pos hdone]
      simpa [hdone] using ih w outputs applied
    · rw [if_neg hdone, gather, if_neg hdone]
      obtain ⟨t, ht⟩ := solo_mark process choice id w
        (position, step.key) .applying none
      obtain ⟨u, hu⟩ := solo_apply process choice id t position
      simp only [Machine.solo_attempt_ok ht, Machine.solo_attempt_ok hu]
      cases hchoice : choice (.endApply id position) with
      | error why => exact ⟨fun hnot ↦ absurd (.inl ⟨hdone, why, rfl⟩) hnot, fun _ ↦ ⟨_, _, rfl⟩⟩
      | ok output =>
        obtain ⟨s, hs⟩ := solo_mark process choice id u
          (position, step.key) .applied (some output)
        have hanswering : answering choice id position = output := by
          rw [answering, hchoice]
        simp only [Machine.solo_attempt_ok hs, hanswering]
        simpa using ih s (outputs.record step.key output) (applied ++ [step.key])

/-- The registry write of an operation that is open. -/
theorem solo_commit (process : Process) (choice : (effect : Effect) → effect.Choice) (plan : Plan)
    (outputs : Outputs) (hopen : (w.view id).state = some .running) :
    ∃ t, machine.solo process choice (commit id plan outputs).run w =
      ((choice (.commit id plan.kind outputs)).mapError .other, t) := by
  have hcall : ∃ t, machine.solo process choice (call (Effect.commit id plan.kind outputs) :
      Run (Effect.commit id plan.kind outputs).Answer).run w =
        (.ok ((choice (.commit id plan.kind outputs)).mapError .other), t) := by
    refine ⟨_, Prod.ext (congrArg Except.ok (?_ : (perform process _ _ w).1 = _)) rfl⟩
    cases choice (.commit id plan.kind outputs) with
    | error why => rfl
    | ok output => rw [(perform_commit_open process plan.kind outputs output hopen).1]; rfl
  obtain ⟨t, ht⟩ := hcall
  refine ⟨t, (Machine.solo_attempt_ok ht).trans ?_⟩
  cases choice (.commit id plan.kind outputs) <;> rfl

/-- A resume answers an action, unless a step that is left fails or the registry write does. -/
theorem solo_resume {plan : Plan} (hopen : (w.view id).state = some .running) :
    (∃ action t, machine.solo process choice (resume id plan).run w = (.ok action, t)) ↔
      ¬FailsResume choice id plan (w.view id) := by
  have hrest : machine.solo process choice (resume id plan).run w = machine.solo process choice
      (applySteps id plan.kind (keysApplied (w.view id).steps.values) (fun _ _ ↦ pure ())
        plan.positioned (recordedOutputs (w.view id).steps.values) [] >>= fun done ↦
          commit id plan done.1 >>= fun _ ↦ pure (.resumed done.2) : Run Action).run w := rfl
  obtain ⟨hok, herror⟩ := solo_applySteps process choice id w plan.kind
    (keysApplied (w.view id).steps.values) plan.positioned
    (recordedOutputs (w.view id).steps.values) []
  have hquiet : ((machine.solo process choice (applySteps id plan.kind
      (keysApplied (w.view id).steps.values) (fun _ _ ↦ pure ()) plan.positioned
      (recordedOutputs (w.view id).steps.values) []).run w).2.view id).state = some .running :=
    solo_working (applySteps_uses (fun _ h ↦ h) fun _ _ ↦ Program.uses_done _ _) hopen
  rw [hrest]
  by_cases hfails : FailsApply choice id (keysApplied (w.view id).steps.values) plan.positioned
  · obtain ⟨why, t, ht⟩ := herror hfails
    rw [Machine.solo_attempt_error ht]
    simp [FailsResume, hfails]
  · obtain ⟨keys, t, ht⟩ := hok hfails
    rw [ht] at hquiet
    rw [Machine.solo_attempt_ok ht]
    obtain ⟨u, hu⟩ := solo_commit process choice plan
      (handed plan (answering choice id) (w.view id)) hquiet
    cases hcommit : choice (.commit id plan.kind (handed plan (answering choice id) (w.view id))) with
    | error why =>
      rw [hcommit] at hu
      have hstopped : machine.solo process choice (commit id plan
          (handed plan (answering choice id) (w.view id)) >>= fun _ ↦ pure (.resumed keys) :
            Run Action).run t = (.error (.other why), u) := Machine.solo_attempt_error hu
      refine iff_of_false ?_ (not_not.mpr (.inr ⟨why, hcommit⟩))
      rintro ⟨action, s, hs⟩
      cases hstopped.symm.trans hs
    | ok output =>
      rw [hcommit] at hu
      refine iff_of_true ⟨.resumed keys, u, (Machine.solo_attempt_ok hu).trans rfl⟩ ?_
      rintro (hfailed | ⟨why, hwhy⟩)
      · exact hfails hfailed
      · rw [hcommit] at hwhy
        cases hwhy

/-- Taking an operation over answers an action, unless its resume fails. -/
theorem solo_takeOver (hopen : (w.view record.id).state = some .running) :
    (∃ action t, machine.solo process choice (takeOver record rebuilders).run w = (.ok action, t)) ↔
      ¬FailsTakeOver rebuilders choice record (w.view record.id) := by
  by_cases hkind : record.kind ∈ rebuilders
  · cases hrebuilt : choice (.rebuild rebuilders record) with
    | error why =>
      have hcall : machine.solo process choice (call (Effect.rebuild rebuilders record) :
          Run (Effect.rebuild rebuilders record).Answer).run w =
            (.ok (some (.error why)), w.note record.id process .passed) := by
        rw [run_call, Machine.solo_perform, hrebuilt]
        simp [machine, perform, hkind]
      refine iff_of_true ⟨_, _, (Machine.solo_attempt_ok hcall).trans rfl⟩ ?_
      rintro ⟨_, _, plan, hplan, _⟩
      rw [hrebuilt] at hplan
      cases hplan
    | ok plan =>
      have hcall : machine.solo process choice (call (Effect.rebuild rebuilders record) :
          Run (Effect.rebuild rebuilders record).Answer).run w = (.ok (some (.ok plan)), w) := by
        rw [run_call, Machine.solo_perform, hrebuilt]
        simp [machine, perform, hkind]
      cases hrecovery : record.recovery with
      | rollBack =>
        have htaken : machine.solo process choice (takeOver record rebuilders).run w =
            machine.solo process choice (rollBack record.id plan).run w := by
          refine (Machine.solo_attempt_ok hcall).trans ?_
          simp only [hrecovery]
        rw [htaken]
        refine iff_of_true (solo_rollBack hopen) ?_
        rintro ⟨_, hresume, _⟩
        rw [hrecovery] at hresume
        cases hresume
      | resume =>
        have htaken : machine.solo process choice (takeOver record rebuilders).run w =
            machine.solo process choice (resume record.id plan).run w := by
          refine (Machine.solo_attempt_ok hcall).trans ?_
          simp only [hrecovery]
        rw [htaken]
        rw [solo_resume hopen, not_iff_not]
        constructor
        · exact fun hfails ↦ ⟨hkind, hrecovery, plan, hrebuilt, hfails⟩
        · rintro ⟨_, _, plan', hplan', hfails⟩
          obtain rfl : plan = plan' := Except.ok.inj (hrebuilt.symm.trans hplan')
          exact hfails
  · have hcall : machine.solo process choice (call (Effect.rebuild rebuilders record) :
        Run (Effect.rebuild rebuilders record).Answer).run w =
          (.ok none, w.note record.id process .passed) := by
      rw [run_call, Machine.solo_perform]
      simp [machine, perform, hkind]
    exact iff_of_true ⟨_, _, (Machine.solo_attempt_ok hcall).trans rfl⟩ fun hfails ↦ hkind hfails.1

/-- What `resolve` does about one operation answers an action, unless the operation is stuck. -/
theorem actedAlone_ok_iff (hopen : (w.view record.id).state = some .running) :
    (∃ action t, actedAlone process rebuilders choice record w = (.ok action, t)) ↔
      ¬Stuck process rebuilders choice w record := by
  have hleft : ∀ (liveness : Liveness), liveness ≠ .gone → ¬Gone process choice w record →
      machine.solo process choice (record.owner.stateFor process.owner record.id).run w =
        (.ok liveness, w) →
      ((∃ action t, actedAlone process rebuilders choice record w = (.ok action, t)) ↔
        ¬Stuck process rebuilders choice w record) := by
    intro liveness hne hgone hstate
    refine iff_of_true ?_ fun hstuck ↦ hgone hstuck.1
    cases liveness with
    | running => exact ⟨_, _, (Machine.solo_attempt_ok hstate).trans rfl⟩
    | elsewhere => exact ⟨_, _, (Machine.solo_attempt_ok hstate).trans rfl⟩
    | gone => exact absurd rfl hne
  by_cases hhost : record.host = process.owner.host
  · by_cases hpid : record.pid = process.owner.pid
    · refine hleft .running (by simp) (fun h ↦ h.2.1 hpid) ?_
      simp [Owner.stateFor, Operation.owner, hhost, hpid]
    · have hasked : record.owner.stateFor process.owner record.id = (do
          let running : Bool ← call (Effect.isRunning record.id record.pid)
          pure (if running then .running else .gone)) := by
        simp [Owner.stateFor, Operation.owner, hhost, hpid]
      cases hrunning : w.isRunning process.owner.host record.pid
          (choice (.isRunning record.id record.pid)) with
      | true =>
        have hcall : machine.solo process choice (call (Effect.isRunning record.id record.pid) :
            Run (Effect.isRunning record.id record.pid).Answer).run w = (.ok true, w) := by
          rw [run_call, Machine.solo_perform]
          simp [machine, perform, hrunning]
        refine hleft .running (by simp) (fun h ↦ absurd h.2.2 (by simp [hrunning])) ?_
        rw [hasked]
        exact (Machine.solo_attempt_ok hcall).trans rfl
      | false =>
        have hstate : machine.solo process choice
            (record.owner.stateFor process.owner record.id).run w =
              (.ok .gone, w.note record.id process .found) := by
          have hcall : machine.solo process choice (call (Effect.isRunning record.id record.pid) :
              Run (Effect.isRunning record.id record.pid).Answer).run w =
                (.ok false, w.note record.id process .found) := by
            rw [run_call, Machine.solo_perform]
            simp [machine, perform, hrunning]
          rw [hasked]
          exact (Machine.solo_attempt_ok hcall).trans rfl
        have htaken : actedAlone process rebuilders choice record w = machine.solo process choice
            (takeOver record rebuilders).run (w.note record.id process .found) :=
          Machine.solo_attempt_ok hstate
        rw [htaken, solo_takeOver (by rw [view_note_self, View.note_state, hopen]), not_iff_not]
        have hgone : Gone process choice w record := ⟨hhost, hpid, hrunning⟩
        rw [Stuck, and_iff_right hgone, view_note_self]
        rfl
  · refine hleft .elsewhere (by simp) (fun h ↦ hhost h.1) ?_
    simp [Owner.stateFor, Operation.owner, hhost]

/-! ### All of them -/

/-- Acting on one operation, from a world that holds the same of it. -/
theorem actedAlone_alike {t u : World} {action : Action} (h : Alike record.id t w)
    (hacted : actedAlone process rebuilders choice record w = (.ok action, u)) :
    ∃ t', actedAlone process rebuilders choice record t = (.ok action, t') ∧
      Alike record.id t' u := by
  obtain ⟨hanswer, hworld⟩ : (actedAlone process rebuilders choice record t).1 = _ ∧ _ :=
    solo_alike actOn_uses h
  change _ = (actedAlone process rebuilders choice record w).1 at hanswer
  change Alike record.id _ (actedAlone process rebuilders choice record w).2 at hworld
  rw [hacted] at hanswer hworld
  exact ⟨(actedAlone process rebuilders choice record t).2, Prod.ext hanswer rfl, hworld⟩

/-- Acting on one operation leaves what the world holds of another. -/
theorem actedAlone_elsewhere {t : World} {action : Except Error Action} (hid : record.id ≠ id)
    (hacted : actedAlone process rebuilders choice record w = (action, t)) : Alike id t w := by
  have hworld : Alike id (actedAlone process rebuilders choice record w).2 w :=
    solo_elsewhere actOn_uses hid
  rwa [hacted] at hworld

/-- The loop of `resolve` answers of every operation what it would alone, and leaves each as it would
alone, where no answer is an error. -/
theorem solo_resolveEach {rest : List Operation} (resolutions : List Resolution) {t : World}
    (hids : (rest.map Operation.id).Nodup) (halike : ∀ record ∈ rest, Alike record.id t w)
    (hok : ∀ record ∈ rest, ∃ action u,
      actedAlone process rebuilders choice record w = (.ok action, u)) :
    ∃ answers t', machine.solo process choice
        (resolveEach process.owner rebuilders rest resolutions).run t =
      (.ok (resolutions ++ answers), t') ∧ (∀ id, id ∉ rest.map Operation.id → Alike id t' t) ∧
      answers.map Resolution.id = rest.map Operation.id ∧
      ∀ answer ∈ answers, ∃ record ∈ rest, AsAlone process rebuilders choice w t' record answer := by
  induction rest generalizing resolutions t with
  | nil => exact ⟨[], t, by simp [resolveEach], fun _ _ ↦ ⟨rfl, rfl⟩, rfl, by simp⟩
  | cons record rest ih =>
    obtain ⟨hnotin, hids⟩ := List.nodup_cons.mp hids
    obtain ⟨hrecord, halike⟩ := List.forall_mem_cons.mp halike
    obtain ⟨⟨action, u, hu⟩, hok⟩ := List.forall_mem_cons.mp hok
    obtain ⟨t₁, ht₁, hworld⟩ := actedAlone_alike hrecord hu
    have halike₁ : ∀ other ∈ rest, Alike other.id t₁ w := fun other hother ↦ by
      have hne : record.id ≠ other.id := fun heq ↦
        hnotin (List.mem_map.mpr ⟨other, hother, heq.symm⟩)
      exact (actedAlone_elsewhere hne ht₁).trans (halike other hother)
    obtain ⟨answers, t', ht', houtside, hanswered, hanswers⟩ := ih
      (resolutions ++ [resolution record action]) hids halike₁ hok
    refine ⟨resolution record action :: answers, t', ?_, fun id hid ↦ ?_,
      congrArg (List.cons record.id) hanswered, List.forall_mem_cons.mpr ⟨?_, fun answer hanswer ↦ ?_⟩⟩
    · rw [List.append_cons, ← ht']
      exact Machine.solo_attempt_ok ht₁
    · obtain ⟨hne, hid⟩ := not_or.mp (mt List.mem_cons.mpr hid)
      exact (houtside id hid).trans (actedAlone_elsewhere (Ne.symm hne) ht₁)
    · exact ⟨record, List.mem_cons_self, action, u, hu, rfl, (houtside record.id hnotin).trans hworld⟩
    · obtain ⟨other, hother, halone⟩ := hanswers answer hanswer
      exact ⟨other, List.mem_cons_of_mem _ hother, halone⟩

/-- Where one answer is an error, the loop ends with an error. -/
theorem solo_resolveEach_error {rest : List Operation} (resolutions : List Resolution) {t : World}
    (hids : (rest.map Operation.id).Nodup) (halike : ∀ record ∈ rest, Alike record.id t w)
    (herror : ∃ record ∈ rest, ¬∃ action u,
      actedAlone process rebuilders choice record w = (.ok action, u)) :
    ∃ why t', machine.solo process choice
      (resolveEach process.owner rebuilders rest resolutions).run t = (.error why, t') := by
  induction rest generalizing resolutions t with
  | nil =>
    obtain ⟨record, hmem, _⟩ := herror
    cases hmem
  | cons record rest ih =>
    obtain ⟨hnotin, hids⟩ := List.nodup_cons.mp hids
    obtain ⟨hrecord, halike⟩ := List.forall_mem_cons.mp halike
    rcases hacted : actedAlone process rebuilders choice record t with ⟨why | action, t₁⟩
    · exact ⟨why, t₁, Machine.solo_attempt_error hacted⟩
    · have halike₁ : ∀ other ∈ rest, Alike other.id t₁ w := fun other hother ↦ by
        have hne : record.id ≠ other.id := fun heq ↦
          hnotin (List.mem_map.mpr ⟨other, hother, heq.symm⟩)
        exact (actedAlone_elsewhere hne hacted).trans (halike other hother)
      obtain ⟨stuck, hmem, hstuck⟩ := herror
      rcases List.mem_cons.mp hmem with rfl | hmem
      · obtain ⟨u, hu, _⟩ := actedAlone_alike ⟨hrecord.1.symm, hrecord.2.symm⟩ hacted
        exact absurd ⟨action, u, hu⟩ hstuck
      · obtain ⟨why, t', ht'⟩ := ih
          (resolutions ++ [resolution record action]) hids halike₁
          ⟨stuck, hmem, hstuck⟩
        exact ⟨why, t', (Machine.solo_attempt_ok hacted).trans ht'⟩

/-- One call of `resolve` answers of every unfinished operation, oldest first, what it would answer
were the others not there, and leaves each of them as it would then. -/
def Undisturbed (process : Process) (rebuilders : List String)
    (choice : (effect : Effect) → effect.Choice) (w : World) : Prop :=
  ∃ resolutions t,
    machine.solo process choice (resolve process.owner rebuilders).run w = (.ok resolutions, t) ∧
    resolutions.map Resolution.id = w.journal.unfinished.map Operation.id ∧
    (resolutions.map Resolution.id).Pairwise (· < ·) ∧
    ∀ resolution ∈ resolutions, ∃ u,
      machine.solo process choice (resolve process.owner rebuilders).run (w.only resolution.id) =
        (.ok [resolution], u) ∧ t.view resolution.id = u.view resolution.id

/-- Nothing but a stuck operation disturbs a call of `resolve`. -/
theorem resolve_undisturbed_iff (process : Process) (rebuilders : List String)
    (choice : (effect : Effect) → effect.Choice) (w : World) :
    Undisturbed process rebuilders choice w ↔
      ∀ record ∈ w.journal.unfinished, ¬Stuck process rebuilders choice w record := by
  have hopen : ∀ record ∈ w.journal.unfinished, (w.view record.id).state = some .running :=
    fun record hrecord ↦ by
      obtain ⟨hrow, hstate⟩ := Journal.mem_unfinished_iff.mp hrecord
      exact Option.map_eq_some_iff.mpr ⟨record, hrow, hstate⟩
  have hids : (w.journal.unfinished.map Operation.id).Nodup :=
    w.journal.unfinished_ordered.imp fun hlt ↦ hlt.ne
  have halike : ∀ record ∈ w.journal.unfinished, Alike record.id w w := fun _ _ ↦ ⟨rfl, rfl⟩
  have hresolve : ∀ w : World, machine.solo process choice (resolve process.owner rebuilders).run w =
      machine.solo process choice
        (resolveEach process.owner rebuilders w.journal.unfinished []).run w := fun _ ↦ rfl
  constructor
  · rintro ⟨resolutions, t, ht, _⟩ record hrecord hstuck
    obtain ⟨why, t', ht'⟩ := solo_resolveEach_error [] hids halike
      ⟨record, hrecord, mt (actedAlone_ok_iff (hopen record hrecord)).mp (not_not.mpr hstuck)⟩
    rw [hresolve, ht'] at ht
    cases ht
  · intro hstuck
    have hok : ∀ record ∈ w.journal.unfinished, ∃ action u,
        actedAlone process rebuilders choice record w = (.ok action, u) := fun record hrecord ↦
      (actedAlone_ok_iff (hopen record hrecord)).mpr (hstuck record hrecord)
    obtain ⟨answers, t, ht, _, hanswered, hanswers⟩ := solo_resolveEach [] hids halike hok
    refine ⟨answers, t, ht, hanswered, hanswered ▸ w.journal.unfinished_ordered,
      fun answer hanswer ↦ ?_⟩
    obtain ⟨record, hrecord, action, u, hacted, rfl, hview⟩ := hanswers answer hanswer
    -- The same operation in a journal of its own.
    obtain ⟨u', hu', hview'⟩ := actedAlone_alike (alike_only w record.id) hacted
    refine ⟨u', ?_, hview.1.trans hview'.1.symm⟩
    change machine.solo process choice (resolve process.owner rebuilders).run (w.only record.id) = _
    rw [hresolve, unfinished_only hrecord]
    exact (Machine.solo_attempt_ok hu').trans rfl

end One

/-! ### An operation that is never cleaned up -/

/-- Two builds whose processes died: the first after it had begun, the second as well. -/
def bothDied : List (Session Process Job Effect Effect.Choice) :=
  [sitting (nth 1) (.run 0 build) 1 (failingOn fun _ ↦ false),
    sitting (nth 2) (.run 1 build) 1 (failingOn fun _ ↦ false)]

/-- The clone of the first build fails. -/
def firstFails : (effect : Effect) → effect.Choice
  | .endApply 0 0 => .error "no space"
  | effect => failingOn (fun _ ↦ false) effect

/-- The first build is stuck, and nothing is answered of the second. -/
theorem resolve_disturbed : ∃ c : Stage,
    machine.exec beginning (bothDied.flatMap Session.complete) = some c ∧
      c.world.journal.unfinished.map Operation.id = [0, 1] ∧
      ¬Undisturbed (nth 3) ["build"] firstFails c.world := by
  have hexec : (machine.exec beginning (bothDied.flatMap Session.complete)).map (fun c ↦
      (c.world.journal.unfinished.map Operation.id,
        (machine.solo (nth 3) firstFails (resolve (nth 3).owner ["build"]).run c.world).1.isOk)) =
      some ([0, 1], false) := by
    decide +kernel
  obtain ⟨c, hc, hresult⟩ := Option.map_eq_some_iff.mp hexec
  obtain ⟨hids, hstopped⟩ := Prod.mk.inj hresult
  refine ⟨c, hc, hids, ?_⟩
  rintro ⟨resolutions, t, ht, _⟩
  rw [ht] at hstopped
  cases hstopped

end Nodal.Lifecycle
