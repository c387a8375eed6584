import Nodal.Lifecycle.Pass

/-!
# Every pass pays what it owes

The functions of the runner, from the innermost out, are safe under `passContract`. The rule for
`applySteps` carries what the registry write is owed through the loop: the outputs gathered so far,
and what was last done about each step. The others only have to keep to the plan and to a running
row. `passSound` puts them together for the machine.
-/

set_option autoImplicit false

namespace Nodal.Lifecycle

open Nodal.Foundation Nodal.Foundation.Attempt

section Rules

variable {id : OperationId} {plan : Plan} {answers : ℕ → Output → Prop} {answer : ℕ → Output}
  {found w : World} {process : Process} {β : Type}

/-- A program of a process that entered the world `found` and is alone is safe from `w` on. -/
abbrev SafePass (id : OperationId) (plan : Plan) (answers : ℕ → Output → Prop)
    (answer : ℕ → Output) (found : World) (process : Process) {β : Type}
    (Q : β → World → Prop) (p : Program Effect Effect.Answer β) (w : World) : Prop :=
  Safe machine ((passContract id plan answers answer).since found) process Q p w

/-- The row of the operation is there and `running`. -/
def Running (id : OperationId) (w : World) : Prop := (w.view id).state = some .running

/-- After this, nothing is owed any more. -/
def Whatever {β : Type} (_ : β) (_ : World) : Prop := True

theorem safe_end {value : β} :
    SafePass id plan answers answer found process Whatever (.done value) w :=
  safe_done_since fun _ ↦ trivial

/-- Two parts that are safe whatever they end with. -/
theorem safe_then {γ : Type} {x : Run γ} {f : γ → Run β}
    (hx : SafePass id plan answers answer found process Whatever x.run w)
    (hf : ∀ value w', SafePass id plan answers answer found process Whatever (f value).run w') :
    SafePass id plan answers answer found process Whatever (x >>= f).run w := by
  refine safe_attempt_bind (hx.mono fun result w' _ ↦ ?_)
  cases result with
  | ok value => exact hf value w'
  | error error => exact safe_end

/-! ### The journal -/

theorem safe_mark {position : ℕ} {key : String} {state : StepState} {output : Option Output}
    {Q : Except Error Unit → World → Prop}
    (howed : Owed plan answers answer (found.view id)
      (.markStep id ⟨position, key, state, output.filter fun o ↦ !o.isNull⟩) (w.view id))
    (hQ : ∀ w', w'.view id = ((w.view id).markStep ⟨position, key, state,
        output.filter fun o ↦ !o.isNull⟩).note process
          (.marked ⟨position, key, state, output.filter fun o ↦ !o.isNull⟩) →
      Q (.ok ()) w') :
    SafePass id plan answers answer found process Q (mark id (position, key) state output).run w :=
  safe_perform_since fun _ ↦ ⟨fun _ ↦ howed,
    fun choice _ ↦ safe_done_since fun _ ↦ hQ _ (view_markStep _ choice)⟩

theorem safe_close {kind : String} {state : State} (hstate : state ≠ .committed) :
    SafePass id plan answers answer found process Whatever (close id kind state).run w := by
  refine safe_then (safe_perform_since fun _ ↦ ⟨fun _ ↦ hstate, fun _ _ ↦ safe_end⟩) ?_
  intro changed w'
  split
  · exact safe_end
  · exact safe_end

/-- A mark of a step of the plan that leaves its state `applying`. -/
theorem owed_applying {position : ℕ} {step : Step} {output : Option Output}
    (hstep : plan.steps[position]? = some step) (hrunning : Running id w)
    (houtput : output ≠ some .null) :
    Owed plan answers answer (found.view id) (.markStep id ⟨position, step.key, .applying, output⟩)
      (w.view id) :=
  ⟨hrunning, houtput, ⟨step, hstep, rfl⟩, fun h ↦ (by cases h), fun h ↦ (by cases h)⟩

theorem safe_keep {position : ℕ} {step : Step} {why : Error}
    (hstep : plan.steps[position]? = some step) (hrunning : Running id w) :
    SafePass id plan answers answer found process Whatever
      (keep id (position, step.key) why).run w := by
  refine safe_attempt_bind (safe_mark (owed_applying hstep hrunning (by simp [Option.filter])) ?_)
  intro w' _
  exact safe_close (by simp)

/-! ### One step -/

theorem safe_apply {position : ℕ} {Q : Except Error (Except String Output) → World → Prop}
    (hrunning : Running id w) (hnot : ¬RecordedApplied (w.view id) position)
    (hok : ∀ output w', answers position output →
      w'.view id = (((w.view id).note process (.acted position .applying)).note process
        (.acted position .applied)) → Q (.ok (.ok output)) w')
    (herror : ∀ why w',
      w'.view id = (((w.view id).note process (.acted position .applying)).note process
        (.acted position .applyFailed)) → Q (.ok (.error why)) w') :
    SafePass id plan answers answer found process Q (apply id position).run w := by
  refine safe_perform_since fun _ ↦ ⟨fun _ ↦ ⟨hrunning, hnot⟩, fun began _ ↦ ?_⟩
  have hbegan : (machine.perform process (.beginApply id position) began w).2.view id =
      (w.view id).note process (.acted position .applying) := view_note_self
  refine safe_perform_since fun _ ↦ ⟨fun _ ↦ ?_, fun choice hchoice ↦ safe_done_since fun _ ↦ ?_⟩
  · rw [hbegan]
    exact ⟨hrunning, hnot⟩
  · cases choice with
    | ok output =>
      refine hok output _ (hchoice rfl output rfl) ?_
      simp [machine, perform]
    | error why =>
      refine herror why _ ?_
      simp [machine, perform]

theorem safe_undo {position : ℕ} {Q : Except Error (Except String Unit) → World → Prop}
    (hrunning : Running id w)
    (hQ : ∀ answer w', Running id w' → Q (.ok answer) w') :
    SafePass id plan answers answer found process Q (undo id position).run w := by
  refine safe_perform_since fun _ ↦ ⟨fun _ ↦ hrunning, fun _ _ ↦ ?_⟩
  have hbegan : Running id (machine.perform process (.beginUndo id position) () w).2 := by
    simpa [Running, machine, perform] using hrunning
  refine safe_perform_since fun _ ↦ ⟨fun _ ↦ hbegan, fun choice _ ↦ safe_done_since fun _ ↦ ?_⟩
  refine hQ _ _ ?_
  cases choice <;> simpa [Running, machine, perform] using hrunning

/-! ### Undoing -/

theorem safe_undoEach {acted : List StepRecord} {rest : List (Step × ℕ)} {undone : List String}
    (hrest : ∀ entry ∈ rest, plan.steps[entry.2]? = some entry.1) (hrunning : Running id w) :
    SafePass id plan answers answer found process Whatever
      (undoEach id acted rest undone).run w := by
  induction rest generalizing undone w with
  | nil => exact safe_end
  | cons entry rest ih =>
    obtain ⟨step, position⟩ := entry
    obtain ⟨hstep, hrest⟩ := List.forall_mem_cons.mp hrest
    unfold undoEach
    split
    · refine safe_attempt_bind (safe_undo hrunning fun answer w₁ hrunning₁ ↦ ?_)
      cases answer with
      | error source => exact safe_end
      | ok _ =>
        refine safe_attempt_bind (safe_mark ?_ fun w₂ hw₂ ↦ ih hrest ?_)
        · exact ⟨hrunning₁, by simp, ⟨step, hstep, rfl⟩, fun h ↦ (by cases h), fun _ ↦ rfl⟩
        · simpa [Running, hw₂] using hrunning₁
    · exact ih hrest hrunning

theorem mem_positioned_reverse {entry : Step × ℕ} (h : entry ∈ plan.positioned.reverse) :
    plan.steps[entry.2]? = some entry.1 :=
  Plan.mem_positioned_iff.mp (List.mem_reverse.mp h)

theorem safe_undoSteps (hrunning : Running id w) :
    SafePass id plan answers answer found process Whatever (undoSteps id plan).run w := by
  refine safe_perform_since fun _ ↦ ⟨fun _ ↦ trivial, fun _ _ ↦ ?_⟩
  exact safe_undoEach (fun entry ↦ mem_positioned_reverse) hrunning

theorem safe_undoApplied (hrunning : Running id w) :
    SafePass id plan answers answer found process Whatever (undoApplied id plan).run w := by
  refine safe_then (safe_undoSteps hrunning) fun undone w' ↦ ?_
  split
  · exact safe_close (by simp)
  · exact safe_then (safe_close (by simp)) fun _ _ ↦ safe_end

theorem safe_rollBack (hrunning : Running id w) :
    SafePass id plan answers answer found process Whatever (rollBack id plan).run w := by
  refine safe_then (safe_undoSteps hrunning) fun undone w' ↦ ?_
  split
  · exact safe_then (safe_close (by simp)) fun _ _ ↦ safe_end
  · exact safe_then (safe_close (by simp)) fun _ _ ↦ safe_end

/-! ### Applying -/

/-- What the loop leaves where it ends without an error: the outputs of the steps it applied, and
`applied` as the last deed of each; about no other step was anything done. -/
def LoopDone (id : OperationId) (answers : ℕ → Output → Prop) (answer : ℕ → Output)
    (done : List (ℕ × String)) (rest : List (Step × ℕ)) (outputs : Outputs) (w : World)
    (result : Except Error (Outputs × List String)) (w' : World) : Prop :=
  ∀ outputs' keys, result = .ok (outputs', keys) → Running id w' ∧
    (Steady answers answer → outputs' = rest.foldl (gather answer done) outputs) ∧
    (∀ entry ∈ rest, (entry.2, entry.1.key) ∉ done →
      lastDeed (w'.view id).log entry.2 = some .applied) ∧
    ∀ position, (∀ entry ∈ rest, entry.2 = position → (entry.2, entry.1.key) ∈ done) →
      lastDeed (w'.view id).log position = lastDeed (w.view id).log position

/-- A step that is done already is passed over. -/
theorem LoopDone.skip {done : List (ℕ × String)} {entry : Step × ℕ} {rest : List (Step × ℕ)}
    {outputs : Outputs} {result : Except Error (Outputs × List String)} {w' : World}
    (hdone : (entry.2, entry.1.key) ∈ done)
    (h : LoopDone id answers answer done rest outputs w result w') :
    LoopDone id answers answer done (entry :: rest) outputs w result w' := by
  intro outputs' keys hresult
  obtain ⟨hrunning, hgathered, happlied, hsame⟩ := h outputs' keys hresult
  refine ⟨hrunning, fun hsteady ↦ ?_, fun other hother hnot ↦ ?_, fun position hposition ↦ ?_⟩
  · rw [List.foldl_cons, gather, if_pos hdone]
    exact hgathered hsteady
  · rcases List.mem_cons.mp hother with rfl | hother
    · exact absurd hdone hnot
    · exact happlied other hother hnot
  · exact hsame position fun other hother ↦ hposition other (List.mem_cons_of_mem _ hother)

/-- A step that was applied, its answer recorded, is the last deed about it from then on. -/
theorem LoopDone.turn {done : List (ℕ × String)} {entry : Step × ℕ} {rest : List (Step × ℕ)}
    {outputs : Outputs} {output : Output} {result : Except Error (Outputs × List String)}
    {w₁ w' : World} (hdone : (entry.2, entry.1.key) ∉ done)
    (hrest : entry.2 ∉ rest.map Prod.snd) (hanswer : answers entry.2 output)
    (happlied₁ : lastDeed (w₁.view id).log entry.2 = some .applied)
    (hsame₁ : ∀ position, position ≠ entry.2 →
      lastDeed (w₁.view id).log position = lastDeed (w.view id).log position)
    (h : LoopDone id answers answer done rest (outputs.record entry.1.key output) w₁ result w') :
    LoopDone id answers answer done (entry :: rest) outputs w result w' := by
  intro outputs' keys hresult
  obtain ⟨hrunning, hgathered, happlied, hsame⟩ := h outputs' keys hresult
  have hother : ∀ other ∈ rest, other.2 ≠ entry.2 := fun other hmem heq ↦
    hrest (List.mem_map.mpr ⟨other, hmem, heq⟩)
  refine ⟨hrunning, fun hsteady ↦ ?_, fun other hmem hnot ↦ ?_, fun position hposition ↦ ?_⟩
  · rw [List.foldl_cons, gather, if_neg hdone, ← hsteady _ _ hanswer]
    exact hgathered hsteady
  · rcases List.mem_cons.mp hmem with rfl | hmem
    · rw [hsame other.2 fun entry' hmem' heq ↦ absurd heq (hother entry' hmem'), happlied₁]
    · exact happlied other hmem hnot
  · have hne : position ≠ entry.2 := by
      rintro rfl
      exact hdone (hposition entry (List.mem_cons_self ..) rfl)
    rw [hsame position fun other hmem ↦ hposition other (List.mem_cons_of_mem _ hmem),
      hsame₁ position hne]

theorem safe_applySteps {kind : String} {done : List (ℕ × String)}
    {failing : ℕ × String → Error → Run Unit} {rest : List (Step × ℕ)} {outputs : Outputs}
    {applied : List String}
    (hfailing : ∀ position step why w', plan.steps[position]? = some step → Running id w' →
      SafePass id plan answers answer found process Whatever
        (failing (position, step.key) why).run w')
    (hrest : ∀ entry ∈ rest, plan.steps[entry.2]? = some entry.1)
    (hnodup : (rest.map Prod.snd).Nodup)
    (hdone : ∀ entry ∈ rest, (entry.2, entry.1.key) ∉ done →
      ¬RecordedApplied (w.view id) entry.2)
    (hrunning : Running id w) :
    SafePass id plan answers answer found process
      (LoopDone id answers answer done rest outputs w)
      (applySteps id kind done failing rest outputs applied).run w := by
  induction rest generalizing outputs applied w with
  | nil =>
    refine safe_done_since fun _ outputs' keys hresult ↦ ?_
    cases hresult
    exact ⟨hrunning, fun _ ↦ rfl, by simp, fun _ _ ↦ rfl⟩
  | cons entry rest ih =>
    obtain ⟨step, position⟩ := entry
    obtain ⟨hstep, hrest⟩ := List.forall_mem_cons.mp hrest
    obtain ⟨hfresh, hdone⟩ := List.forall_mem_cons.mp hdone
    obtain ⟨hnotin, hnodup⟩ := List.nodup_cons.mp hnodup
    unfold applySteps
    split
    · rename_i hskip
      exact (ih hrest hnodup hdone hrunning).mono fun _ _ h ↦ h.skip hskip
    · rename_i hturn
      refine safe_attempt_bind (safe_mark (owed_applying hstep hrunning (by simp)) ?_)
      intro w₁ hw₁
      have hrunning₁ : Running id w₁ := by simpa [Running, hw₁] using hrunning
      have hget₁ : ∀ other, other ≠ position →
          (w₁.view id).steps.get? other = (w.view id).steps.get? other := fun other hne ↦ by
        rw [hw₁, View.note_steps, View.get?_markStep, if_neg hne]
      have hnot₁ : ¬RecordedApplied (w₁.view id) position := by
        rintro ⟨row, hrow, hstate⟩
        rw [hw₁, View.note_steps, View.get?_markStep, if_pos rfl] at hrow
        cases hrow
        cases hstate
      have hlog₁ : ∀ other, lastDeed (w₁.view id).log other = lastDeed (w.view id).log other := by
        intro other
        rw [hw₁, View.note_log, lastDeed_of_deedAt rfl, View.markStep_log]
      refine safe_attempt_bind (safe_apply hrunning₁ hnot₁ ?_ ?_)
      · intro output w₂ hanswer hw₂
        have hlast₂ : lastDeed (w₂.view id).log position = some .applied := by
          rw [hw₂]
          exact lastDeed_acted
        have howed : Owed plan answers answer (found.view id) (.markStep id ⟨position, step.key,
            .applied, (some output).filter fun o ↦ !o.isNull⟩) (w₂.view id) := by
          refine ⟨by simpa [Running, hw₂] using hrunning₁, by simp, ⟨step, hstep, rfl⟩, fun _ ↦ ?_,
            fun h ↦ by cases h⟩
          refine ⟨hlast₂, fun hsteady ↦ ?_⟩
          rw [hsteady _ _ hanswer]
          by_cases hnull : answer position = .null
          · simp [Option.filter, hnull]
          · simp [Option.filter, hnull]
        refine safe_attempt_bind (safe_mark howed fun w₃ hw₃ ↦ ?_)
        have hlog₃ : ∀ other, lastDeed (w₃.view id).log other = lastDeed (w₂.view id).log other :=
          fun other ↦ by rw [hw₃, View.note_log, lastDeed_of_deedAt rfl, View.markStep_log]
        have hsame₃ : ∀ other, other ≠ position →
            lastDeed (w₃.view id).log other = lastDeed (w.view id).log other := by
          intro other hne
          rw [hlog₃, hw₂, View.note_log, lastDeed_acted_of_ne hne.symm, View.note_log,
            lastDeed_acted_of_ne hne.symm, hlog₁]
        have hdone₃ : ∀ entry ∈ rest, (entry.2, entry.1.key) ∉ done →
            ¬RecordedApplied (w₃.view id) entry.2 := by
          intro entry hentry hnot
          have hne : entry.2 ≠ position := fun heq ↦
            hnotin (List.mem_map.mpr ⟨entry, hentry, heq⟩)
          have hget₃ : (w₃.view id).steps.get? entry.2 = (w.view id).steps.get? entry.2 := by
            rw [hw₃, View.note_steps, View.get?_markStep, if_neg hne, hw₂]
            exact hget₁ _ hne
          simpa [RecordedApplied, hget₃] using hdone entry hentry hnot
        have hrunning₃ : Running id w₃ := by
          simpa [Running, hw₃, hw₂] using hrunning₁
        exact (ih hrest hnodup hdone₃ hrunning₃).mono fun _ _ h ↦
          h.turn hturn hnotin hanswer (by rw [hlog₃, hlast₂]) hsame₃
      · intro why w₂ hw₂
        have hrunning₂ : Running id w₂ := by simpa [Running, hw₂] using hrunning₁
        refine safe_attempt_bind ((hfailing position step _ w₂ hstep hrunning₂).mono ?_)
        intro result w₃ _
        have hthrow : ∀ error, SafePass id plan answers answer found process
            (LoopDone id answers answer done ((step, position) :: rest) outputs w)
            (.done (.error error)) w₃ := fun error ↦
          safe_done_since fun _ _ _ hresult ↦ by cases hresult
        cases result with
        | ok _ => exact hthrow _
        | error error => exact hthrow error

/-! ### The registry write -/

theorem safe_commit {outputs : Outputs} {Q : Except Error Output → World → Prop}
    (howed : Owed plan answers answer (found.view id) (.commit id plan.kind outputs) (w.view id))
    (hok : ∀ output w', Q (.ok output) w') (herror : ∀ why, Q (.error why) w) :
    SafePass id plan answers answer found process Q (commit id plan outputs).run w := by
  refine safe_perform_since fun _ ↦ ⟨fun _ ↦ howed, fun choice _ ↦ ?_⟩
  cases choice with
  | error why => exact safe_done_since fun _ ↦ herror _
  | ok output =>
    have hanswer : machine.perform process (.commit id plan.kind outputs) (.ok output) w =
        (.ok output, _) := (perform_commit_open _ plan.kind outputs output howed.1).1
    rw [hanswer]
    exact safe_done_since fun _ ↦ hok _ _

/-- The rows and the deeds are as the pass found them, and the run is open. -/
structure AtStart (id : OperationId) (found w : World) : Prop where
  running : Running id w
  steps : (w.view id).steps = (found.view id).steps
  deeds : ∀ position, lastDeed (w.view id).log position = lastDeed (found.view id).log position

theorem mem_keysApplied_iff {v : View} {position : ℕ} {step : Step}
    (hv : Recorded plan answers answer v) (hstep : plan.steps[position]? = some step) :
    (position, step.key) ∈ keysApplied v.steps.values ↔ RecordedApplied v position := by
  simp only [keysApplied, List.mem_map, List.mem_filter, Table.mem_values_iff, decide_eq_true_eq,
    Prod.mk.injEq]
  constructor
  · rintro ⟨row, ⟨⟨other, hrow⟩, hstate⟩, hposition, _⟩
    rw [(hv.planned other row hrow).1] at hposition
    exact ⟨row, hposition ▸ hrow, hstate⟩
  · rintro ⟨row, hrow, hstate⟩
    obtain ⟨hposition, step', hstep', hkey⟩ := hv.planned position row hrow
    obtain rfl : step' = step := Option.some.inj (hstep'.symm.trans hstep)
    exact ⟨row, ⟨⟨position, hrow⟩, hstate⟩, hposition, hkey⟩

/-- Where the loop has gone through the whole plan, the registry write is owed nothing more. -/
theorem LoopDone.owed {outputs : Outputs} {keys : List String} {w' : World}
    (hfound : Recorded plan answers answer (found.view id)) (hstart : AtStart id found w)
    (h : LoopDone id answers answer (keysApplied (found.view id).steps.values) plan.positioned
      (recordedOutputs (found.view id).steps.values) w (.ok (outputs, keys)) w') :
    Owed plan answers answer (found.view id) (.commit id plan.kind outputs) (w'.view id) := by
  obtain ⟨hrunning, hgathered, happlied, hsame⟩ := h outputs keys rfl
  refine ⟨hrunning, hgathered, fun position hrecorded ↦ ?_, fun position hlt hnot ↦ ?_⟩
  · rw [← hstart.deeds position]
    refine hsame position fun entry hentry hposition ↦ ?_
    rw [mem_keysApplied_iff hfound (Plan.mem_positioned_iff.mp hentry), hposition]
    exact hrecorded
  · have hentry : (plan.steps[position], position) ∈ plan.positioned :=
      Plan.mem_positioned_iff.mpr (List.getElem?_eq_getElem hlt)
    refine happlied _ hentry fun hdone ↦ hnot ?_
    exact (mem_keysApplied_iff hfound (Plan.mem_positioned_iff.mp hentry)).mp hdone

theorem nodup_positions : (plan.positioned.map Prod.snd).Nodup := by
  rw [Plan.positioned, List.zipIdx_map_snd]
  exact List.nodup_range'

/-- The loop over the whole plan, from a view whose rows are as they were found. -/
theorem safe_applyPlan (process : Process) (failing : ℕ × String → Error → Run Unit)
    (hfailing : ∀ position step why w', plan.steps[position]? = some step → Running id w' →
      SafePass id plan answers answer found process Whatever
        (failing (position, step.key) why).run w')
    (hfound : Recorded plan answers answer (found.view id)) (hstart : AtStart id found w) :
    SafePass id plan answers answer found process
      (LoopDone id answers answer (keysApplied (found.view id).steps.values) plan.positioned
        (recordedOutputs (found.view id).steps.values) w)
      (applySteps id plan.kind (keysApplied (found.view id).steps.values) failing plan.positioned
        (recordedOutputs (found.view id).steps.values) []).run w := by
  refine safe_applySteps hfailing (fun entry ↦ Plan.mem_positioned_iff.mp) nodup_positions ?_
    hstart.running
  intro entry hentry hnot hrecorded
  rw [RecordedApplied, hstart.steps] at hrecorded
  exact hnot ((mem_keysApplied_iff hfound (Plan.mem_positioned_iff.mp hentry)).mpr hrecorded)

/-! ### The functions a process calls -/

theorem safe_record {Q : Except Error (Except String (Option Reference)) → World → Prop}
    (hQ : ∀ recorded, Q (.ok recorded) w) :
    SafePass id plan answers answer found process Q (record plan id).run w := by
  unfold record
  split
  · exact safe_done_since fun _ ↦ hQ _
  · refine safe_perform_since fun _ ↦ ⟨fun _ ↦ trivial, fun taken _ ↦ ?_⟩
    rcases taken with why | (_ | _)
    · exact safe_done_since fun _ ↦ hQ _
    · exact safe_done_since fun _ ↦ hQ _
    · exact safe_done_since fun _ ↦ hQ _

theorem safe_failedRun {position : ℕ} {step : Step} {why : Error}
    (hstep : plan.steps[position]? = some step) (hrunning : Running id w) :
    SafePass id plan answers answer found process Whatever
      (failedRun id plan (position, step.key) why).run w := by
  unfold failedRun
  split
  · exact safe_keep hstep hrunning
  · exact safe_undoApplied hrunning

/-- What a pass does once its loop has ended: write the registry rows, and then nothing that is
owed, or, where the write fails, what `failed` does. -/
theorem safe_ending {outputs : Outputs} {f : Except Error Output → Run β}
    (howed : Owed plan answers answer (found.view id) (.commit id plan.kind outputs) (w.view id))
    (hok : ∀ output w',
      SafePass id plan answers answer found process Whatever (f (.ok output)).run w')
    (herror : ∀ why, SafePass id plan answers answer found process Whatever (f (.error why)).run w) :
    SafePass id plan answers answer found process Whatever
      ((commit id plan outputs).outcome >>= f).run w :=
  safe_outcome_bind (safe_commit howed hok herror)

theorem safe_run (hfound : Recorded plan answers answer (found.view id))
    (hrow : (found.view id).row = none) :
    SafePass id plan answers answer found process Whatever (run id plan).run found := by
  obtain ⟨hsteps, _⟩ := hfound.untouched hrow
  refine safe_perform_since fun _ ↦ ⟨fun _ ↦ hrow, fun started _ ↦ ?_⟩
  have hview : (machine.perform process (.start id plan) started found).2.view id = _ :=
    view_start plan started
  generalize (machine.perform process (.start id plan) started found).2 = w₁ at hview
  have hstart : AtStart id found w₁ := by
    refine ⟨by simp [Running, hview, View.state, Journal.opened], by rw [hview]; rfl, ?_⟩
    intro position
    rw [hview, View.note_log, lastDeed_of_deedAt rfl]
  refine safe_attempt_bind (safe_record fun recorded ↦ ?_)
  cases recorded with
  | error why => exact safe_then (safe_close (by simp)) fun _ _ ↦ safe_end
  | ok recorded =>
    have hloop := safe_applyPlan process (failedRun id plan)
      (fun _ _ _ _ hstep hrunning ↦ safe_failedRun hstep hrunning) hfound hstart
    have hnone : (found.view id).steps.values = [] := by rw [hsteps]; rfl
    rw [hnone] at hloop
    refine safe_attempt_bind (hloop.mono fun result w₂ hdone ↦ ?_)
    cases result with
    | error error => exact safe_end
    | ok result =>
      refine safe_ending (LoopDone.owed hfound hstart (hnone ▸ hdone)) (fun _ _ ↦ safe_end) ?_
      intro why
      refine safe_then (safe_undoApplied (hdone _ _ rfl).1) fun _ _ ↦ safe_end

theorem safe_resume (hfound : Recorded plan answers answer (found.view id))
    (hstart : AtStart id found w) :
    SafePass id plan answers answer found process Whatever (resume id plan).run w := by
  refine safe_perform_since fun _ ↦ ⟨fun _ ↦ trivial, fun _ _ ↦ ?_⟩
  refine safe_perform_since fun _ ↦ ⟨fun _ ↦ trivial, fun _ _ ↦ ?_⟩
  have hloop := safe_applyPlan process (fun _ _ ↦ pure ())
    (fun _ _ _ _ _ _ ↦ safe_end) hfound hstart
  rw [← hstart.steps] at hloop
  refine safe_attempt_bind (hloop.mono fun result w₂ hdone ↦ ?_)
  cases result with
  | error error => exact safe_end
  | ok result =>
    have howed := LoopDone.owed hfound hstart (hstart.steps ▸ hdone)
    exact safe_attempt_bind (safe_commit howed (fun _ _ ↦ safe_end) fun _ ↦ safe_end)

theorem safe_retry (hfound : Recorded plan answers answer (found.view id)) :
    SafePass id plan answers answer found process Whatever (retry id plan).run found := by
  have hreopen : SafePass id plan answers answer found process
      (fun result w ↦ result = .ok () → AtStart id found w) (reopen id plan.kind).run found := by
    refine safe_perform_since fun _ ↦ ⟨fun _ ↦ trivial, fun choice _ ↦ ?_⟩
    by_cases hfailed : (found.view id).state = some .failed
    · obtain ⟨hanswer, hview⟩ := perform_reopen_failed process choice hfailed
      rw [show (machine.perform process (.reopen id) choice found).1 = true from hanswer]
      refine safe_done_since fun _ _ ↦ ⟨?_, ?_, fun position ↦ ?_⟩
      · exact (congrArg View.state hview).trans (by simp [View.move_state, hfailed])
      · exact (congrArg View.steps hview).trans rfl
      · exact (congrArg (fun v ↦ lastDeed v.log position) hview).trans (lastDeed_of_deedAt rfl)
    · rw [show machine.perform process (.reopen id) choice found = (false, found) from
        perform_reopen_other choice hfailed]
      exact safe_done_since fun _ h ↦ by cases h
  refine safe_attempt_bind (hreopen.mono fun result w hstart ↦ ?_)
  cases result with
  | error error => exact safe_end
  | ok _ =>
    have hstart := hstart rfl
    refine safe_perform_since fun _ ↦ ⟨fun _ ↦ trivial, fun _ _ ↦ ?_⟩
    refine safe_perform_since fun _ ↦ ⟨fun _ ↦ trivial, fun _ _ ↦ ?_⟩
    have hloop := safe_applyPlan process (keep id)
      (fun _ _ _ _ hstep hrunning ↦ safe_keep hstep hrunning) hfound hstart
    rw [← hstart.steps] at hloop
    refine safe_attempt_bind (hloop.mono fun result w₂ hdone ↦ ?_)
    cases result with
    | error error => exact safe_end
    | ok result =>
      have howed := LoopDone.owed hfound hstart (hstart.steps ▸ hdone)
      exact safe_attempt_bind (safe_commit howed (fun _ _ ↦ safe_end) fun _ ↦ safe_end)

/-! ### Resolving -/

theorem safe_takeOver {record : Operation} {rebuilders : List String} (hid : record.id = id)
    (hfound : Recorded plan answers answer (found.view id)) (hstart : AtStart id found w) :
    SafePass id plan answers answer found process Whatever (takeOver record rebuilders).run w := by
  subst hid
  refine safe_perform_since fun _ ↦ ⟨fun _ ↦ hstart.running, fun choice hchoice ↦ ?_⟩
  simp only [machine, perform]
  split
  · cases choice with
    | error why => exact safe_end
    | ok plan' =>
      obtain rfl : plan' = plan := hchoice rfl plan' rfl
      cases record.recovery with
      | rollBack => exact safe_rollBack hstart.running
      | resume => exact safe_resume hfound hstart
  · exact safe_end

theorem safe_actOn {record : Operation} {here : Owner} {rebuilders : List String}
    (hid : record.id = id) (hfound : Recorded plan answers answer (found.view id))
    (hstart : AtStart id found w) :
    SafePass id plan answers answer found process Whatever
      (actOn here rebuilders record).run w := by
  subst hid
  have hstate : SafePass record.id plan answers answer found process
      (fun _ w ↦ AtStart record.id found w) (record.owner.stateFor here record.id).run w := by
    unfold Owner.stateFor
    split
    · exact safe_done_since fun _ ↦ hstart
    · split
      · exact safe_done_since fun _ ↦ hstart
      · refine safe_perform_since fun _ ↦ ⟨fun _ ↦ hstart.running, fun choice _ ↦ ?_⟩
        simp only [machine, perform]
        split
        · exact safe_done_since fun _ ↦ hstart
        · refine safe_done_since fun _ ↦ ⟨?_, ?_, fun position ↦ ?_⟩
          · simpa [Running] using hstart.running
          · simpa using hstart.steps
          · rw [view_note_self, View.note_log, lastDeed_of_deedAt rfl, hstart.deeds]
  refine safe_attempt_bind (hstate.mono fun liveness w' hstart' ↦ ?_)
  cases liveness with
  | error error => exact safe_end
  | ok liveness =>
    cases liveness with
    | running => exact safe_end
    | elsewhere => exact safe_end
    | gone => exact safe_takeOver rfl hfound hstart'

/-- What is done about other operations leaves this one as it was. -/
theorem safe_elsewhere {other : OperationId} {Q : β → World → Prop}
    {p : Program Effect Effect.Answer β} (huses : p.Uses (About other)) (hother : other ≠ id)
    (hQ : ∀ value w', w'.view id = w.view id → Q value w') :
    SafePass id plan answers answer found process Q p w := by
  have hne : ∀ effect, About other effect → effect.about ≠ some id := fun effect habout heq ↦
    hother (Option.some.inj (habout.symm.trans heq))
  refine safe_of_uses (F := fun w' ↦ w'.view id = w.view id) huses rfl ?_ ?_ ?_ ?_
  · rintro s t rfl _ hs
    exact hs
  · exact fun effect t habout _ _ hself ↦ absurd hself (hne effect habout)
  · intro effect choice t habout _ _ ht
    exact (view_perform_of_ne (hne effect habout) choice).trans ht
  · exact fun value t _ ht ↦ hQ value t ht

theorem safe_resolveEach {here : Owner} {rebuilders : List String} {rest : List Operation}
    {resolutions : List Resolution} (hfound : Recorded plan answers answer (found.view id))
    (hids : (rest.map Operation.id).Nodup)
    (hrest : ∀ record ∈ rest, record.id = id → AtStart id found w) :
    SafePass id plan answers answer found process Whatever
      (resolveEach here rebuilders rest resolutions).run w := by
  induction rest generalizing resolutions w with
  | nil => exact safe_end
  | cons record rest ih =>
    obtain ⟨hnotin, hids⟩ := List.nodup_cons.mp hids
    obtain ⟨hrecord, hrest⟩ := List.forall_mem_cons.mp hrest
    by_cases hid : record.id = id
    · refine safe_attempt_bind ((safe_actOn hid hfound (hrecord hid)).mono fun action w' _ ↦ ?_)
      cases action with
      | error error => exact safe_end
      | ok action =>
        refine ih hids fun other hother hother' ↦ absurd (List.mem_map.mpr ⟨other, hother, ?_⟩) hnotin
        rw [hother', hid]
    · refine safe_attempt_bind (safe_elsewhere actOn_uses hid fun action w' hview ↦ ?_)
      cases action with
      | error error => exact safe_end
      | ok action =>
        refine ih hids fun other hother hother' ↦ ?_
        obtain ⟨hrunning, hsteps, hdeeds⟩ := hrest other hother hother'
        exact ⟨by rwa [Running, hview], by rw [hview, hsteps], by rwa [hview]⟩

theorem safe_resolve {here : Owner} {rebuilders : List String}
    (hfound : Recorded plan answers answer (found.view id)) :
    SafePass id plan answers answer found process Whatever
      (resolve here rebuilders).run found := by
  refine safe_perform_since fun _ ↦ ⟨fun habout ↦ (by cases habout), fun _ _ ↦ ?_⟩
  refine safe_resolveEach hfound (found.journal.unfinished_ordered.imp fun hlt ↦ hlt.ne) ?_
  rintro record hrecord rfl
  obtain ⟨hrow, hstate⟩ := Journal.mem_unfinished_iff.mp hrecord
  exact ⟨Option.map_eq_some_iff.mpr ⟨record, hrow, hstate⟩, rfl, fun _ ↦ rfl⟩

end Rules

/-! ### The machine -/

section Machine

variable {id : OperationId} {plan : Plan} {answers : ℕ → Output → Prop} {answer : ℕ → Output}

/-- A step of a history of sessions that keeps to the plan of one operation. -/
def InOrder (id : OperationId) (plan : Plan) (answers : ℕ → Output → Prop) (c : Stage)
    (label : Happening) : Prop :=
  Alone c label ∧ Follows id plan answers label

theorem safe_called {process : Process} {job : Job} {found : World}
    (hfollows : Follows id plan answers (.enter process job))
    (hfound : Recorded plan answers answer (found.view id))
    (hrun : ∀ plan', job = .run id plan' → (found.view id).row = none) :
    SafePass id plan answers answer found process Whatever (called process job).run found := by
  cases job with
  | run other plan' =>
    by_cases hother : other = id
    · subst hother
      obtain rfl : plan' = plan := hfollows rfl
      exact safe_then (safe_run hfound (hrun plan' rfl)) fun _ _ ↦ safe_end
    · refine safe_elsewhere (uses_bind run_uses fun _ ↦ ?_) hother fun _ _ _ ↦ trivial
      exact Program.uses_done _ _
  | retry other plan' =>
    by_cases hother : other = id
    · subst hother
      obtain rfl : plan' = plan := hfollows rfl
      exact safe_then (safe_retry hfound) fun _ _ ↦ safe_end
    · refine safe_elsewhere (uses_bind retry_uses fun _ ↦ ?_) hother fun _ _ _ ↦ trivial
      exact Program.uses_done _ _
  | resolve rebuilders => exact safe_then (safe_resolve hfound) fun _ _ ↦ safe_end

/-- Every pass of a history of sessions pays what it owes. -/
theorem passSound : SessionSound machine (passContract id plan answers answer)
    (fun w ↦ Recorded plan answers answer (w.view id)) (fun _ _ ↦ Whatever)
    (InOrder id plan answers) where
  alone h := h.1
  assume h effect := h.2.kept effect
  act {start s process effect choice} hinv hpre hchoice := by
    change InPass plan answers answer (start.view id) ((perform process effect choice s).2.view id)
    by_cases habout : About id effect
    · exact InPass.perform hinv habout (hpre habout)
    · rw [view_perform_of_ne habout]
      exact hinv
  enter {c process job world} hP hrecorded hworld := by
    have hview : world.view id = c.world.view id := view_arrive hworld
    have hfound : Recorded plan answers answer (world.view id) := hview ▸ hrecorded
    refine ⟨⟨hfound, hfound, fun hnot h ↦ absurd h hnot⟩, safe_called hP.2 hfound ?_⟩
    rintro plan' rfl
    have harrive : arrive process (.run id plan') c.world = some world := hworld
    rw [hview]
    exact row_of_arrive_run harrive
  leave hinv := hinv.recorded

/-- A point of a history of sessions: the operation is recorded, and who is alive is in its pass. -/
abbrev Passing (id : OperationId) (plan : Plan) (answers : ℕ → Output → Prop)
    (answer : ℕ → Output) (c : Stage) : Prop :=
  Orderly machine (passContract id plan answers answer)
    (fun w ↦ Recorded plan answers answer (w.view id)) (fun _ _ ↦ Whatever) c

/-- Nothing was ever done about an operation. -/
def Untouched (id : OperationId) (w : World) : Prop := w.view id = ⟨none, ∅, []⟩

theorem untouched_beginning : Untouched id beginning.world := rfl

theorem Untouched.recorded (answer : ℕ → Output) {w : World} (h : Untouched id w) :
    Recorded plan answers answer (w.view id) := by
  have hnone : ∀ position, (w.view id).steps.get? position = none := fun position ↦ by
    rw [h]
    rfl
  have hsome : ∀ {position row}, (w.view id).steps.get? position ≠ some row :=
    fun {position row} hrow ↦ by rw [hnone] at hrow; cases hrow
  refine ⟨fun _ ↦ by rw [h]; exact ⟨rfl, rfl⟩, fun _ _ hrow ↦ absurd hrow hsome,
    fun _ _ hrow ↦ absurd hrow hsome, fun _ _ _ hrow ↦ absurd hrow hsome, fun _ position _ ↦ ?_,
    fun _ ⟨_, hrow, _⟩ ↦ absurd hrow hsome⟩
  constructor
  · rintro ⟨row, hrow, _⟩
    exact absurd hrow hsome
  · rintro ⟨process, step, hmem, _⟩
    rw [h] at hmem
    cases hmem

theorem passing_of_idle (answer : ℕ → Output) {c : Stage} (hidle : Idle c)
    (huntouched : Untouched id c.world) : Passing id plan answers answer c :=
  .inl ⟨hidle, huntouched.recorded answer⟩

/-- What a history of sessions leaves for its last session, which is still going on: the operation
was recorded when it entered, and it is in its pass. Assumes: nobody was alive and nothing was done
about the operation when the history began. -/
theorem last_session (answer : ℕ → Output) {c₀ c₁ c₂ : Stage} {process : Process} {job : Job}
    {before after : List Happening} (hidle : Idle c₀) (huntouched : Untouched id c₀.world)
    (halong : machine.Along (InOrder id plan answers) c₀ (before ++ .enter process job :: after))
    (hacts : ∀ label ∈ after, ∃ choice, label = .act process choice)
    (hbefore : machine.exec c₀ before = some c₁)
    (hexec : machine.exec c₀ (before ++ .enter process job :: after) = some c₂) :
    ∃ found, found.view id = c₁.world.view id ∧
      Inside machine (passContract id plan answers answer) (fun _ _ ↦ Whatever) found process c₂ := by
  obtain ⟨_, found, hfound, hinside⟩ := passSound.reaches
    (passing_of_idle answer hidle huntouched) halong hacts hbefore hexec
  exact ⟨found, view_arrive hfound, hinside⟩

end Machine

end Nodal.Lifecycle
